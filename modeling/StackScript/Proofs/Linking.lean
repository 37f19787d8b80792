import StackScript.Proofs.Loading
import StackScript.Proofs.Parsed

namespace StackScript

theorem Ty.bare_printer (type : Ty) : Bare type.printer := by
  unfold Bare
  cases type <;> decide

structure Instr.Sound (signature? : String → Option (Nat × Nat)) (locals : List String)
    (labels : Nat) (is : List Instr) : Prop where
  spelled : SpelledAll is
  fits : FitsAll signature? locals labels is

section Code

variable {signature? : String → Option (Nat × Nat)} {locals : List String} {labels : Nat}

namespace Instr

theorem sound_nil : Sound signature? locals labels [] := ⟨trivial, trivial⟩

theorem sound_one {i : Instr} (hs : i.Spelled) (hf : i.Fits signature? locals labels) :
    Sound signature? locals labels [i] := ⟨⟨hs, trivial⟩, ⟨hf, trivial⟩⟩

theorem Sound.append {a b : List Instr} (ha : Sound signature? locals labels a)
    (hb : Sound signature? locals labels b) : Sound signature? locals labels (a ++ b) :=
  ⟨spelledAll_append.mpr ⟨ha.spelled, hb.spelled⟩, fitsAll_append.mpr ⟨ha.fits, hb.fits⟩⟩

theorem Sound.block {body : List Instr} (h : Sound signature? locals (labels + 1) body) :
    Sound signature? locals labels [.block body] := sound_one h.spelled h.fits

theorem Sound.loop {body : List Instr} (h : Sound signature? locals (labels + 1) body) :
    Sound signature? locals labels [.loop body] := sound_one h.spelled h.fits

end Instr

open Instr

theorem UnaryOp.sound (op : UnaryOp) : Sound signature? locals labels op.instrs := by
  cases op <;> exact ⟨by simp [UnaryOp.instrs, SpelledAll, Spelled],
    by simp [UnaryOp.instrs, FitsAll, Fits]⟩

theorem brIf_sound {n : Nat} (h : n < labels) (hn : n ≤ 4294967295) :
    Sound signature? locals labels [.brIf n] := sound_one trivial ⟨h, hn⟩

theorem br_sound {n : Nat} (h : n < labels) (hn : n ≤ 4294967295) :
    Sound signature? locals labels [.br n] := sound_one trivial ⟨h, hn⟩

def Context.ownNames (c : Context) : List String := c.locals.getD []

theorem Context.mem_ownNames {c : Context} {name : String} (h : c.isLocal name = true) :
    name ∈ c.ownNames := by
  unfold Context.isLocal at h
  unfold Context.ownNames
  cases hl : c.locals with
  | none => simp [hl] at h
  | some names => simpa [hl] using h

/-- The functions that code calls are there: those of the program with their arguments and one
result, those of the host that print with one argument and none. -/
structure Callable (arity : String → Option Nat) (signature? : String → Option (Nat × Nat)) :
    Prop where
  function : ∀ {name : String} {k : Nat}, arity name = some k → signature? name = some (k, 1)
  printer : ∀ type : Ty, signature? type.printer = some (1, 0)

variable {arity : String → Option Nat} {c : Context}

theorem addressInstr_sound {name : String} (h : Bare name) :
    Sound signature? locals labels [c.addressInstr name] := sound_one h trivial

mutual

/-- The code of an expression whose calls fit can be written and loaded. -/
theorem Expr.instrs_sound (hc : Callable arity signature?) (e : Expr) (hn : e.Named Bare)
    (he : e.CallsFit arity) : Sound signature? c.ownNames labels (e.instrs c) := by
  match e with
  | .noneLit _ | .boolLit .. | .intLit .. => exact sound_one trivial trivial
  | .var _ name =>
    rw [Expr.instrs]
    split
    · rename_i hl
      exact sound_one hn (Context.mem_ownNames hl)
    · exact (addressInstr_sound hn).append (sound_one trivial trivial)
  | .unary _ op operand =>
    exact (operand.instrs_sound hc hn he).append op.sound
  | .binary _ op left right =>
    exact ((left.instrs_sound hc hn.1 he.1).append (right.instrs_sound hc hn.2 he.2)).append
      (sound_one trivial trivial)
  | .call _ callee args =>
    exact (Expr.instrsAll_sound hc args hn.2 he.2).append (sound_one hn.1 (hc.function he.1))
  | .print _ arg =>
    exact (arg.instrs_sound hc hn he).append (sound_one (Ty.bare_printer _) (hc.printer _))

theorem Expr.instrsAll_sound (hc : Callable arity signature?) (es : List Expr)
    (hn : Expr.NamedAll Bare es) (he : Expr.CallsFitAll arity es) :
    Sound signature? c.ownNames labels (Expr.instrsAll c es) := by
  match es with
  | [] => exact sound_nil
  | e :: es => exact (e.instrs_sound hc hn.1 he.1).append (Expr.instrsAll_sound hc es hn.2 he.2)

end

/-- A store is to a variable of the function around or to an address, and both can be written. -/
theorem Context.storeInstrs_sound {name : String} {value : List Instr} (hn : Bare name)
    (hv : Sound signature? c.ownNames labels value) :
    Sound signature? c.ownNames labels (c.storeInstrs name value) := by
  unfold Context.storeInstrs
  split
  · rename_i hl
    exact hv.append (sound_one hn (Context.mem_ownNames hl))
  · exact ((addressInstr_sound hn).append hv).append (sound_one trivial trivial)

mutual

/-- The code of a statement can be written and loaded, inside of any labels. -/
theorem Stmt.instrs_sound (hc : Callable arity signature?) (s : Stmt) (hn : s.Named Bare)
    (hs : s.CallsFit arity) (labels : Nat) : Sound signature? c.ownNames labels (s.instrs c) := by
  match s with
  | .pass _ => exact sound_one trivial trivial
  | .init _ name _ value | .assign _ name value =>
    exact Context.storeInstrs_sound hn.1 (value.instrs_sound hc hn.2 hs)
  | .expr _ value =>
    refine (value.instrs_sound hc hn hs).append ?_
    split
    · exact sound_nil
    · exact sound_one trivial trivial
  | .ret _ value => exact (value.instrs_sound hc hn hs).append (sound_one trivial trivial)
  | .ifElse _ cond yes no =>
    obtain ⟨hcond, hyes, hno⟩ := hn
    obtain ⟨hcond', hyes', hno'⟩ := hs
    refine Sound.block (Sound.append (a := [_]) (Sound.block ?_)
      (Stmt.instrsAll_sound hc yes hyes hyes' _))
    exact (((cond.instrs_sound hc hcond hcond').append (brIf_sound (by omega) (by omega))).append
      (Stmt.instrsAll_sound hc no hno hno' _)).append (br_sound (by omega) (by omega))
  | .ifElif _ cond yes other yes' no =>
    obtain ⟨hcond, hyes, hother, hyesn', hno⟩ := hn
    obtain ⟨hcond', hyes', hother', hyess', hno'⟩ := hs
    refine Sound.block (Sound.append (a := [_]) (Sound.block (Sound.append (a := [_])
      (Sound.block ?_) ((Stmt.instrsAll_sound hc yes hyes hyes' _).append
        (br_sound (by omega) (by omega))))) (Stmt.instrsAll_sound hc yes' hyesn' hyess' _))
    exact (((((cond.instrs_sound hc hcond hcond').append (brIf_sound (by omega) (by omega))).append
      (other.instrs_sound hc hother hother')).append (brIf_sound (by omega) (by omega))).append
      (Stmt.instrsAll_sound hc no hno hno' _)).append (br_sound (by omega) (by omega))
  | .whileDo _ cond body =>
    have hcond (labels : Nat) : Sound signature? c.ownNames labels (cond.instrs c) :=
      cond.instrs_sound hc hn.1 hs.1
    refine Sound.block ((((hcond _).append (UnaryOp.sound _)).append
      (brIf_sound (by omega) (by omega))).append (Sound.loop ?_))
    exact (((Stmt.instrsAll_sound hc body hn.2 hs.2 _).append (hcond _)).append
      (brIf_sound (by omega) (by omega))).append (br_sound (by omega) (by omega))
  | .define .. => exact sound_nil

theorem Stmt.instrsAll_sound (hc : Callable arity signature?) (ss : List Stmt)
    (hn : Stmt.NamedAll Bare ss) (hs : Stmt.CallsFitAll arity ss) (labels : Nat) :
    Sound signature? c.ownNames labels (Stmt.instrsAll c ss) := by
  match ss with
  | [] => exact sound_nil
  | s :: ss =>
    exact (s.instrs_sound hc hn.1 hs.1 labels).append (Stmt.instrsAll_sound hc ss hn.2 hs.2 labels)

end

/-- The top level of a unit can be written and loaded. -/
theorem Stmt.topInstrs_sound (hc : Callable arity signature?) {ss : List Stmt}
    (hn : Stmt.NamedAll Bare ss) (hs : Stmt.CallsFitAll arity ss) :
    Sound signature? c.ownNames labels (Stmt.topInstrs c ss) := by
  fun_induction Stmt.topInstrs c ss with
  | case1 => exact sound_nil
  | case2 span value =>
    refine (value.instrs_sound hc hn.1 hs.1).append ?_
    unfold Stmt.fillerInstrs
    split
    · exact sound_one trivial trivial
    · exact sound_nil
  | case3 s ss hne ih => exact (s.instrs_sound hc hn.1 hs.1 labels).append (ih hn.2 hs.2)

end Code

structure Definition where
  context : Context
  name : String
  params : List Param
  result : Ty
  body : List Stmt

namespace Definition

def inner (d : Definition) : Context := d.context.inside d.params d.body

def code (d : Definition) : FunctionCode := .plain d.context d.name d.params d.body

def routine (d : Definition) : Routine Page := ⟨d.inner.site, d.params, d.result, d.body⟩

/-- A function that can be written, loaded and run if calls take as many arguments as `arity`
says. -/
structure Sound (arity : String → Option Nat) (d : Definition) : Prop where
  name : Bare d.name
  params : ∀ p ∈ d.params, Bare p.name
  body : Stmt.NamedAll Bare d.body
  placed : Stmt.PlacedAll d.inner d.body
  calls : Stmt.CallsFitAll arity d.body
  fits : d.context.layout.Fits

/-- A function that can be written and loaded, wherever its variables lie. -/
structure Written (arity : String → Option Nat) (d : Definition) : Prop where
  name : Bare d.name
  params : ∀ p ∈ d.params, Bare p.name
  body : Stmt.NamedAll Bare d.body
  calls : Stmt.CallsFitAll arity d.body

theorem bare_locals {ss : List Stmt} (h : Stmt.NamedAll Bare ss) :
    ∀ l ∈ FunctionCode.localsOf ss, Bare l.1 := by
  fun_induction FunctionCode.localsOf ss with
  | case1 => simp
  | case2 span name type value stmts ih =>
    intro l hl
    rcases List.mem_cons.mp hl with rfl | hl
    · exact h.1.1
    · exact ih h.2 l hl
  | case3 s stmts hs ih => exact ih h.2

variable {arity : String → Option Nat} {signature? : String → Option (Nat × Nat)} {d : Definition}

theorem Sound.written (h : d.Sound arity) : d.Written arity := ⟨h.name, h.params, h.body, h.calls⟩

/-- The code of a function refers to its own variables and to functions that are there. -/
theorem Written.code_sound (h : d.Written arity) (hc : Callable arity signature?) :
    Instr.Sound signature? (d.code.params ++ d.code.locals) 1 d.code.body := by
  have hbody : Instr.Sound signature? d.inner.ownNames 1 (Stmt.instrsAll d.inner d.body) :=
    Stmt.instrsAll_sound hc d.body h.body h.calls 1
  have hzero : Instr.Sound signature? d.inner.ownNames 1 [.const 0] :=
    Instr.sound_one trivial trivial
  exact hbody.append hzero

theorem Written.spelled (h : d.Written arity) (hc : Callable arity signature?) :
    d.code.Spelled := by
  refine ⟨h.name, ?_, ?_, (h.code_sound hc).spelled⟩
  · intro p hp
    obtain ⟨param, hm, rfl⟩ := List.mem_map.mp hp
    exact h.params param hm
  · intro l hl
    obtain ⟨entry, hm, rfl⟩ := List.mem_map.mp hl
    exact bare_locals h.body entry hm

end Definition

/-- The functions that can be called, in the order of their definitions. -/
abbrev Library := List Definition

namespace Library

def find? (lib : Library) (name : String) : Option Definition :=
  List.find? (fun d => d.name == name) lib

def routine? (lib : Library) (name : String) : Option (Routine Page) :=
  (lib.find? name).map Definition.routine

def arity (lib : Library) (name : String) : Option Nat :=
  (lib.find? name).map fun d => d.params.length

def codes (lib : Library) : List FunctionCode := lib.map Definition.code

def texts (lib : Library) : List String := lib.codes.map FunctionCode.render

def module (lib : Library) (entry : Function) : Module :=
  ⟨Module.functionsOf lib.codes entry, some ⟨"js", "memory", 1⟩⟩

structure Sound (lib : Library) : Prop where
  names : (hostNames ++ lib.map (·.name)).Nodup
  each : ∀ d ∈ lib, d.Sound lib.arity

structure Written (lib : Library) : Prop where
  names : (hostNames ++ lib.map (·.name)).Nodup
  each : ∀ d ∈ lib, d.Written lib.arity

variable {lib : Library} {entry : Function}

theorem Sound.written (h : lib.Sound) : lib.Written :=
  ⟨h.names, fun d hd => (h.each d hd).written⟩

theorem find?_some {name : String} {d : Definition} (h : lib.find? name = some d) :
    d ∈ lib ∧ d.name = name :=
  ⟨List.mem_of_find?_eq_some h, by simpa using List.find?_some h⟩

theorem names_codes (lib : Library) : lib.codes.map (·.name) = lib.map (·.name) := by
  simp [codes, Function.comp_def, Definition.code, FunctionCode.plain]

/-- A function of a library is found in its module by its name. -/
theorem Written.function? (h : lib.Written) {d : Definition} (hd : d ∈ lib) :
    (lib.module entry).function? d.name = some d.code.function := by
  have hnames : (hostNames ++ lib.codes.map (·.name)).Nodup := by
    rw [names_codes]
    exact h.names
  exact Module.function?_functionsOf hnames (List.mem_map_of_mem hd)

/-- The module of a library offers what the code of its functions calls, the printing functions of
the host included. -/
theorem Written.callable (h : lib.Written) :
    Callable lib.arity (Module.signatureIn (lib.module entry).functions) := by
  constructor
  · intro name k hk
    obtain ⟨d, hd, rfl⟩ := Option.map_eq_some_iff.mp hk
    obtain ⟨hm, rfl⟩ := find?_some hd
    rw [Module.signatureIn_eq, h.function? hm]
    simp [FunctionCode.function, Definition.code, FunctionCode.plain]
  · intro type
    obtain ⟨field, hf, _⟩ :=
      Module.function?_printer lib.codes entry (some ⟨"js", "memory", 1⟩) type
    rw [Module.signatureIn_eq, module, hf]
    rfl

/-- What evaluation calls by name the machine finds in the module. -/
theorem Sound.linked (h : lib.Sound) : Linked (lib.module entry) lib.routine? lib.arity := by
  constructor
  · intro name k hk
    obtain ⟨d, hd, rfl⟩ := Option.map_eq_some_iff.mp hk
    obtain ⟨hm, rfl⟩ := find?_some hd
    have hs := h.each d hm
    refine ⟨d.routine, d.inner, by rw [routine?, hd]; rfl, rfl, ?_⟩
    exact ⟨rfl, rfl, hs.fits, hs.placed, hs.calls, h.written.function? hm⟩
  · intro type
    obtain ⟨field, hf, hr⟩ :=
      Module.function?_printer lib.codes entry (some ⟨"js", "memory", 1⟩) type
    exact ⟨_, "imports", field, hf, rfl, hr⟩

/-- The text of a unit on top of a library can be run. -/
theorem Written.prepare (h : lib.Written) {c : Context} (hlocals : c.locals = none) {ss : List Stmt}
    (hn : Stmt.NamedAll Bare ss) (hs : Stmt.CallsFitAll lib.arity ss) :
    Module.prepare (ModuleText.wrap lib.texts (Instr.renderAll 2 (Stmt.topInstrs c ss))
        (Program.endsInExpr ⟨ss⟩)) =
      .ok (lib.module (entryFunction c ss), entryFunction c ss) := by
  have hc : Callable lib.arity (Module.signatureIn (lib.module (entryFunction c ss)).functions) :=
    h.callable
  have hnames : (hostNames ++ lib.codes.map (·.name)).Nodup := by
    rw [names_codes]
    exact h.names
  have hmain : Instr.Sound (Module.signatureIn (lib.module (entryFunction c ss)).functions) [] 1
      (Stmt.topInstrs c ss) := by
    have hown : c.ownNames = [] := by rw [Context.ownNames, hlocals]; rfl
    rw [← hown]
    exact Stmt.topInstrs_sound hc hn hs
  refine Module.prepare_wrap _ ?_ hmain.spelled hnames ?_ hmain.fits
  · intro f hf
    obtain ⟨d, hd, rfl⟩ := List.mem_map.mp hf
    exact (h.each d hd).spelled hc
  · intro f hf
    obtain ⟨d, hd, rfl⟩ := List.mem_map.mp hf
    exact ((h.each d hd).code_sound hc).fits

/-- What the run of a unit asks of its statements, `arity` being what calls may take. -/
structure Runs (arity : String → Option Nat) (c : Context) (ss : List Stmt) : Prop where
  top : c.locals = none
  fits : c.layout.Fits
  named : Stmt.NamedAll Bare ss
  placed : Stmt.PlacedAll c ss
  calls : Stmt.CallsFitAll arity ss
  returns : Stmt.returnsAny ss = false

def unitText (lib : Library) (c : Context) (ss : List Stmt) : String :=
  ModuleText.wrap lib.texts (Instr.renderAll 2 (Stmt.topInstrs c ss)) (Program.endsInExpr ⟨ss⟩)

variable {c : Context} {ss : List Stmt}

/-- To execute the text of a unit is to run the entry of its module. -/
theorem Written.execute_eq (h : lib.Written) (hlocals : c.locals = none)
    (hn : Stmt.NamedAll Bare ss) (hs : Stmt.CallsFitAll lib.arity ss) (steps limit : Nat)
    (memory : Memory) (host : Host) :
    Machine.execute steps limit memory host (lib.unitText c ss) =
      match Machine.runEntry (lib.module (entryFunction c ss)) limit steps memory host
        (entryFunction c ss) with
      | .done o => .ended o
      | .running _ => .unfinished := by
  unfold Machine.execute unitText Machine.runEntry
  rw [h.prepare hlocals hn hs]
  dsimp only
  cases Machine.enter limit memory host (entryFunction c ss) <;> rfl

/-- The text of a unit loads, and its run ends exactly as its evaluation does. -/
theorem Sound.execute_iff_eval (h : lib.Sound) (hr : Runs lib.arity c ss) (limit : Nat)
    (w : World Page) (o : Machine.Outcome) :
    (∃ steps, Machine.execute steps limit w.store.memory w.host (lib.unitText c ss) = .ended o) ↔
      ∃ fuel r w', evalUnit .parity lib.routine? limit c.site fuel ss w = some (r, w') ∧
        o = outcomeOf r w' := by
  have hl : Linked (lib.module (entryFunction c ss)) lib.routine? lib.arity := h.linked
  rw [← hl.run_iff_eval hr.top hr.fits ss hr.placed hr.calls hr.returns w o]
  refine exists_congr fun steps => ?_
  rw [h.written.execute_eq hr.top hr.named hr.calls]
  cases Machine.runEntry (lib.module (entryFunction c ss)) limit steps w.store.memory w.host
    (entryFunction c ss) <;> simp

end Library

end StackScript
