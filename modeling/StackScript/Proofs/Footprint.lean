import StackScript.Proofs.Capacity
import StackScript.Proofs.Confinement
import StackScript.Proofs.Resolution

namespace StackScript

namespace Stmt

mutual

def targets : Stmt → List String
  | .init _ name _ _ | .assign _ name _ => [name]
  | .pass _ | .expr .. | .ret .. | .define .. => []
  | .ifElse _ _ yes no => targetsAll yes ++ targetsAll no
  | .ifElif _ _ yes _ yes' no => targetsAll yes ++ targetsAll yes' ++ targetsAll no
  | .whileDo _ _ body => targetsAll body

def targetsAll : List Stmt → List String
  | [] => []
  | stmt :: stmts => targets stmt ++ targetsAll stmts

end

theorem targetsAll_append (a b : List Stmt) :
    targetsAll (a ++ b) = targetsAll a ++ targetsAll b := by
  induction a with
  | nil => rfl
  | cons stmt a ih => simp [targetsAll, ih]

end Stmt

def Module.Prints (m : Module) : Prop :=
  ∀ (type : Ty) (f : Function), m.function? type.printer = some f → ∃ place, f.imported = some place

/-- Code may write the top-level variables among these names. -/
def Context.Allows (c : Context) (W : Word → Prop) (names : List String) : Prop :=
  ∀ name ∈ names, c.isLocal name = false → ∀ slot, c.layout.slots.get? name = some slot →
    W (Int32.ofNat (slot * Layout.slotSize))

section Code

variable {m : Module} {W : Word → Prop} {arity : String → Option Nat} {c : Context}
  {post : List Word → Prop} {vs : List Word}

open Instr

namespace Expr

mutual

/-- The code of a value leaves a word, whatever it is. -/
theorem confined (hm : m.Gives arity) (e : Expr) (hs : e.Silent) (hc : e.CallsFit arity)
    {post : List Word → Prop} {vs : List Word} (h : ∀ v, post (v :: vs)) :
    ConfinedAll m W (e.instrs c) post vs := by
  match e with
  | .noneLit _ | .boolLit .. | .intLit .. => exact h _
  | .var _ name =>
    cases hl : c.isLocal name <;> simp only [instrs, hl, ↓reduceIte, Bool.false_eq_true]
    · exact h
    · exact h
  | .unary _ op operand =>
    rw [instrs, confinedAll_append]
    refine confined hm operand hs hc fun v => ?_
    cases op with
    | neg => exact h
    | not => exact fun _ => h
  | .binary _ op left right =>
    obtain ⟨hsl, hsr⟩ := Nat.add_eq_zero_iff.mp hs
    rw [instrs, confinedAll_append, confinedAll_append]
    exact confined hm left hsl hc.1 fun _ => confined hm right hsr hc.2 fun _ => h
  | .call _ callee args =>
    rw [instrs, confinedAll_append]
    refine confinedValues hm args hs hc.2 fun rs hrs => ?_
    intro f hf
    obtain ⟨g, hg, himported, _⟩ := hm hc.1
    rw [hg] at hf
    cases hf
    rw [himported, List.drop_left' hrs]
    exact h
  | .print .. => exact absurd hs (by simp [Silent, prints])

theorem confinedValues (hm : m.Gives arity) (es : List Expr) (hs : printsAll es = 0)
    (hc : CallsFitAll arity es) {post : List Word → Prop} {vs : List Word}
    (h : ∀ rs, rs.length = es.length → post (rs ++ vs)) :
    ConfinedAll m W (instrsAll c es) post vs := by
  match es with
  | [] => exact h [] rfl
  | e :: es =>
    obtain ⟨hse, hses⟩ := Nat.add_eq_zero_iff.mp hs
    rw [instrsAll, confinedAll_append]
    refine confined hm e hse hc.1 fun v => confinedValues hm es hses hc.2 fun rs hrs => ?_
    have happend := h (rs ++ [v]) (by simp [hrs])
    rwa [List.append_assoc] at happend

end

/-- A print leaves the stack as it was. -/
theorem confined_print (hm : m.Gives arity) (hp : m.Prints) {span : Span} {arg : Expr}
    (hs : arg.Silent) (hc : arg.CallsFit arity) (h : post vs) :
    ConfinedAll m W ((Expr.print span arg).instrs c) post vs := by
  rw [instrs, confinedAll_append]
  refine confined hm arg hs hc fun v => ?_
  intro f hf
  obtain ⟨place, himported⟩ := hp _ f hf
  rw [himported]
  exact h

end Expr

/-- A store to the slot of a variable. What comes behind it counts only if the slot is in the page. -/
theorem Context.slot_confined (hm : m.Gives arity) {name : String} (hl : c.isLocal name = false)
    {slot : Nat} (hslot : c.layout.slots.get? name = some slot) {value : Expr} (hs : value.Silent)
    (hc : value.CallsFit arity) (hW : W (Int32.ofNat (slot * Layout.slotSize)))
    (h : Memory.InPage (Int32.ofNat (slot * Layout.slotSize)) → post []) :
    ConfinedAll m W (c.storeInstrs name (value.instrs c)) post [] := by
  have haddress : c.addressInstr name = .address (Int32.ofNat (slot * Layout.slotSize)) name := by
    simp [addressInstr, Layout.address?, hslot]
  simp only [storeInstrs, hl, Bool.false_eq_true, ↓reduceIte, haddress]
  rw [List.cons_append, ConfinedAll, Confined, confinedAll_append]
  exact value.confined hm hs hc fun _ => ⟨hW, h⟩

/-- A variable of the function around is not in memory. -/
theorem Context.local_confined (hm : m.Gives arity) {name : String} (hl : c.isLocal name = true)
    {value : Expr} (hs : value.Silent) (hc : value.CallsFit arity) (h : post []) :
    ConfinedAll m W (c.storeInstrs name (value.instrs c)) post [] := by
  simp only [storeInstrs, hl, ↓reduceIte]
  rw [confinedAll_append]
  exact value.confined hm hs hc fun _ => h

theorem Context.storeInstrs_confined (hm : m.Gives arity) {name : String} (hk : c.Knows name)
    {value : Expr} (hs : value.Silent) (hc : value.CallsFit arity) (hW : c.Allows W [name])
    (h : post []) : ConfinedAll m W (c.storeInstrs name (value.instrs c)) post [] := by
  cases hl : c.isLocal name with
  | true => exact local_confined hm hl hs hc h
  | false =>
    obtain ⟨slot, hslot⟩ := hk hl
    exact slot_confined hm hl hslot hs hc (hW name List.mem_cons_self hl slot hslot) fun _ => h

namespace Stmt

theorem confined_value (hm : m.Gives arity) (hp : m.Prints) {value : Expr} (he : value.Emitted c)
    (hc : value.CallsFit arity) (h : post []) :
    ConfinedAll m W (value.instrs c ++ if value.isPrint then [] else [.drop]) post [] := by
  rw [confinedAll_append]
  rcases he with hu | ⟨span, arg, rfl, hu⟩
  · rw [Expr.isPrint_of_silent hu.silent]
    exact value.confined hm hu.silent hc fun _ => h
  · exact Expr.confined_print hm hp hu.silent hc h

mutual

/-- A statement starts and ends on an empty stack and writes the variables that it sets. -/
theorem confined (hm : m.Gives arity) (hp : m.Prints) (stmt : Stmt) (hplaced : stmt.Placed c)
    (hc : stmt.CallsFit arity) (hW : c.Allows W stmt.targets) {post : List Word → Prop}
    (h : post []) : ConfinedAll m W (stmt.instrs c) post [] := by
  match stmt with
  | .pass _ => exact h
  | .define .. => exact h
  | .init .. | .assign .. =>
    exact Context.storeInstrs_confined hm hplaced.1 hplaced.2.silent hc hW h
  | .expr .. => exact confined_value hm hp hplaced hc h
  | .ret _ value =>
    rw [instrs, confinedAll_append]
    exact value.confined hm hplaced.silent hc fun _ => trivial
  | .ifElse _ cond yes no =>
    obtain ⟨hu, hyes, hno⟩ := hplaced
    obtain ⟨hcc, hcy, hcn⟩ := hc
    have hWyes : c.Allows W (targetsAll yes) := fun name hn =>
      hW name (List.mem_append_left _ hn)
    have hWno : c.Allows W (targetsAll no) := fun name hn =>
      hW name (List.mem_append_right _ hn)
    refine ⟨rfl, ⟨rfl, ?_, confinedStmts hm hp yes hyes hcy hWyes rfl⟩, h⟩
    rw [confinedAll_append, confinedAll_append, confinedAll_append]
    exact cond.confined hm hu.silent hcc fun _ => confinedStmts hm hp no hno hcn hWno trivial
  | .ifElif _ cond yes cond' yes' no =>
    obtain ⟨hu, hyes, hu', hyes', hno⟩ := hplaced
    obtain ⟨hcc, hcy, hcc', hcy', hcn⟩ := hc
    have hWyes : c.Allows W (targetsAll yes) := fun name hn =>
      hW name (List.mem_append_left _ (List.mem_append_left _ hn))
    have hWyes' : c.Allows W (targetsAll yes') := fun name hn =>
      hW name (List.mem_append_left _ (List.mem_append_right _ hn))
    have hWno : c.Allows W (targetsAll no) := fun name hn =>
      hW name (List.mem_append_right _ hn)
    refine ⟨rfl, ⟨rfl, ⟨rfl, ?_, ?_⟩, confinedStmts hm hp yes' hyes' hcy' hWyes' rfl⟩, h⟩
    · simp only [confinedAll_append]
      exact cond.confined hm hu.silent hcc fun _ => cond'.confined hm hu'.silent hcc' fun _ =>
        confinedStmts hm hp no hno hcn hWno trivial
    · change ConfinedAll m W (instrsAll c yes ++ [.br 1]) _ _
      rw [confinedAll_append]
      exact confinedStmts hm hp yes hyes hcy hWyes trivial
  | .whileDo _ cond body =>
    obtain ⟨hu, hbody⟩ := hplaced
    obtain ⟨hcc, hcb⟩ := hc
    refine ⟨rfl, ?_, h⟩
    simp only [confinedAll_append]
    refine cond.confined hm hu.silent hcc fun _ _ _ => ⟨rfl, ?_, rfl⟩
    simp only [confinedAll_append]
    exact confinedStmts hm hp body hbody hcb hW
      (cond.confined hm hu.silent hcc fun _ => trivial)

theorem confinedStmts (hm : m.Gives arity) (hp : m.Prints) (stmts : List Stmt)
    (hplaced : PlacedAll c stmts) (hc : CallsFitAll arity stmts)
    (hW : c.Allows W (targetsAll stmts)) {post : List Word → Prop} (h : post []) :
    ConfinedAll m W (instrsAll c stmts) post [] := by
  match stmts with
  | [] => exact h
  | stmt :: stmts =>
    rw [instrsAll, confinedAll_append]
    exact confined hm hp stmt hplaced.1 hc.1 (fun name hn => hW name (List.mem_append_left _ hn))
      (confinedStmts hm hp stmts hplaced.2 hc.2
        (fun name hn => hW name (List.mem_append_right _ hn)) h)

end

/-- The top level of a unit. A last value may stay. -/
theorem confinedTop (hm : m.Gives arity) (hp : m.Prints) (stmts : List Stmt)
    (hplaced : PlacedAll c stmts) (hc : CallsFitAll arity stmts)
    (hW : c.Allows W (targetsAll stmts)) :
    ConfinedAll m W (topInstrs c stmts) (fun _ => True) [] := by
  fun_induction topInstrs c stmts with
  | case1 => trivial
  | case2 span value =>
    rw [confinedAll_append]
    rcases hplaced.1 with hu | ⟨span, arg, rfl, hu⟩
    · rw [fillerInstrs, Expr.isPrint_of_silent hu.silent]
      exact value.confined hm hu.silent hc.1 fun _ => trivial
    · exact Expr.confined_print hm hp hu.silent hc.1 trivial
  | case3 stmt stmts _ ih =>
    rw [confinedAll_append]
    exact confined hm hp stmt hplaced.1 hc.1 (fun name hn => hW name (List.mem_append_left _ hn))
      (ih hplaced.2 hc.2 fun name hn => hW name (List.mem_append_right _ hn))

/-- Declarations take one slot after the other, so the first that is not in the page is the one right
behind it. -/
theorem Declares.confined (hm : m.Gives arity) (hl : c.locals = none) {s s' : Scopes}
    {head : List Stmt} (hd : Declares false s head s') (hplaced : PlacedAll c head)
    (hc : CallsFitAll arity head) {L : Layout} (hlayout : c.layout.slots = (L.extend head).slots)
    (hfit : L.next ≤ Page.slots)
    (hW : ∀ name ∈ targetsAll head, ∀ slot, slot ≤ Page.slots →
      c.layout.slots.get? name = some slot → W (Int32.ofNat (slot * Layout.slotSize)))
    (h : (L.extend head).next ≤ Page.slots → post []) :
    ConfinedAll m W (instrsAll c head) post [] := by
  induction hd generalizing L with
  | nil => exact h hfit
  | @init s s' span name type value head typed free kept rest ih =>
    have hown : c.isLocal name = false := by simp [Context.isLocal, hl]
    have hnext : (((L.add name).extend head).extend []).slots.get? name = some L.next :=
      rest.slot_next (by simp [FunctionCode.localsOf]) L
    have hslot : c.layout.slots.get? name = some L.next := by
      rw [hlayout]
      exact hnext
    rw [instrsAll, confinedAll_append]
    refine Context.slot_confined hm hown hslot hplaced.1.2.silent hc.1
      (hW name List.mem_cons_self L.next hfit hslot) fun hpage => ?_
    have hnext : L.next < Page.slots := Page.lt_slots ⟨.ofPages 1, rfl⟩ hfit hpage
    exact ih hplaced.2 hc.2 (L := L.add name) hlayout hnext
      (fun other ho => hW other (List.mem_cons_of_mem _ ho)) h
  | define _ _ _ _ ih => exact ih hplaced.2 hc.2 hlayout hfit hW h

end Stmt

end Code

section Targets

variable {s : Scopes} {result : Ty} {own : String → Bool}

mutual

/-- Inside of a function, a statement sets names of the function only. -/
theorem Stmt.own_of_target (hs : ∀ {name : String}, s.isLocal name = true → own name = true)
    (stmt : Stmt) {type : Ty} (ht : stmt.typeIn s (some result) = .ok type) {name : String}
    (hn : name ∈ stmt.targets) : own name = true := by
  match stmt with
  | .init .. => exact absurd ht typeIn_init
  | .assign _ other _ =>
    obtain ⟨_, _, _, hlocal⟩ := typeIn_assign ht
    obtain rfl := List.mem_singleton.mp hn
    exact hs (hlocal rfl)
  | .pass _ | .expr .. | .ret .. | .define .. => cases hn
  | .ifElse _ _ yes no =>
    obtain ⟨_, hyes, hno⟩ := typeIn_ifElse ht
    rcases List.mem_append.mp hn with hn | hn
    · exact Stmt.own_of_targetsAll hs yes hyes hn
    · exact Stmt.own_of_targetsAll hs no hno hn
  | .ifElif _ _ yes _ yes' no =>
    obtain ⟨_, hyes, _, hyes', hno⟩ := typeIn_ifElif ht
    rcases List.mem_append.mp hn with hn | hn
    · rcases List.mem_append.mp hn with hn | hn
      · exact Stmt.own_of_targetsAll hs yes hyes hn
      · exact Stmt.own_of_targetsAll hs yes' hyes' hn
    · exact Stmt.own_of_targetsAll hs no hno hn
  | .whileDo _ _ body => exact Stmt.own_of_targetsAll hs body (typeIn_whileDo ht).2 hn

theorem Stmt.own_of_targetsAll (hs : ∀ {name : String}, s.isLocal name = true → own name = true)
    (stmts : List Stmt) (ht : checkAll s (some result) stmts = .ok ()) {name : String}
    (hn : name ∈ targetsAll stmts) : own name = true := by
  match stmts with
  | [] => cases hn
  | stmt :: stmts =>
    obtain ⟨⟨_, hstmt⟩, hrest⟩ := checkAll_cons ht
    rcases List.mem_append.mp hn with hn | hn
    · exact Stmt.own_of_target hs stmt hstmt hn
    · exact Stmt.own_of_targetsAll hs stmts hrest hn

end

theorem Stmt.Declares.own_of_target {s₀ s s' : Scopes} {head rest : List Stmt}
    (hd : Declares true s head s') (hs : s₀.Inside own s)
    (hlocals : ∀ l ∈ FunctionCode.localsOf head, own l.1 = true)
    (hrest : checkAll s' (some result) rest = .ok ()) {name : String}
    (hn : name ∈ targetsAll (head ++ rest)) : own name = true := by
  induction hd with
  | nil => exact own_of_targetsAll hs.own rest hrest hn
  | @init _ _ _ other type _ _ _ _ _ _ ih =>
    have hother : own other = true := hlocals (other, type) List.mem_cons_self
    rcases List.mem_cons.mp hn with rfl | hn
    · exact hother
    · exact ih (hs.withVariable hother type) (fun l hm => hlocals l (List.mem_cons_of_mem _ hm))
        hrest hn
  | define top => cases top

/-- A checked function sets its own variables only. -/
theorem Definition.own_of_target {d : Definition}
    (h : Stmt.checkFunction s d.params d.result d.body = .ok ()) {name : String}
    (hn : name ∈ Stmt.targetsAll d.body) : d.inner.isLocal name = true := by
  obtain ⟨layer, head, rest, s', hl, hbody, hd, hrest⟩ := Stmt.checkFunction_ok h
  have hinside : s.Inside d.inner.isLocal (s.push layer) :=
    Scopes.inside_push hl fun p hp => isLocal_inner.mpr (.inl ⟨p, hp, rfl⟩)
  have hlocals : ∀ l ∈ FunctionCode.localsOf head, d.inner.isLocal l.1 = true := by
    intro l hm
    rw [isLocal_inner, hbody, FunctionCode.localsOf_append]
    exact .inr (List.mem_map_of_mem (List.mem_append_left _ hm))
  rw [hbody] at hn
  exact hd.own_of_target hinside hlocals hrest hn

end Targets

theorem Library.module_prints (lib : Library) (entry : Function) : (lib.module entry).Prints := by
  intro type f hf
  obtain ⟨field, hprinter, _⟩ :=
    Module.function?_printer lib.codes entry (some ⟨"js", "memory", 1⟩) type
  rw [module, hprinter] at hf
  cases hf
  exact ⟨_, rfl⟩

/-- A function that a module has a name for and does not import is one of the library. -/
theorem Library.of_function? {lib : Library} {entry : Function} (hentry : entry.name = none)
    {name : String} {f : Function} (hf : (lib.module entry).function? name = some f)
    (himported : f.imported = none) : ∃ d ∈ lib, f = d.code.function := by
  have hname := List.find?_some hf
  rcases List.mem_append.mp (List.mem_of_find?_eq_some hf) with hm | hm
  · obtain ⟨i, _, rfl⟩ := List.mem_map.mp hm
    cases himported
  · rcases List.mem_append.mp hm with hm | hm
    · obtain ⟨code, hcode, rfl⟩ := List.mem_map.mp hm
      obtain ⟨d, hd, rfl⟩ := List.mem_map.mp hcode
      exact ⟨d, hd, rfl⟩
    · obtain rfl := List.mem_singleton.mp hm
      rw [hentry] at hname
      cases hname

/-- No function of any unit writes to memory: functions set their own variables only, which are not
in it. -/
theorem Globals.Made.quiet {g : Globals} {lib : Library} {types : List Ty} (hg : g.Made lib types)
    {entry : Function} (hentry : entry.name = none) : (lib.module entry).Quiet := by
  intro name f hf himported
  obtain ⟨d, hd, rfl⟩ := Library.of_function? hentry hf himported
  obtain ⟨s, hchecked, _⟩ := (hg.each d hd).checked
  refine ⟨rfl, ?_⟩
  change Instr.ConfinedAll _ _ (Instr.loadedAll (Stmt.instrsAll d.inner d.body ++ [.const 0])) _ _
  rw [Instr.confinedAll_loaded, Instr.confinedAll_append]
  refine Stmt.confinedStmts (hg.written.gives entry) (lib.module_prints entry) d.body
    (hg.each d hd).placed (hg.written.each d hd).calls ?_ trivial
  intro name hn hnot
  rw [Definition.own_of_target hchecked hn] at hnot
  cases hnot

/-- The addresses of the variables of these names, as far as the slot right behind the page. -/
def Layout.Writable (l : Layout) (names : List String) (address : Word) : Prop :=
  ∃ name ∈ names, ∃ slot, l.slots.get? name = some slot ∧ slot ≤ Page.slots ∧
    address = Int32.ofNat (slot * slotSize)

theorem Layout.Writable.slot {l : Layout} {names : List String} {address : Word}
    (h : l.Writable names address) (hpage : Memory.InPage address) :
    ∃ name ∈ names, ∃ slot, l.slots.get? name = some slot ∧ address.toInt.toNat = slot * slotSize := by
  obtain ⟨name, hn, slot, hslot, hle, rfl⟩ := h
  have hlt : slot < 16384 := Page.lt_slots ⟨.ofPages 1, rfl⟩ hle hpage
  refine ⟨name, hn, slot, hslot, ?_⟩
  rw [Int32.toInt_ofNat_of_lt (by simp only [slotSize]; omega), Int.toNat_natCast]

/-- The entry of a unit writes the variables that the unit sets, and no others, whether or not all
of them lie in the page. -/
theorem Globals.Made.entry_confined {g : Globals} {lib : Library} {types : List Ty}
    (hg : g.Made lib types) (hfit : g.layout.next ≤ Page.slots) {p : Program} {typing : Typing}
    {code : UnitCode} (hn : p.Named Bare) (ht : p.typeOn g.declared = .ok typing)
    (hu : UnitCode.ofProgram typing.declared g.layout p = .ok code) :
    let c := UnitCode.topContext typing.declared g.layout p
    let m := (lib.after g typing.declared p).module (entryFunction c p.body)
    m.Quiet ∧ Instr.ConfinedAll m (c.layout.Writable (Stmt.targetsAll p.body))
      (Instr.loadedAll (Stmt.topInstrs c p.body)) (fun _ => True) [] := by
  intro c m
  have hof := hg.unit hn ht hu
  have hm : m.Gives _ := hof.made.written.gives _
  have hp : m.Prints := Library.module_prints _ _
  refine ⟨hof.made.quiet rfl, ?_⟩
  obtain ⟨head, rest, s, hc⟩ := Program.typeOn_ok hg.sound ht
  have hcalls := (hc.lists hg).calls
  have hhead := hc.declares.callsFit hcalls
  have hrest := Stmt.callsFit_of_checkAll hcalls rest (Stmt.checkAll_of_lastType hc.last)
  rw [Library.arityOf_signature?] at hhead hrest
  obtain ⟨_, hplaced, _⟩ := UnitCode.ofProgram_ok hu
  have hbody := hc.body
  have hlayout : c.layout = g.layout.extend head := by
    change g.layout.extend p.body = _
    rw [Layout.extend_eq, hc.locals_head, ← Layout.extend_eq]
  rw [Instr.confinedAll_loaded]
  rw [hbody] at hplaced ⊢
  rw [hc.declares.topInstrs_append, Instr.confinedAll_append, Stmt.targetsAll_append]
  refine hc.declares.confined hm rfl (Stmt.placedAll_left hplaced) hhead
    (congrArg Layout.slots hlayout) hfit ?_ fun hnext => ?_
  · intro name hname slot hle hslot
    exact ⟨name, List.mem_append_left _ hname, slot, hslot, hle, rfl⟩
  · refine Stmt.confinedTop hm hp rest (Stmt.placedAll_right hplaced) hrest ?_
    intro name hname _ slot hslot
    refine ⟨name, List.mem_append_right _ hname, slot, hslot, ?_, rfl⟩
    have hsound : c.layout.Sound := hg.layout.extend p.body
    have hbelow := hsound.below hslot
    rw [hlayout] at hbelow
    omega

end StackScript
