import Mathlib.Data.List.Forall2
import StackScript.Machine.Run
import StackScript.Proofs.Rendering
import StackScript.Proofs.Simulation

namespace StackScript

open Form

namespace Instr

mutual

/-- Everything the code refers to is there: the variables, the functions it calls with what they take
and give, and the labels around it. -/
def Fits (signature? : String → Option (Nat × Nat)) (locals : List String) :
    (labels : Nat) → Instr → Prop
  | _, .localGet name | _, .localSet name => name ∈ locals
  | _, .call name params results => signature? name = some (params, results)
  | labels, .br n | labels, .brIf n => n < labels ∧ n ≤ 4294967295
  | labels, .block body | labels, .loop body => FitsAll signature? locals (labels + 1) body
  | _, _ => True

def FitsAll (signature? : String → Option (Nat × Nat)) (locals : List String) (labels : Nat) :
    List Instr → Prop
  | [] => True
  | i :: is => Fits signature? locals labels i ∧ FitsAll signature? locals labels is

end

theorem fitsAll_append {signature? : String → Option (Nat × Nat)} {locals : List String}
    {labels : Nat} {a b : List Instr} :
    FitsAll signature? locals labels (a ++ b) ↔
      FitsAll signature? locals labels a ∧ FitsAll signature? locals labels b := by
  induction a with
  | nil => simp [FitsAll]
  | cons i is ih => simp [FitsAll, ih, and_assoc]

/-- Code starts with a word that no header has. -/
theorem sexp_word (i : Instr) : ∃ word xs, i.sexp = .list (.atom word :: xs) ∧
    word ∉ ["import", "export", "param", "result", "local"] := by
  cases i with
  | num op =>
    refine ⟨_, _, rfl, ?_⟩
    cases op <;> decide
  | _ => exact ⟨_, _, rfl, by decide⟩

end Instr

namespace Form

@[simp] theorem name?_dollar (offset : Nat) (name : String) :
    (Form.atom offset ("$" ++ name)).name? = some name := by
  simp [name?, atom?]

theorem string?_quoted (offset : Nat) (text : String) :
    (Form.atom offset ("\"" ++ text ++ "\"")).string? = some text := by
  simp [string?, atom?]

theorem name?_list (offset : Nat) (items : List Form) : (Form.list offset items).name? = none := rfl

/-- A form that is a list of a word and operands. -/
theorem plain_eq_words {f : Form} {word : String} {xs : List Sexp}
    (h : f.plain = .list (.atom word :: xs)) :
    ∃ offset o fs, f = .list offset (.atom o word :: fs) ∧ plainAll fs = xs := by
  obtain ⟨offset, items, rfl, hi⟩ := plain_eq_list h
  obtain ⟨g, gs, rfl, hg, hgs⟩ := plainAll_eq_cons hi
  obtain ⟨o, rfl⟩ := plain_eq_atom hg
  exact ⟨offset, o, gs, rfl, hgs⟩

theorem plainAll_eq_atom {fs : List Form} {text : String} (h : plainAll fs = [.atom text]) :
    ∃ offset, fs = [.atom offset text] := by
  obtain ⟨g, gs, rfl, hg, hgs⟩ := plainAll_eq_cons h
  obtain ⟨offset, rfl⟩ := plain_eq_atom hg
  rw [plainAll_eq_nil hgs]
  exact ⟨offset, rfl⟩

end Form

def FunctionCode.function (f : FunctionCode) : Function :=
  ⟨some f.name, f.params, 1, f.locals, Instr.loadedAll f.body, none, none⟩

namespace Module

section Code

variable {s : Surroundings} {signature? : String → Option (Nat × Nat)}

/-- A word that takes one atom. -/
theorem codeOf_immediate {labels offset o p : Nat} {word text : String} {i : Instr}
    {parse : Form → Except LoadError Instr} (hb : ¬(word = "block" ∨ word = "loop"))
    (hs : shape? s labels word = some (.immediate parse)) (hp : parse (.atom p text) = .ok i) :
    codeOf s labels (.list offset [.atom o word, .atom p text]) = .ok [i] := by
  simp only [codeOf, if_neg hb, operandsOf, atomsOf, instrOf, hs]
  simp [atom?, hp, bind, Except.bind, pure, Except.pure]

/-- A word that takes no atom. -/
theorem codeOf_plain {labels offset o : Nat} {word : String} {i : Instr}
    (hb : ¬(word = "block" ∨ word = "loop")) (hs : shape? s labels word = some (.plain i)) :
    codeOf s labels (.list offset [.atom o word]) = .ok [i] := by
  simp only [codeOf, if_neg hb, operandsOf, atomsOf, instrOf, hs]
  simp [bind, Except.bind, pure, Except.pure]

theorem localOf_dollar {name : String} (h : name ∈ s.locals) (offset : Nat) :
    localOf s (.atom offset ("$" ++ name)) = .ok name := by
  simp [localOf, h]

theorem callOf_dollar {name : String} {params results : Nat}
    (h : s.signatures.get? name = some (params, results)) (offset : Nat) :
    callOf s (.atom offset ("$" ++ name)) = .ok (.call name params results) := by
  simp [callOf, h]

theorem depthOf_toString {labels n : Nat} (h : n < labels ∧ n ≤ 4294967295) (offset : Nat) :
    depthOf labels (.atom offset (toString n)) = .ok n := by
  simp only [depthOf, atom?, Option.bind_some, Text.nat32?_toString h.2, h.1, ↓reduceIte]

theorem constOf_decimal (v : Word) (offset : Nat) :
    constOf (.atom offset (Text.decimal v)) = .ok v := by
  simp [constOf, atom?, Text.int32?_decimal]

theorem shape?_mnemonic (labels : Nat) (op : NumOp) :
    ¬(op.mnemonic = "block" ∨ op.mnemonic = "loop") ∧
      shape? s labels op.mnemonic = some (.plain (.num op)) := by
  cases op <;> exact ⟨by decide, rfl⟩

/-- A block or a loop has its label around its code. -/
theorem codeOf_nested {labels offset o : Nat} {word : String} {items : List Form}
    {body : List Instr} (hw : word = "block" ∨ word = "loop")
    (hr : items.head?.bind Form.head? ≠ some "result")
    (hb : codeOfAll s (labels + 1) items = .ok body) :
    codeOf s labels (.list offset (.atom o word :: items)) =
      .ok [if word = "block" then .block body else .loop body] := by
  simp only [codeOf, if_pos hw, if_neg hr, hb]
  rfl

/-- Code never starts with a result. -/
theorem head_ne_result {is : List Instr} {fs : List Form} (h : plainAll fs = Instr.sexpAll is) :
    fs.head?.bind Form.head? ≠ some "result" := by
  cases is with
  | nil => simp [plainAll_eq_nil h]
  | cons i is =>
    obtain ⟨g, gs, rfl, hg, hgs⟩ := plainAll_eq_cons h
    obtain ⟨word, xs, hi, hw⟩ := i.sexp_word
    obtain ⟨offset, o, fs, rfl, hfs⟩ := plain_eq_words (hg.trans hi)
    intro he
    apply hw
    simp only [List.head?_cons, Option.bind_some, head?, atom?, Option.some.injEq] at he
    simp [he]

mutual

/-- The text of an instruction loads as the instruction. -/
theorem codeOf_sexp (hs : ∀ name, s.signatures.get? name = signature? name) {labels : Nat}
    (i : Instr) {f : Form} (h : f.plain = i.sexp) (hf : i.Fits signature? s.locals labels) :
    codeOf s labels f = .ok [i.loaded] := by
  match i with
  | .const v | .address v _ =>
    obtain ⟨offset, o, fs, rfl, hfs⟩ := plain_eq_words h
    obtain ⟨p, rfl⟩ := plainAll_eq_atom hfs
    exact codeOf_immediate (by decide) rfl (by rw [constOf_decimal]; rfl)
  | .num op =>
    obtain ⟨offset, o, fs, rfl, hfs⟩ := plain_eq_words h
    rw [plainAll_eq_nil hfs]
    obtain ⟨hb, hshape⟩ := shape?_mnemonic (s := s) labels op
    exact codeOf_plain hb hshape
  | .load | .store | .drop | .nop | .ret =>
    obtain ⟨offset, o, fs, rfl, hfs⟩ := plain_eq_words h
    rw [plainAll_eq_nil hfs]
    exact codeOf_plain (by decide) rfl
  | .localGet name | .localSet name =>
    obtain ⟨offset, o, fs, rfl, hfs⟩ := plain_eq_words h
    obtain ⟨p, rfl⟩ := plainAll_eq_atom hfs
    exact codeOf_immediate (by decide) rfl (by rw [localOf_dollar hf]; rfl)
  | .call name params results =>
    obtain ⟨offset, o, fs, rfl, hfs⟩ := plain_eq_words h
    obtain ⟨p, rfl⟩ := plainAll_eq_atom hfs
    exact codeOf_immediate (by decide) rfl (callOf_dollar ((hs name).trans hf) p)
  | .br n | .brIf n =>
    obtain ⟨offset, o, fs, rfl, hfs⟩ := plain_eq_words h
    obtain ⟨p, rfl⟩ := plainAll_eq_atom hfs
    exact codeOf_immediate (by decide) rfl (by rw [depthOf_toString hf]; rfl)
  | .block body | .loop body =>
    obtain ⟨offset, o, fs, rfl, hfs⟩ := plain_eq_words h
    have hb := codeOfAll_sexp hs body hfs hf
    exact codeOf_nested (by decide) (head_ne_result hfs) hb

theorem codeOfAll_sexp (hs : ∀ name, s.signatures.get? name = signature? name) {labels : Nat}
    (is : List Instr) {fs : List Form} (h : plainAll fs = Instr.sexpAll is)
    (hf : Instr.FitsAll signature? s.locals labels is) :
    codeOfAll s labels fs = .ok (Instr.loadedAll is) := by
  match is with
  | [] =>
    rw [plainAll_eq_nil h]
    rfl
  | i :: is =>
    obtain ⟨g, gs, rfl, hg, hgs⟩ := plainAll_eq_cons h
    rw [codeOfAll, codeOf_sexp hs i hg hf.1, codeOfAll_sexp hs is hgs hf.2]
    rfl

end

end Code

section Headers

theorem headerForms_step {fn fn' : Function} {f : Form} (h : headerForm fn f = .ok (some fn'))
    (fs : List Form) : headerForms fn (f :: fs) = headerForms fn' fs := by
  rw [headerForms, h]
  rfl

theorem declaredNames_dollar (what name : String) (count offset o : Nat) :
    declaredNames what count [.atom offset ("$" ++ name), .atom o "i32"] = .ok [name] := by
  rw [declaredNames, name?_dollar]
  rfl

theorem plain_eq_declared {f : Form} {word name : String} (h : f.plain = declaredSexp word name) :
    ∃ offset o p q, f = .list offset [.atom o word, .atom p ("$" ++ name), .atom q "i32"] := by
  obtain ⟨offset, o, fs, rfl, hfs⟩ := plain_eq_words h
  obtain ⟨g, gs, rfl, hg, hgs⟩ := plainAll_eq_cons hfs
  obtain ⟨p, rfl⟩ := plain_eq_atom hg
  obtain ⟨q, rfl⟩ := plainAll_eq_atom hgs
  exact ⟨offset, o, p, q, rfl⟩

/-- Declarations under one word, which add their names. -/
theorem headerForms_declared {word : String} (add : Function → List String → Function)
    (hnil : ∀ fn, add fn [] = fn)
    (hcons : ∀ fn name names, add (add fn [name]) names = add fn (name :: names))
    (hstep : ∀ fn name offset o p q,
      headerForm fn (.list offset [.atom o word, .atom p ("$" ++ name), .atom q "i32"]) =
        .ok (some (add fn [name])))
    (names : List String) {fn : Function} {fs : List Form}
    (h : plainAll fs = names.map (declaredSexp word)) (rest : List Form) :
    headerForms fn (fs ++ rest) = headerForms (add fn names) rest := by
  induction names generalizing fn fs with
  | nil => rw [plainAll_eq_nil h, hnil, List.nil_append]
  | cons name names ih =>
    obtain ⟨g, gs, rfl, hg, hgs⟩ := plainAll_eq_cons h
    obtain ⟨offset, o, p, q, rfl⟩ := plain_eq_declared hg
    rw [List.cons_append, headerForms_step (hstep fn name offset o p q), ih hgs, hcons]

theorem headerForms_params (names : List String) {fn : Function} {fs : List Form}
    (h : plainAll fs = names.map (declaredSexp "param")) (rest : List Form) :
    headerForms fn (fs ++ rest) = headerForms { fn with params := fn.params ++ names } rest := by
  refine headerForms_declared (fun fn names => { fn with params := fn.params ++ names })
    ?_ ?_ ?_ names h rest
  · simp
  · simp
  · intro fn name offset o p q
    change (do
      let names ← declaredNames "params" fn.params.length [.atom p ("$" ++ name), .atom q "i32"]
      return some { fn with params := fn.params ++ names }) = _
    rw [declaredNames_dollar]
    rfl

theorem headerForms_locals (names : List String) {fn : Function} {fs : List Form}
    (h : plainAll fs = names.map (declaredSexp "local")) (rest : List Form) :
    headerForms fn (fs ++ rest) = headerForms { fn with locals := fn.locals ++ names } rest := by
  refine headerForms_declared (fun fn names => { fn with locals := fn.locals ++ names })
    ?_ ?_ ?_ names h rest
  · simp
  · simp
  · intro fn name offset o p q
    change (do
      let names ← declaredNames "locals" (fn.params.length + fn.locals.length)
        [.atom p ("$" ++ name), .atom q "i32"]
      return some { fn with locals := fn.locals ++ names }) = _
    rw [declaredNames_dollar]
    rfl

theorem headerForms_result {fn : Function} {f : Form}
    (h : f.plain = .list [.atom "result", .atom "i32"]) (rest : List Form) :
    headerForms fn (f :: rest) = headerForms { fn with results := fn.results + 1 } rest := by
  obtain ⟨offset, o, fs, rfl, hfs⟩ := plain_eq_words h
  obtain ⟨p, rfl⟩ := plainAll_eq_atom hfs
  exact headerForms_step rfl rest

/-- The header ends where the code starts. -/
theorem headerForms_body {fn : Function} {is : List Instr} {fs : List Form}
    (h : plainAll fs = Instr.sexpAll is) : headerForms fn fs = .ok (fn, fs) := by
  cases is with
  | nil =>
    rw [plainAll_eq_nil h]
    rfl
  | cons i is =>
    obtain ⟨g, gs, rfl, hg, hgs⟩ := plainAll_eq_cons h
    obtain ⟨word, xs, hi, hw⟩ := i.sexp_word
    obtain ⟨offset, o, fs, rfl, hfs⟩ := plain_eq_words (hg.trans hi)
    simp only [List.mem_cons, List.not_mem_nil, or_false, not_or] at hw
    have hstep : headerForm fn (.list offset (.atom o word :: fs)) = .ok none := by
      simp only [headerForm, head?, atom?]
      split <;> simp_all
      rfl
    rw [headerForms, hstep]
    rfl

/-- A function whose body is still unread. -/
theorem pendingOf_function {f : FunctionCode} {offset : Nat} {forms : List Form}
    (h : (Form.list offset forms).plain = f.sexp) :
    ∃ body, pendingOf offset forms.tail = .ok ⟨{ f.function with body := [] }, body, offset⟩ ∧
      plainAll body = Instr.sexpAll f.body := by
  obtain ⟨_, o, fs, he, hfs⟩ := plain_eq_words h
  cases he
  obtain ⟨g, gs, rfl, hg, hgs⟩ := plainAll_eq_cons hfs
  obtain ⟨p, rfl⟩ := plain_eq_atom hg
  obtain ⟨params, rest, rfl, hparams, hrest⟩ := plainAll_eq_append hgs
  obtain ⟨result, rest, rfl, hresult, hrest⟩ := plainAll_eq_cons hrest
  obtain ⟨locals, body, rfl, hlocals, hbody⟩ := plainAll_eq_append hrest
  refine ⟨body, ?_, hbody⟩
  simp only [pendingOf, List.tail_cons, name?_dollar]
  rw [headerForms_params f.params hparams, headerForms_result hresult,
    headerForms_locals f.locals hlocals, headerForms_body hbody]
  simp [FunctionCode.function, bind, Except.bind, pure, Except.pure]

/-- A function of the host; its parameters are named by their places. -/
def importFunction (name field : String) (params : Nat) : Function :=
  ⟨some name, placeNames 0 params, 0, [], [], some ("imports", field), none⟩

theorem placeNames_succ (first count : Nat) :
    placeNames first (count + 1) = [toString first] ++ placeNames (first + 1) count := by
  simp [placeNames, List.range'_succ]

/-- Parameters without names. -/
theorem headerForms_places (count : Nat) {fn : Function} {fs : List Form}
    (h : plainAll fs = List.replicate count (.list [.atom "param", .atom "i32"])) :
    headerForms fn fs =
      .ok ({ fn with params := fn.params ++ placeNames fn.params.length count }, []) := by
  induction count generalizing fn fs with
  | zero =>
    rw [plainAll_eq_nil h]
    simp [headerForms, placeNames]
  | succ count ih =>
    obtain ⟨g, gs, rfl, hg, hgs⟩ := plainAll_eq_cons h
    obtain ⟨offset, o, fs, rfl, hfs⟩ := plain_eq_words hg
    obtain ⟨p, rfl⟩ := plainAll_eq_atom hfs
    have hstep : headerForm fn (.list offset [.atom o "param", .atom p "i32"]) =
        .ok (some { fn with params := fn.params ++ [toString fn.params.length] }) := rfl
    rw [headerForms_step hstep, ih hgs, placeNames_succ]
    simp

theorem pendingOf_import {name field : String} {params offset : Nat} {forms : List Form}
    (h : (Form.list offset forms).plain = ModuleText.importSexp name field params) :
    pendingOf offset forms.tail = .ok ⟨importFunction name field params, [], offset⟩ := by
  obtain ⟨_, o, fs, he, hfs⟩ := plain_eq_words h
  cases he
  obtain ⟨g, gs, rfl, hg, hgs⟩ := plainAll_eq_cons hfs
  obtain ⟨p, rfl⟩ := plain_eq_atom hg
  obtain ⟨imported, places, rfl, himported, hplaces⟩ := plainAll_eq_cons hgs
  obtain ⟨offset', o', texts, rfl, htexts⟩ := plain_eq_words himported
  obtain ⟨module, fields, rfl, hmodule, hfield⟩ := plainAll_eq_cons htexts
  obtain ⟨q, rfl⟩ := plain_eq_atom hmodule
  obtain ⟨r, rfl⟩ := plainAll_eq_atom hfield
  have hstep (fn : Function) : headerForm fn (.list offset' [.atom o' "import",
      .atom q ("\"" ++ "imports" ++ "\""), .atom r ("\"" ++ field ++ "\"")]) =
        .ok (some { fn with imported := some ("imports", field) }) := by
    simp only [headerForm, head?, atom?, expectString, string?_quoted]
    rfl
  simp only [pendingOf, List.tail_cons, name?_dollar]
  rw [headerForms_step (hstep _), headerForms_places params hplaces]
  rfl

def entryOf (returnsValue : Bool) (main : List Instr) : Function :=
  ⟨none, [], if returnsValue then 1 else 0, [], Instr.loadedAll main, none,
    some ModuleText.entryName⟩

theorem pendingOf_entry {returnsValue : Bool} {main : List Instr} {offset : Nat}
    {forms : List Form}
    (h : (Form.list offset forms).plain = ModuleText.entrySexp returnsValue (Instr.sexpAll main)) :
    ∃ body, pendingOf offset forms.tail =
        .ok ⟨{ entryOf returnsValue main with body := [] }, body, offset⟩ ∧
      plainAll body = Instr.sexpAll main := by
  obtain ⟨_, o, fs, he, hfs⟩ := plain_eq_words h
  cases he
  obtain ⟨g, gs, rfl, hg, hgs⟩ := plainAll_eq_cons hfs
  obtain ⟨offset', o', texts, rfl, htexts⟩ := plain_eq_words hg
  obtain ⟨q, rfl⟩ := plainAll_eq_atom htexts
  have hstep (fn : Function) : headerForm fn (.list offset' [.atom o' "export",
      .atom q ("\"" ++ ModuleText.entryName ++ "\"")]) =
        .ok (some { fn with exported := some ModuleText.entryName }) := by
    simp only [headerForm, head?, atom?, expectString, string?_quoted]
    rfl
  simp only [pendingOf, List.tail_cons, name?_list]
  rw [headerForms_step (hstep _)]
  cases returnsValue with
  | false =>
    refine ⟨gs, ?_, hgs⟩
    rw [headerForms_body hgs]
    rfl
  | true =>
    obtain ⟨result, body, rfl, hresult, hbody⟩ := plainAll_eq_cons hgs
    refine ⟨body, ?_, hbody⟩
    rw [headerForms_result hresult, headerForms_body hbody]
    rfl

end Headers

abbrev Source := Function × List Instr

def Opened (src : Source) (p : Pending) : Prop :=
  p.function = { src.1 with body := [] } ∧ plainAll p.body = Instr.sexpAll src.2

/-- A form is the text of a source. -/
def Opens (f : Form) (src : Source) : Prop :=
  ∃ offset items p, f = .list offset items ∧ f.head? = some "func" ∧
    pendingOf offset items.tail = .ok p ∧ Opened src p

/-- A form is the text of functions with one header only. -/
theorem Opens.header_unique {f : Form} {src src' : Source} (h : Opens f src) (h' : Opens f src') :
    { src.1 with body := [] } = { src'.1 with body := [] } := by
  obtain ⟨offset, items, p, rfl, _, hp, ho, _⟩ := h
  obtain ⟨_, _, p', he, _, hp', ho', _⟩ := h'
  cases he
  cases hp.symm.trans hp'
  exact ho.symm.trans ho'

/-- The text of a function opens it. -/
theorem opens_of_function {f : Form} {code : FunctionCode} (h : f.plain = code.sexp) :
    Opens f (code.function, code.body) := by
  obtain ⟨offset, o, fs, rfl, hfs⟩ := plain_eq_words h
  obtain ⟨body, hp, hb⟩ := pendingOf_function h
  exact ⟨offset, _, _, rfl, rfl, hp, rfl, hb⟩

theorem opens_of_import {f : Form} {name field : String} {params : Nat}
    (h : f.plain = ModuleText.importSexp name field params) :
    Opens f (importFunction name field params, []) := by
  obtain ⟨offset, o, fs, rfl, hfs⟩ := plain_eq_words h
  exact ⟨offset, _, _, rfl, rfl, pendingOf_import h, rfl, rfl⟩

theorem opens_of_entry {f : Form} {returnsValue : Bool} {main : List Instr}
    (h : f.plain = ModuleText.entrySexp returnsValue (Instr.sexpAll main)) :
    Opens f (entryOf returnsValue main, main) := by
  obtain ⟨offset, o, fs, rfl, hfs⟩ := plain_eq_words h
  obtain ⟨body, hp, hb⟩ := pendingOf_entry h
  exact ⟨offset, _, _, rfl, rfl, hp, rfl, hb⟩

/-- Functions of a module are opened one after the other. -/
theorem fieldsOf_functions {fs : List Form} {srcs : List Source}
    (h : List.Forall₂ Opens fs srcs) (pending : List Pending) (memory : Option MemoryImport)
    (rest : List Form) :
    ∃ ps, List.Forall₂ Opened srcs ps ∧
      fieldsOf pending memory (fs ++ rest) = fieldsOf (ps.reverse ++ pending) memory rest := by
  induction h generalizing pending with
  | nil => exact ⟨[], .nil, rfl⟩
  | @cons f src fs srcs hf _ ih =>
    obtain ⟨offset, items, p, rfl, hhead, hp, ho⟩ := hf
    obtain ⟨ps, hps, hfields⟩ := ih (p :: pending)
    refine ⟨p :: ps, .cons ho hps, ?_⟩
    rw [List.cons_append, fieldsOf, hhead]
    simp only [hp, bind, Except.bind]
    rw [hfields]
    simp

theorem fieldsOf_memory {f : Form} (h : f.plain = ModuleText.memorySexp) (pending : List Pending)
    (rest : List Form) :
    fieldsOf pending none (f :: rest) = fieldsOf pending (some ⟨"js", "memory", 1⟩) rest := by
  obtain ⟨offset, o, fs, rfl, hfs⟩ := plain_eq_words h
  obtain ⟨module, gs, rfl, hmodule, hgs⟩ := plainAll_eq_cons hfs
  obtain ⟨p, rfl⟩ := plain_eq_atom hmodule
  obtain ⟨field, hs, rfl, hfield, hhs⟩ := plainAll_eq_cons hgs
  obtain ⟨q, rfl⟩ := plain_eq_atom hfield
  obtain ⟨memory, ks, rfl, hmemory, hks⟩ := plainAll_eq_cons hhs
  obtain ⟨offset', o', ts, rfl, hts⟩ := plain_eq_words hmemory
  obtain ⟨r, rfl⟩ := plainAll_eq_atom hts
  rw [plainAll_eq_nil hks]
  have hm : memoryOf offset [.atom o "import", .atom p ("\"" ++ "js" ++ "\""),
      .atom q ("\"" ++ "memory" ++ "\""), .list offset' [.atom o' "memory", .atom r "1"]] =
        .ok ⟨"js", "memory", 1⟩ := by
    have hp : pagesOf (.list offset' [.atom o' "memory", .atom r "1"]) = .ok 1 := by
      have h1 : Text.nat32? "1" = some 1 := by decide
      simp [pagesOf, atom?, h1]
    simp only [memoryOf, hp, expectString, string?_quoted]
    rfl
  simp only [fieldsOf, head?, atom?, hm]
  rfl

def signatureIn (fns : List Function) (name : String) : Option (Nat × Nat) :=
  (fns.find? fun f => f.name == some name).map fun f => (f.params.length, f.results)

theorem signatureIn_none {fns : List Function} {name : String}
    (h : name ∉ fns.filterMap (·.name)) : signatureIn fns name = none := by
  have hf : fns.find? (fun f => f.name == some name) = none := by
    rw [List.find?_eq_none]
    intro f hf he
    exact h (List.mem_filterMap.mpr ⟨f, hf, by simpa using he⟩)
  rw [signatureIn, hf]
  rfl

/-- Functions with names of their own have a table of what they take and give. -/
theorem signaturesOf_ok {srcs : List Source} {ps : List Pending} (h : List.Forall₂ Opened srcs ps)
    (hn : ((srcs.map (·.1)).filterMap (·.name)).Nodup) (known : Table (Nat × Nat))
    (hk : ∀ name ∈ (srcs.map (·.1)).filterMap (·.name), known.contains name = false) :
    ∃ t, signaturesOf known ps = .ok t ∧
      ∀ name, t.get? name = (signatureIn (srcs.map (·.1)) name).or (known.get? name) := by
  induction h generalizing known with
  | nil => exact ⟨known, rfl, fun name => rfl⟩
  | @cons src p srcs ps ho _ ih =>
    obtain ⟨fn, code⟩ := src
    have hname : p.function.name = fn.name := by rw [ho.1]
    cases hf : fn.name with
    | none =>
      rw [hf] at hname
      simp only [List.map_cons, List.filterMap_cons, hf] at hn hk
      obtain ⟨t, ht, hget⟩ := ih hn known hk
      refine ⟨t, by simp only [signaturesOf, hname, ht], fun name => ?_⟩
      rw [hget name]
      simp [signatureIn, hf]
    | some own =>
      rw [hf] at hname
      simp only [List.map_cons, List.filterMap_cons, hf, List.nodup_cons] at hn hk
      have hfree : known.contains own = false := hk own (by simp)
      let grown := known.insert own (p.function.params.length, p.function.results)
      have hk' : ∀ name ∈ (srcs.map (·.1)).filterMap (·.name), grown.contains name = false := by
        intro name hm
        have hne : name ≠ own := by
          rintro rfl
          exact hn.1 hm
        simp [grown, hne, hk name (List.mem_cons_of_mem own hm)]
      obtain ⟨t, ht, hget⟩ := ih hn.2 grown hk'
      refine ⟨t, by simp only [signaturesOf, hname, hfree, ht, grown]; rfl, fun name => ?_⟩
      rw [hget name]
      by_cases he : name = own
      · subst he
        rw [signatureIn_none hn.1]
        simp [grown, signatureIn, hf, ho.1]
      · have he' : ¬own = name := fun h => he h.symm
        simp [grown, signatureIn, hf, he, he']

/-- Once all headers are read, the bodies load in the order of their functions. -/
theorem bodiesOf_ok {srcs : List Source} {ps : List Pending} (h : List.Forall₂ Opened srcs ps)
    {signatures : Table (Nat × Nat)} {signature? : String → Option (Nat × Nat)}
    (hs : ∀ name, signatures.get? name = signature? name)
    (hf : ∀ src ∈ srcs, Instr.FitsAll signature? (src.1.params ++ src.1.locals) 1 src.2) :
    bodiesOf signatures ps =
      .ok (srcs.map fun src => { src.1 with body := Instr.loadedAll src.2 }) := by
  induction h with
  | nil => rfl
  | @cons src p srcs ps ho _ ih =>
    obtain ⟨fn, code⟩ := src
    obtain ⟨hfn, hbody⟩ := ho
    have hcode : codeOfAll ⟨signatures, p.function.params ++ p.function.locals⟩ 1 p.body =
        .ok (Instr.loadedAll code) := by
      rw [hfn]
      exact codeOfAll_sexp hs code hbody (hf _ (by simp))
    rw [bodiesOf]
    simp only [hcode, ih (fun src hm => hf src (by simp [hm])), bind, Except.bind]
    rw [hfn]
    rfl

def functionsOf (functions : List FunctionCode) (entry : Function) : List Function :=
  ModuleText.imports.map (fun (name, field, params) => importFunction name field params) ++
    (functions.map FunctionCode.function ++ [entry])

def sourcesOf (functions : List FunctionCode) (returnsValue : Bool) (main : List Instr) :
    List Source :=
  ModuleText.imports.map (fun (name, field, params) => (importFunction name field params, [])) ++
    (functions.map (fun f => (f.function, f.body)) ++ [(entryOf returnsValue main, main)])

theorem sourcesOf_functions (functions : List FunctionCode) (returnsValue : Bool)
    (main : List Instr) :
    (sourcesOf functions returnsValue main).map (·.1) =
        functionsOf functions (entryOf returnsValue main) ∧
      (sourcesOf functions returnsValue main).map
          (fun src => { src.1 with body := Instr.loadedAll src.2 }) =
        functionsOf functions (entryOf returnsValue main) := by
  simp [sourcesOf, functionsOf, Function.comp_def, importFunction, FunctionCode.function, entryOf,
    Instr.loadedAll]

theorem names_functionsOf (functions : List FunctionCode) (returnsValue : Bool)
    (main : List Instr) :
    (functionsOf functions (entryOf returnsValue main)).filterMap (·.name) =
      hostNames ++ functions.map (·.name) := by
  simp [functionsOf, List.filterMap_append, List.filterMap_map, Function.comp_def, entryOf,
    FunctionCode.function, ModuleText.imports, importFunction, hostNames]

theorem forall₂_opens {α : Type} {as : List α} {x : α → Sexp} (src : α → Source) {fs : List Form}
    (h : plainAll fs = as.map x) (ho : ∀ f a, f.plain = x a → Opens f (src a)) :
    List.Forall₂ Opens fs (as.map src) := by
  induction as generalizing fs with
  | nil =>
    rw [plainAll_eq_nil h]
    exact .nil
  | cons a as ih =>
    obtain ⟨g, gs, rfl, hg, hgs⟩ := plainAll_eq_cons h
    exact .cons (ho g a hg) (ih hgs)

theorem fieldsOf_module {functions : List FunctionCode} {returnsValue : Bool} {main : List Instr}
    {fs : List Form}
    (h : plainAll fs = ModuleText.imports.map
        (fun (name, field, params) => ModuleText.importSexp name field params) ++
      ([ModuleText.memorySexp] ++ (functions.map FunctionCode.sexp ++
        [ModuleText.entrySexp returnsValue (Instr.sexpAll main)]))) :
    ∃ ps, List.Forall₂ Opened (sourcesOf functions returnsValue main) ps ∧
      fieldsOf [] none fs = .ok (ps, some ⟨"js", "memory", 1⟩) := by
  obtain ⟨imports, fields, rfl, himports, hfields⟩ := plainAll_eq_append h
  rw [List.singleton_append] at hfields
  obtain ⟨memory, rest, rfl, hmemory, hrest⟩ := plainAll_eq_cons hfields
  obtain ⟨definitions, entry, rfl, hdefinitions, hentry⟩ := plainAll_eq_append hrest
  obtain ⟨f, nothing, rfl, hf, hnothing⟩ := plainAll_eq_cons hentry
  rw [plainAll_eq_nil hnothing]
  have himported := forall₂_opens (fun (name, field, params) =>
    (importFunction name field params, [])) himports fun f a hf => opens_of_import hf
  have hdefined := forall₂_opens (fun f => (f.function, f.body)) hdefinitions
    fun f a hf => opens_of_function hf
  have hlast : List.Forall₂ Opens [f] [(entryOf returnsValue main, main)] :=
    .cons (opens_of_entry hf) .nil
  obtain ⟨ps, hps, hp⟩ := fieldsOf_functions himported [] none (memory :: (definitions ++ [f]))
  obtain ⟨qs, hqs, hq⟩ := fieldsOf_functions hdefined (ps.reverse ++ [])
    (some ⟨"js", "memory", 1⟩) [f]
  obtain ⟨rs, hrs, hr⟩ := fieldsOf_functions hlast (qs.reverse ++ (ps.reverse ++ []))
    (some ⟨"js", "memory", 1⟩) []
  refine ⟨ps ++ (qs ++ rs), List.rel_append hps (List.rel_append hqs hrs), ?_⟩
  rw [hp, fieldsOf_memory hmemory, hq, ← List.append_nil [f], hr, fieldsOf]
  simp

/-- The text of a module loads as its functions, however far in the code of its entry stands. -/
theorem load_wrap {functions : List FunctionCode} (returnsValue : Bool) {main : List Instr}
    (depth : Nat)
    (hspell : ∀ f ∈ functions, f.Spelled) (hmain : Instr.SpelledAll main)
    (hnames : (hostNames ++ functions.map (·.name)).Nodup)
    (hfits : ∀ f ∈ functions, Instr.FitsAll
      (signatureIn (functionsOf functions (entryOf returnsValue main))) (f.params ++ f.locals) 1
      f.body)
    (hmainFits : Instr.FitsAll
      (signatureIn (functionsOf functions (entryOf returnsValue main))) [] 1 main) :
    load (ModuleText.wrap (functions.map FunctionCode.render) (Instr.renderAll depth main)
        returnsValue) =
      .ok ⟨functionsOf functions (entryOf returnsValue main), some ⟨"js", "memory", 1⟩⟩ := by
  obtain ⟨forms, hread, hplain⟩ :=
    (ModuleText.reads_wrap returnsValue hspell ((Instr.laidAll main hmain).reads depth)).read
  obtain ⟨root, nothing, rfl, hroot, hnothing⟩ := plainAll_eq_cons hplain
  rw [plainAll_eq_nil hnothing] at hread
  obtain ⟨offset, o, fields, rfl, hfields⟩ := plain_eq_words hroot
  obtain ⟨ps, hps, hf⟩ := fieldsOf_module hfields
  obtain ⟨hsrc, hbodies⟩ := sourcesOf_functions functions returnsValue main
  have hnodup : (((sourcesOf functions returnsValue main).map (·.1)).filterMap (·.name)).Nodup := by
    rw [hsrc, names_functionsOf]
    exact hnames
  obtain ⟨t, ht, hget⟩ := signaturesOf_ok hps hnodup .empty (fun _ _ => rfl)
  simp only [Table.get?_empty, Option.or_none, hsrc] at hget
  have hall : ∀ src ∈ sourcesOf functions returnsValue main, Instr.FitsAll
      (signatureIn (functionsOf functions (entryOf returnsValue main)))
      (src.1.params ++ src.1.locals) 1 src.2 := by
    intro src hm
    simp only [sourcesOf, List.mem_append, List.mem_map, List.mem_singleton] at hm
    rcases hm with ⟨i, _, rfl⟩ | ⟨f, hm, rfl⟩ | rfl
    · trivial
    · exact hfits f hm
    · exact hmainFits
  have hb := bodiesOf_ok hps hget hall
  rw [hbodies] at hb
  simp only [load, hread, bind, Except.bind, ofForms, hf, ht, hb]
  rfl

theorem link_own {fs : List Function} (h : ∀ f ∈ fs, f.imported = none) : link fs = .ok () := by
  induction fs with
  | nil => rfl
  | cons f fs ih =>
    rw [link, h f (by simp)]
    exact ih (fun g hg => h g (by simp [hg]))

/-- The host offers all that a module takes from it. -/
theorem link_functionsOf (functions : List FunctionCode) (returnsValue : Bool) (main : List Instr) :
    link (functionsOf functions (entryOf returnsValue main)) = .ok () := by
  have himports (rest : List Function) : link (ModuleText.imports.map
      (fun (name, field, params) => importFunction name field params) ++ rest) = link rest := rfl
  rw [functionsOf, himports]
  apply link_own
  intro f hf
  simp only [List.mem_append, List.mem_map, List.mem_singleton] at hf
  rcases hf with ⟨code, _, rfl⟩ | rfl
  · rfl
  · rfl

theorem find_entry (functions : List FunctionCode) (returnsValue : Bool) (main : List Instr) :
    (functionsOf functions (entryOf returnsValue main)).find?
        (fun f => f.exported == some ModuleText.entryName) = some (entryOf returnsValue main) := by
  have himports : (ModuleText.imports.map
      (fun (name, field, params) => importFunction name field params)).find?
        (fun f => f.exported == some ModuleText.entryName) = none := rfl
  have hfunctions : (functions.map FunctionCode.function).find?
      (fun f => f.exported == some ModuleText.entryName) = none := by
    rw [List.find?_eq_none]
    intro f hf
    obtain ⟨code, _, rfl⟩ := List.mem_map.mp hf
    simp [FunctionCode.function]
  rw [functionsOf, List.find?_append, List.find?_append, himports, hfunctions]
  simp [entryOf]

/-- The text of a module can be run from its entry. -/
theorem prepare_wrap {functions : List FunctionCode} (returnsValue : Bool) {main : List Instr}
    (hspell : ∀ f ∈ functions, f.Spelled) (hmain : Instr.SpelledAll main)
    (hnames : (hostNames ++ functions.map (·.name)).Nodup)
    (hfits : ∀ f ∈ functions, Instr.FitsAll
      (signatureIn (functionsOf functions (entryOf returnsValue main))) (f.params ++ f.locals) 1
      f.body)
    (hmainFits : Instr.FitsAll
      (signatureIn (functionsOf functions (entryOf returnsValue main))) [] 1 main) :
    prepare (ModuleText.wrap (functions.map FunctionCode.render) (Instr.renderAll 2 main)
        returnsValue) =
      .ok (⟨functionsOf functions (entryOf returnsValue main), some ⟨"js", "memory", 1⟩⟩,
        entryOf returnsValue main) := by
  rw [prepare, load_wrap returnsValue 2 hspell hmain hnames hfits hmainFits]
  simp only [bind, Except.bind, link_functionsOf, find_entry]
  rfl

theorem find_function {functions : List FunctionCode} {f : FunctionCode}
    (hnames : (functions.map (·.name)).Nodup) (hf : f ∈ functions) :
    (functions.map FunctionCode.function).find? (fun g => g.name == some f.name) =
      some f.function := by
  induction functions with
  | nil => simp at hf
  | cons g gs ih =>
    simp only [List.map_cons, List.nodup_cons] at hnames
    rcases List.mem_cons.mp hf with rfl | hf
    · simp [FunctionCode.function]
    · have hne : g.name ≠ f.name := fun he => hnames.1 (he ▸ List.mem_map_of_mem hf)
      rw [List.map_cons, List.find?_cons_of_neg (by simpa [FunctionCode.function] using hne)]
      exact ih hnames.2 hf

/-- A function of a module is found by its name. -/
theorem function?_functionsOf {functions : List FunctionCode} {entry : Function}
    {memory : Option MemoryImport} {f : FunctionCode}
    (hnames : (hostNames ++ functions.map (·.name)).Nodup) (hf : f ∈ functions) :
    Module.function? ⟨functionsOf functions entry, memory⟩ f.name = some f.function := by
  obtain ⟨-, hown, hdisjoint⟩ := List.nodup_append.mp hnames
  have himports : (ModuleText.imports.map
      (fun (name, field, params) => importFunction name field params)).find?
        (fun g => g.name == some f.name) = none := by
    rw [List.find?_eq_none]
    intro g hg he
    obtain ⟨⟨name, field, params⟩, hi, rfl⟩ := List.mem_map.mp hg
    have hname : name = f.name := by simpa [importFunction] using he
    have hhost : name ∈ hostNames := List.mem_map_of_mem (f := Prod.fst) hi
    exact hdisjoint name hhost f.name (List.mem_map_of_mem hf) hname
  rw [Module.function?, functionsOf, List.find?_append, himports, List.find?_append,
    find_function hown hf]
  rfl

/-- A value is printed by a function of the host. -/
theorem function?_printer (functions : List FunctionCode) (entry : Function)
    (memory : Option MemoryImport) (type : Ty) :
    ∃ field, Module.function? ⟨functionsOf functions entry, memory⟩ type.printer =
        some (importFunction type.printer field 1) ∧
      HostFunction.resolve? "imports" field = some type.hostFunction := by
  cases type <;> exact ⟨_, rfl, rfl⟩

theorem signatureIn_eq (m : Module) (name : String) :
    signatureIn m.functions name = (m.function? name).map fun f => (f.params.length, f.results) := rfl

end Module

end StackScript
