import StackScript.Module.OfForms
import StackScript.Proofs.Reading
import StackScript.Proofs.Scopes

namespace StackScript

namespace Sexp

mutual

def form : Sexp → Form
  | .atom text => .atom 0 text
  | .list items => .list 0 (formAll items)

def formAll : List Sexp → List Form
  | [] => []
  | x :: xs => form x :: formAll xs

end

@[simp] theorem formAll_append (a b : List Sexp) : formAll (a ++ b) = formAll a ++ formAll b := by
  induction a with
  | nil => rfl
  | cons x xs ih => simp [formAll, ih]

mutual

@[simp] theorem plain_form (x : Sexp) : x.form.plain = x := by
  match x with
  | .atom text => rfl
  | .list items => simp only [form, Form.plain, plainAll_formAll items]

@[simp] theorem plainAll_formAll (xs : List Sexp) : Form.plainAll (formAll xs) = xs := by
  match xs with
  | [] => rfl
  | x :: xs => simp only [formAll, Form.plainAll, plain_form x, plainAll_formAll xs]

end

def isHeader : Sexp → Bool
  | .list (.atom "import" :: items) => items.length == 2
  | .list (.atom "export" :: items) => items.length == 1
  | .list (.atom "param" :: _) | .list (.atom "result" :: _) | .list (.atom "local" :: _) => true
  | _ => false

end Sexp

namespace Form

def bare (f : Form) : Form := f.plain.form

def bareAll (fs : List Form) : List Form := Sexp.formAll (plainAll fs)

@[simp] theorem bareAll_nil : bareAll [] = [] := rfl

@[simp] theorem bareAll_cons (f : Form) (fs : List Form) :
    bareAll (f :: fs) = f.bare :: bareAll fs := rfl

@[simp] theorem bare_atom (offset : Nat) (text : String) :
    (atom offset text).bare = atom 0 text := rfl

@[simp] theorem bare_list (offset : Nat) (items : List Form) :
    (list offset items).bare = list 0 (bareAll items) := rfl

theorem offset_bare (f : Form) : f.bare.offset = 0 := by cases f <;> rfl

theorem atom?_bare (f : Form) : f.bare.atom? = f.atom? := by cases f <;> rfl

theorem atom?_eq_some {f : Form} {text : String} (h : f.atom? = some text) :
    ∃ offset, f = .atom offset text := by
  cases f with
  | atom offset own =>
    cases h
    exact ⟨offset, rfl⟩
  | list => cases h

theorem string?_bare (f : Form) : f.bare.string? = f.string? := by cases f <;> rfl

theorem name?_bare (f : Form) : f.bare.name? = f.name? := by cases f <;> rfl

theorem head?_bare (f : Form) : f.bare.head? = f.head? := by
  rcases f with _ | ⟨offset, _ | ⟨first, rest⟩⟩
  · rfl
  · rfl
  · exact atom?_bare first

theorem head?_bareAll (fs : List Form) :
    (bareAll fs).head?.bind head? = fs.head?.bind head? := by
  cases fs with
  | nil => rfl
  | cons f fs => exact head?_bare f

theorem tail_bareAll (fs : List Form) : (bareAll fs).tail = bareAll fs.tail := by cases fs <;> rfl

theorem isEmpty_bareAll (fs : List Form) : (bareAll fs).isEmpty = fs.isEmpty := by cases fs <;> rfl

theorem length_bareAll (fs : List Form) : (bareAll fs).length = fs.length := by
  induction fs with
  | nil => rfl
  | cons f fs ih => simp [ih]

end Form

/-- A result whose error has lost its place. -/
def unplaced {α : Type} : Except LoadError α → Except LoadError α
  | .ok a => .ok a
  | .error e => .error ⟨e.fault, 0⟩

section Unplaced

variable {α β : Type}

@[simp] theorem unplaced_pure (a : α) : unplaced (pure a) = pure a := rfl

@[simp] theorem unplaced_fault (f : Fault) (offset : Nat) :
    unplaced (Module.fault f offset : Except LoadError α) = Module.fault f 0 := rfl

/-- Losing the place of an error goes along with sequences, so each part of the loader is looked at
by itself. -/
@[simp] theorem unplaced_bind (x : Except LoadError α) (f : α → Except LoadError β) :
    unplaced (x >>= f) = unplaced x >>= fun a => unplaced (f a) := by
  cases x <;> rfl

@[simp] theorem unplaced_map (f : α → β) (x : Except LoadError α) :
    unplaced (f <$> x) = f <$> unplaced x := by
  cases x <;> rfl

theorem unplaced_eq_ok {x : Except LoadError α} {a : α} : unplaced x = .ok a ↔ x = .ok a := by
  cases x <;> simp [unplaced]

end Unplaced

namespace Module

open Form

theorem expectString_bare (f : Form) (what : String) :
    expectString f.bare what = unplaced (expectString f what) := by
  unfold expectString
  rw [string?_bare, offset_bare]
  cases f.string? <;> rfl

theorem wordTypes_bare (what : String) (fs : List Form) :
    wordTypes what (bareAll fs) = unplaced (wordTypes what fs) := by
  induction fs with
  | nil => rfl
  | cons f fs ih =>
    rw [bareAll_cons, wordTypes, wordTypes, atom?_bare, offset_bare, ih]
    split <;> simp

theorem declaredNames_bare (what : String) (count : Nat) (fs : List Form) :
    declaredNames what count (bareAll fs) = unplaced (declaredNames what count fs) := by
  cases fs with
  | nil => rfl
  | cons f fs =>
    rw [bareAll_cons, declaredNames, declaredNames, name?_bare, offset_bare, wordTypes_bare]
    cases f.name? with
    | none =>
      simp only [← bareAll_cons, wordTypes_bare, unplaced_bind, unplaced_pure]
    | some name =>
      simp only [unplaced_bind]
      congr 1
      funext types
      split <;> rfl

/-- The body of a function starts with the first list that is not of the header. -/
theorem headerForm_body (fn : Function) {offset : Nat} {items : List Form}
    (h : (Form.list offset items).plain.isHeader = false) :
    headerForm fn (.list offset items) = .ok none := by
  unfold headerForm
  split
  · cases ‹Form.list offset items = _›
  · rename_i hform
    cases hform
    split
    case h_6 => rfl
    all_goals
      rename_i hword
      obtain ⟨o, rfl⟩ := atom?_eq_some hword
      cases h

/-- The lists of a header: imports and exports of a fixed length, and declarations. -/
theorem header_cases {f : Form} (h : f.plain.isHeader = true) :
    (∃ o p module field, f = .list o [.atom p "import", module, field]) ∨
    (∃ o p name, f = .list o [.atom p "export", name]) ∨
    ∃ o p word items, f = .list o (.atom p word :: items) ∧
      (word = "param" ∨ word = "result" ∨ word = "local") := by
  rcases f with _ | ⟨o, _ | ⟨⟨p, word⟩ | _, items⟩⟩
  case list.cons.atom =>
    simp only [plain, plainAll, Sexp.isHeader] at h
    split at h
    case h_6 => cases h
    case h_1 hword =>
      cases hword
      rcases items with _ | ⟨module, _ | ⟨field, _ | ⟨extra, rest⟩⟩⟩
      case cons.cons.nil => exact .inl ⟨o, p, module, field, rfl⟩
      all_goals simp [plainAll] at h
    case h_2 hword =>
      cases hword
      rcases items with _ | ⟨name, _ | ⟨extra, rest⟩⟩
      case cons.nil => exact .inr (.inl ⟨o, p, name, rfl⟩)
      all_goals simp [plainAll] at h
    all_goals
      rename_i hword
      cases hword
      exact .inr (.inr ⟨o, p, _, items, rfl, by simp⟩)
  all_goals cases h

/-- The header of a function is read in the same way wherever it stands. -/
theorem headerForm_bare (fn : Function) (f : Form) :
    headerForm fn f.bare = unplaced (headerForm fn f) := by
  cases hheader : f.plain.isHeader with
  | false =>
    cases f with
    | atom => rfl
    | list offset items =>
      have hbare : (Form.list 0 (bareAll items)).plain.isHeader = false := by
        rw [← hheader, ← bare_list offset, bare, Sexp.plain_form]
      rw [bare_list, headerForm_body fn hbare, headerForm_body fn hheader]
      rfl
  | true =>
    rcases header_cases hheader with ⟨o, p, module, field, rfl⟩ | ⟨o, p, name, rfl⟩ |
      ⟨o, p, word, items, rfl, rfl | rfl | rfl⟩
    · simp [headerForm, head?, atom?, expectString_bare]
    · simp [headerForm, head?, atom?, expectString_bare]
    · simp [headerForm, head?, atom?, declaredNames_bare]
    · simp [headerForm, head?, atom?, wordTypes_bare]
    · simp [headerForm, head?, atom?, declaredNames_bare]

theorem headerForms_bare (fn : Function) (fs : List Form) :
    headerForms fn (bareAll fs) =
      (fun r => (r.1, bareAll r.2)) <$> unplaced (headerForms fn fs) := by
  induction fs generalizing fn with
  | nil => rfl
  | cons f fs ih =>
    rw [bareAll_cons, headerForms, headerForms, headerForm_bare]
    cases headerForm fn f with
    | error e => rfl
    | ok next =>
      cases next with
      | none => rfl
      | some fn => exact ih fn

def Pending.bare (p : Pending) : Pending := ⟨p.function, bareAll p.body, 0⟩

def untitled (name : Option String) : Function := ⟨name, [], 0, [], [], none, none⟩

/-- What is checked between the header and the body of a function. -/
def opened (offset : Nat) (r : Function × List Form) : Except LoadError Pending :=
  if 1 < r.1.results then fault .severalResults offset
  else if r.1.imported.isSome && !r.2.isEmpty then fault .importWithBody offset
  else .ok ⟨r.1, r.2, offset⟩

theorem pendingOf_named (offset : Nat) {f : Form} {name : String} (h : f.name? = some name)
    (fs : List Form) :
    pendingOf offset (f :: fs) = headerForms (untitled (some name)) fs >>= opened offset := by
  simp only [pendingOf, h]
  rfl

theorem pendingOf_unnamed (offset : Nat) {fs : List Form} (h : ∀ f ∈ fs.head?, f.name? = none) :
    pendingOf offset fs = headerForms (untitled none) fs >>= opened offset := by
  cases fs with
  | nil => rfl
  | cons f fs =>
    simp only [pendingOf, h f rfl]
    rfl

theorem opened_bare (offset : Nat) (r : Function × List Form) :
    opened 0 (r.1, bareAll r.2) = Pending.bare <$> unplaced (opened offset r) := by
  unfold opened
  rw [isEmpty_bareAll]
  split
  · rfl
  · split <;> rfl

/-- A function is read up to its body in the same way wherever it stands. -/
theorem pendingOf_bare (offset : Nat) (fs : List Form) :
    pendingOf 0 (bareAll fs) = Pending.bare <$> unplaced (pendingOf offset fs) := by
  have hheader (name : Option String) (fs : List Form) :
      headerForms (untitled name) (bareAll fs) >>= opened 0 =
        Pending.bare <$> unplaced (headerForms (untitled name) fs >>= opened offset) := by
    rw [headerForms_bare]
    cases headerForms (untitled name) fs with
    | error e => rfl
    | ok r => exact opened_bare offset r
  rcases fs with _ | ⟨f, fs⟩
  · rfl
  · cases hname : f.name? with
    | some name =>
      rw [pendingOf_named offset hname, bareAll_cons,
        pendingOf_named 0 ((name?_bare f).trans hname)]
      exact hheader (some name) fs
    | none =>
      rw [pendingOf_unnamed offset (by simpa using hname),
        pendingOf_unnamed 0 (by simpa using (name?_bare f).trans hname)]
      exact hheader none (f :: fs)

theorem pagesOf_bare (f : Form) : pagesOf f.bare = unplaced (pagesOf f) := by
  rcases f with _ | ⟨offset, _ | ⟨kind, _ | ⟨pages, _ | ⟨extra, rest⟩⟩⟩⟩
  case list.cons.cons.nil =>
    simp only [bare_list, bareAll_cons, bareAll_nil, pagesOf, atom?_bare, offset_bare]
    split
    · cases pages.atom?.bind Text.nat32? <;> rfl
    · rfl
  all_goals rfl

/-- The import of a memory is read in the same way wherever it stands. -/
theorem memoryOf_bare (offset : Nat) (fs : List Form) :
    memoryOf 0 (bareAll fs) = unplaced (memoryOf offset fs) := by
  rcases fs with _ | ⟨head, _ | ⟨module, _ | ⟨field, _ | ⟨memory, _ | ⟨extra, rest⟩⟩⟩⟩⟩
  case cons.cons.cons.cons.nil =>
    simp [memoryOf, pagesOf_bare, expectString_bare]
  all_goals rfl

section Code

variable (s : Surroundings) (labels : Nat)

theorem localOf_bare (f : Form) : localOf s f.bare = unplaced (localOf s f) := by
  unfold localOf
  rw [name?_bare, atom?_bare, offset_bare]
  cases f.name?.or f.atom? with
  | none => rfl
  | some name =>
    dsimp only
    split <;> rfl

theorem depthOf_bare (f : Form) : depthOf labels f.bare = unplaced (depthOf labels f) := by
  unfold depthOf
  rw [atom?_bare, offset_bare]
  cases f.atom?.bind Text.nat32? with
  | none => rfl
  | some depth =>
    dsimp only
    split <;> rfl

theorem constOf_bare (f : Form) : constOf f.bare = unplaced (constOf f) := by
  unfold constOf
  rw [atom?_bare, offset_bare]
  cases f.atom?.bind Text.int32? <;> rfl

theorem callOf_bare (f : Form) : callOf s f.bare = unplaced (callOf s f) := by
  unfold callOf
  rw [name?_bare, offset_bare]
  cases f.name? with
  | none => rfl
  | some name =>
    dsimp only
    cases s.signatures.get? name <;> rfl

theorem parse_bare {op : String} {parse : Form → Except LoadError Instr}
    (h : shape? s labels op = some (.immediate parse)) (f : Form) :
    parse f.bare = unplaced (parse f) := by
  unfold shape? at h
  split at h
  case h_6 =>
    cases h
    exact callOf_bare s f
  case h_1 =>
    cases h
    simp [constOf_bare]
  case h_4 | h_5 =>
    cases h
    simp [localOf_bare]
  case h_7 | h_8 =>
    cases h
    simp [depthOf_bare]
  case h_12 =>
    obtain ⟨num, -, hplain⟩ := Option.map_eq_some_iff.mp h
    cases hplain
  all_goals cases h

/-- An instruction depends on its word and atoms. -/
theorem instrOf_bare (offset : Nat) (op : String) (atoms : List Form) :
    instrOf s labels 0 op (bareAll atoms) = unplaced (instrOf s labels offset op atoms) := by
  unfold instrOf
  cases hshape : shape? s labels op with
  | none => rfl
  | some shape =>
    cases shape with
    | plain i =>
      dsimp only
      rw [isEmpty_bareAll, length_bareAll]
      split <;> rfl
    | immediate parse =>
      rcases atoms with _ | ⟨f, _ | ⟨g, atoms⟩⟩
      · rfl
      · exact parse_bare s labels hshape f
      · simp only [bareAll_cons, unplaced_fault, List.length_cons, length_bareAll]

theorem atomsOf_bare (fs : List Form) : atomsOf (bareAll fs) = bareAll (atomsOf fs) := by
  induction fs with
  | nil => rfl
  | cons f fs ih =>
    unfold atomsOf at ih ⊢
    rw [bareAll_cons, List.filter_cons, List.filter_cons, atom?_bare, ih]
    split <;> rfl

mutual

/-- Code loads in the same way wherever it stands, up to the place of an error. -/
theorem codeOf_bare (labels : Nat) (f : Form) :
    codeOf s labels f.bare = unplaced (codeOf s labels f) := by
  match f with
  | .atom _ _ | .list _ [] | .list _ (.list _ _ :: _) => rfl
  | .list offset (.atom _ op :: items) =>
    -- both sides ask the same questions: they are about words, and words are kept
    simp only [bare_list, bareAll_cons, bare_atom, codeOf]
    split
    · rw [head?_bareAll, codeOfAll_bare (labels + 1) items]
      split
      · rfl
      · simp only [unplaced_bind, unplaced_pure]
    · rw [operandsOf_bare labels items, atomsOf_bare, instrOf_bare s labels offset]
      simp only [unplaced_bind, unplaced_pure]

theorem codeOfAll_bare (labels : Nat) (fs : List Form) :
    codeOfAll s labels (bareAll fs) = unplaced (codeOfAll s labels fs) := by
  match fs with
  | [] => rfl
  | f :: fs =>
    simp only [bareAll_cons, codeOfAll, codeOf_bare labels f, codeOfAll_bare labels fs,
      unplaced_bind, unplaced_pure]

theorem operandsOf_bare (labels : Nat) (fs : List Form) :
    operandsOf s labels (bareAll fs) = unplaced (operandsOf s labels fs) := by
  match fs with
  | [] => rfl
  | .atom _ _ :: fs => exact operandsOf_bare labels fs
  | .list offset items :: fs =>
    have hfirst := codeOf_bare labels (.list offset items)
    rw [bare_list] at hfirst
    simp only [bareAll_cons, bare_list, operandsOf, hfirst, operandsOf_bare labels fs,
      unplaced_bind, unplaced_pure]

end

end Code

/-- The fields of a module are read in the same way wherever they stand. -/
theorem fieldsOf_bare (pending : List Pending) (memory : Option MemoryImport) (fs : List Form) :
    fieldsOf (pending.map Pending.bare) memory (bareAll fs) =
      (fun r => (r.1.map Pending.bare, r.2)) <$> unplaced (fieldsOf pending memory fs) := by
  induction fs generalizing pending memory with
  | nil =>
    change Except.ok ((pending.map Pending.bare).reverse, memory) =
      Except.ok (pending.reverse.map Pending.bare, memory)
    rw [List.map_reverse]
  | cons f fs ih =>
    cases f with
    | atom => rfl
    | list offset items =>
      have hhead : (Form.list 0 (bareAll items)).head? = (Form.list offset items).head? :=
        head?_bare (.list offset items)
      simp only [bareAll_cons, bare_list, fieldsOf, hhead]
      split
      · rw [tail_bareAll, pendingOf_bare offset]
        cases pendingOf offset items.tail with
        | error e => rfl
        | ok p => exact ih (p :: pending) memory
      · split
        · rfl
        · rw [memoryOf_bare offset]
          cases memoryOf offset items with
          | error e => rfl
          | ok m => exact ih pending (some m)
      · rfl

theorem signaturesOf_bare (known : Table (Nat × Nat)) (ps : List Pending) :
    signaturesOf known (ps.map Pending.bare) = unplaced (signaturesOf known ps) := by
  induction ps generalizing known with
  | nil => rfl
  | cons p ps ih =>
    simp only [List.map_cons, signaturesOf, Pending.bare]
    split
    · exact ih known
    · split
      · rfl
      · exact ih _

/-- The bodies of functions load in the same way wherever they stand. -/
theorem bodiesOf_bare (signatures : Table (Nat × Nat)) (ps : List Pending) :
    bodiesOf signatures (ps.map Pending.bare) = unplaced (bodiesOf signatures ps) := by
  induction ps with
  | nil => rfl
  | cons p ps ih =>
    simp only [List.map_cons, bodiesOf, Pending.bare, codeOfAll_bare, ih,
      unplaced_bind, unplaced_pure]

def assembled (r : List Pending × Option MemoryImport) : Except LoadError Module := do
  let signatures ← signaturesOf .empty r.1
  let functions ← bodiesOf signatures r.1
  return ⟨functions, r.2⟩

theorem ofForms_module (offset o : Nat) (fields : List Form) :
    ofForms [.list offset (.atom o "module" :: fields)] =
      fieldsOf [] none fields >>= assembled := rfl

/-- Only one list that starts with the word for modules loads. -/
theorem ofForms_eq_ok {fs : List Form} {m : Module} (h : ofForms fs = .ok m) :
    ∃ offset o fields, fs = [.list offset (.atom o "module" :: fields)] := by
  unfold ofForms at h
  split at h
  · split at h
    · exact ⟨_, _, _, rfl⟩
    · cases h
  · cases h

theorem assembled_bare (r : List Pending × Option MemoryImport) :
    assembled (r.1.map Pending.bare, r.2) = unplaced (assembled r) := by
  simp only [assembled, signaturesOf_bare, bodiesOf_bare, unplaced_bind, unplaced_pure]

theorem ofForms_module_bare (offset o : Nat) (fields : List Form) :
    ofForms (bareAll [.list offset (.atom o "module" :: fields)]) =
      unplaced (ofForms [.list offset (.atom o "module" :: fields)]) := by
  have hfields := fieldsOf_bare [] none fields
  rw [List.map_nil] at hfields
  simp only [bareAll_cons, bareAll_nil, bare_list, bare_atom, ofForms_module, hfields]
  cases fieldsOf [] none fields with
  | error e => rfl
  | ok r => exact assembled_bare r

/-- A module loads from its forms, wherever they stand. -/
theorem ofForms_bare {fs : List Form} {m : Module} :
    ofForms (bareAll fs) = .ok m ↔ ofForms fs = .ok m := by
  constructor
  · intro h
    obtain ⟨offset, o, fields, hfs⟩ := ofForms_eq_ok h
    have hplain : plainAll fs = [.list (.atom "module" :: plainAll fields)] := by
      rw [← Sexp.plainAll_formAll (plainAll fs), ← bareAll, hfs]
      rfl
    obtain ⟨f, fs, rfl, hf, hnil⟩ := plainAll_eq_cons hplain
    obtain ⟨offset, items, rfl, hitems⟩ := plain_eq_list hf
    obtain ⟨word, items, rfl, hword, -⟩ := plainAll_eq_cons hitems
    obtain ⟨o, rfl⟩ := plain_eq_atom hword
    cases plainAll_eq_nil hnil
    rwa [ofForms_module_bare, unplaced_eq_ok] at h
  · intro h
    obtain ⟨offset, o, fields, rfl⟩ := ofForms_eq_ok h
    rw [ofForms_module_bare, h]
    rfl

end Module

/-- A text is read as these forms. -/
def Sexp.ReadFrom (text : String) (xs : List Sexp) : Prop :=
  ∃ fs, Form.read text = .ok fs ∧ Form.plainAll fs = xs

/-- Whether a text loads depends on the forms it is read as, and so does its module. -/
theorem Module.load_of_readFrom {text : String} {xs : List Sexp} (h : Sexp.ReadFrom text xs)
    {m : Module} : load text = .ok m ↔ ofForms (Sexp.formAll xs) = .ok m := by
  obtain ⟨fs, hread, rfl⟩ := h
  rw [load, hread]
  exact ofForms_bare.symm

end StackScript
