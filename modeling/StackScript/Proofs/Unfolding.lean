import Mathlib.Logic.Relation
import StackScript.Proofs.FormText

namespace StackScript

open Form

namespace Sexp

def isList : Sexp → Bool
  | .atom _ => false
  | .list _ => true

def operands (items : List Sexp) : List Sexp := items.filter isList

def immediates (items : List Sexp) : List Sexp := items.filter fun x => !x.isList

/-- One folded instruction is replaced by its operands and then itself. -/
inductive Unfolds : List Sexp → List Sexp → Prop
  | here {op : String} {items after : List Sexp} : op ≠ "block" → op ≠ "loop" →
    Unfolds (.list (.atom op :: items) :: after)
      (operands items ++ .list (.atom op :: immediates items) :: after)
  /-- Among the operands of an instruction, or in the body of a block or a loop. -/
  | inside {op : String} {items items' after : List Sexp} : Unfolds items items' →
    Unfolds (.list (.atom op :: items) :: after) (.list (.atom op :: items') :: after)
  | behind {x : Sexp} {xs xs' : List Sexp} : Unfolds xs xs' → Unfolds (x :: xs) (x :: xs')

/-- One folded instruction of a function of a module is replaced. -/
inductive UnfoldsModule : List Sexp → List Sexp → Prop
  | function {before after items items' : List Sexp} : Unfolds items items' →
    UnfoldsModule [.list (.atom "module" :: (before ++ .list (.atom "func" :: items) :: after))]
      [.list (.atom "module" :: (before ++ .list (.atom "func" :: items') :: after))]

mutual

/-- The instructions of a form, each behind its operands. -/
def unfolded : Sexp → List Sexp
  | .list (.atom op :: items) =>
    if op = "block" ∨ op = "loop" then [.list (.atom op :: unfoldedAll items)]
    else operands (unfoldedAll items) ++ [.list (.atom op :: immediates (unfoldedAll items))]
  | x => [x]

def unfoldedAll : List Sexp → List Sexp
  | [] => []
  | x :: xs => unfolded x ++ unfoldedAll xs

end

def unfoldedField : Sexp → Sexp
  | .list (.atom "func" :: items) => .list (.atom "func" :: unfoldedAll items)
  | x => x

def unfoldedModule : List Sexp → List Sexp
  | [.list (.atom "module" :: fields)] => [.list (.atom "module" :: fields.map unfoldedField)]
  | xs => xs

mutual

def Flat : Sexp → Prop
  | .list (.atom op :: items) =>
    if op = "block" ∨ op = "loop" then FlatAll items else operands items = []
  | _ => True

def FlatAll : List Sexp → Prop
  | [] => True
  | x :: xs => Flat x ∧ FlatAll xs

end

def FlatModule (xs : List Sexp) : Prop :=
  ∀ fields items, xs = [.list (.atom "module" :: fields)] →
    .list (.atom "func" :: items) ∈ fields → FlatAll items

section Items

variable (a b items : List Sexp)

@[simp] theorem operands_append : operands (a ++ b) = operands a ++ operands b :=
  List.filter_append ..

@[simp] theorem immediates_append : immediates (a ++ b) = immediates a ++ immediates b :=
  List.filter_append ..

@[simp] theorem immediates_immediates : immediates (immediates items) = immediates items := by
  simp [immediates]

@[simp] theorem operands_immediates : operands (immediates items) = [] := by
  simp [operands, immediates]

variable {items} in
theorem immediates_eq_self (h : operands items = []) : immediates items = items := by
  refine List.filter_eq_self.mpr fun x hx => ?_
  simpa using List.filter_eq_nil_iff.mp h x hx

end Items

namespace Unfolds

variable {xs ys : List Sexp}

theorem appended (h : Unfolds xs ys) (zs : List Sexp) : Unfolds (xs ++ zs) (ys ++ zs) := by
  induction h with
  | here hblock hloop =>
    rw [List.append_assoc]
    exact .here hblock hloop
  | inside h => exact .inside h
  | behind _ ih => exact .behind ih

theorem prepended (h : Unfolds xs ys) (zs : List Sexp) : Unfolds (zs ++ xs) (zs ++ ys) := by
  induction zs with
  | nil => exact h
  | cons z zs ih => exact .behind ih

/-- What is replaced and what stands in its place are lists. -/
theorem immediates_eq (h : Unfolds xs ys) : immediates ys = immediates xs := by
  induction h with
  | here => simp [immediates, isList, operands]
  | inside => rfl
  | @behind x xs xs' _ ih =>
    change immediates ([x] ++ xs') = immediates ([x] ++ xs)
    rw [immediates_append, immediates_append, ih]

theorem operands_ne_nil (h : Unfolds xs ys) : operands xs ≠ [] := by
  induction h with
  | here | inside => simp [operands, isList]
  | @behind x xs xs' _ ih =>
    change operands ([x] ++ xs) ≠ []
    rw [operands_append]
    exact fun hnil => ih (List.append_eq_nil_iff.mp hnil).2

theorem ne_nil (h : Unfolds xs ys) : ys ≠ [] := by
  cases h <;> simp

/-- What can be written can still be written. -/
theorem spelled (h : Unfolds xs ys) (hs : SpelledAll xs) : SpelledAll ys := by
  induction h with
  | @here op items after =>
    obtain ⟨⟨hop, hitems⟩, hafter⟩ := hs
    rw [spelledAll_iff] at hitems ⊢
    intro x hx
    rcases List.mem_append.mp hx with hx | hx
    · exact hitems x (List.mem_filter.mp hx).1
    · rcases List.mem_cons.mp hx with rfl | hx
      · exact ⟨hop, spelledAll_iff.mpr fun y hy => hitems y (List.mem_filter.mp hy).1⟩
      · exact spelledAll_iff.mp hafter x hx
  | inside _ ih => exact ⟨⟨hs.1.1, ih hs.1.2⟩, hs.2⟩
  | behind _ ih => exact ⟨hs.1, ih hs.2⟩

end Unfolds

end Sexp

namespace Module

open Sexp

variable {s : Surroundings} {labels : Nat}

theorem atomsOf_formAll (xs : List Sexp) : atomsOf (formAll xs) = formAll (immediates xs) := by
  induction xs with
  | nil => rfl
  | cons x xs ih =>
    cases x with
    | atom text => exact congrArg (Form.atom 0 text :: ·) ih
    | list items => exact ih

theorem operandsOf_cons {items : List Sexp} {fs : List Form} {code : List Instr} :
    operandsOf s labels (form (.list items) :: fs) = .ok code ↔
      ∃ first, codeOf s labels (form (.list items)) = .ok first ∧
        ∃ rest, operandsOf s labels fs = .ok rest ∧ first ++ rest = code := by
  simp only [form, operandsOf, bind_eq_ok, pure_eq_ok]

theorem operandsOf_append {a b : List Sexp} {first rest : List Instr}
    (ha : operandsOf s labels (formAll a) = .ok first)
    (hb : operandsOf s labels (formAll b) = .ok rest) :
    operandsOf s labels (formAll (a ++ b)) = .ok (first ++ rest) := by
  induction a generalizing first with
  | nil =>
    cases ha
    exact hb
  | cons x a ih =>
    cases x with
    | atom text => exact ih ha
    | list items =>
      obtain ⟨own, hown, others, hothers, rfl⟩ := operandsOf_cons.mp ha
      exact operandsOf_cons.mpr ⟨own, hown, _, ih hothers, (List.append_assoc ..).symm⟩

theorem operandsOf_operands (xs : List Sexp) :
    operandsOf s labels (formAll (operands xs)) = operandsOf s labels (formAll xs) := by
  induction xs with
  | nil => rfl
  | cons x xs ih =>
    cases x with
    | atom text => exact ih
    | list items =>
      change operandsOf s labels (form (.list items) :: formAll (operands xs)) = _
      simp only [formAll, form, operandsOf, ih]

theorem operandsOf_immediates (xs : List Sexp) :
    operandsOf s labels (formAll (immediates xs)) = .ok [] := by
  rw [← operandsOf_operands, operands_immediates]
  rfl

/-- A body is code with nothing between it. -/
theorem codeOfAll_eq_ok {xs : List Sexp} {code : List Instr} :
    codeOfAll s labels (formAll xs) = .ok code ↔
      immediates xs = [] ∧ operandsOf s labels (formAll xs) = .ok code := by
  induction xs generalizing code with
  | nil => exact (and_iff_right rfl).symm
  | cons x xs ih =>
    cases x with
    | atom text =>
      refine ⟨fun h => ?_, fun h => ?_⟩
      · cases h
      · cases h.1
    | list items =>
      change _ ↔ immediates xs = [] ∧ operandsOf s labels (form (.list items) :: formAll xs) = _
      rw [operandsOf_cons, formAll, codeOfAll, bind_eq_ok]
      simp only [bind_eq_ok, pure_eq_ok, ih]
      constructor
      · rintro ⟨first, hfirst, rest, ⟨hnone, hrest⟩, hcode⟩
        exact ⟨hnone, first, hfirst, rest, hrest, hcode⟩
      · rintro ⟨hnone, first, hfirst, rest, hrest, hcode⟩
        exact ⟨first, hfirst, rest, ⟨hnone, hrest⟩, hcode⟩

/-- The code of a folded instruction is that of its operands, and then the instruction with its
atoms. -/
theorem codeOf_folded {op : String} (hblock : op ≠ "block") (hloop : op ≠ "loop")
    {items : List Sexp} {code : List Instr} :
    codeOf s labels (form (.list (.atom op :: items))) = .ok code ↔
      ∃ before, operandsOf s labels (formAll items) = .ok before ∧
        ∃ i, instrOf s labels 0 op (formAll (immediates items)) = .ok i ∧ before ++ [i] = code := by
  simp only [form, formAll, codeOf, hblock, hloop, or_self, if_false, atomsOf_formAll, bind_eq_ok,
    pure_eq_ok]

/-- No instruction starts with a word of a header. -/
theorem shape?_header {op : String}
    (h : op ∈ ["import", "export", "param", "result", "local"]) : shape? s labels op = none := by
  simp only [List.mem_cons, List.not_mem_nil, or_false] at h
  rcases h with rfl | rfl | rfl | rfl | rfl <;> rfl

theorem instrOf_word {op : String} {fs : List Form} {i : Instr} {offset : Nat}
    (h : instrOf s labels offset op fs = .ok i) :
    op ∉ ["import", "export", "param", "result", "local"] := by
  intro hword
  rw [instrOf, shape?_header hword] at h
  cases h

/-- What loads as code starts like no list of a header. -/
theorem codeOf_word {x : Sexp} {code : List Instr} (h : codeOf s labels x.form = .ok code) :
    ∃ op items, x = .list (.atom op :: items) ∧
      op ∉ ["import", "export", "param", "result", "local"] := by
  rcases x with _ | ⟨_ | ⟨⟨op⟩ | _, items⟩⟩
  case list.cons.atom =>
    refine ⟨op, items, rfl, ?_⟩
    by_cases hblock : op = "block"
    · rw [hblock]
      decide
    · by_cases hloop : op = "loop"
      · rw [hloop]
        decide
      · obtain ⟨-, -, i, hi, -⟩ := (codeOf_folded hblock hloop).mp h
        exact instrOf_word hi
  all_goals cases h

/-- The code of a block or a loop is that of its body. -/
theorem codeOf_body {op : String} (hop : op = "block" ∨ op = "loop") {items : List Sexp}
    {code : List Instr} :
    codeOf s labels (form (.list (.atom op :: items))) = .ok code ↔
      ∃ body, codeOfAll s (labels + 1) (formAll items) = .ok body ∧
        [if op = "block" then .block body else .loop body] = code := by
  -- a body that starts with a result is no code, so refusing it first makes no difference
  have hresult {body : List Instr} (h : codeOfAll s (labels + 1) (formAll items) = .ok body) :
      (formAll items).head?.bind Form.head? ≠ some "result" := by
    cases items with
    | nil => simp [formAll]
    | cons x items =>
      obtain ⟨first, hfirst, -⟩ := bind_eq_ok.mp h
      obtain ⟨word, inner, rfl, hword⟩ := codeOf_word hfirst
      rintro ⟨⟩
      exact hword (by decide)
  simp only [form, formAll, codeOf, if_pos hop]
  split
  · rename_i hhead
    refine ⟨fun h => ?_, fun ⟨body, hbody, _⟩ => absurd hhead (hresult hbody)⟩
    cases h
  · rw [bind_eq_ok]
    simp only [pure_eq_ok]

end Module

namespace Sexp.Unfolds

open StackScript.Module

variable {s : Surroundings} {xs ys : List Sexp} {code : List Instr}

/-- Replacing keeps the code: the operands are executed first either way. -/
theorem operandsOf (h : Unfolds xs ys) {labels : Nat}
    (hc : Module.operandsOf s labels (formAll xs) = .ok code) :
    Module.operandsOf s labels (formAll ys) = .ok code := by
  induction h generalizing labels code with
  | @here op items after hblock hloop =>
    obtain ⟨own, hown, rest, hrest, rfl⟩ := operandsOf_cons.mp hc
    obtain ⟨before, hbefore, i, hi, rfl⟩ := (codeOf_folded hblock hloop).mp hown
    -- without its operands the instruction has the same immediates and no code before it
    have hflat : codeOf s labels (form (.list (.atom op :: immediates items))) = .ok [i] := by
      refine (codeOf_folded hblock hloop).mpr ⟨[], operandsOf_immediates items, i, ?_, rfl⟩
      rwa [immediates_immediates]
    rw [List.append_assoc]
    refine operandsOf_append ?_ (operandsOf_cons.mpr ⟨[i], hflat, rest, hrest, rfl⟩)
    rwa [operandsOf_operands]
  | @inside op items items' after h ih =>
    obtain ⟨own, hown, rest, hrest, rfl⟩ := operandsOf_cons.mp hc
    refine operandsOf_cons.mpr ⟨own, ?_, rest, hrest, rfl⟩
    by_cases hop : op = "block" ∨ op = "loop"
    · obtain ⟨body, hbody, hown⟩ := (codeOf_body hop).mp hown
      obtain ⟨hnone, hbody⟩ := codeOfAll_eq_ok.mp hbody
      have hbody' := codeOfAll_eq_ok.mpr ⟨h.immediates_eq.trans hnone, ih hbody⟩
      exact (codeOf_body hop).mpr ⟨body, hbody', hown⟩
    · obtain ⟨hblock, hloop⟩ := not_or.mp hop
      obtain ⟨before, hbefore, i, hi, hown⟩ := (codeOf_folded hblock hloop).mp hown
      rw [← h.immediates_eq] at hi
      exact (codeOf_folded hblock hloop).mpr ⟨before, ih hbefore, i, hi, hown⟩
  | @behind x xs xs' _ ih =>
    cases x with
    | atom => exact ih hc
    | list items =>
      obtain ⟨own, hown, rest, hrest, rfl⟩ := operandsOf_cons.mp hc
      exact operandsOf_cons.mpr ⟨own, hown, rest, ih hrest, rfl⟩

/-- A body that loads is loaded as the same code once an instruction in it is unfolded. -/
theorem codeOfAll (h : Unfolds xs ys) {labels : Nat}
    (hc : Module.codeOfAll s labels (formAll xs) = .ok code) :
    Module.codeOfAll s labels (formAll ys) = .ok code := by
  obtain ⟨hnone, hcode⟩ := codeOfAll_eq_ok.mp hc
  exact codeOfAll_eq_ok.mpr ⟨h.immediates_eq.trans hnone, h.operandsOf hcode⟩

end Sexp.Unfolds

namespace Module

open Sexp

theorem operands_eq_nil_of_atoms {xs : List Sexp}
    (h : ∀ f ∈ formAll xs, f.atom?.isSome = true) : operands xs = [] := by
  induction xs with
  | nil => rfl
  | cons x xs ih =>
    obtain ⟨hx, hxs⟩ := List.forall_mem_cons.mp h
    cases x with
    | atom => exact ih hxs
    | list => cases hx

theorem wordTypes_atoms {what : String} {fs : List Form} {count : Nat}
    (h : wordTypes what fs = .ok count) : ∀ f ∈ fs, f.atom?.isSome = true := by
  induction fs generalizing count with
  | nil => simp
  | cons f fs ih =>
    rw [wordTypes] at h
    split at h
    · rename_i hatom
      cases hrest : wordTypes what fs with
      | error e =>
        rw [hrest] at h
        cases h
      | ok rest => exact List.forall_mem_cons.mpr ⟨by rw [hatom]; rfl, ih hrest⟩
    · cases h

theorem name?_atom {f : Form} {name : String} (h : f.name? = some name) :
    f.atom?.isSome = true := by
  cases f with
  | atom => rfl
  | list => cases h

theorem expectString_atom {f : Form} {what text : String} (h : expectString f what = .ok text) :
    f.atom?.isSome = true := by
  cases f with
  | atom => rfl
  | list => cases h

theorem declaredNames_atoms {what : String} {count : Nat} {fs : List Form} {names : List String}
    (h : declaredNames what count fs = .ok names) : ∀ f ∈ fs, f.atom?.isSome = true := by
  cases fs with
  | nil => simp
  | cons f fs =>
    rw [declaredNames] at h
    split at h
    · rename_i hname
      obtain ⟨types, htypes, -⟩ := bind_eq_ok.mp h
      exact List.forall_mem_cons.mpr ⟨name?_atom hname, wordTypes_atoms htypes⟩
    · obtain ⟨types, htypes, -⟩ := bind_eq_ok.mp h
      exact wordTypes_atoms htypes

/-- There are no lists inside a list of a header. -/
theorem headerForm_atoms {fn fn' : Function} {offset : Nat} {word : Form} {items : List Form}
    (h : headerForm fn (.list offset (word :: items)) = .ok (some fn')) :
    ∀ f ∈ items, f.atom?.isSome = true := by
  cases hheader : (Form.list offset (word :: items)).plain.isHeader with
  | false =>
    rw [headerForm_body fn hheader] at h
    cases h
  | true =>
    rcases header_cases hheader with ⟨o, p, module, field, hform⟩ | ⟨o, p, name, hform⟩ |
      ⟨o, p, word, items, hform, rfl | rfl | rfl⟩ <;> cases hform
    · obtain ⟨_, hmodule, h⟩ := bind_eq_ok.mp h
      obtain ⟨_, hfield, -⟩ := bind_eq_ok.mp h
      simp [expectString_atom hmodule, expectString_atom hfield]
    · obtain ⟨_, hname, -⟩ := bind_eq_ok.mp h
      simp [expectString_atom hname]
    · obtain ⟨_, hnames, -⟩ := bind_eq_ok.mp h
      exact declaredNames_atoms hnames
    · obtain ⟨_, htypes, -⟩ := bind_eq_ok.mp h
      exact wordTypes_atoms htypes
    · obtain ⟨_, hnames, -⟩ := bind_eq_ok.mp h
      exact declaredNames_atoms hnames

theorem headerForms_cons {fn fn' : Function} {f : Form} {fs body : List Form}
    (h : headerForms fn (f :: fs) = .ok (fn', body)) :
    (∃ next, headerForm fn f = .ok (some next) ∧ headerForms next fs = .ok (fn', body)) ∨
      fn' = fn ∧ body = f :: fs := by
  obtain ⟨_ | next, hfirst, hrest⟩ := bind_eq_ok.mp h
  · cases hrest
    exact .inr ⟨rfl, rfl⟩
  · exact .inl ⟨next, hfirst, hrest⟩

theorem isHeader_eq_false {op : String} {items : List Sexp}
    (h : op ∉ ["import", "export", "param", "result", "local"]) :
    (Sexp.list (.atom op :: items)).isHeader = false := by
  unfold isHeader
  split
  case h_6 => rfl
  all_goals
    rename_i heq
    cases heq
    exact absurd (by decide) h

/-- No header starts where code does. -/
theorem headerForms_code {s : Surroundings} {labels : Nat} {xs : List Sexp} {code : List Instr}
    (h : codeOfAll s labels (formAll xs) = .ok code) (fn : Function) :
    headerForms fn (formAll xs) = .ok (fn, formAll xs) := by
  cases xs with
  | nil => rfl
  | cons x xs =>
    obtain ⟨first, hfirst, -⟩ := bind_eq_ok.mp h
    obtain ⟨op, items, rfl, hop⟩ := codeOf_word hfirst
    have hnone : headerForm fn (form (.list (.atom op :: items))) = .ok none := by
      apply headerForm_body
      rw [← form, plain_form]
      exact isHeader_eq_false hop
    rw [formAll, headerForms, hnone]
    rfl

end Module

namespace Sexp.Unfolds

open StackScript.Module

variable {s : Surroundings} {xs ys : List Sexp} {code : List Instr}

/-- In a body, no header comes to stand before the rest. -/
theorem headerForms_body (h : Unfolds xs ys) (hc : Module.codeOfAll s 1 (formAll xs) = .ok code)
    (fn : Function) :
    ∃ body, Module.headerForms fn (formAll ys) = .ok (fn, body) ∧
      Module.codeOfAll s 1 body = .ok code ∧ body.isEmpty = (formAll xs).isEmpty := by
  have hcode := h.codeOfAll hc
  refine ⟨formAll ys, headerForms_code hcode fn, hcode, ?_⟩
  have hys : (formAll ys).isEmpty = false := by
    obtain ⟨y, rest, rfl⟩ := List.exists_cons_of_ne_nil h.ne_nil
    rfl
  rw [hys]
  cases h <;> rfl

/-- Replacing keeps the header and the code of a function. -/
theorem headerForms (h : Unfolds xs ys) {fn fn' : Function} {body : List Form}
    (hh : Module.headerForms fn (formAll xs) = .ok (fn', body))
    (hc : Module.codeOfAll s 1 body = .ok code) :
    ∃ body', Module.headerForms fn (formAll ys) = .ok (fn', body') ∧
      Module.codeOfAll s 1 body' = .ok code ∧ body'.isEmpty = body.isEmpty := by
  induction h generalizing fn with
  | @here op items after hblock hloop =>
    rcases headerForms_cons hh with ⟨next, hfirst, -⟩ | ⟨rfl, rfl⟩
    -- a list of the header has no operands, so nothing is replaced
    · have hnone := operands_eq_nil_of_atoms (headerForm_atoms hfirst)
      rw [hnone, immediates_eq_self hnone]
      exact ⟨body, hh, hc, rfl⟩
    · exact (Unfolds.here hblock hloop).headerForms_body hc fn'
  | @inside op items items' after h _ =>
    rcases headerForms_cons hh with ⟨next, hfirst, -⟩ | ⟨rfl, rfl⟩
    · exact absurd (operands_eq_nil_of_atoms (headerForm_atoms hfirst)) h.operands_ne_nil
    · exact (Unfolds.inside h).headerForms_body hc fn'
  | @behind x xs xs' h ih =>
    rcases headerForms_cons hh with ⟨next, hfirst, hrest⟩ | ⟨rfl, rfl⟩
    · obtain ⟨body', hh', hbody'⟩ := ih hrest
      refine ⟨body', ?_, hbody'⟩
      rw [formAll, Module.headerForms, hfirst]
      exact hh'
    · exact (Unfolds.behind h).headerForms_body hc fn'

/-- A list has no name. -/
theorem name?_of_isList {x : Sexp} (h : x.isList = true) : x.form.name? = none := by
  cases x with
  | atom => cases h
  | list => rfl

/-- What stands first stays, or it is a list before and after. -/
theorem first (h : Unfolds xs ys) :
    (∃ x xs' ys', xs = x :: xs' ∧ ys = x :: ys' ∧ Unfolds xs' ys') ∨
      (∀ f ∈ (formAll xs).head?, f.name? = none) ∧ ∀ f ∈ (formAll ys).head?, f.name? = none := by
  cases h with
  | behind h => exact .inl ⟨_, _, _, rfl, rfl, h⟩
  | inside h => exact .inr ⟨by rintro _ ⟨⟩; rfl, by rintro _ ⟨⟩; rfl⟩
  | @here op items after =>
    refine .inr ⟨by rintro _ ⟨⟩; rfl, ?_⟩
    cases hfirst : operands items with
    | nil =>
      rintro _ ⟨⟩
      rfl
    | cons y rest =>
      have hy : y ∈ operands items := by simp [hfirst]
      rintro _ ⟨⟩
      exact name?_of_isList (List.mem_filter.mp hy).2

theorem opened (h : Unfolds xs ys) {name : Option String} {p : Pending}
    (hp : Module.headerForms (untitled name) (formAll xs) >>= Module.opened 0 = .ok p)
    (hc : Module.codeOfAll s 1 p.body = .ok code) :
    ∃ q, Module.headerForms (untitled name) (formAll ys) >>= Module.opened 0 = .ok q ∧
      q.function = p.function ∧ q.offset = p.offset ∧ Module.codeOfAll s 1 q.body = .ok code := by
  obtain ⟨⟨fn, body⟩, hheader, hopened⟩ := bind_eq_ok.mp hp
  unfold Module.opened at hopened
  split at hopened
  · cases hopened
  · rename_i hresults
    split at hopened
    · cases hopened
    · rename_i himport
      cases hopened
      obtain ⟨body', hheader', hbody', hempty⟩ := h.headerForms hheader hc
      refine ⟨⟨fn, body', 0⟩, bind_eq_ok.mpr ⟨_, hheader', ?_⟩, rfl, rfl, hbody'⟩
      rw [Module.opened, if_neg hresults, hempty, if_neg himport]

/-- The header ends where it did, so the function is the same up to its body, and the body has the
same code. -/
theorem pendingOf (h : Unfolds xs ys) {p : Pending}
    (hp : Module.pendingOf 0 (formAll xs) = .ok p) (hc : Module.codeOfAll s 1 p.body = .ok code) :
    ∃ q, Module.pendingOf 0 (formAll ys) = .ok q ∧ q.function = p.function ∧ q.offset = p.offset ∧
      Module.codeOfAll s 1 q.body = .ok code := by
  have hunnamed (hxs : ∀ f ∈ (formAll xs).head?, f.name? = none)
      (hys : ∀ f ∈ (formAll ys).head?, f.name? = none) :
      ∃ q, Module.pendingOf 0 (formAll ys) = .ok q ∧ q.function = p.function ∧
        q.offset = p.offset ∧ Module.codeOfAll s 1 q.body = .ok code := by
    rw [pendingOf_unnamed 0 hxs] at hp
    rw [pendingOf_unnamed 0 hys]
    exact h.opened hp hc
  rcases h.first with ⟨x, xs', ys', rfl, rfl, h'⟩ | ⟨hxs, hys⟩
  · cases hname : x.form.name? with
    | none => exact hunnamed (by rintro _ ⟨⟩; exact hname) (by rintro _ ⟨⟩; exact hname)
    | some name =>
      rw [formAll, pendingOf_named 0 hname] at hp
      rw [formAll, pendingOf_named 0 hname]
      exact h'.opened hp hc
  · exact hunnamed hxs hys

end Sexp.Unfolds

namespace Module

open Sexp

theorem fieldsOf_append (pending : List Pending) (memory : Option MemoryImport) (a b : List Form) :
    fieldsOf pending memory (a ++ b) =
      fieldsOf pending memory a >>= fun r => fieldsOf r.1.reverse r.2 b := by
  induction a generalizing pending memory with
  | nil =>
    change _ = fieldsOf pending.reverse.reverse memory b
    rw [List.reverse_reverse, List.nil_append]
  | cons f a ih =>
    cases f with
    | atom => rfl
    | list offset items =>
      simp only [List.cons_append, fieldsOf]
      split
      · simp only [ih, bind_assoc]
      · split
        · rfl
        · simp only [ih, bind_assoc]
      · rfl

theorem fieldsOf_pending (pending : List Pending) (memory : Option MemoryImport) (fs : List Form) :
    fieldsOf pending memory fs =
      (fun r => (pending.reverse ++ r.1, r.2)) <$> fieldsOf [] memory fs := by
  induction fs generalizing pending memory with
  | nil =>
    change Except.ok (pending.reverse, memory) = Except.ok (pending.reverse ++ [], memory)
    rw [List.append_nil]
  | cons f fs ih =>
    cases f with
    | atom => rfl
    | list offset items =>
      simp only [fieldsOf]
      split
      · cases pendingOf offset items.tail with
        | error e => rfl
        | ok p =>
          change fieldsOf (p :: pending) memory fs = _ <$> fieldsOf [p] memory fs
          rw [ih (p :: pending), ih [p]]
          cases fieldsOf [] memory fs <;> simp
      · split
        · rfl
        · cases memoryOf offset items with
          | error e => rfl
          | ok m => exact ih pending (some m)
      · rfl

/-- The functions of a module, around one of them. -/
theorem fieldsOf_around {before after items : List Form} {ps : List Pending}
    {memory : Option MemoryImport} :
    fieldsOf [] none (before ++ .list 0 (.atom 0 "func" :: items) :: after) = .ok (ps, memory) ↔
      ∃ front m, fieldsOf [] none before = .ok (front, m) ∧ ∃ p, pendingOf 0 items = .ok p ∧
        ∃ back, fieldsOf [] m after = .ok (back, memory) ∧ front ++ p :: back = ps := by
  rw [fieldsOf_append, bind_eq_ok, Prod.exists]
  refine exists_congr fun front => exists_congr fun m => and_congr_right fun _ => ?_
  change (pendingOf 0 items >>= fun p => fieldsOf (p :: front.reverse) m after) = _ ↔ _
  rw [bind_eq_ok]
  refine exists_congr fun p => and_congr_right fun _ => ?_
  rw [fieldsOf_pending, map_eq_pure_bind, bind_eq_ok, Prod.exists]
  refine exists_congr fun back => ⟨?_, ?_⟩
  · rintro ⟨_, hback, hps⟩
    cases pure_eq_ok.mp hps
    exact ⟨hback, by simp⟩
  · rintro ⟨hback, rfl⟩
    exact ⟨memory, hback, by simp [pure_eq_ok]⟩

theorem signaturesOf_around {p q : Pending} (hf : q.function = p.function)
    (ho : q.offset = p.offset) (known : Table (Nat × Nat)) (front back : List Pending) :
    signaturesOf known (front ++ q :: back) = signaturesOf known (front ++ p :: back) := by
  induction front generalizing known with
  | nil => simp only [List.nil_append, signaturesOf, hf, ho]
  | cons r front ih => simp only [List.cons_append, signaturesOf, ih]

theorem bodiesOf_append (signatures : Table (Nat × Nat)) (a b : List Pending) :
    bodiesOf signatures (a ++ b) = do
      let first ← bodiesOf signatures a
      return first ++ (← bodiesOf signatures b) := by
  induction a with
  | nil =>
    change bodiesOf signatures b = bodiesOf signatures b >>= pure
    rw [bind_pure]
  | cons p a ih => simp only [List.cons_append, bodiesOf, ih, bind_assoc, pure_bind]

/-- The bodies of a module load one by one, so that of one function can be looked at apart from the
others. -/
theorem bodiesOf_around {signatures : Table (Nat × Nat)} {front back : List Pending} {p : Pending}
    {functions : List Function} :
    bodiesOf signatures (front ++ p :: back) = .ok functions ↔
      ∃ first, bodiesOf signatures front = .ok first ∧
        ∃ body, codeOfAll ⟨signatures, p.function.params ++ p.function.locals⟩ 1 p.body = .ok body ∧
          ∃ last, bodiesOf signatures back = .ok last ∧
            first ++ { p.function with body } :: last = functions := by
  rw [bodiesOf_append, bind_eq_ok]
  refine exists_congr fun first => and_congr_right fun _ => ?_
  simp only [bodiesOf, bind_assoc, pure_bind, bind_eq_ok, pure_eq_ok]

end Module

namespace Sexp

open StackScript.Module

variable {xs ys : List Sexp} {m : Module}

/-- A module is the same with one of its functions replaced. -/
theorem UnfoldsModule.ofForms (h : UnfoldsModule xs ys)
    (hm : Module.ofForms (formAll xs) = .ok m) : Module.ofForms (formAll ys) = .ok m := by
  obtain ⟨h⟩ := h
  simp only [formAll, form, formAll_append, ofForms_module, bind_eq_ok, Prod.exists] at hm ⊢
  obtain ⟨ps, memory, hfields, hassembled⟩ := hm
  obtain ⟨front, m₀, hfront, p, hp, back, hback, rfl⟩ := fieldsOf_around.mp hfields
  obtain ⟨signatures, hsignatures, hbodies⟩ := bind_eq_ok.mp hassembled
  obtain ⟨functions, hfunctions, hmodule⟩ := bind_eq_ok.mp hbodies
  obtain ⟨first, hfirst, body, hbody, last, hlast, rfl⟩ := bodiesOf_around.mp hfunctions
  -- the header is kept because the body after it is code: this needs the signatures first
  obtain ⟨q, hq, hfunction, hoffset, hbody'⟩ := h.pendingOf hp hbody
  refine ⟨front ++ q :: back, memory,
    fieldsOf_around.mpr ⟨front, m₀, hfront, q, hq, back, hback, rfl⟩,
    bind_eq_ok.mpr ⟨signatures, ?_, bind_eq_ok.mpr ⟨_, bodiesOf_around.mpr ?_, hmodule⟩⟩⟩
  · rwa [signaturesOf_around hfunction hoffset]
  · rw [← hfunction] at hbody' ⊢
    exact ⟨first, hfirst, body, hbody', last, hlast, rfl⟩

theorem UnfoldsModule.spelled (h : UnfoldsModule xs ys) (hs : SpelledAll xs) : SpelledAll ys := by
  obtain ⟨h⟩ := h
  obtain ⟨⟨hmodule, hfields⟩, hnil⟩ := hs
  refine ⟨⟨hmodule, ?_⟩, hnil⟩
  rw [spelledAll_iff, List.forall_mem_append, List.forall_mem_cons] at hfields ⊢
  obtain ⟨hbefore, ⟨hfunc, hitems⟩, hafter⟩ := hfields
  exact ⟨hbefore, ⟨hfunc, h.spelled hitems⟩, hafter⟩

theorem flatAll_iff : FlatAll xs ↔ ∀ x ∈ xs, x.Flat := by
  induction xs with
  | nil => simp [FlatAll]
  | cons x xs ih => simp [FlatAll, ih]

theorem flatAll_append (hx : FlatAll xs) (hy : FlatAll ys) : FlatAll (xs ++ ys) := by
  rw [flatAll_iff] at hx hy ⊢
  exact List.forall_mem_append.mpr ⟨hx, hy⟩

mutual

/-- No operands are left inside once all instructions are unfolded. -/
theorem flat_unfolded (x : Sexp) : FlatAll (unfolded x) := by
  match x with
  | .atom _ | .list [] | .list (.list _ :: _) => exact ⟨trivial, trivial⟩
  | .list (.atom op :: items) =>
    have hitems := flat_unfoldedAll items
    unfold unfolded
    split
    · rename_i hop
      refine ⟨?_, trivial⟩
      rwa [Flat, if_pos hop]
    · rename_i hop
      refine flatAll_append ?_ ⟨?_, trivial⟩
      · exact flatAll_iff.mpr fun y hy => flatAll_iff.mp hitems y (List.mem_filter.mp hy).1
      · rw [Flat, if_neg hop]
        exact operands_immediates _

theorem flat_unfoldedAll (xs : List Sexp) : FlatAll (unfoldedAll xs) := by
  match xs with
  | [] => trivial
  | x :: xs => exact flatAll_append (flat_unfolded x) (flat_unfoldedAll xs)

end

mutual

/-- All instructions are unfolded by replacing one at a time, the innermost first. -/
theorem unfolds_unfolded (x : Sexp) : Relation.ReflTransGen Unfolds [x] (unfolded x) := by
  match x with
  | .atom _ | .list [] | .list (.list _ :: _) => exact .refl
  | .list (.atom op :: items) =>
    have hitems : Relation.ReflTransGen Unfolds [.list (.atom op :: items)]
        [.list (.atom op :: unfoldedAll items)] :=
      (unfolds_unfoldedAll items).lift (fun items => [Sexp.list (.atom op :: items)])
        fun _ _ h => Unfolds.inside h
    unfold unfolded
    split
    · exact hitems
    · rename_i hop
      obtain ⟨hblock, hloop⟩ := not_or.mp hop
      exact hitems.tail (.here hblock hloop)

theorem unfolds_unfoldedAll (xs : List Sexp) :
    Relation.ReflTransGen Unfolds xs (unfoldedAll xs) := by
  match xs with
  | [] => exact .refl
  | x :: xs =>
    have hfirst := (unfolds_unfolded x).lift (· ++ xs) fun _ _ h => h.appended xs
    have hrest := (unfolds_unfoldedAll xs).lift (unfolded x ++ ·) fun _ _ h => h.prepended _
    exact hfirst.trans hrest

end

theorem unfolds_fields (done fields : List Sexp) :
    Relation.ReflTransGen UnfoldsModule [.list (.atom "module" :: (done ++ fields))]
      [.list (.atom "module" :: (done ++ fields.map unfoldedField))] := by
  induction fields generalizing done with
  | nil => exact .refl
  | cons x fields ih =>
    have hx : Relation.ReflTransGen UnfoldsModule [.list (.atom "module" :: (done ++ x :: fields))]
        [.list (.atom "module" :: (done ++ x.unfoldedField :: fields))] := by
      unfold unfoldedField
      split
      · rename_i items
        exact (unfolds_unfoldedAll items).lift
          (fun items =>
            [Sexp.list (.atom "module" :: (done ++ .list (.atom "func" :: items) :: fields))])
          fun _ _ h => UnfoldsModule.function h
      · exact .refl
    have hfields := ih (done ++ [x.unfoldedField])
    rw [List.append_assoc, List.append_assoc] at hfields
    exact hx.trans hfields

/-- The functions of a module are unfolded one after the other. -/
theorem unfolds_unfoldedModule (xs : List Sexp) :
    Relation.ReflTransGen UnfoldsModule xs (unfoldedModule xs) := by
  unfold unfoldedModule
  split
  · exact unfolds_fields [] _
  · exact .refl

theorem flat_unfoldedModule (xs : List Sexp) : FlatModule (unfoldedModule xs) := by
  intro fields items hxs hitems
  unfold unfoldedModule at hxs
  split at hxs
  · cases hxs
    obtain ⟨x, -, hx⟩ := List.mem_map.mp hitems
    unfold unfoldedField at hx
    split at hx
    · cases hx
      exact flat_unfoldedAll _
    · rename_i hfunc
      exact absurd hx (hfunc items)
  · rename_i hmodule
    exact absurd hxs (hmodule fields)

def LoadsAs (xs : List Sexp) (m : Module) : Prop :=
  (∃ text, ReadFrom text xs) ∧ ∀ text, ReadFrom text xs → Module.load text = .ok m

/-- Forms that can be written load from any of their texts or from none. -/
theorem loadsAs_iff : LoadsAs xs m ↔ SpelledAll xs ∧ Module.ofForms (formAll xs) = .ok m := by
  constructor
  · rintro ⟨⟨text, htext⟩, hloads⟩
    exact ⟨htext.spelled, (load_of_readFrom htext).mp (hloads text htext)⟩
  · rintro ⟨hspelled, hm⟩
    exact ⟨⟨_, readFrom_text hspelled⟩, fun text htext => (load_of_readFrom htext).mpr hm⟩

theorem LoadsAs.unfolds (h : LoadsAs xs m) (hu : UnfoldsModule xs ys) : LoadsAs ys m := by
  rw [loadsAs_iff] at h ⊢
  exact ⟨hu.spelled h.1, hu.ofForms h.2⟩

/-- Any number of replacements keeps the module. -/
theorem LoadsAs.reaches (h : LoadsAs xs m) (hu : Relation.ReflTransGen UnfoldsModule xs ys) :
    LoadsAs ys m := by
  induction hu with
  | refl => exact h
  | tail _ hstep ih => exact ih.unfolds hstep

theorem loadsAs_of_load {text : String} (hx : ReadFrom text xs) (hm : Module.load text = .ok m) :
    LoadsAs xs m :=
  loadsAs_iff.mpr ⟨hx.spelled, (load_of_readFrom hx).mp hm⟩

theorem exists_readFrom {text : String} (hm : Module.load text = .ok m) :
    ∃ xs, ReadFrom text xs := by
  obtain ⟨fs, hread, -⟩ := bind_eq_ok.mp hm
  exact ⟨plainAll fs, fs, hread, rfl⟩

/-- A text is read as one list of forms. -/
theorem ReadFrom.unique {text : String} (hx : ReadFrom text xs) (hy : ReadFrom text ys) :
    xs = ys := by
  obtain ⟨fs, hfs, rfl⟩ := hx
  obtain ⟨gs, hgs, rfl⟩ := hy
  rw [hfs] at hgs
  cases hgs
  rfl

end Sexp

/-- Operands mean the same inside an instruction and before it. Where a text loads, the forms with
one folded instruction replaced by its operands and then itself load as the same module. By such
replacements all operands come to stand outside, and the module is still the same. -/
theorem Module.load_unfolded {text : String} {m : Module} (hm : load text = .ok m) :
    ∃ xs, Sexp.ReadFrom text xs ∧
      (∀ ys, Sexp.UnfoldsModule xs ys → Sexp.LoadsAs ys m) ∧
      Relation.ReflTransGen Sexp.UnfoldsModule xs (Sexp.unfoldedModule xs) ∧
      Sexp.FlatModule (Sexp.unfoldedModule xs) ∧ Sexp.LoadsAs (Sexp.unfoldedModule xs) m := by
  obtain ⟨xs, hx⟩ := Sexp.exists_readFrom hm
  have hloads := Sexp.loadsAs_of_load hx hm
  exact ⟨xs, hx, fun ys => hloads.unfolds, Sexp.unfolds_unfoldedModule xs,
    Sexp.flat_unfoldedModule xs, hloads.reaches (Sexp.unfolds_unfoldedModule xs)⟩

def Sexp.doubling (body : List Sexp) : List Sexp :=
  [.list [.atom "module", .list (.atom "func" :: .atom "$f" ::
    .list [.atom "param", .atom "$x", .atom "i32"] :: .list [.atom "result", .atom "i32"] :: body)]]

/-- The function calls itself. The argument stands before its name, with a block ahead of it. -/
def Sexp.foldedCall : List Sexp :=
  [.list [.atom "call",
    .list [.atom "block", .list [.atom "drop", .list [.atom "local.get", .atom "$x"]]],
    .list [.atom "i32.add", .list [.atom "local.get", .atom "$x"],
      .list [.atom "local.get", .atom "$x"]],
    .atom "$f"]]

/-- The same call behind its operands. -/
def Sexp.flatCall : List Sexp :=
  [.list [.atom "block", .list [.atom "local.get", .atom "$x"], .list [.atom "drop"]],
    .list [.atom "local.get", .atom "$x"], .list [.atom "local.get", .atom "$x"],
    .list [.atom "i32.add"], .list [.atom "call", .atom "$f"]]

theorem Module.load_unfolded_call :
    ∃ m, load (Sexp.textAll (Sexp.doubling Sexp.foldedCall)) = .ok m ∧
      m.functions.map Function.body = [[.block [.localGet "x", .drop], .localGet "x",
        .localGet "x", .num .add, .call "f" 1 1]] ∧
      Sexp.unfoldedModule (Sexp.doubling Sexp.foldedCall) = Sexp.doubling Sexp.flatCall ∧
      Sexp.LoadsAs (Sexp.doubling Sexp.flatCall) m := by
  let f (body : List Instr) : Function := ⟨some "f", ["x"], 1, [], body, none, none⟩
  let code : List Instr :=
    [.block [.localGet "x", .drop], .localGet "x", .localGet "x", .num .add, .call "f" 1 1]
  let pending : List Pending := [⟨f [], Sexp.formAll Sexp.foldedCall, 0⟩]
  have hfields : fieldsOf [] none [.list 0 (.atom 0 "func" :: .atom 0 "$f" ::
      .list 0 [.atom 0 "param", .atom 0 "$x", .atom 0 "i32"] ::
      .list 0 [.atom 0 "result", .atom 0 "i32"] :: Sexp.formAll Sexp.foldedCall)] =
      .ok (pending, none) := rfl
  have hsignatures : signaturesOf .empty pending = .ok (Table.empty.insert "f" (1, 1)) := rfl
  have hbodies : bodiesOf (Table.empty.insert "f" (1, 1)) pending = .ok [f code] := rfl
  have hcode : ofForms (Sexp.formAll (Sexp.doubling Sexp.foldedCall)) = .ok ⟨[f code], none⟩ := by
    simp only [Sexp.doubling, Sexp.formAll, Sexp.form]
    rw [ofForms_module, bind_eq_ok]
    exact ⟨_, hfields, bind_eq_ok.mpr ⟨_, hsignatures, bind_eq_ok.mpr ⟨_, hbodies, rfl⟩⟩⟩
  have hspelled : Sexp.SpelledAll (Sexp.doubling Sexp.foldedCall) := by
    simp only [Sexp.doubling, Sexp.foldedCall, Sexp.SpelledAll, Sexp.Spelled, and_true]
    repeat' apply And.intro
    all_goals exact .bare (by decide) (by decide)
  have hread := Sexp.readFrom_text hspelled
  have hm := (load_of_readFrom hread).mpr hcode
  have hflat : Sexp.unfoldedModule (Sexp.doubling Sexp.foldedCall) = Sexp.doubling Sexp.flatCall :=
    rfl
  obtain ⟨xs, hxs, -, -, -, hloads⟩ := load_unfolded hm
  rw [hxs.unique hread, hflat] at hloads
  exact ⟨_, hm, rfl, hflat, hloads⟩

end StackScript
