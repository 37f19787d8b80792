import StackScript.Proofs.Loading
import StackScript.Proofs.Scopes
import StackScript.Proofs.Structured

namespace StackScript

namespace Instr

mutual

theorem Fits.within {signature? : String → Option (Nat × Nat)} {locals : List String}
    {labels : Nat} {i : Instr} (h : i.Fits signature? locals labels) : i.Within labels := by
  match i with
  | .br _ | .brIf _ => exact h.1
  | .block body | .loop body =>
    have hbody : FitsAll signature? locals (labels + 1) body := h
    exact FitsAll.within hbody
  | .const _ | .address .. | .num _ | .load | .store | .localGet _ | .localSet _ | .call .. | .drop
  | .nop | .ret => trivial

theorem FitsAll.within {signature? : String → Option (Nat × Nat)} {locals : List String}
    {labels : Nat} {code : List Instr} (h : FitsAll signature? locals labels code) :
    WithinAll labels code := by
  match code with
  | [] => trivial
  | i :: code => exact ⟨Fits.within h.1, FitsAll.within h.2⟩

end

end Instr

theorem Text.nat32?_le {text : String} {n : Nat} (h : nat32? text = some n) : n ≤ 4294967295 := by
  obtain ⟨k, -, hk⟩ := Option.bind_eq_some_iff.mp h
  split at hk
  · cases hk
    assumption
  · cases hk

namespace Module

open Instr

variable {s : Surroundings} {labels offset : Nat}

theorem depthOf_fits {depth : Nat} {f : Form} (h : depthOf labels f = .ok depth) :
    depth < labels ∧ depth ≤ 4294967295 := by
  unfold depthOf at h
  split at h
  · cases h
  · rename_i n hn
    split at h
    · cases h
      obtain ⟨text, -, htext⟩ := Option.bind_eq_some_iff.mp hn
      exact ⟨by assumption, Text.nat32?_le htext⟩
    · cases h

theorem localOf_mem {name : String} {f : Form} (h : localOf s f = .ok name) : name ∈ s.locals := by
  unfold localOf at h
  split at h
  · cases h
  · split at h
    · rename_i hmem
      cases h
      simpa using hmem
    · cases h

theorem map_eq_ok {α β : Type} {x : Except LoadError α} {f : α → β} {b : β}
    (h : f <$> x = .ok b) : ∃ a, x = .ok a ∧ f a = b := by
  cases x with
  | error e => cases h
  | ok a => exact ⟨a, rfl, Except.ok.inj h⟩

theorem callOf_fits {f : Form} {i : Instr} (h : callOf s f = .ok i) :
    i.Fits s.signatures.get? s.locals labels := by
  unfold callOf at h
  split at h
  · cases h
  · split at h
    · rename_i hsignature
      cases h
      exact hsignature
    · cases h

/-- Every instruction of this shape refers to what is there. -/
def Shape.Fits (s : Surroundings) (labels : Nat) : Shape → Prop
  | .plain i => i.Fits s.signatures.get? s.locals labels
  | .immediate parse => ∀ f i, parse f = .ok i → i.Fits s.signatures.get? s.locals labels

/-- The word of an instruction fixes what it refers to, and its atom is looked up in the
surroundings. -/
theorem shape?_fits {op : String} {shape : Shape} (h : shape? s labels op = some shape) :
    shape.Fits s labels := by
  unfold shape? at h
  split at h
  case h_6 =>
    cases h
    exact fun f i hi => callOf_fits hi
  case h_4 | h_5 =>
    cases h
    intro f i hi
    obtain ⟨name, hname, rfl⟩ := map_eq_ok hi
    exact localOf_mem hname
  case h_7 | h_8 =>
    cases h
    intro f i hi
    obtain ⟨depth, hdepth, rfl⟩ := map_eq_ok hi
    exact depthOf_fits hdepth
  case h_12 =>
    obtain ⟨num, -, rfl⟩ := Option.map_eq_some_iff.mp h
    trivial
  case h_1 =>
    cases h
    intro f i hi
    obtain ⟨_, -, rfl⟩ := map_eq_ok hi
    trivial
  all_goals
    cases h
    trivial

theorem instrOf_fits {op : String} {atoms : List Form} {i : Instr}
    (h : instrOf s labels offset op atoms = .ok i) : i.Fits s.signatures.get? s.locals labels := by
  unfold instrOf at h
  split at h
  · cases h
  · next hs =>
    split at h <;> cases h
    exact shape?_fits hs
  · next hs =>
    split at h
    · exact shape?_fits hs _ _ h
    · cases h

mutual

/-- A form is read as code that refers to what is there. -/
theorem codeOf_fits {labels : Nat} {f : Form} {code : List Instr}
    (h : codeOf s labels f = .ok code) : FitsAll s.signatures.get? s.locals labels code := by
  match f with
  | .atom _ _ | .list _ [] | .list _ (.list _ _ :: _) => cases h
  | .list offset (.atom _ op :: items) =>
    simp only [codeOf] at h
    split at h
    · split at h
      · cases h
      · obtain ⟨body, hbody, h⟩ := bind_eq_ok.mp h
        cases h
        have hw := codeOfAll_fits hbody
        split <;> exact ⟨hw, trivial⟩
    · obtain ⟨operands, hoperands, h⟩ := bind_eq_ok.mp h
      obtain ⟨i, hi, h⟩ := bind_eq_ok.mp h
      cases h
      exact fitsAll_append.mpr ⟨operandsOf_fits hoperands, instrOf_fits hi, trivial⟩

theorem codeOfAll_fits {labels : Nat} {fs : List Form} {code : List Instr}
    (h : codeOfAll s labels fs = .ok code) : FitsAll s.signatures.get? s.locals labels code := by
  match fs with
  | [] =>
    cases h
    trivial
  | f :: fs =>
    simp only [codeOfAll] at h
    obtain ⟨first, hfirst, h⟩ := bind_eq_ok.mp h
    obtain ⟨rest, hrest, h⟩ := bind_eq_ok.mp h
    cases h
    exact fitsAll_append.mpr ⟨codeOf_fits hfirst, codeOfAll_fits hrest⟩

theorem operandsOf_fits {labels : Nat} {fs : List Form} {code : List Instr}
    (h : operandsOf s labels fs = .ok code) : FitsAll s.signatures.get? s.locals labels code := by
  match fs with
  | [] =>
    cases h
    trivial
  | .atom _ _ :: fs =>
    simp only [operandsOf] at h
    exact operandsOf_fits h
  | .list offset items :: fs =>
    simp only [operandsOf] at h
    obtain ⟨first, hfirst, h⟩ := bind_eq_ok.mp h
    obtain ⟨rest, hrest, h⟩ := bind_eq_ok.mp h
    cases h
    exact fitsAll_append.mpr ⟨codeOf_fits hfirst, operandsOf_fits hrest⟩

end

/-- Each body is read with the variables of its own function around it. -/
theorem bodiesOf_fits {signatures : Table (Nat × Nat)} {pending : List Pending}
    {functions : List Function} (h : bodiesOf signatures pending = .ok functions) :
    ∀ f ∈ functions, FitsAll signatures.get? (f.params ++ f.locals) 1 f.body := by
  induction pending generalizing functions with
  | nil =>
    cases h
    simp
  | cons p pending ih =>
    simp only [bodiesOf] at h
    obtain ⟨body, hbody, h⟩ := bind_eq_ok.mp h
    obtain ⟨rest, hrest, h⟩ := bind_eq_ok.mp h
    cases h
    exact List.forall_mem_cons.mpr ⟨codeOfAll_fits hbody, ih hrest⟩

/-- Reading the bodies leaves what functions take and give. -/
theorem signatureIn_bodiesOf {signatures : Table (Nat × Nat)} {pending : List Pending}
    {functions : List Function} (h : bodiesOf signatures pending = .ok functions) (name : String) :
    signatureIn functions name = signatureIn (pending.map (·.function)) name := by
  induction pending generalizing functions with
  | nil =>
    cases h
    rfl
  | cons p pending ih =>
    simp only [bodiesOf] at h
    obtain ⟨body, -, h⟩ := bind_eq_ok.mp h
    obtain ⟨rest, hrest, h⟩ := bind_eq_ok.mp h
    cases h
    have ih := ih hrest
    unfold signatureIn at ih ⊢
    by_cases hname : p.function.name == some name
    · simp [hname]
    · simp [hname, ih]

/-- A table of signatures tells of the functions it was made from, since no name stands twice. -/
theorem signaturesOf_get? {pending : List Pending} {known signatures : Table (Nat × Nat)}
    (h : signaturesOf known pending = .ok signatures) (name : String) :
    signatures.get? name = (known.get? name).or (signatureIn (pending.map (·.function)) name) := by
  induction pending generalizing known with
  | nil =>
    cases h
    simp [signatureIn]
  | cons p pending ih =>
    rw [signaturesOf] at h
    split at h
    · rename_i hnone
      rw [ih h]
      simp [signatureIn, hnone]
    · rename_i own hown
      split at h
      · cases h
      · rename_i hfresh
        rw [ih h]
        by_cases hname : name = own
        · subst hname
          have hknown : known.get? name = none := by simpa [Table.contains] using hfresh
          simp [signatureIn, hown, hknown]
        · have hother : ¬own = name := fun he => hname he.symm
          simp [signatureIn, hown, hname, hother]

/-- The code of a module that loads refers to what is there. -/
theorem load_fits {text : String} {m : Module} (h : load text = .ok m) :
    ∀ f ∈ m.functions, FitsAll (signatureIn m.functions) (f.params ++ f.locals) 1 f.body := by
  obtain ⟨forms, -, h⟩ := bind_eq_ok.mp h
  unfold ofForms at h
  split at h
  · split at h
    · obtain ⟨⟨pending, memory⟩, -, h⟩ := bind_eq_ok.mp h
      obtain ⟨signatures, hsignatures, h⟩ := bind_eq_ok.mp h
      obtain ⟨functions, hfunctions, h⟩ := bind_eq_ok.mp h
      cases h
      have hsame : signatures.get? = signatureIn functions := by
        funext name
        rw [signaturesOf_get? hsignatures, signatureIn_bodiesOf hfunctions]
        rfl
      exact hsame ▸ bodiesOf_fits hfunctions
    · cases h
  · cases h

/-- No branch of a module that loads leaves its function further than to its body. -/
theorem load_within {text : String} {m : Module} (h : load text = .ok m) : m.Within :=
  fun f hf => (load_fits h f hf).within

end Module

end StackScript
