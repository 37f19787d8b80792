import StackScript.Proofs.Scopes

namespace StackScript

namespace Table

variable {α : Type}

theorem lookup_perm {es fs : List (String × α)} (h : es.Perm fs) (hd : (es.map (·.1)).Nodup)
    (name : String) : es.lookup name = fs.lookup name := by
  induction h with
  | nil => rfl
  | cons e _ ih =>
    obtain ⟨key, value⟩ := e
    rw [List.lookup_cons, List.lookup_cons, ih (List.nodup_cons.mp hd).2]
  | swap e f es =>
    obtain ⟨key, value⟩ := e
    obtain ⟨other, value'⟩ := f
    have hne : other ≠ key := by
      rintro rfl
      exact (List.nodup_cons.mp hd).1 (by simp)
    by_cases ho : name = other
    · simp [ho, List.lookup_cons, beq_false_of_ne hne]
    · simp [List.lookup_cons, beq_false_of_ne ho]
  | trans h₁ _ ih₁ ih₂ => exact (ih₁ hd).trans (ih₂ ((h₁.map (·.1)).nodup hd))

/-- With distinct names the order of entries makes no difference. -/
theorem Distinct.get?_perm {t u : Table α} (hu : u.Distinct) (h : t.entries.Perm u.entries)
    (name : String) : t.get? name = u.get? name :=
  (lookup_perm h.symm hu name).symm

theorem Distinct.perm {t u : Table α} (hu : u.Distinct) (h : t.entries.Perm u.entries) :
    t.Distinct :=
  (h.symm.map fun e : String × α => e.1).nodup hu

end Table

namespace Layer

structure Reorders (l m : Layer) : Prop where
  vars : l.vars.entries.Perm m.vars.entries
  funcs : l.funcs.entries.Perm m.funcs.entries

theorem Reorders.refl (l : Layer) : l.Reorders l := ⟨.refl _, .refl _⟩

theorem Reorders.get?_eq {l m : Layer} (h : l.Reorders m) (hm : m.Sound) (name : String) :
    l.get? name = m.get? name := by
  simp only [get?, hm.vars.get?_perm h.vars name, hm.funcs.get?_perm h.funcs name]

theorem Reorders.sound {l m : Layer} (h : l.Reorders m) (hm : m.Sound) : l.Sound where
  vars := hm.vars.perm h.vars
  funcs := hm.funcs.perm h.funcs
  apart := by
    intro name hv
    rw [hm.vars.get?_perm h.vars] at hv
    rw [hm.funcs.get?_perm h.funcs]
    exact hm.apart name hv

def Overlays (l top flat : Layer) : Prop := ∃ listed, Reorders listed top ∧ flat = l.overlay listed

theorem overlays_overlay (l top : Layer) : l.Overlays top (l.overlay top) :=
  ⟨top, .refl top, rfl⟩

theorem Overlays.sound {l top flat : Layer} (h : l.Overlays top flat) (hl : l.Sound) :
    flat.Sound := by
  obtain ⟨listed, _, rfl⟩ := h
  exact hl.overlay

/-- A name means what the upper layer says, and else what the lower one does, in whatever order the
entries were taken. -/
theorem Overlays.get?_eq {l top flat : Layer} (h : l.Overlays top flat) (ht : top.Sound)
    (name : String) : flat.get? name = (top.get? name).or (l.get? name) := by
  obtain ⟨listed, hlisted, rfl⟩ := h
  rw [get?_overlay (hlisted.sound ht), hlisted.get?_eq ht]

/-- `flat` is what layers, the innermost first, come to as one, each laid over those around it with
its entries in some order. -/
inductive Flattens : List Layer → Layer → Prop
  | nil : Flattens [] .empty
  | cons {l below flat : Layer} {ls : List Layer} (around : Flattens ls below)
      (laid : below.Overlays l flat) : Flattens (l :: ls) flat

theorem flattens_foldr (ls : List Layer) :
    Flattens ls (ls.foldr (fun l (flat : Layer) => flat.overlay l) .empty) := by
  induction ls with
  | nil => exact .nil
  | cons l ls ih => exact .cons ih (overlays_overlay _ l)

theorem Flattens.sound {ls : List Layer} {flat : Layer} (h : Flattens ls flat) : flat.Sound := by
  induction h with
  | nil => exact sound_empty
  | cons _ laid ih => exact laid.sound ih

/-- The innermost layer that knows a name decides, in whatever order the entries were taken. -/
theorem Flattens.get?_eq {ls : List Layer} {flat : Layer} (h : Flattens ls flat)
    (hs : ∀ l ∈ ls, l.Sound) (name : String) :
    flat.get? name = ls.findSome? (·.get? name) := by
  induction h with
  | nil => rfl
  | @cons l below flat ls _ laid ih =>
    obtain ⟨hl, hls⟩ := List.forall_mem_cons.mp hs
    rw [laid.get?_eq hl, ih hls, List.findSome?_cons]
    cases l.get? name <;> rfl

end Layer

namespace Scopes

inductive Declaration where
  | variable (checked : Bool) (name : String) (type : Ty) (at_ : Position)
  | function (checked : Bool) (name : String) (sig : Signature) (at_ : Position)

namespace Declaration

def attempt (s : Scopes) : Declaration → Except Diagnostic Unit × Scopes
  | .variable checked name type at_ => s.put checked name (.variable type) at_
  | .function checked name sig at_ => s.put checked name (.function sig) at_

/-- The name is in use: in the innermost layer, or, for a declaration that is checked, around it as
something that it may not hide. -/
def Taken (s : Scopes) : Declaration → Prop
  | .variable checked name _ _ =>
    s.inner.get? name ≠ none ∨ checked = true ∧ ∃ sig, s.lookupOuter name = some (.function sig)
  | .function checked name _ _ =>
    s.inner.get? name ≠ none ∨ checked = true ∧ s.lookupOuter name ≠ none

end Declaration

inductive Change where
  | push (layer : Layer)
  | pop
  | overlay (top : Layer)
  | declare (declaration : Declaration)

def Change.Sound : Change → Prop
  | .push layer => layer.Sound
  | .overlay top => top.Sound
  | .pop | .declare _ => True

/-- What a change answers, and what it makes of scopes. -/
inductive Becomes (s : Scopes) : Change → Except Diagnostic Unit → Scopes → Prop
  | push (layer : Layer) : Becomes s (.push layer) (.ok ()) (s.push layer)
  | pop {layer : Layer} {s' : Scopes} (popped : s.pop? = some (layer, s')) :
      Becomes s .pop (.ok ()) s'
  | last (only : s.pop? = none) : Becomes s .pop (.ok ()) s
  | overlay {top flat : Layer} (laid : s.inner.Overlays top flat) :
      Becomes s (.overlay top) (.ok ()) { s with inner := flat }
  | declare (c : Declaration) : Becomes s (.declare c) (c.attempt s).1 (c.attempt s).2

/-- Scopes that changes lead to, from one empty layer or from the declarations of earlier units. -/
inductive Reached : Scopes → Prop
  | empty : Reached .empty
  | seeded {seed : Layer} (sound : seed.Sound) : Reached (.seeded seed)
  | step {s s' : Scopes} {c : Change} {answer : Except Diagnostic Unit} (before : Reached s)
      (sound : c.Sound) (becomes : s.Becomes c answer s') : Reached s'

theorem Sound.inner {s : Scopes} (h : s.Sound) : s.inner.Sound := (List.forall_mem_cons.mp h).1

theorem Sound.outer {s : Scopes} (h : s.Sound) : ∀ l ∈ s.outer, l.Sound :=
  (List.forall_mem_cons.mp h).2

/-- A declaration is refused, and then it changes nothing, or it adds its name to the innermost layer. -/
theorem put_cases (s : Scopes) (checked : Bool) (name : String) (b : Binding) (at_ : Position) :
    (s.inner.contains name || checked && s.conflictsOuter name b.isFunction) = true ∧
        s.put checked name b at_ = (.error ⟨.duplicateDeclaration name, at_⟩, s) ∨
      (s.inner.contains name || checked && s.conflictsOuter name b.isFunction) = false ∧
        s.put checked name b at_ = (.ok (), { s with inner := s.inner.insert name b }) := by
  unfold put
  cases hi : s.inner.contains name <;>
    cases hc : checked && s.conflictsOuter name b.isFunction <;> simp [Layer.put, hi]

section Put

variable {s : Scopes} {checked : Bool} {name : String} {b : Binding} {at_ : Position}

theorem put_error_iff : (∃ d, (s.put checked name b at_).1 = .error d) ↔
    (s.inner.contains name || checked && s.conflictsOuter name b.isFunction) = true := by
  rcases s.put_cases checked name b at_ with ⟨hc, hput⟩ | ⟨hc, hput⟩ <;> simp [hput, hc]

/-- A declaration that fails leaves all layers as they were. -/
theorem put_error {d : Diagnostic} (h : (s.put checked name b at_).1 = .error d) :
    (s.put checked name b at_).2 = s := by
  rcases s.put_cases checked name b at_ with ⟨_, hput⟩ | ⟨_, hput⟩
  · rw [hput]
  · rw [hput] at h
    cases h

/-- A layer in which the declared name was free stays sound. -/
theorem put_sound (hs : s.Sound) : (s.put checked name b at_).2.Sound := by
  rcases s.put_cases checked name b at_ with ⟨_, hput⟩ | ⟨hc, hput⟩
  · rwa [hput]
  · have hfree := Layer.contains_iff.mp (Bool.or_eq_false_iff.mp hc).1
    rw [hput]
    rcases b with type | sig
    · exact hs.withVariable type hfree
    · exact hs.withFunction sig hfree

end Put

/-- Every change keeps layers sound, refused declarations included. -/
theorem Becomes.sound {s s' : Scopes} {c : Change} {answer : Except Diagnostic Unit}
    (h : s.Becomes c answer s') (hs : s.Sound) (hc : c.Sound) : s'.Sound := by
  cases h with
  | push layer => exact List.forall_mem_cons.mpr ⟨hc, hs⟩
  | pop popped =>
    obtain ⟨inner, outer⟩ := s
    cases outer with
    | nil => cases popped
    | cons l ls =>
      cases popped
      exact hs.outer
  | last only => exact hs
  | overlay laid => exact List.forall_mem_cons.mpr ⟨laid.sound hs.inner, hs.outer⟩
  | declare c => cases c <;> exact put_sound hs

/-- Layers are sound whatever has been done to scopes. -/
theorem Reached.sound {s : Scopes} (h : s.Reached) : s.Sound := by
  induction h with
  | empty => exact List.forall_mem_cons.mpr ⟨Layer.sound_empty, fun _ hl => nomatch hl⟩
  | seeded sound =>
    refine List.forall_mem_cons.mpr ⟨Layer.sound_empty, fun l hl => ?_⟩
    rwa [List.mem_singleton.mp hl]
  | step _ sound becomes ih => exact becomes.sound ih sound

theorem contains_inner {s : Scopes} {name : String} :
    s.inner.contains name = true ↔ s.inner.get? name ≠ none := by
  rw [ne_eq, ← Layer.contains_iff, Bool.not_eq_false]

theorem Declaration.taken_variable (s : Scopes) (checked : Bool) (name : String) (type : Ty)
    (at_ : Position) : (Declaration.variable checked name type at_).Taken s ↔
      (s.inner.contains name || checked && s.conflictsOuter name false) = true := by
  rw [Bool.or_eq_true, Bool.and_eq_true, contains_inner, conflictsOuter_variable, Taken]

theorem Declaration.taken_function (s : Scopes) (checked : Bool) (name : String) (sig : Signature)
    (at_ : Position) : (Declaration.function checked name sig at_).Taken s ↔
      (s.inner.contains name || checked && s.conflictsOuter name true) = true := by
  rw [Bool.or_eq_true, Bool.and_eq_true, contains_inner, conflictsOuter_function, Taken]

/-- Declarations fail for names that are in use, and for no other reason. -/
theorem Declaration.attempt_error_iff (s : Scopes) (c : Declaration) :
    (∃ d, (c.attempt s).1 = .error d) ↔ c.Taken s := by
  rcases c with ⟨checked, name, type, at_⟩ | ⟨checked, name, sig, at_⟩
  · exact put_error_iff.trans (taken_variable ..).symm
  · exact put_error_iff.trans (taken_function ..).symm

theorem Declaration.attempt_error {s : Scopes} {c : Declaration} {d : Diagnostic}
    (h : (c.attempt s).1 = .error d) : (c.attempt s).2 = s := by
  cases c <;> exact put_error h

/-- Whatever has been done to scopes: there is a layer, no layer has a name for two things, a
declaration fails only for a name in use and then changes nothing, and all layers as one, whatever
order their entries are taken in, mean the same. So an expression has the same type, or is refused
alike, in one layer that this is laid into. -/
theorem flattening_keeps_meanings {s : Scopes} (h : s.Reached) :
    s.layers ≠ [] ∧
    (∀ l ∈ s.layers, ∀ name, ¬ (l.vars.contains name = true ∧ l.funcs.contains name = true)) ∧
    (∀ c : Declaration, (∃ d s', s.Becomes (.declare c) (.error d) s') ↔ c.Taken s) ∧
    (∀ c d s', s.Becomes c (.error d) s' → s'.layers = s.layers) ∧
    (∀ flat, Layer.Flattens s.layers flat →
      (∀ name, flat.get? name = s.lookup name) ∧
      ∀ one, Layer.empty.Overlays flat one → ∀ e : Expr, e.typeIn ⟨one, []⟩ = e.typeIn s) ∧
    Layer.Flattens s.layers s.flatten := by
  have hs := h.sound
  refine ⟨List.cons_ne_nil _ _, ?_, ?_, ?_, ?_, Layer.flattens_foldr s.layers⟩
  · rintro l hl name ⟨hv, hf⟩
    have hnone := (hs l hl).apart name (by
      intro hn
      simp [Table.contains, hn] at hv)
    simp [Table.contains, hnone] at hf
  · intro c
    rw [← Declaration.attempt_error_iff]
    constructor
    · rintro ⟨d, s', hb⟩
      generalize hanswer : Except.error d = answer at hb
      cases hb with
      | declare => exact ⟨d, hanswer.symm⟩
    · rintro ⟨d, hd⟩
      refine ⟨d, (c.attempt s).2, ?_⟩
      rw [← hd]
      exact .declare c
  · intro c d s' hb
    generalize hanswer : Except.error d = answer at hb
    cases hb with
    | declare c => rw [Declaration.attempt_error hanswer.symm]
    | _ => cases hanswer
  · intro flat hflat
    have hmeaning (name : String) : flat.get? name = s.lookup name := hflat.get?_eq hs name
    refine ⟨hmeaning, fun one hone e => Expr.typeIn_congr (fun name => ?_) e⟩
    calc (⟨one, []⟩ : Scopes).lookup name = one.get? name := by
          rw [lookup_eq]
          exact Option.or_none
      _ = flat.get? name := by
          rw [hone.get?_eq hflat.sound]
          exact Option.or_none
      _ = s.lookup name := hmeaning name

/-- A variable and a function, and a block in which each name stands for the other kind of thing; a
second declaration of the function is refused on the way. -/
theorem flattening_keeps_meanings_swapped :
    let sig : Signature := ⟨[.int], .bool⟩
    let unit : Scopes := ⟨⟨⟨[("x", .int)]⟩, ⟨[("f", sig)]⟩⟩, []⟩
    let block : Scopes := ⟨⟨⟨[("f", .int)]⟩, ⟨[("x", sig)]⟩⟩, [unit.inner]⟩
    unit.Reached ∧ (Declaration.variable false "f" .int .nowhere).Taken unit ∧ block.Reached ∧
      block.flatten.get? "x" = some (.function sig) ∧
      block.flatten.get? "f" = some (.variable .int) ∧
      ∀ e : Expr, e.typeIn ⟨Layer.empty.overlay block.flatten, []⟩ = e.typeIn block := by
  intro sig unit block
  have hfirst : Scopes.Reached ⟨⟨⟨[("x", .int)]⟩, .empty⟩, []⟩ :=
    .step (c := .declare (.variable true "x" .int .nowhere)) .empty trivial (.declare _)
  have hunit : unit.Reached :=
    .step (c := .declare (.function true "f" sig .nowhere)) hfirst trivial (.declare _)
  have hrefused : unit.Becomes (.declare (.variable false "f" .int .nowhere))
      (.error ⟨.duplicateDeclaration "f", .nowhere⟩) unit := .declare _
  have hvariable : Layer.Sound ⟨⟨[("f", .int)]⟩, .empty⟩ :=
    ⟨List.pairwise_singleton _ _, List.nodup_nil, fun _ _ => rfl⟩
  have hfunction : Layer.Sound ⟨.empty, ⟨[("x", sig)]⟩⟩ :=
    ⟨List.nodup_nil, List.pairwise_singleton _ _, fun _ h => absurd rfl h⟩
  have hkept : unit.Reached := .step (c := .declare _) hunit trivial hrefused
  have hpushed : (unit.push ⟨⟨[("f", .int)]⟩, .empty⟩).Reached :=
    .step (c := .push _) hkept hvariable (.push _)
  have hblock : block.Reached :=
    .step (c := .overlay _) hpushed hfunction (.overlay (Layer.overlays_overlay _ _))
  obtain ⟨_, _, htaken, _, _, _⟩ := flattening_keeps_meanings hunit
  obtain ⟨_, _, _, _, hflat, hflattens⟩ := flattening_keeps_meanings hblock
  obtain ⟨hmeaning, htypes⟩ := hflat _ hflattens
  exact ⟨hunit, (htaken _).mp ⟨_, _, hrefused⟩, hblock, hmeaning "x", hmeaning "f",
    htypes _ (Layer.overlays_overlay _ _)⟩

end Scopes

end StackScript
