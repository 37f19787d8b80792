import StackScript.Proofs.Offsets

namespace StackScript

open Form

namespace Sexp

inductive SpelledAtom : String → Prop
  | bare {text : String} : text.toList ≠ [] → (∀ c ∈ text.toList, isBare c = true) →
    SpelledAtom text
  | quoted {body : List Char} : (∀ c ∈ body, c ≠ '"' ∧ c ≠ '\n') →
    SpelledAtom (String.ofList ('"' :: body ++ ['"']))

mutual

def Spelled : Sexp → Prop
  | .atom text => SpelledAtom text
  | .list items => SpelledAll items

def SpelledAll : List Sexp → Prop
  | [] => True
  | x :: xs => Spelled x ∧ SpelledAll xs

end

theorem spelledAll_iff {xs : List Sexp} : SpelledAll xs ↔ ∀ x ∈ xs, x.Spelled := by
  induction xs with
  | nil => simp [SpelledAll]
  | cons x xs ih => simp [SpelledAll, ih]

mutual

def text : Sexp → String
  | .atom text => text ++ " "
  | .list items => "(" ++ textAll items ++ ")"

def textAll : List Sexp → String
  | [] => ""
  | x :: xs => text x ++ textAll xs

end

/-- The blank behind an atom ends it. -/
theorem SpelledAtom.reads {t : String} (h : SpelledAtom t) : Reads (t ++ " ").toList [.atom t] := by
  rw [String.toList_append]
  cases h with
  | bare hne hbare =>
    have hreads := Reads.spaced hne hbare (d := ' ') (by decide)
    rwa [String.ofList_toList] at hreads
  | quoted hbody =>
    rw [String.toList_ofList]
    exact (Reads.quoted hbody).append (Reads.blanks (by decide))

mutual

theorem reads_text (x : Sexp) (h : x.Spelled) : Reads x.text.toList [x] := by
  match x with
  | .atom t => exact SpelledAtom.reads h
  | .list items =>
    have hlist := Reads.list (reads_textAll items h).inside
    simpa [text] using hlist

theorem reads_textAll (xs : List Sexp) (h : SpelledAll xs) : Reads (textAll xs).toList xs := by
  match xs with
  | [] => exact Reads.nil
  | x :: xs =>
    rw [textAll, String.toList_append]
    exact (reads_text x h.1).append (reads_textAll xs h.2)

end

/-- Forms that can be written are read back. -/
theorem readFrom_text {xs : List Sexp} (h : SpelledAll xs) : ReadFrom (textAll xs) xs :=
  (reads_textAll xs h).read

end Sexp

namespace Form

open Sexp

/-- The atoms of a text are bare or quoted. -/
theorem piece?_spelled {cs text : List Char} (h : piece? cs = some (.atom, text)) :
    SpelledAtom (String.ofList text) := by
  cases cs with
  | nil => cases h
  | cons c cs =>
    simp only [piece?] at h
    split at h
    · cases h
    · rename_i hblank
      split at h
      · split at h <;> cases h
      · rename_i hsemicolon
        split at h
        · cases h
        · rename_i hopen
          split at h
          · cases h
          · rename_i hclose
            split at h
            · rename_i hquote
              split at h
              · cases h
                rw [hquote]
                refine .quoted fun d hd => ?_
                simpa using List.all_eq_true.mp List.all_takeWhile d hd
              · cases h
            · rename_i hquote
              cases h
              have hc : isBare c = true := by
                simp [isBare, hblank, hsemicolon, hopen, hclose, hquote]
              refine .bare (by simp) fun d hd => ?_
              rw [String.toList_ofList] at hd
              rcases List.mem_cons.mp hd with rfl | hd
              · exact hc
              · exact List.all_eq_true.mp List.all_takeWhile d hd

namespace Reading

structure Spelled (r : Reading) : Prop where
  opens : ∀ o ∈ r.opens, ∀ f ∈ o.items, f.plain.Spelled
  done : ∀ f ∈ r.done, f.plain.Spelled

theorem Spelled.add {r : Reading} (h : r.Spelled) {f : Form} (hf : f.plain.Spelled) :
    (r.add f).Spelled := by
  obtain ⟨opens, done⟩ := r
  obtain ⟨hopens, hdone⟩ := h
  cases opens with
  | nil => exact ⟨hopens, List.forall_mem_cons.mpr ⟨hf, hdone⟩⟩
  | cons o os =>
    obtain ⟨ho, hos⟩ := List.forall_mem_cons.mp hopens
    exact ⟨List.forall_mem_cons.mpr ⟨List.forall_mem_cons.mpr ⟨hf, ho⟩, hos⟩, hdone⟩

theorem spelledAll_plainAll {fs : List Form} (h : ∀ f ∈ fs, f.plain.Spelled) :
    SpelledAll (plainAll fs) := by
  induction fs with
  | nil => trivial
  | cons f fs ih =>
    obtain ⟨hf, hfs⟩ := List.forall_mem_cons.mp h
    exact ⟨hf, ih hfs⟩

theorem Spelled.closing {r r' : Reading} (h : r.Spelled) {offset : Nat}
    (ht : r.closing offset = .ok r') : r'.Spelled := by
  obtain ⟨opens, done⟩ := r
  obtain ⟨hopens, hdone⟩ := h
  cases opens with
  | nil => cases ht
  | cons o os =>
    cases ht
    obtain ⟨ho, hos⟩ := List.forall_mem_cons.mp hopens
    have houter : Spelled ⟨os, done⟩ := ⟨hos, hdone⟩
    have hlist : (Form.list o.offset o.items.reverse).plain.Spelled :=
      spelledAll_plainAll fun f hf => ho f (List.mem_reverse.mp hf)
    exact houter.add hlist

/-- Each piece that is taken leaves forms that can be written. -/
theorem Spelled.take {r r' : Reading} (h : r.Spelled) {offset : Nat} {piece : Piece}
    {cs text : List Char} (hp : piece? cs = some (piece, text))
    (ht : r.take offset piece text = .ok r') : r'.Spelled := by
  cases piece with
  | gap =>
    cases ht
    exact h
  | opening =>
    cases ht
    refine ⟨List.forall_mem_cons.mpr ⟨?_, h.opens⟩, h.done⟩
    intro f hf
    cases hf
  | closing => exact h.closing ht
  | atom =>
    cases ht
    exact h.add (piece?_spelled hp)

theorem Spelled.finish {r : Reading} (h : r.Spelled) {fs : List Form}
    (hf : r.finish = .ok fs) : ∀ f ∈ fs, f.plain.Spelled := by
  obtain ⟨opens, done⟩ := r
  cases opens with
  | nil =>
    cases hf
    exact fun f hf => h.done f (List.mem_reverse.mp hf)
  | cons o os => cases hf

end Reading

/-- The whole reading leaves forms that can be written, from any state of it. -/
theorem readFrom_spelled {r : Reading} (h : r.Spelled) {offset : Nat} {cs : List Char}
    {fs : List Form} (hr : readFrom r offset cs = .ok fs) : ∀ f ∈ fs, f.plain.Spelled := by
  fun_induction readFrom r offset cs with
  | case1 => exact h.finish hr
  | case2 => cases hr
  | case3 => cases hr
  | case4 r offset c rest piece text hpiece r' htake _ ih => exact ih (h.take hpiece htake) hr

end Form

/-- The forms that a text is read as can be written. -/
theorem Sexp.ReadFrom.spelled {text : String} {xs : List Sexp} (h : ReadFrom text xs) :
    SpelledAll xs := by
  obtain ⟨fs, hread, rfl⟩ := h
  refine Form.Reading.spelledAll_plainAll (Form.readFrom_spelled ⟨?_, ?_⟩ hread)
  · intro o ho
    cases ho
  · intro f hf
    cases hf

end StackScript
