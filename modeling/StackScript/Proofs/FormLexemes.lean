import Mathlib.Data.List.Chain
import StackScript.Proofs.Reading

namespace StackScript.Form

open Text (byteLength)

inductive Lexeme where
  | blank (c : Char)
  | comment (body : List Char)
  | opening
  | closing
  | quoted (body : List Char)
  | bare (cs : List Char)
  deriving DecidableEq, Repr

namespace Lexeme

def text : Lexeme → List Char
  | blank c => [c]
  | comment body => ';' :: ';' :: body
  | opening => ['(']
  | closing => [')']
  | quoted body => '"' :: body ++ ['"']
  | bare cs => cs

def piece : Lexeme → Piece
  | blank _ | comment _ => .gap
  | opening => .opening
  | closing => .closing
  | quoted _ | bare _ => .atom

/-- The characters that a lexeme may hold. -/
def Legal : Lexeme → Prop
  | blank c => isBlank c = true
  | comment body => ∀ c ∈ body, c ≠ '\n'
  | opening | closing => True
  | quoted body => ∀ c ∈ body, c ≠ '"' ∧ c ≠ '\n'
  | bare cs => cs ≠ [] ∧ ∀ c ∈ cs, isBare c = true

/-- What may follow a lexeme: a comment goes up to a line feed or the end, and a bare atom as far as
it can. -/
def Ends : Lexeme → List Char → Prop
  | comment _, rest => ∀ c ∈ rest.head?, c = '\n'
  | bare _, rest => ∀ c ∈ rest.head?, isBare c = false
  | blank _, _ | opening, _ | closing, _ | quoted _, _ => True

theorem text_ne_nil {l : Lexeme} (h : l.Legal) : l.text ≠ [] := by
  cases l with
  | bare cs => exact h.1
  | _ => exact List.cons_ne_nil _ _

end Lexeme

/-- A text starts with these lexemes, each as long as it can be, and `rest` is left. -/
inductive Lexes : List Char → List Lexeme → List Char → Prop
  | nil (rest : List Char) : Lexes rest [] rest
  | cons {l : Lexeme} {cs rest : List Char} {ls : List Lexeme} (legal : l.Legal) (ends : l.Ends cs)
      (more : Lexes cs ls rest) : Lexes (l.text ++ cs) (l :: ls) rest

def Stuck (cs : List Char) : Prop := cs ≠ [] ∧ ∀ l : Lexeme, l.Legal → ¬ l.text <+: cs

/-- The reader finds the lexeme at the front of a text; only of blanks it takes more than one. -/
theorem Lexeme.piece?_text {l : Lexeme} {rest : List Char} (h : l.Legal) (he : l.Ends rest)
    (hl : ∀ c, l ≠ .blank c) : piece? (l.text ++ rest) = some (l.piece, l.text) := by
  cases l with
  | blank c => exact absurd rfl (hl c)
  | comment body => exact piece?_comment h he
  | opening => exact piece?_open rest
  | closing => exact piece?_close rest
  | quoted body =>
    rw [text, List.append_assoc]
    exact piece?_quoted h
  | bare cs => exact piece?_atom h.1 h.2 he

/-- The reader goes on behind the piece at the front, unless it cannot take it. -/
theorem readFrom_eq_bind {r : Reading} {offset : Nat} {cs text : List Char} {piece : Piece}
    (h : piece? cs = some (piece, text)) :
    readFrom r offset cs =
      r.take offset piece text >>= fun r' =>
        readFrom r' (offset + byteLength text) (cs.drop text.length) := by
  cases cs with
  | nil => cases h
  | cons c cs =>
    cases ht : r.take offset piece text with
    | ok r' => exact readFrom_piece h ht
    | error e =>
      rw [readFrom]
      split
      · rename_i hnone
        rw [h] at hnone
        cases hnone
      · rename_i hsome
        rw [h] at hsome
        cases hsome
        rw [ht]
        rfl

/-- The reader takes one lexeme. -/
theorem Lexeme.readFrom_eq {l : Lexeme} {rest : List Char} (h : l.Legal) (he : l.Ends rest)
    (r : Reading) (offset : Nat) :
    readFrom r offset (l.text ++ rest) =
      r.take offset l.piece l.text >>= fun r' => readFrom r' (offset + byteLength l.text) rest := by
  cases l with
  | blank c => exact readFrom_blank h
  | _ => rw [readFrom_eq_bind (piece?_text h he (fun _ hl => by cases hl)), List.drop_left]

/-- What the first character says about a lexeme at the front of a text. -/
theorem Lexeme.front {l : Lexeme} {c : Char} {cs : List Char} (h : l.Legal)
    (hfront : l.text <+: c :: cs) :
    isBlank c = true ∨ isBare c = true ∨ c = '(' ∨ c = ')' ∨
      c = ';' ∧ (∃ body, ';' :: body <+: cs) ∨
      c = '"' ∧ ∃ body, (∀ d ∈ body, d ≠ '"' ∧ d ≠ '\n') ∧ body ++ ['"'] <+: cs := by
  cases l with
  | blank d =>
    obtain ⟨rfl, _⟩ := List.cons_prefix_cons.mp hfront
    exact .inl h
  | bare atom =>
    cases atom with
    | nil => exact absurd rfl h.1
    | cons d atom =>
      obtain ⟨rfl, _⟩ := List.cons_prefix_cons.mp hfront
      exact .inr (.inl (h.2 d List.mem_cons_self))
  | opening => exact .inr (.inr (.inl (List.cons_prefix_cons.mp hfront).1.symm))
  | closing => exact .inr (.inr (.inr (.inl (List.cons_prefix_cons.mp hfront).1.symm)))
  | comment body =>
    obtain ⟨rfl, hbody⟩ := List.cons_prefix_cons.mp hfront
    exact .inr (.inr (.inr (.inr (.inl ⟨rfl, body, hbody⟩))))
  | quoted body =>
    obtain ⟨rfl, hbody⟩ := List.cons_prefix_cons.mp hfront
    exact .inr (.inr (.inr (.inr (.inr ⟨rfl, body, h, hbody⟩))))

/-- A single semicolon starts no lexeme. -/
theorem stuck_semicolon {cs : List Char} (h : cs.head? ≠ some ';') : Stuck (';' :: cs) := by
  refine ⟨List.cons_ne_nil _ _, fun l hl hfront => ?_⟩
  rcases Lexeme.front hl hfront with hc | hc | hc | hc | ⟨_, body, more, rfl⟩ | ⟨hc, _⟩
  · cases hc
  · cases hc
  · cases hc
  · cases hc
  · exact h rfl
  · cases hc

/-- A quote that is not closed on its line starts no lexeme. -/
theorem stuck_quote {cs : List Char}
    (h : (cs.dropWhile fun d => d != '"' && d != '\n').head? ≠ some '"') : Stuck ('"' :: cs) := by
  refine ⟨List.cons_ne_nil _ _, fun l hl hfront => ?_⟩
  rcases Lexeme.front hl hfront with hc | hc | hc | hc | ⟨hc, _⟩ | ⟨_, body, hbody, more, rfl⟩
  · cases hc
  · cases hc
  · cases hc
  · cases hc
  · cases hc
  · apply h
    rw [List.append_assoc, List.dropWhile_append_of_pos (fun c hc => by simpa using hbody c hc)]
    rfl

def Starts (cs : List Char) : Prop :=
  ∃ l rest, Lexeme.Legal l ∧ l.Ends rest ∧ cs = l.text ++ rest

theorem starts_comment (cs : List Char) : Starts (';' :: ';' :: cs) := by
  refine ⟨.comment (cs.takeWhile (· != '\n')), cs.dropWhile (· != '\n'), ?_, ?_, ?_⟩
  · intro c hc
    simpa using List.all_eq_true.mp List.all_takeWhile c hc
  · intro c hc
    simpa using not_head_dropWhile (· != '\n') cs c hc
  · simp [Lexeme.text]

theorem starts_quoted {cs : List Char}
    (h : (cs.dropWhile fun d => d != '"' && d != '\n').head? = some '"') : Starts ('"' :: cs) := by
  obtain ⟨rest, hrest⟩ := List.head?_eq_some_iff.mp h
  refine ⟨.quoted (cs.takeWhile fun d => d != '"' && d != '\n'), rest, ?_, trivial, ?_⟩
  · intro c hc
    simpa using List.all_eq_true.mp List.all_takeWhile c hc
  · rw [Lexeme.text, List.append_assoc, List.singleton_append, ← hrest, List.cons_append,
      List.takeWhile_append_dropWhile]

theorem starts_bare {c : Char} (h : isBare c = true) (cs : List Char) : Starts (c :: cs) := by
  refine ⟨.bare (c :: cs.takeWhile isBare), cs.dropWhile isBare, ⟨List.cons_ne_nil _ _, ?_⟩,
    not_head_dropWhile isBare cs, ?_⟩
  · intro d hd
    rcases List.mem_cons.mp hd with rfl | hd
    · exact h
    · exact List.all_eq_true.mp List.all_takeWhile d hd
  · rw [Lexeme.text, List.cons_append, List.takeWhile_append_dropWhile]

/-- At the front of a text stands a lexeme, or none and the reader finds no piece. -/
theorem starts_or_stuck (c : Char) (cs : List Char) :
    Starts (c :: cs) ∨ piece? (c :: cs) = none ∧ Stuck (c :: cs) := by
  by_cases hblank : isBlank c = true
  · exact .inl ⟨.blank c, cs, hblank, trivial, rfl⟩
  by_cases hsemicolon : c = ';'
  · subst hsemicolon
    by_cases hsecond : cs.head? = some ';'
    · obtain ⟨rest, rfl⟩ := List.head?_eq_some_iff.mp hsecond
      exact .inl (starts_comment rest)
    · exact .inr ⟨by simp [piece?, hblank, hsecond], stuck_semicolon hsecond⟩
  by_cases hopen : c = '('
  · exact .inl ⟨.opening, cs, trivial, trivial, by rw [hopen]; rfl⟩
  by_cases hclose : c = ')'
  · exact .inl ⟨.closing, cs, trivial, trivial, by rw [hclose]; rfl⟩
  by_cases hquote : c = '"'
  · subst hquote
    by_cases hend : (cs.dropWhile fun d => d != '"' && d != '\n').head? = some '"'
    · exact .inl (starts_quoted hend)
    · refine .inr ⟨?_, stuck_quote hend⟩
      simp only [piece?, hblank, hsemicolon, hopen, hclose, drop_takeWhile, hend, ↓reduceIte,
        Bool.false_eq_true]
  · exact .inl (starts_bare (by simp [isBare, hblank, hsemicolon, hopen, hclose, hquote]) cs)

theorem Stuck.piece?_eq_none {c : Char} {cs : List Char} (h : Stuck (c :: cs)) :
    piece? (c :: cs) = none := by
  rcases starts_or_stuck c cs with ⟨l, rest, hl, _, he⟩ | ⟨hnone, _⟩
  · exact absurd (he ▸ List.prefix_append _ _) (h.2 l hl)
  · exact hnone

/-- The reader stops where no lexeme starts. -/
theorem readFrom_stuck {c : Char} {cs : List Char} (h : Stuck (c :: cs)) (r : Reading)
    (offset : Nat) : readFrom r offset (c :: cs) = .error ⟨.unexpectedCharacter c, offset⟩ := by
  rw [readFrom]
  split
  · rfl
  · rename_i hsome
    rw [h.piece?_eq_none] at hsome
    cases hsome

/-- Every text splits into lexemes, up to its end or to a place where none starts. -/
theorem exists_lexes (cs : List Char) : ∃ ls rest, Lexes cs ls rest ∧ (rest = [] ∨ Stuck rest) := by
  induction hn : cs.length using Nat.strongRecOn generalizing cs with
  | ind n ih =>
    cases cs with
    | nil => exact ⟨[], [], .nil [], .inl rfl⟩
    | cons c cs =>
      rcases starts_or_stuck c cs with ⟨l, more, hl, hends, he⟩ | ⟨_, hstuck⟩
      · have hlength : more.length < n := by
          have hpos := List.length_pos_iff.mpr (Lexeme.text_ne_nil hl)
          rw [← hn, he, List.length_append]
          omega
        obtain ⟨ls, rest, hls, hrest⟩ := ih more.length hlength more rfl
        exact ⟨l :: ls, rest, he ▸ .cons hl hends hls, hrest⟩
      · exact ⟨[], c :: cs, .nil _, .inr hstuck⟩

def spelling (ls : List Lexeme) : List Char := ls.flatMap Lexeme.text

@[simp] theorem spelling_nil : spelling [] = [] := rfl

@[simp] theorem spelling_cons (l : Lexeme) (ls : List Lexeme) :
    spelling (l :: ls) = l.text ++ spelling ls := rfl

@[simp] theorem spelling_append (ls ms : List Lexeme) :
    spelling (ls ++ ms) = spelling ls ++ spelling ms := List.flatMap_append

theorem Lexes.eq_spelling {cs rest : List Char} {ls : List Lexeme} (h : Lexes cs ls rest) :
    cs = spelling ls ++ rest := by
  induction h with
  | nil => rfl
  | cons _ _ _ ih => rw [spelling_cons, List.append_assoc, ← ih]

/-- Lexemes can be cut anywhere. -/
theorem Lexes.split {cs rest : List Char} {ls ms : List Lexeme} (h : Lexes cs (ls ++ ms) rest) :
    Lexes cs ls (spelling ms ++ rest) ∧ Lexes (spelling ms ++ rest) ms rest := by
  induction ls generalizing cs with
  | nil =>
    have hcs : cs = spelling ms ++ rest := h.eq_spelling
    rw [← hcs]
    exact ⟨.nil cs, h⟩
  | cons l ls ih =>
    cases h with
    | cons legal ends more => exact ⟨.cons legal ends (ih more).1, (ih more).2⟩

def Reading.takeAll (r : Reading) (offset : Nat) : List Lexeme → Except LoadError Reading
  | [] => .ok r
  | l :: ls => do (← r.take offset l.piece l.text).takeAll (offset + byteLength l.text) ls

theorem Reading.takeAll_append (r : Reading) (offset : Nat) (ls ms : List Lexeme) :
    r.takeAll offset (ls ++ ms) =
      r.takeAll offset ls >>= fun r' => r'.takeAll (offset + byteLength (spelling ls)) ms := by
  induction ls generalizing r offset with
  | nil => rfl
  | cons l ls ih =>
    simp only [List.cons_append, takeAll, spelling_cons, Text.byteLength_append, ih, bind_assoc,
      Nat.add_assoc]

/-- The reader takes the lexemes of a text and goes on with the rest. -/
theorem Lexes.readFrom_eq {cs rest : List Char} {ls : List Lexeme} (h : Lexes cs ls rest)
    (r : Reading) (offset : Nat) :
    readFrom r offset cs =
      r.takeAll offset ls >>= fun r' => readFrom r' (offset + byteLength (spelling ls)) rest := by
  induction h generalizing r offset with
  | nil => rfl
  | cons legal ends _ ih =>
    simp only [Lexeme.readFrom_eq legal ends, ih, Reading.takeAll, spelling_cons,
      Text.byteLength_append, bind_assoc, Nat.add_assoc]

/-- A text is a sequence of lexemes, in which a comment goes up to a line feed or the end. -/
structure Spells (cs : List Char) (ls : List Lexeme) : Prop where
  text : cs = spelling ls
  legal : ∀ l ∈ ls, l.Legal
  comments : ls.IsChain fun l m => ∀ body, l = .comment body → m = .blank '\n'

def Separated (ls : List Lexeme) : Prop :=
  ls.IsChain fun l m => ∀ a b, l = .bare a → m ≠ .bare b

theorem Spells.tail {cs : List Char} {l : Lexeme} {ls : List Lexeme} (h : Spells cs (l :: ls)) :
    Spells (spelling ls) ls :=
  ⟨rfl, (List.forall_mem_cons.mp h.legal).2, h.comments.tail⟩

/-- Only a bare atom starts with a bare character. -/
theorem Lexeme.bare_of_front {l : Lexeme} {c : Char} {cs : List Char} (h : l.Legal)
    (hfront : l.text <+: c :: cs) (hc : isBare c = true) : ∃ atom, l = .bare atom := by
  cases l with
  | bare atom => exact ⟨atom, rfl⟩
  | blank d =>
    obtain ⟨rfl, _⟩ := List.cons_prefix_cons.mp hfront
    have hblank : isBlank d = true := h
    simp [isBare, hblank] at hc
  | _ =>
    obtain ⟨rfl, _⟩ := List.cons_prefix_cons.mp hfront
    exact absurd hc (by decide)

/-- A lexeme ends where the next one starts, but for two bare atoms. -/
theorem Spells.ends {cs : List Char} {l : Lexeme} {ls : List Lexeme} (h : Spells cs (l :: ls))
    (hs : ∀ a b, l = .bare a → ls.head? ≠ some (.bare b)) : l.Ends (spelling ls) := by
  cases ls with
  | nil => cases l <;> simp [Lexeme.Ends]
  | cons m ls =>
    cases l with
    | comment body =>
      rw [h.comments.rel body rfl]
      rintro c ⟨⟩
      rfl
    | bare atom =>
      intro c hc
      obtain ⟨tail, htail⟩ := List.head?_eq_some_iff.mp hc
      have hfront : m.text <+: c :: tail := htail ▸ List.prefix_append _ _
      cases hbare : isBare c with
      | false => rfl
      | true =>
        have hm := h.legal m (List.mem_cons_of_mem _ List.mem_cons_self)
        obtain ⟨other, rfl⟩ := Lexeme.bare_of_front hm hfront hbare
        exact absurd rfl (hs atom other rfl)
    | _ => trivial

/-- A sequence of lexemes without bare atoms next to each other has each as long as it can be. -/
theorem Spells.lexes {cs : List Char} {ls : List Lexeme} (h : Spells cs ls) (hs : Separated ls) :
    Lexes cs ls [] := by
  induction ls generalizing cs with
  | nil =>
    rw [h.text]
    exact .nil []
  | cons l ls ih =>
    rw [h.text, spelling_cons]
    refine .cons (h.legal l List.mem_cons_self) (h.ends fun a b hl => ?_) (ih h.tail hs.tail)
    cases ls with
    | nil => simp
    | cons m ls =>
      rintro ⟨⟩
      exact hs.rel a b hl rfl

theorem Lexeme.blank_of_front {l : Lexeme} {cs : List Char} (h : l.Legal)
    (hfront : l.text <+: '\n' :: cs) : l = .blank '\n' := by
  cases l with
  | blank c =>
    obtain ⟨rfl, _⟩ := List.cons_prefix_cons.mp hfront
    rfl
  | bare atom =>
    cases atom with
    | nil => exact absurd rfl h.1
    | cons c atom =>
      obtain ⟨rfl, _⟩ := List.cons_prefix_cons.mp hfront
      exact absurd (h.2 '\n' List.mem_cons_self) (by decide)
  | _ => exact absurd (List.cons_prefix_cons.mp hfront).1 (by decide)

theorem Lexes.spells {cs : List Char} {ls : List Lexeme} (h : Lexes cs ls []) : Spells cs ls := by
  induction ls generalizing cs with
  | nil =>
    cases h
    exact ⟨rfl, by simp, .nil⟩
  | cons l ls ih =>
    cases h with
    | cons legal ends more =>
      obtain ⟨htext, hlegal, hcomments⟩ := ih more
      refine ⟨by rw [spelling_cons, ← htext], List.forall_mem_cons.mpr ⟨legal, hlegal⟩, ?_⟩
      cases ls with
      | nil => exact .singleton l
      | cons m ls =>
        refine .cons_cons ?_ hcomments
        rintro body rfl
        have hm := hlegal m List.mem_cons_self
        obtain ⟨c, tail, hc⟩ := List.exists_cons_of_ne_nil (Lexeme.text_ne_nil hm)
        have hfeed : c = '\n' := ends c (by rw [htext, spelling_cons, hc]; rfl)
        have hfront : m.text <+: '\n' :: tail := by simp only [hc, hfeed, List.prefix_rfl]
        exact Lexeme.blank_of_front hm hfront

end StackScript.Form
