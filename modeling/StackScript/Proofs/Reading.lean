import StackScript.Form.Read
import StackScript.Text.Numeral

namespace StackScript

/-- A run of characters ends before the first that cannot be part of it. -/
theorem takeWhile_ends {p : Char → Bool} {text tail : List Char} (h : ∀ c ∈ text, p c = true)
    (ht : ∀ c ∈ tail.head?, p c = false) : (text ++ tail).takeWhile p = text := by
  rw [List.takeWhile_append_of_pos h]
  cases tail with
  | nil => rw [List.takeWhile_nil, List.append_nil]
  | cons c cs =>
    have hc := ht c rfl
    rw [List.takeWhile_cons_of_neg (by simp [hc]), List.append_nil]

theorem drop_takeWhile (p : Char → Bool) (cs : List Char) :
    cs.drop (cs.takeWhile p).length = cs.dropWhile p := by
  calc cs.drop (cs.takeWhile p).length
      = (cs.takeWhile p ++ cs.dropWhile p).drop (cs.takeWhile p).length := by
        rw [List.takeWhile_append_dropWhile]
    _ = cs.dropWhile p := List.drop_left

theorem not_head_dropWhile (p : Char → Bool) (cs : List Char) :
    ∀ c ∈ (cs.dropWhile p).head?, p c = false := by
  intro c hc
  have hhead := List.head?_dropWhile_not p cs
  rw [hc] at hhead
  simpa using hhead

/-- What holds of all characters of a text is decided along the text. -/
instance Text.decidableForallMem (p : Char → Prop) [DecidablePred p] (cs : List Char) :
    Decidable (∀ c ∈ cs, p c) :=
  List.decidableBAll p cs

namespace Text

theorem digitsValue_toDigits (n : Nat) : digitsValue (Nat.toDigits 10 n) = n := by
  have h := Nat.ofDigitChars_toDigits (b := 10) (n := n) (by omega) (by omega)
  rw [Nat.ofDigitChars_eq_foldl] at h
  simpa [digitsValue, Nat.mul_comm] using h

theorem digits?_toDigits (n : Nat) : digits? (Nat.toDigits 10 n) = some n := by
  have hd : (Nat.toDigits 10 n).all Char.isDigit = true := by
    rw [List.all_eq_true]
    intro c hc
    exact Nat.isDigit_of_mem_toDigits (by omega) (by omega) hc
  rw [digits?, if_pos ⟨Nat.toDigits_ne_nil, hd⟩, digitsValue_toDigits]

theorem toDigits_head {n : Nat} {c : Char} {cs : List Char} (h : Nat.toDigits 10 n = c :: cs) :
    c ≠ '+' ∧ c ≠ '-' := by
  have hd : c.isDigit := Nat.isDigit_of_mem_toDigits (b := 10) (n := n) (by omega) (by omega)
    (by simp [h])
  constructor <;> rintro rfl <;> simp [Char.isDigit] at hd

/-- An index reads back as it was written. -/
theorem nat32?_toString {n : Nat} (h : n ≤ 4294967295) : nat32? (toString n) = some n := by
  have hl : (toString n).toList = Nat.toDigits 10 n := Nat.toList_repr
  unfold nat32?
  rw [hl]
  dsimp only
  split
  · rename_i cs hc
    exact absurd rfl (toDigits_head hc).1
  · rw [digits?_toDigits, Option.bind_some, if_pos h]

/-- Characters of a numeral: digits and the minus. -/
theorem mem_decimal {v : Int32} {c : Char} (h : c ∈ (decimal v).toList) : c.isDigit ∨ c = '-' := by
  unfold decimal at h
  cases hv : v.toInt with
  | ofNat n =>
    rw [hv] at h
    have hl : (toString (Int.ofNat n)).toList = Nat.toDigits 10 n := Nat.toList_repr
    rw [hl] at h
    exact .inl (Nat.isDigit_of_mem_toDigits (by omega) (by omega) h)
  | negSucc n =>
    rw [hv] at h
    have hl : (toString (Int.negSucc n)).toList = '-' :: Nat.toDigits 10 (n + 1) := by
      change ("-" ++ (n + 1).repr).toList = _
      simp [Nat.toList_repr]
    rw [hl] at h
    rcases List.mem_cons.mp h with rfl | h
    · exact .inr rfl
    · exact .inl (Nat.isDigit_of_mem_toDigits (by omega) (by omega) h)

theorem decimal_ne_nil (v : Int32) : (decimal v).toList ≠ [] := by
  unfold decimal
  cases v.toInt with
  | ofNat n =>
    have hl : (toString (Int.ofNat n)).toList = Nat.toDigits 10 n := Nat.toList_repr
    rw [hl]
    exact Nat.toDigits_ne_nil
  | negSucc n =>
    change ("-" ++ (n + 1).repr).toList ≠ _
    simp

/-- A numeral reads back as the number it was written for. -/
theorem int32?_decimal (v : Int32) : int32? (decimal v) = some v := by
  have hlo := Int32.le_toInt v
  have hhi := Int32.toInt_lt v
  have hback : Int32.ofInt v.toInt = v := Int32.ofInt_toInt v
  unfold int32? decimal
  cases hv : v.toInt with
  | ofNat n =>
    have hl : (toString (Int.ofNat n)).toList = Nat.toDigits 10 n := Nat.toList_repr
    rw [hv] at hlo hhi hback
    rw [hl]
    dsimp only
    split
    · rename_i cs hc
      exact absurd rfl (toDigits_head hc).1
    · rename_i cs hc
      exact absurd rfl (toDigits_head hc).2
    · rw [digits?_toDigits, Option.map_some, Option.bind_some, if_pos (by omega), hback]
  | negSucc n =>
    have hl : (toString (Int.negSucc n)).toList = '-' :: Nat.toDigits 10 (n + 1) := by
      change ("-" ++ (n + 1).repr).toList = _
      simp [Nat.toList_repr]
    rw [hv] at hlo hhi hback
    rw [hl]
    dsimp only
    split
    · rename_i cs hc
      simp at hc
    · rename_i cs hc
      rw [List.cons.injEq] at hc
      obtain ⟨-, rfl⟩ := hc
      rw [digits?_toDigits, Option.map_some, Option.bind_some]
      have hneg : -Int.ofNat (n + 1) = Int.negSucc n := rfl
      rw [hneg, if_pos (by omega), hback]
    · rename_i cs hplus hminus
      exact absurd rfl (hminus _)

end Text

/-- A form without its offsets. -/
inductive Sexp where
  | atom (text : String)
  | list (items : List Sexp)

namespace Form

mutual

def plain : Form → Sexp
  | .atom _ text => .atom text
  | .list _ items => .list (plainAll items)

def plainAll : List Form → List Sexp
  | [] => []
  | f :: fs => plain f :: plainAll fs

end

@[simp] theorem plainAll_append (a b : List Form) : plainAll (a ++ b) = plainAll a ++ plainAll b := by
  induction a with
  | nil => rfl
  | cons f fs ih => simp [plainAll, ih]

theorem plain_eq_atom {f : Form} {text : String} (h : f.plain = .atom text) :
    ∃ offset, f = .atom offset text := by
  cases f with
  | atom offset t =>
    simp only [plain, Sexp.atom.injEq] at h
    exact ⟨offset, by rw [h]⟩
  | list offset items => simp [plain] at h

theorem plain_eq_list {f : Form} {items : List Sexp} (h : f.plain = .list items) :
    ∃ offset fs, f = .list offset fs ∧ plainAll fs = items := by
  cases f with
  | atom offset t => simp [plain] at h
  | list offset fs =>
    simp only [plain, Sexp.list.injEq] at h
    exact ⟨offset, fs, rfl, h⟩

theorem plainAll_eq_nil {fs : List Form} (h : plainAll fs = []) : fs = [] := by
  cases fs with
  | nil => rfl
  | cons f fs => simp [plainAll] at h

theorem plainAll_eq_cons {fs : List Form} {x : Sexp} {xs : List Sexp} (h : plainAll fs = x :: xs) :
    ∃ g gs, fs = g :: gs ∧ g.plain = x ∧ plainAll gs = xs := by
  cases fs with
  | nil => simp [plainAll] at h
  | cons g gs =>
    simp only [plainAll, List.cons.injEq] at h
    exact ⟨g, gs, rfl, h⟩

/-- Forms that are plain forms one behind the other can be cut between them. -/
theorem plainAll_eq_append {fs : List Form} {xs ys : List Sexp} (h : plainAll fs = xs ++ ys) :
    ∃ a b, fs = a ++ b ∧ plainAll a = xs ∧ plainAll b = ys := by
  induction xs generalizing fs with
  | nil => exact ⟨[], fs, rfl, rfl, h⟩
  | cons x xs ih =>
    obtain ⟨g, gs, rfl, hg, hgs⟩ := plainAll_eq_cons h
    obtain ⟨a, b, rfl, ha, hb⟩ := ih hgs
    exact ⟨g :: a, b, rfl, by simp [plainAll, hg, ha], hb⟩

theorem readFrom_piece {r r' : Reading} {offset : Nat} {c : Char} {cs text : List Char}
    {piece : Piece} (hp : piece? (c :: cs) = some (piece, text))
    (ht : r.take offset piece text = .ok r') :
    readFrom r offset (c :: cs) =
      readFrom r' (offset + Text.byteLength text) ((c :: cs).drop text.length) := by
  rw [readFrom]
  split
  · rename_i h
    rw [hp] at h
    cases h
  · rename_i p t h
    rw [hp] at h
    cases h
    rw [ht]

theorem piece?_blank {c : Char} {cs : List Char} (h : isBlank c = true) :
    piece? (c :: cs) = some (.gap, c :: cs.takeWhile isBlank) := by
  simp [piece?, h]

/-- Blanks can be skipped one by one. -/
theorem readFrom_blank {r : Reading} {offset : Nat} {c : Char} {cs : List Char}
    (h : isBlank c = true) :
    readFrom r offset (c :: cs) = readFrom r (offset + c.utf8Size) cs := by
  rw [readFrom_piece (piece?_blank h) rfl]
  cases cs with
  | nil => simp [Text.byteLength]
  | cons d ds =>
    cases hd : isBlank d with
    | false => simp [Text.byteLength, hd]
    | true =>
      rw [readFrom_piece (c := d) (piece?_blank hd) rfl]
      simp [Text.byteLength, hd, Nat.add_assoc]

/-- A comment goes up to a line feed or the end of the text. -/
theorem piece?_comment {body rest : List Char} (h : ∀ c ∈ body, c ≠ '\n')
    (hrest : ∀ c ∈ rest.head?, c = '\n') :
    piece? (';' :: ';' :: body ++ rest) = some (.gap, ';' :: ';' :: body) := by
  have hblank : isBlank ';' = false := by decide
  have hw : (';' :: (body ++ rest)).takeWhile (· != '\n') = ';' :: body := by
    rw [List.takeWhile_cons_of_pos (by decide),
      takeWhile_ends (by simpa using h) (fun c hc => by simp [hrest c hc])]
  simp only [List.cons_append, piece?, hblank, Bool.false_eq_true, ↓reduceIte, List.head?_cons, hw]

/-- A bare atom ends before the first character that cannot be part of it. -/
theorem piece?_atom {atom rest : List Char} (hne : atom ≠ []) (h : ∀ c ∈ atom, isBare c = true)
    (hrest : ∀ c ∈ rest.head?, isBare c = false) : piece? (atom ++ rest) = some (.atom, atom) := by
  cases atom with
  | nil => contradiction
  | cons c cs =>
    have hc : isBare c = true := h c (by simp)
    have hw : (cs ++ rest).takeWhile isBare = cs :=
      takeWhile_ends (fun a ha => h a (by simp [ha])) hrest
    simp only [isBare, Bool.not_eq_true', Bool.or_eq_false_iff, beq_eq_false_iff_ne] at hc
    obtain ⟨⟨⟨⟨hb, ho⟩, hcl⟩, hq⟩, hs⟩ := hc
    simp only [List.cons_append, piece?, hb, Bool.false_eq_true, ↓reduceIte, hs, ho, hcl, hq, hw]

/-- A quoted atom ends at the next quote, whatever follows. -/
theorem piece?_quoted {body rest : List Char} (h : ∀ c ∈ body, c ≠ '"' ∧ c ≠ '\n') :
    piece? ('"' :: body ++ '"' :: rest) = some (.atom, '"' :: body ++ ['"']) := by
  have hw : (body ++ '"' :: rest).takeWhile (fun d => d != '"' && d != '\n') = body :=
    takeWhile_ends (fun c hc => by simpa using h c hc) (fun c hc => by cases hc; rfl)
  have hb : isBlank '"' = false := by decide
  have hn : ('"' = ';') = False ∧ ('"' = '(') = False ∧ ('"' = ')') = False := by decide
  simp only [List.cons_append, piece?, hb, Bool.false_eq_true, ↓reduceIte, hn.1, hn.2.1, hn.2.2, hw,
    List.drop_left, List.head?_cons]

theorem readFrom_comment {r : Reading} {offset : Nat} {body rest : List Char}
    (h : ∀ c ∈ body, c ≠ '\n') :
    readFrom r offset (';' :: ';' :: body ++ '\n' :: rest) =
      readFrom r (offset + Text.byteLength (';' :: ';' :: body)) ('\n' :: rest) := by
  have hp : piece? (';' :: (';' :: body ++ '\n' :: rest)) = some (.gap, ';' :: ';' :: body) :=
    piece?_comment h (fun c hc => by cases hc; rfl)
  rw [List.cons_append, readFrom_piece hp rfl]
  simp

theorem readFrom_atom {r : Reading} {offset : Nat} {atom rest : List Char} {d : Char}
    (hne : atom ≠ []) (h : ∀ c ∈ atom, isBare c = true) (hd : isBare d = false) :
    readFrom r offset (atom ++ d :: rest) =
      readFrom (r.add (.atom offset (String.ofList atom))) (offset + Text.byteLength atom)
        (d :: rest) := by
  have hp : piece? (atom ++ d :: rest) = some (.atom, atom) :=
    piece?_atom hne h (fun c hc => by cases hc; exact hd)
  cases atom with
  | nil => contradiction
  | cons c cs =>
    rw [List.cons_append] at hp ⊢
    rw [readFrom_piece hp rfl]
    simp

theorem readFrom_quoted {r : Reading} {offset : Nat} {body rest : List Char}
    (h : ∀ c ∈ body, c ≠ '"' ∧ c ≠ '\n') :
    readFrom r offset ('"' :: body ++ '"' :: rest) =
      readFrom (r.add (.atom offset (String.ofList ('"' :: body ++ ['"']))))
        (offset + Text.byteLength ('"' :: body ++ ['"'])) rest := by
  have hp : piece? ('"' :: (body ++ '"' :: rest)) = some (.atom, '"' :: body ++ ['"']) :=
    piece?_quoted h
  rw [List.cons_append, readFrom_piece hp rfl]
  simp

theorem piece?_open (cs : List Char) : piece? ('(' :: cs) = some (.opening, ['(']) := by
  have hb : isBlank '(' = false := by decide
  have hn : ('(' = ';') = False := by decide
  simp only [piece?, hb, Bool.false_eq_true, ↓reduceIte, hn]

theorem piece?_close (cs : List Char) : piece? (')' :: cs) = some (.closing, [')']) := by
  have hb : isBlank ')' = false := by decide
  have hn : (')' = ';') = False ∧ (')' = '(') = False := by decide
  simp only [piece?, hb, Bool.false_eq_true, ↓reduceIte, hn.1, hn.2]

theorem readFrom_open {r : Reading} {offset : Nat} {cs : List Char} :
    readFrom r offset ('(' :: cs) = readFrom (r.opening offset) (offset + 1) cs := by
  rw [readFrom_piece (piece?_open cs) rfl]
  rfl

/-- A closing parenthesis makes a list of what has been read since the last one opened. -/
theorem readFrom_close {r : Reading} {offset : Nat} {cs : List Char} {o : Open} {os : List Open}
    (h : r.opens = o :: os) :
    readFrom r offset (')' :: cs) =
      readFrom ({ r with opens := os }.add (.list o.offset o.items.reverse)) (offset + 1) cs := by
  have ht : r.take offset .closing [')'] =
      .ok ({ r with opens := os }.add (.list o.offset o.items.reverse)) := by
    simp only [Reading.take, Reading.closing, h]
  rw [readFrom_piece (piece?_close cs) ht]
  rfl

namespace Reading

def addAll (r : Reading) (fs : List Form) : Reading := fs.foldl add r

@[simp] theorem addAll_append (r : Reading) (a b : List Form) :
    r.addAll (a ++ b) = (r.addAll a).addAll b := by
  simp [addAll]

theorem addAll_open {r : Reading} {o : Open} {os : List Open} (h : r.opens = o :: os)
    (fs : List Form) :
    r.addAll fs = { r with opens := { o with items := fs.reverse ++ o.items } :: os } := by
  induction fs generalizing r o with
  | nil =>
    obtain ⟨opens, done⟩ := r
    cases h
    rfl
  | cons f fs ih =>
    have hadd : r.add f = { r with opens := { o with items := f :: o.items } :: os } := by
      simp only [add, h]
    change (r.add f).addAll fs = _
    rw [ih (congrArg Reading.opens hadd), hadd]
    simp

theorem addAll_done {r : Reading} (h : r.opens = []) (fs : List Form) :
    r.addAll fs = { r with done := fs.reverse ++ r.done } := by
  induction fs generalizing r with
  | nil => rfl
  | cons f fs ih =>
    have hadd : r.add f = { r with done := f :: r.done } := by simp only [add, h]
    change (r.add f).addAll fs = _
    rw [ih (by rw [hadd, h]), hadd]
    simp

end Reading

/-- The reader takes the text for these forms, whatever stands around it. -/
def Reads (cs : List Char) (xs : List Sexp) : Prop :=
  ∀ r offset rest, ∃ fs, plainAll fs = xs ∧
    readFrom r offset (cs ++ rest) =
      readFrom (r.addAll fs) (offset + Text.byteLength cs) rest

/-- The reader takes the text for these forms before a closing parenthesis. -/
def ReadsInside (cs : List Char) (xs : List Sexp) : Prop :=
  ∀ r offset rest, ∃ fs, plainAll fs = xs ∧
    readFrom r offset (cs ++ ')' :: rest) =
      readFrom (r.addAll fs) (offset + Text.byteLength cs) (')' :: rest)

theorem Reads.inside {cs : List Char} {xs : List Sexp} (h : Reads cs xs) : ReadsInside cs xs :=
  fun r offset rest => h r offset (')' :: rest)

theorem Reads.nil : Reads [] [] := fun _ _ _ => ⟨[], rfl, rfl⟩

/-- Texts one behind the other read as the forms of both. -/
theorem Reads.append {a b : List Char} {xs ys : List Sexp} (ha : Reads a xs) (hb : Reads b ys) :
    Reads (a ++ b) (xs ++ ys) := by
  intro r offset rest
  obtain ⟨fs, hfs, h⟩ := ha r offset (b ++ rest)
  obtain ⟨gs, hgs, h'⟩ := hb (r.addAll fs) (offset + Text.byteLength a) rest
  refine ⟨fs ++ gs, by rw [plainAll_append, hfs, hgs], ?_⟩
  rw [List.append_assoc, h, h', Reading.addAll_append, Text.byteLength_append, Nat.add_assoc]

theorem ReadsInside.append {a b : List Char} {xs ys : List Sexp} (ha : Reads a xs)
    (hb : ReadsInside b ys) : ReadsInside (a ++ b) (xs ++ ys) := by
  intro r offset rest
  obtain ⟨fs, hfs, h⟩ := ha r offset (b ++ ')' :: rest)
  obtain ⟨gs, hgs, h'⟩ := hb (r.addAll fs) (offset + Text.byteLength a) rest
  refine ⟨fs ++ gs, by rw [plainAll_append, hfs, hgs], ?_⟩
  rw [List.append_assoc, h, h', Reading.addAll_append, Text.byteLength_append, Nat.add_assoc]

theorem Reads.blanks {cs : List Char} (h : ∀ c ∈ cs, isBlank c = true) : Reads cs [] := by
  intro r offset rest
  refine ⟨[], rfl, ?_⟩
  induction cs generalizing offset with
  | nil => rfl
  | cons c cs ih =>
    rw [List.cons_append, readFrom_blank (h c (by simp)), ih (fun d hd => h d (by simp [hd]))]
    simp [Text.byteLength, Nat.add_assoc]

/-- A comment with the end of its line. -/
theorem Reads.comment {body : List Char} (h : ∀ c ∈ body, c ≠ '\n') :
    Reads (';' :: ';' :: body ++ ['\n']) [] := by
  intro r offset rest
  refine ⟨[], rfl, ?_⟩
  have hb : isBlank '\n' = true := by decide
  rw [List.append_assoc, List.singleton_append, readFrom_comment h, readFrom_blank hb,
    Text.byteLength_append, Nat.add_assoc]
  rfl

theorem Reads.quoted {body : List Char} (h : ∀ c ∈ body, c ≠ '"' ∧ c ≠ '\n') :
    Reads ('"' :: body ++ ['"']) [.atom (String.ofList ('"' :: body ++ ['"']))] := by
  intro r offset rest
  refine ⟨[.atom offset (String.ofList ('"' :: body ++ ['"']))], rfl, ?_⟩
  rw [List.append_assoc, List.singleton_append, readFrom_quoted h]
  rfl

/-- A bare atom before something that cannot be part of it. -/
theorem Reads.atom_before {atom cs : List Char} {d : Char} {xs : List Sexp} (hne : atom ≠ [])
    (h : ∀ c ∈ atom, isBare c = true) (hd : isBare d = false) (hr : Reads (d :: cs) xs) :
    Reads (atom ++ d :: cs) (.atom (String.ofList atom) :: xs) := by
  intro r offset rest
  obtain ⟨fs, hfs, he⟩ := hr (r.add (.atom offset (String.ofList atom)))
    (offset + Text.byteLength atom) rest
  refine ⟨.atom offset (String.ofList atom) :: fs, by simp [plainAll, plain, hfs], ?_⟩
  rw [List.append_assoc, List.cons_append, readFrom_atom hne h hd, ← List.cons_append, he,
    Text.byteLength_append, Nat.add_assoc]
  rfl

/-- A bare atom and the blank behind it. -/
theorem Reads.spaced {atom : List Char} {d : Char} (hne : atom ≠ [])
    (h : ∀ c ∈ atom, isBare c = true) (hd : isBlank d = true) :
    Reads (atom ++ [d]) [.atom (String.ofList atom)] :=
  Reads.atom_before hne h (by simp [isBare, hd]) (Reads.blanks (by simpa using hd))

theorem ReadsInside.atom {atom : List Char} (hne : atom ≠ []) (h : ∀ c ∈ atom, isBare c = true) :
    ReadsInside atom [.atom (String.ofList atom)] := by
  intro r offset rest
  refine ⟨[.atom offset (String.ofList atom)], rfl, ?_⟩
  rw [readFrom_atom hne h (by decide)]
  rfl

/-- Before its closing parenthesis a list may end in a bare atom. -/
theorem Reads.list {cs : List Char} {xs : List Sexp} (h : ReadsInside cs xs) :
    Reads ('(' :: cs ++ [')']) [.list xs] := by
  intro r offset rest
  obtain ⟨fs, hfs, hr⟩ := h (r.opening offset) (offset + 1) rest
  refine ⟨[.list offset fs], by simp [plainAll, plain, hfs], ?_⟩
  have hopen : (r.opening offset).opens = ⟨offset, []⟩ :: r.opens := rfl
  have hadd := Reading.addAll_open hopen fs
  rw [List.cons_append, List.cons_append, readFrom_open, List.append_assoc, List.singleton_append,
    hr, hadd, readFrom_close rfl]
  simp only [List.append_nil, List.reverse_reverse, Text.byteLength_append, Text.byteLength]
  have hsize : ('(' : Char).utf8Size = 1 ∧ (')' : Char).utf8Size = 1 := by decide
  rw [hsize.1, hsize.2, Nat.add_zero, ← Nat.add_assoc, ← Nat.add_assoc]
  rfl

/-- A text that reads as forms is read as them from the start to the end. -/
theorem Reads.read {text : String} {xs : List Sexp} (h : Reads text.toList xs) :
    ∃ fs, Form.read text = .ok fs ∧ plainAll fs = xs := by
  obtain ⟨fs, hfs, hr⟩ := h ⟨[], []⟩ 0 []
  refine ⟨fs, ?_, hfs⟩
  rw [List.append_nil] at hr
  rw [Form.read, hr, Reading.addAll_done rfl, readFrom]
  simp [Reading.finish]

end Form

end StackScript
