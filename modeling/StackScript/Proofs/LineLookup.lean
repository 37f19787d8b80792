import StackScript.Proofs.Carets

namespace StackScript.Text

open Token (Closed lines_induct)

def bytes (text : String) : List UInt8 := text.toByteArray.data.toList

def encode (cs : List Char) : List UInt8 := cs.flatMap String.utf8EncodeChar

/-- The bytes of a text are those of its characters one after the other. -/
theorem bytes_eq_encode (text : String) : bytes text = encode text.toList := by
  rw [bytes, ← String.utf8Encode_toList, List.utf8Encode, List.toList_data_toByteArray, encode]

theorem encode_append (a b : List Char) : encode (a ++ b) = encode a ++ encode b :=
  List.flatMap_append

theorem length_encode (cs : List Char) : (encode cs).length = byteLength cs := by
  induction cs with
  | nil => rfl
  | cons c cs ih =>
    rw [byteLength, ← ih, ← String.length_utf8EncodeChar, ← List.length_append]
    rfl

/-- A line feed is a byte of its own, and no byte of another character. -/
theorem feed_not_mem_utf8EncodeChar {c : Char} (h : c ≠ '\n') : 10 ∉ String.utf8EncodeChar c := by
  have hc : c.toNat ≠ 10 := fun he => h (Char.ext (UInt32.toNat_inj.mp he))
  have hcode : c.val.toNat = c.toNat := rfl
  unfold String.utf8EncodeChar
  simp only [hcode]
  split_ifs <;> simp [← UInt8.toNat_inj] <;> omega

theorem feed_not_mem_encode {cs : List Char} (h : '\n' ∉ cs) : 10 ∉ encode cs := by
  intro hm
  obtain ⟨c, hc, hfeed⟩ := List.mem_flatMap.mp hm
  exact feed_not_mem_utf8EncodeChar (fun he => h (he ▸ hc)) hfeed

theorem count_feed_encode (cs : List Char) : (encode cs).count 10 = cs.count '\n' := by
  induction cs with
  | nil => rfl
  | cons c cs ih =>
    have hcons : encode (c :: cs) = String.utf8EncodeChar c ++ encode cs := rfl
    rw [hcons, List.count_append, ih, List.count_cons, Nat.add_comm]
    by_cases hc : c = '\n'
    · subst hc
      rfl
    · rw [List.count_eq_zero.mpr (feed_not_mem_utf8EncodeChar hc), if_neg (by simpa using hc)]

theorem eq_nil_of_byteLength {cs : List Char} (h : byteLength cs = 0) : cs = [] :=
  List.eq_nil_of_length_eq_zero (Nat.le_zero.mp (h ▸ length_le_byteLength cs))

theorem byteLength_le_of_prefix {cs x : List Char} (h : x <+: cs) :
    byteLength x ≤ byteLength cs := by
  obtain ⟨more, rfl⟩ := h
  rw [byteLength_append]
  omega

/-- Of two beginnings of a text the shorter one is a beginning of the other. -/
theorem prefix_of_byteLength_le {cs x y : List Char} (hx : x <+: cs) (hy : y <+: cs)
    (h : byteLength x ≤ byteLength y) : x <+: y := by
  rcases List.prefix_or_prefix_of_prefix hx hy with hxy | ⟨more, rfl⟩
  · exact hxy
  · rw [byteLength_append] at h
    have hnil : more = [] := eq_nil_of_byteLength (by omega)
    simp only [hnil, List.append_nil, List.prefix_rfl]

theorem eq_of_byteLength_eq {cs x y : List Char} (hx : x <+: cs) (hy : y <+: cs)
    (h : byteLength x = byteLength y) : x = y := by
  obtain ⟨more, rfl⟩ := prefix_of_byteLength_le hx hy (Nat.le_of_eq h)
  rw [byteLength_append] at h
  have hnil : more = [] := eq_nil_of_byteLength (by omega)
  rw [hnil, List.append_nil]

/-- Behind `before` stands a piece that holds byte `q` and has no line feed but at its end. -/
structure Unbroken (cs : List Char) (q : Nat) (before piece : List Char) : Prop where
  stands : before ++ piece <+: cs
  single : '\n' ∉ piece.dropLast
  start : byteLength before ≤ q
  stop : q < byteLength before + byteLength piece

structure LineOf (cs : List Char) (q : Nat) (before line : List Char) : Prop
    extends Unbroken cs q before line where
  first : ∀ {before' piece}, Unbroken cs q before' piece → byteLength before ≤ byteLength before'
  last : ∀ {before' piece}, Unbroken cs q before' piece →
    byteLength before' + byteLength piece ≤ byteLength before + byteLength line

/-- Of the unbroken pieces that hold a byte, only one holds all the others. -/
theorem LineOf.unique {cs : List Char} {q : Nat} {before before' line line' : List Char}
    (h : LineOf cs q before line) (h' : LineOf cs q before' line') :
    before' = before ∧ line' = line := by
  have hfirst := h.first h'.toUnbroken
  have hfirst' := h'.first h.toUnbroken
  have hlast := h.last h'.toUnbroken
  have hlast' := h'.last h.toUnbroken
  have hstart {a b : List Char} (hab : a ++ b <+: cs) : a <+: cs :=
    (List.prefix_append a b).trans hab
  obtain rfl : before' = before :=
    eq_of_byteLength_eq (hstart h'.stands) (hstart h.stands) (by omega)
  have hwhole : before' ++ line' = before' ++ line :=
    eq_of_byteLength_eq h'.stands h.stands (by simp only [byteLength_append]; omega)
  exact ⟨rfl, List.append_cancel_left hwhole⟩

/-- No line feed stands in an unbroken piece with more of the piece behind it. -/
theorem Unbroken.no_feed {cs : List Char} {q : Nat} {before piece above rest : List Char}
    (h : Unbroken cs q before piece) (hsplit : before ++ piece = above ++ '\n' :: rest)
    (hbefore : byteLength before ≤ byteLength above) : rest = [] := by
  have habove : above <+: before ++ piece := hsplit ▸ List.prefix_append above _
  obtain ⟨middle, rfl⟩ :=
    prefix_of_byteLength_le (List.prefix_append before piece) habove hbefore
  rw [List.append_assoc] at hsplit
  have hpiece := List.append_cancel_left hsplit
  by_contra hne
  apply h.single
  rw [hpiece, List.dropLast_append_of_ne_nil (List.cons_ne_nil _ _),
    List.dropLast_cons_of_ne_nil hne]
  simp

/-- A text cut into what stands above a line, the line with the line feed that ends it, and what stands
below; only the last line may lack its line feed. -/
structure Cut (cs above body feed below : List Char) : Prop where
  text : cs = above ++ (body ++ feed) ++ below
  above : Closed above
  body : '\n' ∉ body
  feed : feed = ['\n'] ∨ feed = [] ∧ below = []

theorem closed_nil : Closed [] := fun c hc => by cases hc

/-- Every byte lies in a line. -/
theorem exists_cut {cs : List Char} {q : Nat} (h : q < byteLength cs) :
    ∃ above body feed below, Cut cs above body feed below ∧ byteLength above ≤ q ∧
      q < byteLength above + byteLength (body ++ feed) := by
  induction cs using lines_induct generalizing q with
  | nil => exact absurd h (Nat.not_lt_zero q)
  | last body hne hbody =>
    exact ⟨[], body, [], [], ⟨by simp, closed_nil, hbody, .inr ⟨rfl, rfl⟩⟩, Nat.zero_le q,
      by simpa using h⟩
  | line body rest hbody ih =>
    by_cases hq : q < byteLength (body ++ ['\n'])
    · exact ⟨[], body, ['\n'], rest, ⟨by simp, closed_nil, hbody, .inl rfl⟩, Nat.zero_le q,
        by simpa using hq⟩
    · have hsplit : body ++ '\n' :: rest = (body ++ ['\n']) ++ rest := by simp
      rw [hsplit, byteLength_append] at h
      obtain ⟨above, body', feed, below, hcut, hstart, hstop⟩ :=
        ih (q := q - byteLength (body ++ ['\n'])) (by omega)
      refine ⟨(body ++ ['\n']) ++ above, body', feed, below, ⟨?_, ?_, hcut.body, hcut.feed⟩, ?_, ?_⟩
      · rw [hsplit, hcut.text]
        simp only [List.append_assoc]
      · exact (Token.closed_line body).append hcut.above
      · rw [byteLength_append]
        omega
      · rw [byteLength_append]
        omega

namespace Cut

variable {cs above body feed below : List Char} {q : Nat}

theorem lines_eq (h : Cut cs above body feed below) (hne : body ++ feed ≠ []) :
    ∃ ls, lines (body ++ feed ++ below) = (body ++ feed) :: ls := by
  rcases h.feed with rfl | ⟨rfl, rfl⟩
  · exact ⟨lines below, by simpa using Token.lines_line h.body below⟩
  · exact ⟨[], by simpa using Token.lines_flat h.body (by simpa using hne)⟩

/-- The line that is looked up is the one that the byte lies in, also for a byte inside of a
character. -/
theorem locate_eq (h : Cut cs above body feed below) (hstart : byteLength above ≤ q)
    (hstop : q < byteLength above + byteLength (body ++ feed)) (number : Nat) :
    locate number q (lines cs) =
      ⟨number + above.count '\n', body ++ feed, q - byteLength above⟩ := by
  obtain ⟨k, rfl⟩ := Nat.exists_eq_add_of_le hstart
  have hk : k < byteLength (body ++ feed) := by omega
  have hne : body ++ feed ≠ [] := by
    intro he
    rw [he] at hk
    exact Nat.not_lt_zero k hk
  obtain ⟨ls, hls⟩ := h.lines_eq hne
  rw [h.text, List.append_assoc, locate_append h.above, hls, locate, if_pos hk,
    Nat.add_sub_cancel_left]

/-- The line feeds before a byte of a line are those above the line. -/
theorem count_feeds (h : Cut cs above body feed below) (hstart : byteLength above ≤ q)
    (hstop : q < byteLength above + byteLength (body ++ feed)) :
    ((encode cs).take q).count 10 = above.count '\n' := by
  obtain ⟨k, rfl⟩ := Nat.exists_eq_add_of_le hstart
  have hbody : k ≤ byteLength body := by
    rw [byteLength_append] at hstop
    rcases h.feed with rfl | ⟨rfl, -⟩
    · have hsize : byteLength ['\n'] = 1 := by decide
      omega
    · rw [byteLength_nil] at hstop
      omega
  have hbefore : (encode cs).take (byteLength above + k) = encode above ++ (encode body).take k := by
    rw [h.text, List.append_assoc, List.append_assoc, encode_append, encode_append,
      ← length_encode above, List.take_length_add_append,
      List.take_append_of_le_length (by rwa [length_encode])]
  have hflat : 10 ∉ (encode body).take k := fun hm =>
    feed_not_mem_encode h.body (List.mem_of_mem_take hm)
  rw [hbefore, List.count_append, count_feed_encode, List.count_eq_zero.mpr hflat, Nat.add_zero]

theorem unbroken (h : Cut cs above body feed below) (hstart : byteLength above ≤ q)
    (hstop : q < byteLength above + byteLength (body ++ feed)) :
    Unbroken cs q above (body ++ feed) where
  stands := ⟨below, h.text.symm⟩
  single := by
    rcases h.feed with rfl | ⟨rfl, -⟩
    · rw [List.dropLast_concat]
      exact h.body
    · rw [List.append_nil]
      exact fun hm => h.body (List.dropLast_subset body hm)
  start := hstart
  stop := hstop

/-- A piece that started further above would go on behind the line feed that ends the line above. -/
theorem start_le (h : Cut cs above body feed below) (hstart : byteLength above ≤ q)
    {before piece : List Char} (hp : Unbroken cs q before piece) :
    byteLength above ≤ byteLength before := by
  rcases List.eq_nil_or_concat' above with rfl | ⟨top, c, rfl⟩
  · exact Nat.zero_le _
  · obtain rfl : c = '\n' := h.above c (by simp)
    have hsize : byteLength ['\n'] = 1 := by decide
    have habove : top ++ ['\n'] <+: cs := ⟨body ++ feed ++ below, by rw [h.text]; simp⟩
    have hstop := hp.stop
    obtain ⟨rest, hrest⟩ : top ++ ['\n'] <+: before ++ piece :=
      prefix_of_byteLength_le habove hp.stands (by rw [byteLength_append before]; omega)
    have hbytes := congrArg byteLength hrest
    simp only [byteLength_append] at hstart hbytes ⊢
    by_contra hlt
    have hsplit : before ++ piece = top ++ '\n' :: rest := by
      rw [← hrest]
      simp
    rw [hp.no_feed hsplit (by omega), byteLength_nil] at hbytes
    omega

/-- A piece that ended further below would go on behind the line feed that ends the line. -/
theorem le_stop (h : Cut cs above body feed below)
    (hstop : q < byteLength above + byteLength (body ++ feed)) {before piece : List Char}
    (hp : Unbroken cs q before piece) :
    byteLength before + byteLength piece ≤ byteLength above + byteLength (body ++ feed) := by
  rw [← byteLength_append before, ← byteLength_append above]
  rcases h.feed with rfl | ⟨rfl, rfl⟩
  · have hsize : byteLength ['\n'] = 1 := by decide
    by_contra hlt
    obtain ⟨rest, hrest⟩ : above ++ (body ++ ['\n']) <+: before ++ piece :=
      prefix_of_byteLength_le ⟨below, h.text.symm⟩ hp.stands (by omega)
    have hbefore : byteLength before ≤ byteLength (above ++ body) := by
      have hstart := hp.start
      simp only [byteLength_append] at hstop ⊢
      omega
    have hnil : rest = [] := hp.no_feed (by rw [← hrest]; simp) hbefore
    rw [← hrest, hnil, List.append_nil] at hlt
    exact hlt (Nat.le_refl _)
  · have hcs : cs = above ++ (body ++ []) := h.text.trans (List.append_nil _)
    exact byteLength_le_of_prefix (hcs ▸ hp.stands)

theorem lineOf (h : Cut cs above body feed below) (hstart : byteLength above ≤ q)
    (hstop : q < byteLength above + byteLength (body ++ feed)) :
    LineOf cs q above (body ++ feed) :=
  ⟨h.unbroken hstart hstop, h.start_le hstart, h.le_stop hstop⟩

end Cut

/-- Looking up a byte of a text that is not empty, the last one for an offset past the end, finds the
one largest unbroken piece that holds the byte, its number among the lines, and the bytes before the
byte on it. Nothing is found in the empty text only. -/
theorem lineAt_finds_line (source : String) (offset : Nat) :
    let q := min offset ((bytes source).length - 1)
    ((lineAt source offset).text = [] ↔ source = "") ∧
    (source ≠ "" → ∃ before line,
      LineOf source.toList q before line ∧
      (∀ before' line', LineOf source.toList q before' line' → before' = before ∧ line' = line) ∧
      lineAt source offset =
        ⟨1 + ((bytes source).take q).count 10, line, q - byteLength before⟩) := by
  intro q
  have hq : q = min offset (byteLength source.toList - 1) := by
    rw [← length_encode, ← bytes_eq_encode]
  have hfound (hne : source ≠ "") : ∃ before line, LineOf source.toList q before line ∧
      lineAt source offset =
        ⟨1 + ((bytes source).take q).count 10, line, q - byteLength before⟩ := by
    have hpos : 0 < byteLength source.toList := by
      apply Nat.pos_of_ne_zero
      intro hzero
      exact hne (String.toList_eq_nil_iff.mp (eq_nil_of_byteLength hzero))
    have hlt : q < byteLength source.toList := by omega
    obtain ⟨above, body, feed, below, hcut, hstart, hstop⟩ := exists_cut hlt
    refine ⟨above, body ++ feed, hcut.lineOf hstart hstop, ?_⟩
    rw [lineAt, ← hq, hcut.locate_eq hstart hstop, bytes_eq_encode, hcut.count_feeds hstart hstop]
  refine ⟨⟨?empty, ?nothing⟩, ?found⟩
  case empty =>
    intro htext
    by_contra hne
    obtain ⟨before, line, hline, hat⟩ := hfound hne
    rw [hat] at htext
    obtain rfl : line = [] := htext
    exact absurd hline.stop (Nat.not_lt.mpr hline.start)
  case nothing =>
    rintro rfl
    rfl
  case found =>
    intro hne
    obtain ⟨before, line, hline, hat⟩ := hfound hne
    exact ⟨before, line, hline, fun _ _ => hline.unique, hat⟩

/-- The second byte of a character of two, on a second line. -/
theorem lineAt_finds_line_inside_character :
    "a\né\n" ≠ "" ∧ LineOf "a\né\n".toList 3 ['a', '\n'] ['é', '\n'] ∧
      lineAt "a\né\n" 3 = ⟨2, ['é', '\n'], 1⟩ := by
  have hne : "a\né\n" ≠ "" := by decide
  have hq : min 3 ((bytes "a\né\n").length - 1) = 3 := by
    rw [bytes_eq_encode, length_encode]
    decide
  obtain ⟨before, line, hline, -, hat⟩ := (lineAt_finds_line "a\né\n" 3).2 hne
  rw [hq] at hline hat
  have hfound : lineAt "a\né\n" 3 = ⟨2, ['é', '\n'], 1⟩ := rfl
  rw [hfound, Line.mk.injEq] at hat
  obtain ⟨-, rfl, hcolumn⟩ := hat
  have hstart : before <+: "a\né\n".toList := (List.prefix_append before _).trans hline.stands
  have hsize : byteLength ['a', '\n'] = 2 := by decide
  obtain rfl : before = ['a', '\n'] :=
    eq_of_byteLength_eq hstart ⟨['é', '\n'], by decide⟩ (by omega)
  exact ⟨hne, hline, hfound⟩

end StackScript.Text
