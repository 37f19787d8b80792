import StackScript.Proofs.LineCuts

namespace StackScript

open Token (Closed lines_induct)

namespace Text

def lineHead (before : List Char) : List Char := (before.reverse.takeWhile (· != '\n')).reverse

theorem exists_lineHead (before : List Char) :
    ∃ above, before = above ++ lineHead before ∧ Closed above ∧ '\n' ∉ lineHead before := by
  refine ⟨(before.reverse.dropWhile (· != '\n')).reverse, ?_, ?_, ?_⟩
  · rw [lineHead, ← List.reverse_append, List.takeWhile_append_dropWhile, List.reverse_reverse]
  · intro c hc
    rw [List.getLast?_reverse] at hc
    simpa using not_head_dropWhile (· != '\n') before.reverse c hc
  · intro hm
    have hall := List.all_eq_true.mp List.all_takeWhile '\n' (List.mem_reverse.mp hm)
    simp at hall

/-- The lines of a closed text are passed by, and counted. -/
theorem locate_append {above : List Char} (h : Closed above) (cs : List Char) (number k : Nat) :
    locate number (byteLength above + k) (lines (above ++ cs)) =
      locate (number + above.count '\n') k (lines cs) := by
  induction above using lines_induct generalizing number with
  | nil => simp
  | last body hne hbody => exact absurd (h.mem hne) hbody
  | line body after hbody ih =>
    have hafter : Closed after := h.suffix ⟨body ++ ['\n'], by simp⟩
    have hcount : (body ++ '\n' :: after).count '\n' = 1 + after.count '\n' := by
      rw [List.count_append, List.count_eq_zero.mpr hbody, List.count_cons_self]
      omega
    have hsize : byteLength (body ++ '\n' :: after) =
        byteLength (body ++ ['\n']) + byteLength after := by
      rw [← byteLength_append, List.append_assoc, List.singleton_append]
    rw [List.append_assoc, List.cons_append, Token.lines_line hbody, locate, if_neg (by omega),
      hsize, Nat.add_assoc, Nat.add_sub_cancel_left, ih hafter, hcount, Nat.add_assoc]

/-- The line of a character: its number, what stands before the character and behind it, and the
bytes before it. -/
theorem lineAt_char {source : String} {before after : List Char} {c : Char}
    (h : source.toList = before ++ c :: after) (hc : c ≠ '\n') : ∃ tail feed,
      lineAt source (byteLength before) =
        ⟨1 + before.count '\n', lineHead before ++ c :: (tail ++ feed),
          byteLength (lineHead before)⟩ ∧
      '\n' ∉ tail ∧ (feed = [] ∨ feed = ['\n']) := by
  obtain ⟨above, hbefore, habove, hhead⟩ := exists_lineHead before
  obtain ⟨tail, after', hafter, htail, hend⟩ := Token.exists_lineText after
  have hsize : 0 < c.utf8Size := Char.utf8Size_pos c
  have hmin : min (byteLength before) (byteLength source.toList - 1) = byteLength before := by
    rw [h, byteLength_append, byteLength]
    omega
  have hcount : before.count '\n' = above.count '\n' := by
    rw [hbefore, List.count_append, List.count_eq_zero.mpr hhead, Nat.add_zero]
  have hflat : '\n' ∉ lineHead before ++ c :: tail := by
    simp [hhead, htail, Ne.symm hc]
  have hlt (more : List Char) :
      byteLength (lineHead before) < byteLength (lineHead before ++ c :: (tail ++ more)) := by
    rw [byteLength_append, byteLength]
    omega
  have hcs : source.toList = above ++ (lineHead before ++ c :: (tail ++ after')) := by
    rw [h, hafter, ← List.append_assoc, ← hbefore]
  unfold lineAt
  rw [hmin, hcs, hcount]
  nth_rewrite 1 [hbefore]
  rw [byteLength_append, locate_append habove]
  rcases hend with ⟨rfl, -⟩ | ⟨rest, rfl, -⟩
  · refine ⟨tail, [], ?_, htail, .inl rfl⟩
    rw [List.append_nil, Token.lines_flat hflat (by simp), locate]
    rw [if_pos (by simpa using hlt [])]
  · refine ⟨tail, ['\n'], ?_, htail, .inr rfl⟩
    have hline : lineHead before ++ c :: (tail ++ '\n' :: rest) =
        (lineHead before ++ c :: tail) ++ '\n' :: rest := by simp
    rw [hline, Token.lines_line hflat, locate, List.append_assoc, List.cons_append,
      if_pos (hlt _)]

theorem dropWhile_append_char {p : Char → Bool} {c : Char} (hc : p c = false)
    (left right : List Char) :
    (left ++ c :: right).dropWhile p = left.dropWhile p ++ c :: right := by
  induction left with
  | nil => simp [hc]
  | cons d left ih =>
    rw [List.cons_append, List.dropWhile_cons, List.dropWhile_cons]
    split
    · exact ih
    · rfl

theorem takeWhile_append_char {p : Char → Bool} {c : Char} (hc : p c = false)
    (left right : List Char) : (left ++ c :: right).takeWhile p = left.takeWhile p := by
  induction left with
  | nil => simp [hc]
  | cons d left ih =>
    rw [List.cons_append, List.takeWhile_cons, List.takeWhile_cons, ih]

theorem trimStart_dropWhile_space (cs : List Char) :
    trimStart (cs.dropWhile (· == ' ')) = trimStart cs := by
  unfold trimStart
  induction cs with
  | nil => rfl
  | cons c cs ih =>
    by_cases hc : c = ' '
    · subst hc
      have hblank : isBlank ' ' = true := by decide
      simp [hblank, ih]
    · simp [hc]

/-- Behind a character that is no blank only the end of the line is trimmed. -/
theorem trimEnd_append_char {c : Char} (hc : isBlank c = false) (left right : List Char) :
    trimEnd (left ++ c :: right) = left ++ c :: trimEnd right := by
  unfold trimEnd
  rw [List.reverse_append, List.reverse_cons, List.append_assoc, List.singleton_append,
    dropWhile_append_char hc]
  simp

/-- The end of a line is a blank at its end. -/
theorem not_mem_trimEnd {tail feed : List Char} (h : '\n' ∉ tail)
    (hfeed : feed = [] ∨ feed = ['\n']) : '\n' ∉ trimEnd (tail ++ feed) := by
  have hends : trimEnd (tail ++ feed) = trimEnd tail := by
    rcases hfeed with rfl | rfl
    · rw [List.append_nil]
    · have hblank : isBlank '\n' = true := by decide
      simp [trimEnd, hblank]
  rw [hends]
  intro hm
  exact h (List.mem_reverse.mp ((List.dropWhile_sublist _).subset (List.mem_reverse.mp hm)))

theorem byteLength_takeWhile_space (cs : List Char) :
    byteLength (cs.takeWhile (· == ' ')) = (cs.takeWhile (· == ' ')).length := by
  induction cs with
  | nil => rfl
  | cons c cs ih =>
    by_cases hc : c = ' '
    · subst hc
      have hsize : (' ' : Char).utf8Size = 1 := by decide
      simp [byteLength, ih, hsize, Nat.add_comm]
    · simp [hc]

/-- The bytes behind the spaces at the start of a text. -/
theorem byteLength_sub_spaces (cs : List Char) :
    byteLength cs - (cs.takeWhile (· == ' ')).length = byteLength (cs.dropWhile (· == ' ')) := by
  have hsplit := congrArg byteLength (List.takeWhile_append_dropWhile (p := (· == ' ')) (l := cs))
  rw [byteLength_append, byteLength_takeWhile_space] at hsplit
  omega

theorem byteLength_eq_length_iff {cs : List Char} :
    byteLength cs = cs.length ↔ ∀ c ∈ cs, c.utf8Size = 1 := by
  induction cs with
  | nil => simp
  | cons c cs ih =>
    have hsize := Char.utf8Size_pos c
    have hle := length_le_byteLength cs
    rw [List.forall_mem_cons, ← ih, byteLength, List.length_cons]
    omega

def lastLines (report : String) : Option (List Char × List Char) :=
  match (lines report.toList).reverse with
  | last :: line :: _ => some (line, last)
  | _ => none

theorem lastLines_eq {report : String} {top line last : List Char} (htop : Closed top)
    (hline : '\n' ∉ line) (hlast : '\n' ∉ last)
    (h : report.toList = top ++ (line ++ ['\n']) ++ (last ++ ['\n'])) :
    lastLines report = some (line ++ ['\n'], last ++ ['\n']) := by
  have hlines : lines report.toList = lines top ++ [line ++ ['\n'], last ++ ['\n']] := by
    rw [h, List.append_assoc, Token.lines_append htop, List.append_assoc, List.singleton_append,
      Token.lines_line hline, Token.lines_line hlast]
    rfl
  unfold lastLines
  rw [hlines]
  simp

end Text

namespace Diagnostic

open Text

variable {d : Diagnostic} {source : String} {before after : List Char} {c : Char}

/-- The printed line of a character up to it: the number of the line, a bar, and the line without
the blanks that it starts with. -/
def printed (before : List Char) : List Char :=
  (toString (1 + before.count '\n')).toList ++ [' ', '|', ' '] ++ trimStart (lineHead before)

theorem not_mem_printed (before : List Char) : '\n' ∉ printed before := by
  obtain ⟨_, _, _, hhead⟩ := exists_lineHead before
  have hnumber : '\n' ∉ Nat.toDigits 10 (1 + before.count '\n') := by
    intro hm
    have hdigit := Nat.isDigit_of_mem_toDigits (b := 10) (by omega) (by omega) hm
    exact absurd hdigit (by decide)
  have htrim : '\n' ∉ trimStart (lineHead before) := fun hm =>
    hhead ((List.dropWhile_sublist _).subset hm)
  simp [printed, hnumber, htrim]

/-- A line without its leading spaces and then without the blanks at both ends, around a character
that is none. -/
theorem trim_line (hc : isBlank c = false) (head tail : List Char) :
    trim ((head ++ c :: tail).dropWhile (· == ' ')) = trimStart head ++ c :: trimEnd tail := by
  have hspace : (c == ' ') = false := by
    rw [beq_eq_false_iff_ne]
    rintro rfl
    cases hc
  have hstart : trimStart (head.dropWhile (· == ' ') ++ c :: tail) =
      trimStart head ++ c :: tail := by
    rw [← trimStart_dropWhile_space head]
    exact dropWhile_append_char hc _ _
  rw [dropWhile_append_char (p := (· == ' ')) hspace, trim, hstart, trimEnd_append_char hc]

/-- The line with the caret: a margin for the number, and a dash for each byte before the character
behind the spaces of its line. -/
def caretLine (before : List Char) : List Char :=
  List.replicate ((toString (1 + before.count '\n')).length + 1) ' ' ++ ['|', ' '] ++
    List.replicate (byteLength ((lineHead before).dropWhile (· == ' '))) '-' ++ ['^']

/-- The report on a character that is no blank. -/
theorem toList_render (file : String) (h : source.toList = before ++ c :: after)
    (hc : isBlank c = false) (hd : d.position.offset = byteLength before) :
    ∃ top rest, Closed top ∧ '\n' ∉ rest ∧
      (d.render source file).toList =
        top ++ (printed before ++ c :: rest ++ ['\n']) ++ (caretLine before ++ ['\n']) := by
  have hfeed : c ≠ '\n' := by
    rintro rfl
    cases hc
  have hspace : (c == ' ') = false := by
    rw [beq_eq_false_iff_ne]
    rintro rfl
    cases hc
  obtain ⟨tail, feed, hline, htail, hend⟩ := lineAt_char h hfeed
  generalize hn : 1 + before.count '\n' = n at hline
  refine ⟨(d.headline ++ s!"-> {file}\n" ++
    padLeft ' ' ((toString n).length + 2) "|").toList ++ ['\n'],
    trimEnd (tail ++ feed), Token.closed_line _, not_mem_trimEnd htail hend, ?_⟩
  have hcaret := byteLength_sub_spaces (lineHead before)
  have hindent := takeWhile_append_char (p := (· == ' ')) hspace (lineHead before) (tail ++ feed)
  have hshown : trim ((lineHead before ++ c :: (tail ++ feed)).drop
      ((lineHead before).takeWhile (· == ' ')).length) =
        trimStart (lineHead before) ++ c :: trimEnd (tail ++ feed) := by
    rw [← hindent, drop_takeWhile, trim_line hc]
  have hbar : "|".length = 1 ∧ "^".length = 1 := ⟨rfl, rfl⟩
  unfold render
  rw [hd, hline]
  simp only [hindent, hshown, hcaret]
  simp [padLeft, printed, caretLine, hn, ToString.toString, hbar.1, hbar.2]

theorem lastLines_render (file : String) (h : source.toList = before ++ c :: after)
    (hc : isBlank c = false) (hd : d.position.offset = byteLength before) : ∃ rest,
      lastLines (d.render source file) =
        some (printed before ++ c :: rest ++ ['\n'], caretLine before ++ ['\n']) := by
  obtain ⟨top, rest, htop, hrest, hlist⟩ := toList_render file h hc hd
  have hfeed : '\n' ≠ c := by
    rintro rfl
    cases hc
  have hprinted : '\n' ∉ printed before ++ c :: rest := by
    simp [not_mem_printed, hrest, hfeed]
  have hcaret : '\n' ∉ caretLine before := by
    simp [caretLine, List.mem_replicate]
  exact ⟨rest, lastLines_eq htop hprinted hcaret hlist⟩

/-- The caret is placed by bytes, less the spaces that the line starts with; the line is printed
without any of its leading blanks. -/
theorem idxOf_caret (before : List Char) :
    (caretLine before ++ ['\n']).idxOf '^' + (trimStart (lineHead before)).length =
      (printed before).length + byteLength ((lineHead before).dropWhile (· == ' ')) := by
  have hmargin (n : Nat) : '^' ∉ List.replicate n ' ' ++ ['|', ' '] := by simp [List.mem_replicate]
  have hdashes (n : Nat) : '^' ∉ List.replicate n '-' := by simp [List.mem_replicate]
  have hfirst : ['^', '\n'].idxOf '^' = 0 := by decide
  have hline : caretLine before ++ ['\n'] =
      (List.replicate ((toString (1 + before.count '\n')).length + 1) ' ' ++ ['|', ' ']) ++
        (List.replicate (byteLength ((lineHead before).dropWhile (· == ' '))) '-' ++
          ['^', '\n']) := by
    simp only [caretLine, List.append_assoc, List.cons_append, List.nil_append]
  rw [hline, List.idxOf_append_of_notMem (hmargin _), List.idxOf_append_of_notMem (hdashes _),
    hfirst]
  simp only [printed, List.length_append, List.length_replicate, List.length_cons, List.length_nil,
    String.length_toList]
  omega

/-- The text before a character on its line, such that bytes and columns agree: behind the spaces
at its start come characters of one byte each, and the first of them is no blank. -/
def Plain (head : List Char) : Prop :=
  (∀ a ∈ head.dropWhile (· == ' '), a.utf8Size = 1) ∧
    ∀ a ∈ (head.dropWhile (· == ' ')).head?, isBlank a = false

/-- Bytes and columns agree exactly on plain text. -/
theorem plain_iff (head : List Char) :
    Plain head ↔ byteLength (head.dropWhile (· == ' ')) = (trimStart head).length := by
  rw [← trimStart_dropWhile_space, Plain, ← byteLength_eq_length_iff]
  generalize head.dropWhile (· == ' ') = text
  have hbytes := length_le_byteLength text
  have htrim : (trimStart text).length ≤ text.length := (List.dropWhile_sublist _).length_le
  have hfirst : (∀ a ∈ text.head?, isBlank a = false) ↔ (trimStart text).length = text.length := by
    cases text with
    | nil => simp [trimStart]
    | cons a text =>
      have hle : (text.dropWhile isBlank).length ≤ text.length :=
        (List.dropWhile_sublist _).length_le
      cases ha : isBlank a with
      | false => simp [trimStart, ha]
      | true =>
        have htext : trimStart (a :: text) = text.dropWhile isBlank := by simp [trimStart, ha]
        rw [htext, List.length_cons]
        refine iff_of_false (fun hfalse => ?_) (by omega)
        rw [hfalse a rfl] at ha
        cases ha
  rw [hfirst]
  omega

def PointsAt (report : String) (before : List Char) (c : Char) : Prop :=
  ∃ line caret, lastLines report = some (line, caret) ∧
    (∃ rest, line = printed before ++ c :: rest) ∧ caret.idxOf '^' = (printed before).length

theorem pointsAt_render_iff {file : String} (h : source.toList = before ++ c :: after)
    (hc : isBlank c = false) (hd : d.position.offset = byteLength before) :
    PointsAt (d.render source file) before c ↔ Plain (lineHead before) := by
  obtain ⟨rest, hlines⟩ := lastLines_render file h hc hd
  have hcolumn := idxOf_caret before
  rw [plain_iff]
  constructor
  · rintro ⟨line, caret, hlast, _, hunder⟩
    rw [hlines] at hlast
    cases hlast
    omega
  · intro hplain
    exact ⟨_, _, hlines, ⟨rest ++ ['\n'], by simp⟩, by omega⟩

/-- The report on a character that is no blank ends in its line, under the number of that line, and
in a caret that is as far right of the character as there are more bytes before it, the spaces at
the start of the line apart, than characters, its leading blanks apart. So the caret stands under
the character exactly if the line before it is plain. -/
theorem caret_under_iff {file : String} (h : source.toList = before ++ c :: after)
    (hc : isBlank c = false) (hd : d.position.offset = byteLength before) :
    (∃ line caret, lastLines (d.render source file) = some (line, caret) ∧
      (∃ rest, line = printed before ++ c :: rest) ∧
      caret.idxOf '^' + (trimStart (lineHead before)).length =
        (printed before).length + byteLength ((lineHead before).dropWhile (· == ' '))) ∧
    (PointsAt (d.render source file) before c ↔ Plain (lineHead before)) := by
  obtain ⟨rest, hlines⟩ := lastLines_render file h hc hd
  exact ⟨⟨_, _, hlines, ⟨rest ++ ['\n'], by simp⟩, idxOf_caret before⟩,
    pointsAt_render_iff h hc hd⟩

/-- A line indented by spaces: the caret is under the name. -/
theorem caret_under_iff_spaces :
    let d : Diagnostic := ⟨.notAVariable "y", ⟨26, "shell"⟩⟩
    let before := "x: int = 1\nif True:\n  x = ".toList
    "x: int = 1\nif True:\n  x = y\n".toList = before ++ 'y' :: ['\n'] ∧ isBlank 'y' = false ∧
      d.position.offset = byteLength before ∧
      PointsAt (d.render "x: int = 1\nif True:\n  x = y\n" "shell") before 'y' := by
  intro d before
  have hsource : "x: int = 1\nif True:\n  x = y\n".toList = before ++ 'y' :: ['\n'] := by decide
  have hoffset : d.position.offset = byteLength before := by decide
  refine ⟨hsource, by decide, hoffset, (caret_under_iff hsource (by decide) hoffset).2.mpr ⟨?_, ?_⟩⟩
  · decide
  · intro a ha
    cases ha
    decide

/-- A line indented by a tab: the caret is not under the name. -/
theorem caret_beside_after_tab :
    let d : Diagnostic := ⟨.notAVariable "y", ⟨25, "shell"⟩⟩
    ¬ PointsAt (d.render "x: int = 1\nif True:\n\tx = y\n" "shell")
      "x: int = 1\nif True:\n\tx = ".toList 'y' := by
  intro d hpoints
  have hsource : "x: int = 1\nif True:\n\tx = y\n".toList =
      "x: int = 1\nif True:\n\tx = ".toList ++ 'y' :: ['\n'] := by decide
  have hplain := (pointsAt_render_iff hsource (by decide) (by decide)).mp hpoints
  exact absurd (hplain.2 '\t' (by decide)) (by decide)

end Diagnostic

end StackScript
