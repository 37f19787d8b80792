import StackScript.Proofs.Rounds

namespace StackScript

/-- The span is a stretch of this text. -/
def Span.Within (source file : String) (s : Span) : Prop :=
  ∃ before text after, source.toList = before ++ text ++ after ∧
    s = ⟨Text.byteLength before, Text.byteLength before + Text.byteLength text, file⟩

theorem Span.Within.exists_slice {source file : String} {s : Span} (h : s.Within source file) :
    ∃ text, Text.slice? source.toList s.start s.stop = some text := by
  obtain ⟨before, text, after, hsource, rfl⟩ := h
  rw [hsource]
  exact ⟨text, Text.slice?_append before text after⟩

structure Span.Narrow (s : Span) : Prop where
  start : s.start < 4294967296
  stop : s.stop < 4294967296

/-- A stretch of a short text has narrow offsets. -/
theorem Span.Within.narrow {source file : String} {s : Span} (h : s.Within source file)
    (hshort : Text.Short source.toList) : s.Narrow := by
  obtain ⟨before, text, after, hsource, rfl⟩ := h
  rw [Text.Short, hsource, Text.byteLength_append, Text.byteLength_append] at hshort
  constructor <;> dsimp only <;> omega

namespace Token

def isWord (t : Token) : Bool := !t.kind.isLayout

def wordsOf (tokens : List Token) : List Token := tokens.filter isWord

def isFiller (c : Char) : Bool := c == ' ' || c == '\t' || c == '\r' || c == '\n'

/-- Read from a byte offset on, the text is made of these spans in this order, and of filler and
comments around them. -/
inductive Filled (file : String) : Nat → List Char → List Span → Prop where
  | nil {offset : Nat} : Filled file offset [] []
  | blank {offset : Nat} {c : Char} {cs : List Char} {spans : List Span} : isFiller c = true →
    Filled file (offset + c.utf8Size) cs spans → Filled file offset (c :: cs) spans
  /-- A comment is followed by a line feed or by nothing. -/
  | comment {offset : Nat} {body cs : List Char} {spans : List Span} : '\n' ∉ body →
    (∀ c ∈ cs.head?, c = '\n') →
    Filled file (offset + Text.byteLength ('#' :: body)) cs spans →
    Filled file offset ('#' :: body ++ cs) spans
  | word {offset : Nat} {text cs : List Char} {spans : List Span} : text ≠ [] →
    Filled file (offset + Text.byteLength text) cs spans →
    Filled file offset (text ++ cs) (⟨offset, offset + Text.byteLength text, file⟩ :: spans)

namespace Filled

variable {file : String} {offset : Nat} {text cs : List Char} {spans : List Span}

theorem blanks (ht : ∀ c ∈ text, isFiller c = true)
    (h : Filled file (offset + Text.byteLength text) cs spans) :
    Filled file offset (text ++ cs) spans := by
  induction text generalizing offset with
  | nil => exact h
  | cons c text ih =>
    rw [Text.byteLength, ← Nat.add_assoc] at h
    exact .blank (ht c List.mem_cons_self) (ih (fun d hd => ht d (List.mem_cons_of_mem c hd)) h)

/-- The spans lie behind the offset, and none of them is empty. -/
theorem bounds (h : Filled file offset cs spans) :
    ∀ s ∈ spans, offset ≤ s.start ∧ s.start < s.stop ∧ s.file = file := by
  induction h with
  | nil => exact fun s hs => absurd hs List.not_mem_nil
  | blank _ _ ih => exact fun s hs => ⟨Nat.le_of_add_right_le (ih s hs).1, (ih s hs).2⟩
  | comment _ _ _ ih => exact fun s hs => ⟨Nat.le_of_add_right_le (ih s hs).1, (ih s hs).2⟩
  | @word offset text _ _ hne _ ih =>
    intro s hs
    rcases List.mem_cons.mp hs with rfl | hs
    · have hlen := Text.length_le_byteLength text
      have hpos := List.length_pos_iff.mpr hne
      exact ⟨Nat.le_refl _, by change offset < offset + Text.byteLength text; omega, rfl⟩
    · exact ⟨Nat.le_of_add_right_le (ih s hs).1, (ih s hs).2⟩

/-- The spans come one after the other. -/
theorem ordered (h : Filled file offset cs spans) :
    spans.Pairwise fun a b => a.stop ≤ b.start := by
  induction h with
  | nil => exact .nil
  | blank _ _ ih | comment _ _ _ ih => exact ih
  | word _ hcs ih => exact .cons (fun s hs => (hcs.bounds s hs).1) ih

end Filled

/-- The token carries what the source holds at its span; a literal leaves its quotes out. -/
inductive Carries (source : String) (t : Token) : Prop where
  | plain : t.kind ≠ .string →
    Text.slice? source.toList t.span.start t.span.stop = some t.value.toList → Carries source t
  | quoted {quote : Char} : t.kind = .string → quote = '"' ∨ quote = '\'' →
    Text.slice? source.toList t.span.start t.span.stop =
      some (quote :: t.value.toList ++ [quote]) →
    Text.slice? source.toList (t.span.start + 1) (t.span.stop - 1) = some t.value.toList →
    Carries source t

theorem wordKind_isLayout (word : List Char) : (wordKind word).isLayout = false := by
  unfold wordKind Kind.keyword?
  split <;> rfl

theorem operator?_isLayout {cs text : List Char} {kind : Kind}
    (h : operator? cs = some (kind, text)) : kind.isLayout = false := by
  unfold operator? at h
  split at h <;> cases h <;> rfl

theorem lexeme?_isLayout {cs text : List Char} {kind : Kind}
    (h : lexeme? cs = some (.word kind, text)) : kind.isLayout = false := by
  cases lexeme?_fronts h with
  | name => exact wordKind_isLayout _
  | number | literal => rfl
  | operator hop => exact operator?_isLayout hop

/-- A literal is its content between two equal quotes. -/
theorem lexeme?_string {cs text : List Char} (h : lexeme? cs = some (.word .string, text)) :
    ∃ quote body, (quote = '"' ∨ quote = '\'') ∧ text = quote :: body ++ [quote] := by
  generalize hlexeme : Lexeme.word .string = lexeme at h
  cases lexeme?_fronts h with
  | @name c cs =>
    have hkind := Lexeme.word.inj hlexeme
    unfold wordKind Kind.keyword? at hkind
    split at hkind <;> cases hkind
  | literal hquote htext =>
    unfold literal? at htext
    obtain ⟨-, htext⟩ := Option.ite_none_right_eq_some.mp htext
    exact ⟨_, _, hquote, (Option.some.inj htext).symm⟩
  | operator hop =>
    cases hlexeme
    unfold operator? at hop
    split at hop <;> cases hop
  | number | lineEnd | gap | comment => cases hlexeme

theorem isFiller_of_lineEnd? {cs text : List Char} (h : lineEnd? cs = some text) :
    ∀ c ∈ text, isFiller c = true := by
  unfold lineEnd? at h
  split at h <;> cases h <;> decide

theorem isFiller_of_isGap {c : Char} (h : isGap c = true) : isFiller c = true := by
  simp only [isGap, isFiller, Bool.or_eq_true] at h ⊢
  exact .inl h

theorem isFiller_of_isIndent {c : Char} (h : isIndent c = true) : isFiller c = true := by
  simp only [isIndent, isFiller, Bool.or_eq_true] at h ⊢
  exact .inl (.inl h)

/-- A line is what stands before its line feed, and the line feed if there is one. -/
theorem exists_lineText (cs : List Char) : ∃ body after, cs = body ++ after ∧ '\n' ∉ body ∧
    (after = [] ∧ lineText cs = body ∨
      ∃ rest, after = '\n' :: rest ∧ lineText cs = body ++ ['\n']) := by
  induction cs with
  | nil => exact ⟨[], [], rfl, List.not_mem_nil, .inl ⟨rfl, rfl⟩⟩
  | cons c cs ih =>
    by_cases hc : c = '\n'
    · subst hc
      exact ⟨[], '\n' :: cs, rfl, List.not_mem_nil, .inr ⟨cs, rfl, rfl⟩⟩
    · obtain ⟨body, after, hcs, hbody, hline⟩ := ih
      refine ⟨c :: body, after, by rw [hcs]; rfl, ?_, ?_⟩
      · exact List.not_mem_cons_of_ne_of_not_mem (Ne.symm hc) hbody
      · rw [lineText, if_neg hc]
        rcases hline with ⟨ha, hl⟩ | ⟨rest, ha, hl⟩
        · exact .inl ⟨ha, by rw [hl]⟩
        · exact .inr ⟨rest, ha, by rw [hl]; rfl⟩

namespace Filled

variable {file : String} {offset : Nat} {text cs : List Char} {spans : List Span}

/-- A gap, and a line end, is made of filler or is a comment. -/
theorem lexeme {lexeme : Lexeme} (hx : lexeme? cs = some (lexeme, text))
    (hl : ∀ kind, lexeme ≠ .word kind)
    (h : Filled file (offset + Text.byteLength text) (cs.drop text.length) spans) :
    Filled file offset cs spans := by
  obtain ⟨-, after, rfl⟩ := lexeme?_front hx
  rw [List.drop_left] at h
  generalize hcs : text ++ after = cs at hx
  cases lexeme?_fronts hx with
  | name | number | literal | operator => exact absurd rfl (hl _)
  | lineEnd hend =>
    rw [← hcs]
    exact h.blanks (isFiller_of_lineEnd? hend)
  | gap hc =>
    rw [← hcs]
    refine h.blanks fun d hd => isFiller_of_isGap ?_
    rcases List.mem_cons.mp hd with rfl | hd
    · exact hc
    · exact List.all_eq_true.mp List.all_takeWhile d hd
  | @comment cs =>
    have hafter : after = cs.dropWhile (· != '\n') := by
      have hsplit := (List.cons.inj hcs).2
      nth_rewrite 2 [← List.takeWhile_append_dropWhile (p := (· != '\n')) (l := cs)] at hsplit
      exact List.append_cancel_left hsplit
    rw [← hcs]
    refine .comment (fun hmem => ?_) (fun c hc => ?_) h
    · have := List.all_eq_true.mp List.all_takeWhile _ hmem
      simp at this
    · have hhead := List.head?_dropWhile_not (· != '\n') cs
      rw [← hafter, hc] at hhead
      simpa using hhead

/-- A blank line is filler, or filler and a comment. -/
theorem blankLine (hb : isBlankLine cs = true)
    (h : Filled file (offset + Text.byteLength (lineText cs)) (cs.drop (lineText cs).length) spans) :
    Filled file offset cs spans := by
  unfold isBlankLine at hb
  split at hb
  · exact h
  · exact .blank rfl h
  · exact .blank rfl (.blank rfl h)
  · rename_i cs
    obtain ⟨body, after, rfl, hbody, hline⟩ := exists_lineText cs
    have hcons : lineText ('#' :: (body ++ after)) = '#' :: lineText (body ++ after) := rfl
    rw [hcons] at h
    rcases hline with ⟨rfl, hl⟩ | ⟨rest, rfl, hl⟩
    · rw [hl] at h
      refine .comment hbody (fun c hc => by cases hc) ?_
      simpa using h
    · rw [hl] at h
      refine .comment hbody (fun c hc => by cases hc; rfl) (.blank rfl ?_)
      simpa [Text.byteLength, Nat.add_assoc] using h
  · cases hb

end Filled

theorem wordsOf_layout {t : Token} {tokens : List Token} (h : t.kind.isLayout = true) :
    wordsOf (t :: tokens) = wordsOf tokens :=
  List.filter_cons_of_neg (by simp [isWord, h])

theorem wordsOf_dedents (n : Nat) (value : String) (span : Span) (tokens : List Token) :
    wordsOf (List.replicate n ⟨.dedent, value, span⟩ ++ tokens) = wordsOf tokens := by
  induction n with
  | zero => rfl
  | succ n ih => exact (wordsOf_layout rfl).trans ih

namespace Scanner

variable {source file : String} {n : Nat} {s t : Scanner}

theorem wordsOf_pushNewline (s : Scanner) (text : List Char) :
    wordsOf (s.pushNewline text).tokens = wordsOf s.tokens := by
  rcases pushNewline_cases s text with ⟨he, -⟩ | ⟨he, -⟩
  · rw [he]
  · rw [he]
    exact wordsOf_layout rfl

theorem filled_of_blanks {spans : List Span}
    (h : Filled s.file (s.offset + Text.byteLength s.blanks) s.line spans) :
    Filled s.file s.offset s.rest spans := by
  rw [← s.blanks_append_line]
  exact h.blanks fun c hc => isFiller_of_isIndent (List.all_eq_true.mp List.all_takeWhile c hc)

/-- A step goes over filler, a comment or the text of the word it adds. -/
theorem Moves.filled (h : s.Moves t) : ∃ new, wordsOf t.tokens = new ++ wordsOf s.tokens ∧
    ∀ more, Filled s.file t.offset t.rest more →
      Filled s.file s.offset s.rest (new.reverse.map Token.span ++ more) := by
  cases h with
  | blankLine _ hblank =>
    refine ⟨[], rfl, fun more h => filled_of_blanks (.blankLine hblank ?_)⟩
    simpa [skip, line, Nat.add_assoc] using h
  | first => exact ⟨[], rfl, fun more h => filled_of_blanks h⟩
  | deeper => exact ⟨[], wordsOf_layout rfl, fun more h => filled_of_blanks h⟩
  | back =>
    rw [pushDedents_eq]
    exact ⟨[], wordsOf_dedents _ _ _ _, fun more h => filled_of_blanks h⟩
  | @word kind text _ hx =>
    obtain ⟨hne, after, hr⟩ := lexeme?_front hx
    refine ⟨[⟨kind, wordValue kind text, s.spanOf text⟩], ?_, fun more h => ?_⟩
    · exact List.filter_cons_of_pos (by simp [isWord, lexeme?_isLayout hx])
    · have hafter : (s.takeWord kind text).rest = after := by
        change s.rest.drop text.length = after
        rw [← hr, List.drop_left]
      rw [hafter] at h
      rw [← hr]
      exact .word hne h
  | @newline text _ _ hx =>
    refine ⟨[], wordsOf_pushNewline s text, fun more h => .lexeme hx (fun _ => Lexeme.noConfusion) ?_⟩
    rwa [pushNewline_eq] at h
  | joined _ hx => exact ⟨[], rfl, fun more h => .lexeme hx (fun _ => Lexeme.noConfusion) h⟩
  | gap _ hx => exact ⟨[], rfl, fun more h => .lexeme hx (fun _ => Lexeme.noConfusion) h⟩

/-- What has been read is filled by the words so far, whatever comes. -/
theorem Rounds.filled (h : Rounds source file n s) {more : List Span}
    (hmore : Filled file s.offset s.rest more) :
    Filled file 0 source.toList ((wordsOf s.tokens).reverse.map Token.span ++ more) := by
  induction h generalizing more with
  | start => exact hmore
  | @next n s t hs _ hstep ih =>
    obtain ⟨new, hnew, hfill⟩ := (step_moves hstep).filled
    rw [hs.file_eq] at hfill
    rw [hnew, List.reverse_append, List.map_append, List.append_assoc]
    exact ih (hfill more hmore)

/-- The word at the front of the rest carries what stands there. -/
theorem Sound.carries (h : s.Sound source) {kind : Kind} {text : List Char}
    (hx : lexeme? s.rest = some (.word kind, text)) :
    (⟨kind, wordValue kind text, s.spanOf text⟩ : Token).Carries source := by
  obtain ⟨-, after, hr⟩ := lexeme?_front hx
  obtain ⟨done, hd, ho⟩ := h.place
  have hsource : source.toList = done ++ text ++ after := by rw [hd, ← hr, List.append_assoc]
  have hslice : Text.slice? source.toList s.offset (s.offset + Text.byteLength text) = some text := by
    rw [hsource, ho]
    exact Text.slice?_append done text after
  by_cases hk : kind = .string
  · subst hk
    obtain ⟨quote, body, hquote, rfl⟩ := lexeme?_string hx
    have hvalue : (wordValue .string (quote :: body ++ [quote])).toList = body := by
      simp [wordValue]
    have hsize : quote.utf8Size = 1 := by rcases hquote with rfl | rfl <;> rfl
    refine .quoted rfl hquote ?_ ?_
    · rw [hvalue]
      exact hslice
    · have hinner := Text.slice?_append (done ++ [quote]) body ([quote] ++ after)
      have hstop : s.offset + Text.byteLength (quote :: body ++ [quote]) - 1 =
          s.offset + 1 + Text.byteLength body := by
        simp only [Text.byteLength, Text.byteLength_append, List.cons_append, hsize]
        omega
      rw [hvalue, hsource]
      change Text.slice? _ (s.offset + 1) (s.offset + _ - 1) = _
      rw [hstop, ho]
      simpa [Text.byteLength, hsize] using hinner
  · refine .plain hk ?_
    have hvalue : (wordValue kind text).toList = text := by
      unfold wordValue
      split
      · exact absurd rfl hk
      · exact String.toList_ofList
    rw [hvalue]
    exact hslice

/-- All words so far carry what stands at their spans. -/
theorem Rounds.carries (h : Rounds source file n s) :
    ∀ t ∈ s.tokens, t.isWord = true → t.Carries source := by
  induction h with
  | start => exact fun t ht => absurd ht List.not_mem_nil
  | next hs _ hstep ih =>
    intro t ht hword
    rcases step_tokens hstep t ht with ht | hlayout | ⟨text, hx, he⟩
    · exact ih t ht hword
    · simp [isWord, hlayout] at hword
    · rw [he]
      exact hs.sound.carries hx

theorem Sound.spanOf_within (h : s.Sound source) {text : List Char} (hp : text <+: s.rest) :
    (s.spanOf text).Within source s.file := by
  obtain ⟨done, hd, ho⟩ := h.place
  obtain ⟨after, hr⟩ := hp
  refine ⟨done, text, after, by rw [hd, ← hr, List.append_assoc], ?_⟩
  rw [spanOf, ho]

theorem Sound.entered (h : s.Sound source) : s.entered.Sound source := by
  have hskip := h.skip (List.takeWhile_prefix (l := s.rest) isIndent)
  exact ⟨hskip.place⟩

theorem Sound.dedents_within (h : s.Sound source) {n : Nat} {value : String} {kind : Kind}
    {x : Token} (hx : x ∈ List.replicate n (⟨kind, value, s.spanOf []⟩ : Token)) :
    x.span.Within source s.file := by
  rw [List.eq_of_mem_replicate hx]
  exact h.spanOf_within List.nil_prefix

theorem Sound.pushNewline_within (h : s.Sound source) {text : List Char} (hp : text <+: s.rest)
    {x : Token} (hx : x ∈ (s.pushNewline text).tokens) :
    x ∈ s.tokens ∨ x.span.Within source s.file := by
  rcases pushNewline_cases s text with ⟨he, -⟩ | ⟨he, -⟩ <;> rw [he] at hx
  · exact .inl hx
  · rcases List.mem_cons.mp hx with rfl | hx
    · exact .inr (h.spanOf_within hp)
    · exact .inl hx

/-- The tokens that a step adds are stretches of the source, the layout tokens too. -/
theorem Moves.within (h : s.Moves t) (hs : s.Sound source) {x : Token} (hx : x ∈ t.tokens) :
    x ∈ s.tokens ∨ x.span.Within source s.file := by
  cases h with
  | blankLine | first | joined | gap => exact .inl hx
  | deeper =>
    rcases List.mem_cons.mp hx with rfl | hx
    · exact .inr (hs.entered.spanOf_within List.nil_prefix)
    · exact .inl hx
  | back =>
    rw [pushDedents_eq] at hx
    rcases List.mem_append.mp hx with hx | hx
    · exact .inr (hs.entered.dedents_within hx)
    · exact .inl hx
  | word _ hlex =>
    rcases List.mem_cons.mp hx with rfl | hx
    · exact .inr (hs.spanOf_within (lexeme?_front hlex).2)
    · exact .inl hx
  | newline _ _ hlex => exact hs.pushNewline_within (lexeme?_front hlex).2 hx

/-- All tokens so far are stretches of the source. -/
theorem Rounds.within (h : Rounds source file n s) :
    ∀ t ∈ s.tokens, t.span.Within source file := by
  induction h with
  | start => exact fun t ht => absurd ht List.not_mem_nil
  | next hs _ hstep ih =>
    intro t ht
    rcases (step_moves hstep).within hs.sound ht with ht | ht
    · exact ih t ht
    · exact hs.file_eq ▸ ht

structure OnBoundaries (source : String) (s : Scanner) : Prop where
  rest : Text.dropBytes s.offset source.toList = some s.rest
  line : Text.dropBytes (s.offset + Text.byteLength s.blanks) source.toList = some s.line
  tokens : ∀ t ∈ s.tokens, ∃ text, Text.slice? source.toList t.span.start t.span.stop = some text

theorem Sound.dropBytes_offset (h : s.Sound source) :
    Text.dropBytes s.offset source.toList = some s.rest := by
  obtain ⟨done, hd, ho⟩ := h.place
  rw [hd, ho, Text.dropBytes_append]

/-- A step drops whole lexemes, so the source is never cut inside of a character. -/
theorem Rounds.onBoundaries (h : Rounds source file n s) : s.OnBoundaries source where
  rest := h.sound.dropBytes_offset
  line := h.sound.entered.dropBytes_offset
  tokens := fun t ht => (h.within t ht).exists_slice

theorem wordsOf_finish (s : Scanner) : wordsOf s.finish = (wordsOf s.tokens).reverse := by
  rw [finish_eq, wordsOf, List.filter_append, List.filter_reverse]
  change (wordsOf (_ ++ _)).reverse ++ wordsOf [_] = _
  rw [wordsOf_dedents, wordsOf_pushNewline, wordsOf_layout rfl]
  exact List.append_nil _

end Scanner

open Scanner

theorem scan_within {source file : String} {tokens : List Token}
    (h : scan source file = .ok tokens) : ∀ t ∈ tokens, t.span.Within source file := by
  obtain ⟨n, s, hs, -, -, rfl⟩ := exists_rounds_of_scan h
  rw [finish_eq]
  have hhere : (s.spanOf []).Within source s.file := hs.sound.spanOf_within List.nil_prefix
  intro t ht
  rw [← hs.file_eq]
  rcases List.mem_append.mp ht with ht | ht
  · rcases List.mem_append.mp (List.mem_reverse.mp ht) with ht | ht
    · exact hs.sound.dedents_within ht
    · rcases hs.sound.pushNewline_within List.nil_prefix ht with ht | ht
      · exact hs.file_eq ▸ hs.within t ht
      · exact ht
  · rw [List.mem_singleton.mp ht]
    exact hhere

theorem scan_filled {source file : String} {tokens : List Token} (h : scan source file = .ok tokens) :
    Filled file 0 source.toList ((wordsOf tokens).map Token.span) := by
  obtain ⟨n, s, hs, hr, -, rfl⟩ := exists_rounds_of_scan h
  have hnil : Filled file s.offset s.rest [] := by
    rw [hr]
    exact .nil
  have hfilled := hs.filled hnil
  rwa [List.append_nil, ← wordsOf_finish] at hfilled

theorem scan_carries {source file : String} {tokens : List Token}
    (h : scan source file = .ok tokens) : ∀ t ∈ wordsOf tokens, t.Carries source := by
  obtain ⟨n, s, hs, -, -, rfl⟩ := exists_rounds_of_scan h
  intro t ht
  rw [wordsOf_finish, List.mem_reverse, wordsOf, List.mem_filter] at ht
  exact hs.carries t ht.1 ht.2

/-- Scanning ends on every text after a bounded number of rounds and cuts it between characters
only. Of a text that it accepts, the words are not empty, come one after the other and carry what
stands at their spans, and only filler and comments stand between them. The offsets of a short text fit
in 32 bits. -/
theorem scan_lossless (source file : String) :
    (∀ n s, Rounds source file n s → n ≤ 2 * source.length + 1 ∧ s.OnBoundaries source) ∧
    (∃ n s, Rounds source file n s ∧ (s.rest = [] ∧ scan source file = .ok s.finish ∨
      ∃ d, s.rest ≠ [] ∧ s.step = .error d ∧ scan source file = .error d)) ∧
    ∀ tokens, scan source file = .ok tokens →
      (∀ t ∈ wordsOf tokens, t.span.start < t.span.stop ∧ t.Carries source) ∧
      (wordsOf tokens).Pairwise (fun a b => a.span.stop ≤ b.span.start) ∧
      Filled file 0 source.toList ((wordsOf tokens).map Token.span) ∧
      (Text.Short source.toList → ∀ t ∈ tokens, t.span.Narrow) := by
  refine ⟨fun n s hs => ⟨hs.bounded, hs.onBoundaries⟩, ?_, fun tokens h => ?_⟩
  · have hstart : Rounds source file 0 (.start source file) := .start
    rcases hstart.ends with ⟨n, s, hs, hr, hrun⟩ | ⟨n, s, d, hs, hr, hstep, -⟩
    · exact ⟨n, s, hs, .inl ⟨hr, by rw [scan, hrun]; rfl⟩⟩
    · exact ⟨n, s, hs, .inr ⟨d, hr, hstep, hs.scan_error hr hstep⟩⟩
  · have hfilled := scan_filled h
    refine ⟨fun t ht => ⟨?_, scan_carries h t ht⟩, ?_, hfilled,
      fun hshort t ht => (scan_within h t ht).narrow hshort⟩
    · exact (hfilled.bounds t.span (List.mem_map_of_mem ht)).2.1
    · exact List.pairwise_map.mp hfilled.ordered

/-- A tab, a line end inside parentheses, both kinds of quotes around other letters than ASCII, and
a comment that ends with the text. -/
theorem scan_lossless_quoted : ∃ tokens,
    scan "print(\r\n\t'é #', \"\")# ü\n\n  # é" "f" = .ok tokens ∧
      (wordsOf tokens).map (fun t => (t.value, t.span.start, t.span.stop)) =
        [("print", 0, 5), ("(", 5, 6), ("é #", 9, 15), (",", 15, 16), ("", 17, 19), (")", 19, 20)] ∧
      (∀ t ∈ wordsOf tokens, t.Carries "print(\r\n\t'é #', \"\")# ü\n\n  # é") ∧
      Filled "f" 0 "print(\r\n\t'é #', \"\")# ü\n\n  # é".toList
        ((wordsOf tokens).map Token.span) := by
  generalize htext : "print(\r\n\t'é #', \"\")# ü\n\n  # é" = text
  have htest : (scan text "f").toOption.any (fun tokens =>
      (wordsOf tokens).map (fun t => (t.value, t.span.start, t.span.stop)) =
        [("print", 0, 5), ("(", 5, 6), ("é #", 9, 15), (",", 15, 16), ("", 17, 19),
          (")", 19, 20)]) = true := by
    subst htext
    decide +kernel
  cases hscan : scan text "f" with
  | error d =>
    rw [hscan] at htest
    cases htest
  | ok tokens =>
    rw [hscan] at htest
    obtain ⟨hwords, -, hfilled, -⟩ := (scan_lossless text "f").2.2 tokens hscan
    exact ⟨tokens, rfl, of_decide_eq_true htest, fun t ht => (hwords t ht).2, hfilled⟩

end Token

end StackScript
