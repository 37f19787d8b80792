import StackScript.Proofs.Scanning

namespace StackScript

open Token Token.Scanner Token.Word

namespace Token

/-- The columns of the open levels at a depth, innermost first. -/
def columns (width : Nat) : Nat → List Nat
  | 0 => [0]
  | depth + 1 => width * (depth + 1) :: columns width depth

theorem columns_eq (width depth : Nat) : ∃ outer, columns width depth = width * depth :: outer := by
  cases depth with
  | zero => exact ⟨[], rfl⟩
  | succ depth => exact ⟨columns width depth, rfl⟩

theorem length_columns (width depth : Nat) : (columns width depth).length = depth + 1 := by
  induction depth with
  | zero => rfl
  | succ depth ih => rw [columns, List.length_cons, ih]

theorem columnOf_replicate (n : Nat) : columnOf (List.replicate n ' ') = n := by
  have hfold (k : Nat) : (List.replicate n ' ').foldl
      (fun column c => if c = '\t' then (column / 8 + 1) * 8 else column + 1) k = k + n := by
    induction n generalizing k with
    | zero => rfl
    | succ n ih =>
      rw [List.replicate_succ, List.foldl_cons, if_neg (by decide), ih]
      omega
  rw [columnOf, hfold, Nat.zero_add]

/-- Going back to an outer level closes all levels in between at once. -/
theorem closeLevels_columns {width : Nat} (hw : 0 < width) (depth closed : Nat) :
    closeLevels (width * depth) (columns width (depth + closed)) =
      (closed, columns width depth) := by
  induction closed with
  | zero =>
    cases depth with
    | zero => rfl
    | succ depth =>
      obtain ⟨outer, houter⟩ := columns_eq width depth
      rw [Nat.add_zero, columns, houter, closeLevels, if_neg (Nat.lt_irrefl _)]
  | succ closed ih =>
    obtain ⟨outer, houter⟩ := columns_eq width (depth + closed)
    have hlt : width * depth < width * (depth + closed + 1) :=
      Nat.mul_lt_mul_of_pos_left (by omega) hw
    rw [← Nat.add_assoc, columns, houter, closeLevels, if_pos hlt, ← houter, ih]

namespace Scanner

@[simp] theorem pushDedents_levels (s : Scanner) (n : Nat) :
    (s.pushDedents n).levels = s.levels := by
  induction n generalizing s with
  | zero => rfl
  | succ n ih => rw [pushDedents, ih]; rfl

@[simp] theorem pushDedents_parens (s : Scanner) (n : Nat) :
    (s.pushDedents n).parens = s.parens := by
  induction n generalizing s with
  | zero => rfl
  | succ n ih => rw [pushDedents, ih]; rfl

structure AtLine (s : Scanner) : Prop where
  lineStart : s.lineStart = true
  parens : s.parens = 0

/-- The next line is this deep, and these are the words once it has found its level. -/
inductive Awaits (width : Nat) : Nat → Scanner → List Word → Prop where
  /-- The first line of all. -/
  | first {s : Scanner} : s.levels = [] → Awaits width 0 s s.words
  | deeper {depth : Nat} {s : Scanner} : s.levels = columns width depth →
    Awaits width (depth + 1) s (s.words ++ [.indent])
  | closing {depth closed : Nat} {s : Scanner} : s.levels = columns width (depth + closed) →
    Awaits width depth s (s.words ++ List.replicate closed .dedent)

/-- After a line at least this deep; these are the words once the deeper levels are closed. -/
structure Settled (width depth : Nat) (s : Scanner) (ws : List Word) : Prop where
  atLine : s.AtLine
  ended : ∀ t ∈ s.tokens.head?, t.kind = .newline
  closing : ∃ closed, s.levels = columns width (depth + closed) ∧
    ws = s.words ++ List.replicate closed .dedent

namespace Settled

variable {width depth : Nat} {s : Scanner} {ws : List Word}

theorem awaits (h : s.Settled width depth ws) : Awaits width depth s ws := by
  obtain ⟨closed, hlevels, rfl⟩ := h.closing
  exact .closing hlevels

/-- Closing waits for the next line, so the dedent is one that is still to come. -/
theorem close (h : s.Settled width (depth + 1) ws) : s.Settled width depth (ws ++ [.dedent]) := by
  obtain ⟨closed, hlevels, rfl⟩ := h.closing
  refine ⟨h.atLine, h.ended, closed + 1, ?_, ?_⟩
  · rw [hlevels]
    congr 1
    omega
  · rw [List.append_assoc, List.replicate_succ']

end Settled

/-- A line's indentation brings the scanner to the line's level. -/
theorem Awaits.indentTo {width depth : Nat} {s : Scanner} {ws : List Word} (hw : 0 < width)
    (h : Awaits width depth s ws) (s' : Scanner) (hl : s'.levels = s.levels)
    (hwords : s'.words = s.words) :
    ∃ t, s'.indentTo (width * depth) = .ok t ∧ t.rest = s'.rest ∧ t.lineStart = s'.lineStart ∧
      t.parens = s'.parens ∧ t.levels = columns width depth ∧ t.words = ws := by
  cases h with
  | first hs =>
    refine ⟨{ s' with levels := [width * 0] }, ?_, rfl, rfl, rfl, rfl, hwords⟩
    rw [Scanner.indentTo, hl, hs]
  | @deeper depth _ hs =>
    obtain ⟨outer, houter⟩ := columns_eq width depth
    have hlt : width * depth < width * (depth + 1) := Nat.mul_lt_mul_of_pos_left (by omega) hw
    refine ⟨{ s' with levels := columns width (depth + 1) }.push .indent "<indent>" [], ?_, rfl,
      rfl, rfl, rfl, ?_⟩
    · rw [Scanner.indentTo, hl, hs, columns, houter]
      exact if_pos hlt
    · rw [words_push, ← hwords]
      rfl
  | @closing _ closed _ hs =>
    obtain ⟨outer, houter⟩ := columns_eq width (depth + closed)
    obtain ⟨outer', houter'⟩ := columns_eq width depth
    have hge : ¬width * (depth + closed) < width * depth :=
      Nat.not_lt.mpr (Nat.mul_le_mul_left width (by omega))
    have hclose := closeLevels_columns hw depth closed
    refine ⟨{ s' with levels := columns width depth }.pushDedents closed, ?_, ?_, ?_, ?_, ?_, ?_⟩
    · rw [houter] at hclose
      rw [Scanner.indentTo, hl, hs, houter]
      dsimp only
      rw [if_neg hge, hclose]
      exact if_pos (by rw [houter']; rfl)
    · rw [pushDedents_rest]
    · rw [pushDedents_lineStart]
    · rw [pushDedents_parens]
    · rw [pushDedents_levels]
    · rw [words_pushDedents, ← hwords]
      rfl

/-- A text that can stand on a line, without its indentation and its end. -/
structure Line (text : String) (ws : List Word) : Prop where
  begins : Begins text
  passes : ∀ tail, Ends tail → Passes text tail ws
  balanced : ∀ n, nesting n ws = n
  nonempty : ws ≠ []
  flat : ∀ w ∈ ws, w.kind ≠ .newline

theorem startLine_eq {s : Scanner} {n : Nat} {text : String} {tail : List Char}
    (hr : s.rest = List.replicate n ' ' ++ (text.toList ++ tail)) (hb : Begins text) :
    s.startLine = ({ s.skip (List.replicate n ' ') with lineStart := false }).indentTo n := by
  obtain ⟨c, cs, hc, hstarts⟩ := hb
  have hne (e : Char) (he : startsWord e = false) : c ≠ e := by
    rintro rfl
    rw [hstarts] at he
    cases he
  have hindent : isIndent c = false := by
    simp [isIndent, hne ' ' rfl, hne '\t' rfl]
  have hblanks : s.rest.takeWhile isIndent = List.replicate n ' ' := by
    rw [hr]
    refine takeWhile_ends ?_ ?_
    · intro d hd
      rw [(List.mem_replicate.mp hd).2]
      rfl
    · rw [hc]
      rintro d ⟨⟩
      exact hindent
  have hwords : isBlankLine (c :: (cs ++ tail)) = false := by
    unfold isBlankLine
    split
    · rename_i hnil
      cases hnil
    · rename_i hcons
      exact absurd (List.cons.inj hcons).1 (hne _ rfl)
    · rename_i hcons
      exact absurd (List.cons.inj hcons).1 (hne _ rfl)
    · rename_i hcons
      exact absurd (List.cons.inj hcons).1 (hne _ rfl)
    · rfl
  rw [startLine, hblanks]
  dsimp only
  rw [hr, List.length_replicate, List.drop_left' List.length_replicate, hc, List.cons_append,
    hwords, columnOf_replicate]
  rfl

/-- The end of a line outside parentheses, after a word. -/
theorem step_newline {s : Scanner} {tail : List Char} {ws vs : List Word} (hl : s.lineStart = false)
    (hp : s.parens = 0) (hr : s.rest = '\n' :: tail) (hw : s.words = ws ++ vs) (hne : vs ≠ [])
    (hflat : ∀ w ∈ vs, w.kind ≠ .newline) :
    s.step = .ok { (s.push .newline "\n" ['\n']).skip ['\n'] with lineStart := true } := by
  have hlast : ∃ t ts, s.tokens = t :: ts ∧ t.kind ≠ .newline := by
    cases ht : s.tokens with
    | nil =>
      rw [words, ht] at hw
      have := (List.append_eq_nil_iff.mp hw.symm).2
      exact absurd this hne
    | cons t ts =>
      refine ⟨t, ts, rfl, ?_⟩
      have hmem : t.word ∈ vs := by
        have hlast := congrArg List.getLast? hw
        rw [words, ht, List.getLast?_append_of_ne_nil _ hne] at hlast
        refine List.mem_of_getLast? (hlast.symm.trans ?_)
        simp
      exact hflat t.word hmem
  obtain ⟨t, ts, htokens, hkind⟩ := hlast
  have hnewline : s.pushNewline ['\n'] = s.push .newline "\n" ['\n'] := by
    rw [pushNewline, htokens]
    exact if_neg hkind
  rw [step, if_neg (by simp [hl]), takeLexeme, hr]
  change Except.ok (s.takeLineEnd ['\n']) = _
  rw [takeLineEnd, if_pos hp, hnewline]

/-- A line moves the scanner to its own level first, and then its words are taken. -/
theorem Line.scans {width depth : Nat} (hw : 0 < width) {text : String} {ws vs : List Word}
    {s : Scanner} {tail : List Char} (hline : Line text vs) (ha : s.AtLine)
    (h : Awaits width depth s ws) (hr : s.rest = (renderLine width depth text).toList ++ tail) :
    ∃ t : Scanner, s.run = t.run ∧ t.rest = tail ∧ t.AtLine ∧
      (∀ x ∈ t.tokens.head?, x.kind = .newline) ∧ t.levels = columns width depth ∧
      t.words = ws ++ vs ++ [.newline] := by
  have hrest : s.rest = List.replicate (width * depth) ' ' ++ (text.toList ++ '\n' :: tail) := by
    rw [hr, renderLine, String.toList_append, String.toList_append, String.toList_ofList]
    simp
  have hne : s.rest ≠ [] := by
    rw [hrest]
    simp
  obtain ⟨s₁, hindent, hrest₁, hstart₁, hparens₁, hlevels₁, hwords₁⟩ :=
    h.indentTo hw { s.skip (List.replicate (width * depth) ' ') with lineStart := false } rfl rfl
  have hstep : s.step = .ok s₁ := by
    rw [step, if_pos ⟨ha.lineStart, ha.parens⟩, startLine_eq hrest hline.begins, hindent]
  have hskip : s₁.rest = text.toList ++ '\n' :: tail := by
    rw [hrest₁]
    simp [skip, hrest]
  obtain ⟨s₂, hrun₂, hrest₂, hstart₂, hlevels₂, hparens₂, hwords₂⟩ :=
    hline.passes _ (ends_cons rfl tail) s₁ hstart₁ hskip
  have hzero : s₂.parens = 0 := by
    rw [hparens₂, hparens₁]
    change nesting s.parens vs = 0
    rw [ha.parens, hline.balanced]
  have hend := step_newline hstart₂ hzero hrest₂ (hwords₁ ▸ hwords₂) hline.nonempty hline.flat
  refine ⟨_, (run_of_step hne hstep).trans (hrun₂.trans (run_of_step (by simp [hrest₂]) hend)), ?_,
    ⟨rfl, hzero⟩, ?_, ?_, ?_⟩
  · simp [skip, push, hrest₂]
  · rintro x ⟨⟩
    rfl
  · exact hlevels₂.trans hlevels₁
  · change ((s₂.push .newline "\n" ['\n']).skip ['\n']).words = _
    rw [words_skip, words_push, hwords₂, hwords₁]
    rfl

def Scans (width depth : Nat) (text : String) (vs : List Word) : Prop :=
  ∀ (s : Scanner) (ws : List Word) (tail : List Char), s.AtLine → Awaits width depth s ws →
    s.rest = text.toList ++ tail →
    ∃ t : Scanner, s.run = t.run ∧ t.rest = tail ∧ t.Settled width depth (ws ++ vs)

/-- At the end of the text the last line is over, and the levels that are still open are closed. -/
theorem Settled.finish {width : Nat} {s : Scanner} {ws : List Word} (h : s.Settled width 0 ws) :
    s.finish.map word = ws ++ [⟨.eof, "EOF"⟩] := by
  obtain ⟨closed, hlevels, rfl⟩ := h.closing
  have hnewline : s.pushNewline [] = s := by
    have hended := h.ended
    unfold pushNewline
    split
    · rfl
    · rename_i t ts ht
      rw [ht] at hended
      exact if_pos (hended t rfl)
  have hclosed : s.levels.length - 1 = closed := by
    rw [hlevels, length_columns]
    omega
  change (((s.pushNewline []).pushDedents (s.levels.length - 1)).push .eof "EOF" []).words = _
  rw [hnewline, hclosed, words_push, words_pushDedents]

namespace Scans

variable {width depth : Nat} {text text' : String} {vs vs' : List Word}

theorem line (hw : 0 < width) (h : Line text vs) :
    Scans width depth (renderLine width depth text) (vs ++ [.newline]) := by
  intro s ws tail ha haw hr
  obtain ⟨t, hrun, hrest, hat, hended, hlevels, hwords⟩ := h.scans hw ha haw hr
  refine ⟨t, hrun, hrest, hat, hended, 0, hlevels, ?_⟩
  rw [hwords, List.replicate_zero, List.append_nil, List.append_assoc]

/-- Texts one below the other have the words of both. -/
theorem append (h : Scans width depth text vs) (h' : Scans width depth text' vs') :
    Scans width depth (text ++ text') (vs ++ vs') := by
  intro s ws tail ha haw hr
  rw [String.toList_append, List.append_assoc] at hr
  obtain ⟨t, hrun, hrest, hset⟩ := h s ws _ ha haw hr
  obtain ⟨u, hrun', hrest', hset'⟩ := h' t _ tail hset.atLine hset.awaits hrest
  refine ⟨u, hrun.trans hrun', hrest', ?_⟩
  rwa [List.append_assoc] at hset'

/-- A line and the body below it. -/
theorem block (hw : 0 < width) (h : Line text vs) (h' : Scans width (depth + 1) text' vs') :
    Scans width depth (renderLine width depth text ++ text')
      (vs ++ .newline :: .indent :: (vs' ++ [.dedent])) := by
  intro s ws tail ha haw hr
  rw [String.toList_append, List.append_assoc] at hr
  obtain ⟨t, hrun, hrest, hat, hended, hlevels, hwords⟩ := h.scans hw ha haw hr
  obtain ⟨u, hrun', hrest', hset⟩ := h' t _ tail hat (.deeper hlevels) hrest
  refine ⟨u, hrun.trans hrun', hrest', ?_⟩
  have hclosed := hset.close
  rw [hwords] at hclosed
  simpa using hclosed

end Scans

end Scanner

end Token

theorem Expr.words_flat (e : Expr) : ∀ w ∈ e.words, w.kind ≠ .newline := by
  intro w hw hk
  have hin := e.words_inExpr w hw
  rw [hk] at hin
  cases hin

theorem Param.nesting_allWords (ps : List Param) (n : Nat) :
    nesting (n + 1) (Param.allWords ps) = n := by
  match ps with
  | [] => rfl
  | [last] => rcases last with ⟨name, type, span⟩; cases type <;> rfl
  | ⟨name, type, span⟩ :: p' :: ps =>
    have hrest := nesting_allWords (p' :: ps) n
    cases type <;> exact hrest

theorem Param.allWords_flat (ps : List Param) : ∀ w ∈ Param.allWords ps, w.kind ≠ .newline := by
  have hword (p : Param) : ∀ w ∈ p.words, w.kind ≠ .newline := by
    rcases p with ⟨name, type, span⟩
    cases type <;> simp [Param.words, Ty.word, Word.name, fixed]
  fun_induction Param.allWords ps with
  | case1 => exact List.forall_mem_singleton.mpr (by decide)
  | case2 last =>
    exact List.forall_mem_append.mpr ⟨hword last, List.forall_mem_singleton.mpr (by decide)⟩
  | case3 p ps _ ih =>
    refine List.forall_mem_append.mpr ⟨hword p, ?_⟩
    exact List.forall_mem_cons.mpr ⟨by decide, ih⟩

theorem Expr.words_ne_nil (e : Expr) : e.words ≠ [] := by
  cases e <;> simp [words]

/-- A keyword opens and closes nothing and ends no line. -/
theorem Token.Kind.of_keyword? {word : String} {kind : Kind} (h : keyword? word = some kind) :
    kind ≠ .newline ∧ ∀ n ws, nesting n (fixed kind :: ws) = nesting n ws := by
  unfold keyword? at h
  split at h <;> cases h <;> exact ⟨by decide, fun _ _ => rfl⟩

namespace Token.Scanner.Line

variable {text text' : String} {ws vs : List Word}

theorem expr {e : Expr} (h : e.isPrintable = true) : Line e.render e.words where
  begins := e.render_begins h
  passes := e.render_passes h
  balanced := e.nesting_words
  nonempty := e.words_ne_nil
  flat := e.words_flat

theorem keyword {kind : Kind} (hw : isIdentifier text = true)
    (hk : Kind.keyword? text = some kind) : Line text [fixed kind] where
  begins := .of_isIdentifier hw
  passes _ ht := .keyword hw hk ht
  balanced n := (Kind.of_keyword? hk).2 n []
  nonempty := List.cons_ne_nil _ _
  flat := List.forall_mem_singleton.mpr (Kind.of_keyword? hk).1

theorem name (h : isName text = true) : Line text [.name text] where
  begins := .of_isName h
  passes _ ht := .name h ht
  balanced _ := rfl
  nonempty := List.cons_ne_nil _ _
  flat := List.forall_mem_singleton.mpr Kind.noConfusion

theorem type (t : Ty) : Line t.annotation [t.word] where
  begins := t.annotation_begins
  passes _ ht := t.passes ht
  balanced n := by cases t <;> rfl
  nonempty := List.cons_ne_nil _ _
  flat := List.forall_mem_singleton.mpr (by cases t <;> exact Kind.noConfusion)

/-- One text behind another, after a blank. -/
theorem spaced (h : Line text ws) (h' : Line text' vs) :
    Line (text ++ " " ++ text') (ws ++ vs) where
  begins := (h.begins.append _).append _
  passes tail ht :=
    .append (.spaced (h.passes _ (ends_cons rfl _)) (h'.begins.not_gap tail)) (h'.passes tail ht)
  balanced n := by rw [nesting_append, h.balanced, h'.balanced]
  nonempty := by simp [h.nonempty]
  flat := List.forall_mem_append.mpr ⟨h.flat, h'.flat⟩

theorem colon (h : Line text ws) : Line (text ++ ":") (ws ++ [fixed .colon]) where
  begins := h.begins.append _
  passes _ _ := .append (h.passes _ (ends_cons rfl _)) .colon
  balanced n := by rw [nesting_append, h.balanced]; rfl
  nonempty := by simp
  flat := List.forall_mem_append.mpr ⟨h.flat, List.forall_mem_singleton.mpr Kind.noConfusion⟩

/-- Two texts with a mark between them. -/
theorem joined {mark : String} {kind : Kind} (h : Line text ws) (h' : Line text' vs)
    (hm : ∀ tail, Passes mark (' ' :: tail) [fixed kind])
    (hb : ∀ tail, ∀ c ∈ (mark.toList ++ tail).head?, isGap c = false)
    (hk : kind ≠ .newline ∧ ∀ n, nesting n [fixed kind] = n) :
    Line (text ++ (" " ++ mark ++ " ") ++ text') (ws ++ fixed kind :: vs) where
  begins := (h.begins.append _).append _
  passes tail ht := by
    have hmark : Passes (" " ++ mark ++ " ") (text'.toList ++ tail) [fixed kind] :=
      .spaced (.append (.gap (hb _)) (hm _)) (h'.begins.not_gap tail)
    have hends : Ends ((" " ++ mark ++ " ").toList ++ (text'.toList ++ tail)) := by
      rw [String.toList_append, String.toList_append]
      exact ends_cons rfl _
    have hall := Passes.append (.append (h.passes _ hends) hmark) (h'.passes tail ht)
    rwa [List.append_assoc] at hall
  balanced n := by
    rw [nesting_append, h.balanced, ← List.singleton_append, nesting_append, hk.2, h'.balanced]
  nonempty := by simp
  flat := List.forall_mem_append.mpr ⟨h.flat, List.forall_mem_cons.mpr ⟨hk.1, h'.flat⟩⟩

theorem assigned (h : Line text ws) (h' : Line text' vs) :
    Line (text ++ " = " ++ text') (ws ++ fixed .assignment :: vs) := by
  refine h.joined h' (fun _ => .assignment) (fun tail => ?_) ⟨by decide, fun _ => rfl⟩
  rintro c ⟨⟩
  rfl

theorem arrow (h : Line text ws) (h' : Line text' vs) :
    Line (text ++ " -> " ++ text') (ws ++ fixed .arrow :: vs) := by
  refine h.joined h' (fun _ => .arrow) (fun tail => ?_) ⟨by decide, fun _ => rfl⟩
  rintro c ⟨⟩
  rfl

/-- A name with its type. -/
theorem typed (h : isName text = true) (t : Ty) :
    Line (text ++ ": " ++ t.annotation) [.name text, fixed .colon, t.word] := by
  have hline := (name h).colon.spaced (type t)
  have htext : text ++ ":" ++ " " = text ++ ": " := String.append_assoc
  rw [htext] at hline
  exact hline

/-- The name and the parameters of a definition. -/
theorem signature {params : List Param} (h : isName text = true)
    (hp : params.all Param.isPrintable = true) :
    Line ("def " ++ text ++ "(" ++ Param.renderAll params ++ ")")
      (fixed .kwDef :: .name text :: fixed .openParen :: Param.allWords params) := by
  have hhead : Line ("def" ++ " " ++ text) [fixed .kwDef, .name text] :=
    .spaced (.keyword (by decide) rfl) (.name h)
  refine ⟨((hhead.begins.append _).append _).append _, fun tail _ => ?_, fun n => ?_, ?_, ?_⟩
  · have hall : Passes ("def " ++ text ++ "(" ++ (Param.renderAll params ++ ")")) tail
        ([fixed .kwDef, .name text] ++ [fixed .openParen] ++ Param.allWords params) :=
      .append (.append (hhead.passes _ (ends_cons rfl _)) .openParen) (Param.allPass params hp tail)
    rw [← String.append_assoc] at hall
    exact hall
  · exact Param.nesting_allWords params n
  · exact List.cons_ne_nil _ _
  · refine List.forall_mem_append.mpr ⟨hhead.flat, ?_⟩
    exact List.forall_mem_cons.mpr ⟨by decide, Param.allWords_flat params⟩

/-- A keyword, a condition and a colon. -/
theorem header {kind : Kind} {cond : Expr} (hw : isIdentifier text = true)
    (hk : Kind.keyword? text = some kind) (h : cond.isPrintable = true) :
    Line (text ++ " " ++ cond.render ++ ":") (fixed kind :: (cond.words ++ [fixed .colon])) :=
  ((keyword hw hk).spaced (expr h)).colon

end Token.Scanner.Line

mutual

/-- The words of a written statement are the ones that its parts consist of, at any depth. -/
theorem Stmt.scans {width : Nat} (hw : 0 < width) (s : Stmt) (h : s.isPrintable = true)
    (depth : Nat) : Scans width depth (s.render width depth) s.words := by
  match s with
  | .assign _ name value =>
    rw [isPrintable, Bool.and_eq_true] at h
    exact .line hw (.assigned (.name h.1) (.expr h.2))
  | .init _ name type value =>
    simp only [isPrintable, Bool.and_eq_true] at h
    exact .line hw (.assigned (.typed h.1.1 type) (.expr h.2))
  | .define _ name params result body =>
    simp only [isPrintable, Bool.and_eq_true] at h
    obtain ⟨⟨⟨⟨hname, hparams⟩, -⟩, hne⟩, hbody⟩ := h
    have hline := ((Line.signature hname hparams).arrow (.type result)).colon
    have hall := Scans.block hw hline (scansAll hw body hbody (by simpa using hne) (depth + 1))
    simp only [List.append_assoc, List.cons_append, List.nil_append] at hall
    exact hall
  | .ifElse _ cond yes no =>
    simp only [isPrintable, Bool.and_eq_true] at h
    obtain ⟨⟨⟨hcond, hne⟩, hyes⟩, hno⟩ := h
    have hline : Line ("if" ++ " " ++ cond.render ++ ":")
        (fixed .kwIf :: (cond.words ++ [fixed .colon])) := .header (by decide) rfl hcond
    have hthen := Scans.block hw hline (scansAll hw yes hyes (by simpa using hne) (depth + 1))
    have hall := scansElse hw no hno hthen
    simp only [List.append_assoc, List.cons_append, List.nil_append] at hall
    rw [words]
    simp only [Word.body, List.append_assoc, List.cons_append, List.nil_append]
    exact hall
  | .ifElif _ cond yes cond' yes' no =>
    simp only [isPrintable, Bool.and_eq_true] at h
    obtain ⟨⟨⟨⟨⟨⟨hcond, hne⟩, hyes⟩, hcond'⟩, hne'⟩, hyes'⟩, hno⟩ := h
    have hline : Line ("if" ++ " " ++ cond.render ++ ":")
        (fixed .kwIf :: (cond.words ++ [fixed .colon])) := .header (by decide) rfl hcond
    have hline' : Line ("elif" ++ " " ++ cond'.render ++ ":")
        (fixed .kwElif :: (cond'.words ++ [fixed .colon])) := .header (by decide) rfl hcond'
    have hthen := Scans.block hw hline (scansAll hw yes hyes (by simpa using hne) (depth + 1))
    have hthen' := Scans.block hw hline' (scansAll hw yes' hyes' (by simpa using hne') (depth + 1))
    have hall := hthen.append (scansElse hw no hno hthen')
    simp only [List.append_assoc, List.cons_append, List.nil_append] at hall
    rw [words]
    simp only [Word.body, List.append_assoc, List.cons_append, List.nil_append]
    exact hall
  | .whileDo _ cond body =>
    simp only [isPrintable, Bool.and_eq_true] at h
    obtain ⟨⟨hcond, hne⟩, hbody⟩ := h
    have hline : Line ("while" ++ " " ++ cond.render ++ ":")
        (fixed .kwWhile :: (cond.words ++ [fixed .colon])) := .header (by decide) rfl hcond
    have hall := Scans.block hw hline (scansAll hw body hbody (by simpa using hne) (depth + 1))
    simp only [List.append_assoc, List.cons_append, List.nil_append] at hall
    exact hall
  | .pass _ => exact .line hw (.keyword (by decide) rfl)
  | .ret _ value =>
    have hline : Line ("return" ++ " " ++ value.render) ([fixed .kwReturn] ++ value.words) :=
      .spaced (.keyword (by decide) rfl) (.expr h)
    exact .line hw hline
  | .expr _ value => exact .line hw (.expr h)
termination_by (sizeOf s, 0)

theorem Stmt.scansAll {width : Nat} (hw : 0 < width) (ss : List Stmt)
    (h : Stmt.areAllPrintable ss = true) (hne : ss ≠ []) (depth : Nat) :
    Scans width depth (Stmt.renderAll width depth ss) (Stmt.allWords ss) := by
  match ss with
  | [] => exact absurd rfl hne
  | [s] =>
    rw [areAllPrintable, Bool.and_eq_true] at h
    have hone := s.scans hw h.1 depth
    rw [renderAll, renderAll, String.append_empty, allWords, allWords, List.append_nil]
    exact hone
  | s :: s' :: ss =>
    rw [areAllPrintable, Bool.and_eq_true] at h
    exact .append (s.scans hw h.1 depth) (scansAll hw (s' :: ss) h.2 (List.cons_ne_nil _ _) depth)
termination_by (sizeOf ss, 0)

/-- What comes before an `else` takes it in. -/
theorem Stmt.scansElse {width : Nat} (hw : 0 < width) {depth : Nat} {text : String}
    {ws : List Token.Word} (no : List Stmt) (h : Stmt.areAllPrintable no = true)
    (hs : Scans width depth text ws) :
    Scans width depth (text ++ Stmt.renderElse width depth no) (ws ++ Stmt.elseWords no) := by
  match no with
  | [] =>
    rw [renderElse, elseWords, String.append_empty, List.append_nil]
    exact hs
  | s :: ss =>
    have hline : Line ("else" ++ ":") ([fixed .kwElse] ++ [fixed .colon]) :=
      .colon (.keyword (by decide) rfl)
    have hbody := scansAll hw (s :: ss) h (List.cons_ne_nil _ _) (depth + 1)
    exact hs.append (.block hw hline hbody)
termination_by (sizeOf no, 1)

end

/-- The words of a program's text are those of its statements. -/
theorem Program.scan_render {width : Nat} (hw : 0 < width) {p : Program}
    (h : p.isPrintable = true) (file : String) : ∃ tokens,
      Token.scan (p.render width) file = .ok tokens ∧
        tokens.map Token.word = Stmt.allWords p.body ++ [⟨.eof, "EOF"⟩] := by
  have hrun : ∃ t : Scanner, (Scanner.start (p.render width) file).run = .ok t ∧
      t.finish.map Token.word = Stmt.allWords p.body ++ [⟨.eof, "EOF"⟩] := by
    by_cases hbody : p.body = []
    · refine ⟨Scanner.start (p.render width) file, ?_, ?_⟩
      · rw [Scanner.run, dif_pos]
        rw [Program.render, hbody]
        rfl
      · rw [hbody]
        rfl
    · obtain ⟨t, hrun, hrest, hset⟩ := Stmt.scansAll hw p.body h hbody 0
        (Scanner.start (p.render width) file) [] [] ⟨rfl, rfl⟩ (.first rfl) (List.append_nil _).symm
      have hstop : t.run = .ok t := by
        rw [Scanner.run, dif_pos hrest]
      exact ⟨t, hrun.trans hstop, hset.finish⟩
  obtain ⟨t, ht, hwords⟩ := hrun
  exact ⟨t.finish, by rw [Token.scan, ht]; rfl, hwords⟩

end StackScript
