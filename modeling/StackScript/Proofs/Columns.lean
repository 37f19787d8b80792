import Mathlib.Order.WellFounded
import StackScript.Proofs.BlankLines

namespace StackScript.Token

open Scanner

/-- The line with `f n` spaces for the `n` spaces that it starts with. -/
def reindentLine (f : Nat → Nat) (line : List Char) : List Char :=
  let n := (line.takeWhile (· == ' ')).length
  List.replicate (f n) ' ' ++ line.drop n

def reindent (f : Nat → Nat) (text : List Char) : List Char :=
  (Text.lines text).flatMap (reindentLine f)

section

variable {f : Nat → Nat} {text line : List Char} {n : Nat}

theorem isIndent_of_mem_replicate {c : Char} (h : c ∈ List.replicate n ' ') :
    isIndent c = true := by
  rw [List.eq_of_mem_replicate h]
  rfl

theorem isGap_of_mem_replicate {c : Char} (h : c ∈ List.replicate n ' ') : isGap c = true := by
  rw [List.eq_of_mem_replicate h]
  rfl

/-- A line of spaces is skipped. -/
theorem wordless_spaces (n : Nat) :
    Wordless (List.replicate n ' ') ∧ isStray (List.replicate n ' ') = false := by
  have hgaps : ∀ c ∈ List.replicate n ' ', isGap c = true := fun c => isGap_of_mem_replicate
  have hindents : ∀ c ∈ List.replicate n ' ', isIndent c = true :=
    fun c => isIndent_of_mem_replicate
  constructor
  · simpa using Wordless.mk hgaps (.inl rfl) (.inl rfl)
  · rw [← List.append_nil (List.replicate n ' ')]
    exact isStray_of_blankLine hindents (fun c hc => by cases hc) rfl

theorem reindentLine_spaces (f : Nat → Nat) (n : Nat) (h : ∀ c ∈ line.head?, isIndent c = false) :
    reindentLine f (List.replicate n ' ' ++ line) = List.replicate (f n) ' ' ++ line := by
  have hspaces : (List.replicate n ' ' ++ line).takeWhile (· == ' ') = List.replicate n ' ' := by
    refine takeWhile_ends (fun c hc => ?_) (fun c hc => ?_)
    · rw [List.eq_of_mem_replicate hc]
      rfl
    · have hindent := h c hc
      simp only [isIndent, Bool.or_eq_false_iff] at hindent
      exact hindent.1
  rw [reindentLine, hspaces, List.length_replicate, List.drop_left' List.length_replicate]

/-- Put `k` columns further, a line has `k` more spaces in front. -/
theorem reindentLine_add (k : Nat) (line : List Char) :
    reindentLine (· + k) line = List.replicate k ' ' ++ line := by
  have hspaces : line.takeWhile (· == ' ') =
      List.replicate (line.takeWhile (· == ' ')).length ' ' := by
    refine List.eq_replicate_length.mpr fun c hc => ?_
    have hall : ∀ c ∈ line.takeWhile (· == ' '), (c == ' ') = true :=
      List.all_eq_true.mp List.all_takeWhile
    exact beq_iff_eq.mp (hall c hc)
  unfold reindentLine
  dsimp only
  rw [Nat.add_comm, List.replicate_add, List.append_assoc, ← hspaces, drop_takeWhile,
    List.takeWhile_append_dropWhile]

/-- Without tabs, the blanks that a line starts with are spaces. -/
theorem exists_spaces (h : '\t' ∉ text.takeWhile isIndent) :
    ∃ n line, text = List.replicate n ' ' ++ line ∧ ∀ c ∈ line.head?, isIndent c = false := by
  have hspaces : text.takeWhile isIndent =
      List.replicate (text.takeWhile isIndent).length ' ' := by
    refine List.eq_replicate_length.mpr fun c hc => ?_
    have hindent : isIndent c = true := List.all_eq_true.mp List.all_takeWhile c hc
    simp only [isIndent, Bool.or_eq_true, beq_iff_eq] at hindent
    refine hindent.resolve_right fun htab => h ?_
    rw [← htab]
    exact hc
  refine ⟨(text.takeWhile isIndent).length, text.dropWhile isIndent, ?_,
    not_head_dropWhile isIndent text⟩
  rw [← hspaces, List.takeWhile_append_dropWhile]

theorem reindent_flat (f : Nat → Nat) (h : '\n' ∉ text) (hne : text ≠ []) :
    reindent f text = reindentLine f text := by
  rw [reindent, lines_flat h hne, List.flatMap_singleton]

theorem reindent_line (f : Nat → Nat) (h : '\n' ∉ line) (rest : List Char) :
    reindent f (line ++ '\n' :: rest) = reindentLine f (line ++ ['\n']) ++ reindent f rest := by
  rw [reindent, lines_line h, List.flatMap_cons]
  rfl

theorem closed_reindentLine (f : Nat → Nat) (line : List Char) :
    Closed (reindentLine f (line ++ ['\n'])) := by
  have hfeed : '\n' ∈ line ++ ['\n'] := List.mem_append_right _ List.mem_cons_self
  have hrest := mem_drop_takeWhile (p := (· == ' ')) (by decide) hfeed
  exact ((closed_line line).suffix (List.drop_suffix _ _)).append_left (List.ne_nil_of_mem hrest) _

theorem closed_reindent (f : Nat → Nat) (h : Closed text) : Closed (reindent f text) := by
  induction text using lines_induct with
  | nil => exact h
  | last body hne hbody => exact absurd (h.mem hne) hbody
  | line body rest hbody ih =>
    rw [reindent_line f hbody]
    exact (closed_reindentLine f body).append (ih (h.suffix ⟨body ++ ['\n'], by simp⟩))

end

namespace Scanner

variable {f : Nat → Nat} {s t : Scanner} {line : List Char} {n : Nat}

/-- Within a line, columns have no part. -/
theorem InStep.run_onLine (h : InStep f s t) (hs : s.OnLine) : Agree (Alike f) s.run t.run := by
  refine h.run (fun s t hs hmoves hr => hmoves.onLine hs hr) (fun s t hs hr h => ?_) hs
  have hat : ¬ s.AtLine := fun hat => hr (hs.last hat.lineStart)
  have hat' : ¬ t.AtLine := fun hat' => hat (h.atLine_iff.mp hat')
  rw [step_of_not_atLine hat, step_of_not_atLine hat']
  exact h.takeLexeme

/-- A line behind spaces, and the same line behind as many spaces as `f` says. -/
theorem Alike.run_line (hf : StrictMono f) (h : Alike f s t) (hs : s.Between)
    (hline : ∀ c ∈ line.head?, isIndent c = false) (hflat : '\n' ∉ s.rest.dropLast)
    (hne : s.rest ≠ []) (hr : s.rest = List.replicate n ' ' ++ line)
    (ht : t.rest = List.replicate (f n) ' ' ++ line) : Agree (Alike f) s.run t.run := by
  cases hs with
  | starts hat =>
    have hat' : t.AtLine := h.atLine_iff.mpr hat
    have hne' : t.rest ≠ [] := by
      have hlength : s.rest.length ≤ t.rest.length := by
        rw [hr, ht, List.length_append, List.length_append, List.length_replicate,
          List.length_replicate]
        exact Nat.add_le_add_right hf.le_apply _
      intro hnil
      rw [hnil] at hlength
      exact hne (List.eq_nil_of_length_eq_zero (Nat.le_zero.mp hlength))
    obtain ⟨hblanks, hrest⟩ := blanks_line_eq (fun c => isIndent_of_mem_replicate) hline hr
    obtain ⟨hblanks', hrest'⟩ := blanks_line_eq (fun c => isIndent_of_mem_replicate) hline ht
    have hcolumn : t.column = f s.column := by
      rw [column, column, hblanks, hblanks', columnOf_replicate, columnOf_replicate]
    rw [run_eq_bind hne, run_eq_bind hne', step_of_atLine hat, step_of_atLine hat']
    refine (h.startLine hf (hrest'.trans hrest.symm) hcolumn).bind fun u v hu _ huv => ?_
    exact huv.run_onLine ((startLine_moves hat hu).onLine_of_atLine hat hflat)
  | inside hl hp =>
    -- on both sides the spaces are a gap
    have hat : ¬ s.AtLine := fun hat => hp hat.parens
    have hat' : ¬ t.AtLine := fun hat' => hat (h.atLine_iff.mp hat')
    have hgap (m : Nat) : (List.replicate m ' ' ++ line).dropWhile isGap = line.dropWhile isGap :=
      List.dropWhile_append_of_pos fun c => isGap_of_mem_replicate
    have hungapped : InStep f s.ungapped t.ungapped := by
      refine ⟨⟨h.lineStart, h.levels, h.parens, h.words⟩, ?_⟩
      unfold ungapped
      rw [hr, ht, hgap, hgap]
    have honLine : s.ungapped.OnLine :=
      ⟨not_mem_dropLast_of_suffix hflat (List.dropWhile_suffix isGap), fun hlast => by
        change s.lineStart = true at hlast
        rw [hl] at hlast
        cases hlast⟩
    have hbehind := (run_ungapped hat).trans (hungapped.run_onLine honLine)
      fun _ _ _ => Alike.trans
    exact hbehind.trans ((run_ungapped hat').symm fun _ _ => Alike.symm) fun _ _ _ => Alike.trans

/-- Two runs over texts that are cut behind a line feed agree if they do so on both parts. -/
theorem Alike.run_cut {text text' more more' : List Char} (h : Alike f s t) (hs : s.Steady)
    (hbetween : s.Between) (hr : s.rest = text ++ more) (ht : t.rest = text' ++ more')
    (hc : Closed text) (hc' : Closed text')
    (hline : ∀ u v, u.Between → Alike f u v → u.rest = text → v.rest = text' →
      Agree (Alike f) u.run v.run)
    (hmore : ∀ u v, u.Steady → u.Between → Alike f u v → u.rest = more → v.rest = more' →
      Agree (Alike f) u.run v.run) : Agree (Alike f) s.run t.run := by
  have hbetween' : Between { s with rest := text } := by
    cases hbetween with
    | starts hat => exact .starts ⟨hat.lineStart, hat.parens⟩
    | inside hl hp => exact .inside hl hp
  have hsteady : Steady { s with rest := text } := ⟨hs.nested, hs.laid, hs.fresh, hs.ended⟩
  have halike : Alike f { s with rest := text } { t with rest := text' } :=
    ⟨h.lineStart, h.levels, h.parens, h.words⟩
  rw [eq_extend hr, eq_extend ht, run_extend hc, run_extend hc']
  refine (hline _ _ hbetween' halike rfl rfl).bind fun u v hu hv huv => ?_
  have husteady := run_steady hsteady hu
  apply hmore
  · exact ⟨husteady.nested, husteady.laid, husteady.fresh, husteady.ended⟩
  · exact (run_between hsteady hc (fun _ => hbetween') hu).extend more
  · exact ⟨huv.lineStart, huv.levels, huv.parens, huv.words⟩
  · change u.rest ++ more = more
    rw [rest_eq_nil_of_run hu, List.nil_append]
  · change v.rest ++ more' = more'
    rw [rest_eq_nil_of_run hv, List.nil_append]

/-- Lines whose blanks are spaces, and the same lines put where `f` says. The two runs are compared
line by line, cut behind each line feed, as only the start of a line sees a column. -/
theorem Alike.run_reindent (hf : StrictMono f) {text : List Char} (h : Alike f s t) (hs : s.Steady)
    (hbetween : s.Between) (htabs : ∀ line ∈ Text.lines text, '\t' ∉ line.takeWhile isIndent)
    (hr : s.rest = text) (ht : t.rest = reindent f text) : Agree (Alike f) s.run t.run := by
  induction text using lines_induct generalizing s t with
  | nil =>
    have ht : t.rest = [] := ht
    rw [run, dif_pos hr, run, dif_pos ht]
    exact .ok h
  | last body hne hbody =>
    rw [lines_flat hbody hne] at htabs
    obtain ⟨n, line, rfl, hline⟩ := exists_spaces (htabs body List.mem_cons_self)
    rw [reindent_flat f hbody hne, reindentLine_spaces f n hline] at ht
    refine h.run_line hf hbetween hline ?_ (hr ▸ hne) hr ht
    rw [hr]
    exact fun hmem => hbody (List.dropLast_subset _ hmem)
  | line body rest hbody ih =>
    rw [lines_line hbody] at htabs
    obtain ⟨n, line, hsplit, hline⟩ := exists_spaces (htabs (body ++ ['\n']) List.mem_cons_self)
    have hclosed := closed_line body
    have hclosed' := closed_reindentLine f body
    have hne : body ++ ['\n'] ≠ [] :=
      List.append_ne_nil_of_right_ne_nil body (List.cons_ne_nil _ _)
    have hflat : '\n' ∉ (body ++ ['\n']).dropLast := by
      rw [List.dropLast_concat]
      exact hbody
    have hr : s.rest = body ++ ['\n'] ++ rest := by
      rw [hr, List.append_assoc]
      rfl
    rw [reindent_line f hbody] at ht
    rw [hsplit] at hclosed hclosed' hne hflat hr ht
    rw [reindentLine_spaces f n hline] at hclosed' ht
    refine h.run_cut hs hbetween hr ht hclosed hclosed' (fun u v hbetween h hr ht => ?_)
      fun u v hs hbetween h hr ht =>
        ih h hs hbetween (fun l hl => htabs l (List.mem_cons_of_mem _ hl)) hr ht
    exact h.run_line hf hbetween hline (hr ▸ hflat) (hr ▸ hne) hr ht

end Scanner

/-- Where blanks are spaces, only the order of columns matters: lines that are put at other columns
in the same order have the same words and levels, or fail for the same cause. Behind a line feed at
the end there may be an empty line to be put somewhere, too. -/
theorem scan_reindent {source : String}
    (htabs : ∀ line ∈ Text.lines source.toList, '\t' ∉ line.takeWhile isIndent) (file : String) :
    (∀ f : Nat → Nat, StrictMono f →
      Agree SameWords (scan source file) (scan (.ofList (reindent f source.toList)) file) ∧
      (Closed source.toList → Agree SameWords (scan source file)
        (scan (.ofList (reindent f source.toList ++ List.replicate (f 0) ' ')) file))) ∧
    ∀ k, Agree SameWords (scan source file)
      (scan (.ofList ((Text.lines source.toList).flatMap (List.replicate k ' ' ++ ·))) file) := by
  have hall (f : Nat → Nat) (hf : StrictMono f) :
      Agree SameWords (scan source file) (scan (.ofList (reindent f source.toList)) file) := by
    have halike : Scanner.Alike f (Scanner.start source file)
        (Scanner.start (.ofList (reindent f source.toList)) file) := ⟨rfl, rfl, rfl, rfl⟩
    have hrun := halike.run_reindent hf (steady_start source file) (between_start source file) htabs
      rfl String.toList_ofList
    exact hrun.map fun _ _ halike => halike.finish
  refine ⟨fun f hf => ⟨hall f hf, fun hclosed => ?_⟩, fun k => ?_⟩
  · -- an empty line that got spaces is a blank line
    have hspaces := wordless_spaces (f 0)
    rw [← String.toList_ofList (l := List.replicate (f 0) ' ')] at hspaces
    have hbefore : Closed (String.ofList (reindent f source.toList)).toList := by
      rw [String.toList_ofList]
      exact closed_reindent f hclosed
    have hinsert := scan_insert_wordless hbefore hspaces.1 (.inl rfl : "".toList = [] ∨ _) hspaces.2
      file
    rw [String.append_empty, String.append_empty, ← String.ofList_append] at hinsert
    exact (hall f hf).trans hinsert fun _ _ _ h h' => h'.trans h
  · have hlines : (Text.lines source.toList).flatMap (List.replicate k ' ' ++ ·) =
        reindent (· + k) source.toList :=
      congrArg (List.flatMap · (Text.lines source.toList)) (funext fun l => (reindentLine_add k l).symm)
    rw [hlines]
    exact hall _ fun a b hab => Nat.add_lt_add_right hab k

/-- A block with parentheses over two lines, put at columns three times as far apart. -/
theorem scan_reindent_block :
    (∀ line ∈ Text.lines "if a:\n  f(1,\n 2)\nb".toList, '\t' ∉ line.takeWhile isIndent) ∧
    (StrictMono fun n => 3 * n + 1) ∧
    reindent (fun n => 3 * n + 1) "if a:\n  f(1,\n 2)\nb".toList =
      " if a:\n       f(1,\n    2)\n b".toList ∧
    (∃ tokens, scan "if a:\n  f(1,\n 2)\nb" "f" = .ok tokens ∧ tokens.length = 16) ∧
    Agree SameWords (scan "if a:\n  f(1,\n 2)\nb" "f")
      (scan " if a:\n       f(1,\n    2)\n b" "f") := by
  have htabs : ∀ line ∈ Text.lines "if a:\n  f(1,\n 2)\nb".toList,
      '\t' ∉ line.takeWhile isIndent := by decide +kernel
  have hmono : StrictMono fun n => 3 * n + 1 := fun a b hab => by
    dsimp only
    omega
  have htext : reindent (fun n => 3 * n + 1) "if a:\n  f(1,\n 2)\nb".toList =
      " if a:\n       f(1,\n    2)\n b".toList := by decide +kernel
  have hagree := ((scan_reindent htabs "f").1 _ hmono).1
  rw [htext, String.ofList_toList] at hagree
  refine ⟨htabs, hmono, htext, ?_, hagree⟩
  have htest : (scan "if a:\n  f(1,\n 2)\nb" "f").toOption.any
      (fun tokens => tokens.length = 16) = true := by decide +kernel
  obtain ⟨tokens, htokens, hcount⟩ := exists_tokens_of_any htest
  exact ⟨tokens, htokens, of_decide_eq_true hcount⟩

end StackScript.Token
