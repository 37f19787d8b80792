import StackScript.Proofs.Blame
import StackScript.Session

namespace StackScript

structure Span.Ends (source file : String) (s : Span) : Prop where
  first : s.first.Within source file
  last : s.last.Within source file

section

variable {source file : String}

theorem Position.Within.file_eq {p : Position} (h : p.Within source file) : p.file = file := by
  obtain ⟨-, -, -, rfl⟩ := h
  rfl

theorem Span.Ends.upTo {a b : Span} (ha : a.Ends source file) (hb : b.Ends source file) :
    (a.upTo b).Ends source file := by
  have hfile : a.file = b.file := ha.first.file_eq.trans hb.last.file_eq.symm
  refine ⟨ha.first, ?_⟩
  rw [Span.upTo, Span.last, hfile]
  exact hb.last

/-- What the stages blame is at a place of the text if the spans of the program are. -/
theorem Diagnostic.Blames.pointsInto {d : Diagnostic} (h : d.Blames (Span.Ends source file)) :
    d.PointsInto source file := by
  refine ⟨?_, fun node start stop text hcause => ?_⟩
  · obtain ⟨s, hs, hp | hp⟩ := h.place
    · exact hp ▸ hs.first
    · exact hp ▸ hs.last
  · have hstage := h.stage
    rw [hcause] at hstage
    exact absurd rfl hstage

/-- The spans of a program begin and end at places of its text. -/
theorem Program.parse_spanned {p : Program} (h : parse source file = .ok p) :
    Stmt.SpannedAll (Span.Ends source file) p.body := by
  refine (parse_drawn (fun _ _ ha hb => ha.upTo hb) (fun s tree rest hs hparse n hn => ?_) p h).spanned
  obtain ⟨kind, span, children⟩ := tree
  have hne : children ≠ [] := by
    rintro rfl
    cases hn
  have hwithin := Tree.nodes_within hs hparse hne n (List.mem_cons_of_mem _ hn)
  exact ⟨hwithin.first, hwithin.last⟩

/-- Every diagnostic of a unit that is not compiled points into its text. -/
theorem Globals.compile_pointsInto (g : Globals) (source file : String) :
    Fails (Diagnostic.PointsInto source file) (g.compile source file) := by
  refine .bind (Program.parse_pointsInto source file) fun p hp => ?_
  have hspanned := Program.parse_spanned hp
  refine .bind (fun d h => ?_) fun typing _ => .bind (fun d h => ?_) fun _ _ => .ok _
  · exact (Program.typeFrom_blames hspanned d h).pointsInto
  · exact (UnitCode.ofProgram_blames hspanned _ _ d h).pointsInto

theorem Position.Within.offset_le {p : Position} (h : p.Within source file) :
    p.offset ≤ Text.byteLength source.toList := by
  obtain ⟨before, after, hsource, rfl⟩ := h
  rw [hsource, Text.byteLength_append]
  exact Nat.le_add_right _ _

end

/-- A unit that is not compiled, on top of whatever has been declared, is refused at a place of its
text, and what is not supported is quoted from there. -/
theorem Globals.diagnostics_point_into_text (g : Globals) (source : String) (file : Option String)
    {d : Diagnostic} (h : g.compile source (file.getD shellName) = .error d) :
    d.position.file = file.getD shellName ∧
    d.position.offset ≤ Text.byteLength source.toList ∧
    (∃ rest, Text.dropBytes d.position.offset source.toList = some rest) ∧
    ∀ node start stop text, d.cause = .unsupportedSyntax node start stop text →
      start ≤ stop ∧ stop ≤ Text.byteLength source.toList ∧
        Text.slice? source.toList start stop = some text.toList := by
  obtain ⟨hposition, hquotes⟩ := g.compile_pointsInto source _ d h
  refine ⟨hposition.file_eq, hposition.offset_le, ?_, fun node start stop text hcause => ?_⟩
  · obtain ⟨before, after, hsource, hp⟩ := hposition
    rw [hp, hsource]
    exact ⟨after, Text.dropBytes_append before after⟩
  · obtain ⟨hwithin, htext⟩ := hquotes node start stop text hcause
    obtain ⟨quoted, hquoted⟩ := hwithin.exists_slice
    refine ⟨?_, hwithin.last.offset_le, ?_⟩
    · obtain ⟨before, inner, after, -, he⟩ := hwithin
      cases he
      exact Nat.le_add_right _ _
    · rw [htext, Span.text, Text.slice, hquoted]
      exact congrArg some String.toList_ofList.symm

/-- A literal that is not ASCII, behind one, in a text without a file. -/
theorem Globals.diagnostics_point_into_text_literal :
    Globals.empty.compile "# é\nx = 'ü' # ü" (Option.none.getD shellName) =
      .error ⟨.unsupportedSyntax "expr" 9 13 "'ü'", ⟨9, "shell"⟩⟩ ∧
    (∃ rest, Text.dropBytes 9 "# é\nx = 'ü' # ü".toList = some rest) ∧
    Text.slice? "# é\nx = 'ü' # ü".toList 9 13 = some "'ü'".toList := by
  have htest : (Globals.empty.compile "# é\nx = 'ü' # ü" (Option.none.getD shellName)).map
      (fun _ => ()) = .error ⟨.unsupportedSyntax "expr" 9 13 "'ü'", ⟨9, "shell"⟩⟩ := by
    decide +kernel
  cases herror : Globals.empty.compile "# é\nx = 'ü' # ü" (Option.none.getD shellName) with
  | ok c =>
    rw [herror] at htest
    cases htest
  | error d =>
    rw [herror] at htest
    cases htest
    obtain ⟨-, -, hplace, hquotes⟩ := Globals.diagnostics_point_into_text _ _ _ herror
    exact ⟨rfl, hplace, (hquotes _ _ _ _ rfl).2.2⟩

end StackScript
