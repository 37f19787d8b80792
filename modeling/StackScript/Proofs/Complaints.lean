import StackScript.Proofs.Leaves

namespace StackScript

/-- The position is between two characters of this text, or at one of its ends. -/
def Position.Within (source file : String) (p : Position) : Prop :=
  ∃ before after, source.toList = before ++ after ∧ p = ⟨Text.byteLength before, file⟩

def Fails {α : Type} (P : Diagnostic → Prop) (r : Except Diagnostic α) : Prop :=
  ∀ d, r = .error d → P d

namespace Fails

variable {α β : Type} {P : Diagnostic → Prop} {r : Except Diagnostic α}

theorem ok (a : α) : Fails P (.ok a) := by
  intro d h
  cases h

theorem error {d : Diagnostic} (h : P d) : Fails P (.error d : Except Diagnostic α) := by
  intro e he
  cases he
  exact h

theorem bind {f : α → Except Diagnostic β} (hr : Fails P r)
    (hf : ∀ a, r = .ok a → Fails P (f a)) : Fails P (r >>= f) := by
  intro d h
  cases r with
  | ok a => exact hf a rfl d h
  | error e =>
    cases h
    exact hr d rfl

end Fails

/-- The diagnostic is at a place of the text, and quotes what stands where it says. -/
structure Diagnostic.PointsInto (source file : String) (d : Diagnostic) : Prop where
  position : d.position.Within source file
  quotes : ∀ node start stop text, d.cause = .unsupportedSyntax node start stop text →
    (Span.mk start stop file).Within source file ∧
      text = (Span.mk start stop file).text source

namespace Span.Within

variable {source file : String} {s : Span}

theorem first (h : s.Within source file) : s.first.Within source file := by
  obtain ⟨before, text, after, hsource, rfl⟩ := h
  exact ⟨before, text ++ after, by rw [hsource, List.append_assoc], rfl⟩

theorem last (h : s.Within source file) : s.last.Within source file := by
  obtain ⟨before, text, after, hsource, rfl⟩ := h
  exact ⟨before ++ text, after, hsource, by rw [Span.last, Text.byteLength_append]⟩

theorem file_eq (h : s.Within source file) : s.file = file := by
  obtain ⟨-, -, -, -, rfl⟩ := h
  rfl

/-- A span drawn up to another one ends within the text too. -/
theorem upTo_last {t : Span} (hs : s.Within source file) (ht : t.Within source file) :
    (s.upTo t).last.Within source file := by
  have hlast := ht.last
  rw [Span.last, ht.file_eq] at hlast
  rw [Span.upTo, Span.last, hs.file_eq]
  exact hlast

/-- Of two places of a text, what lies between them is a stretch of it. -/
theorem of_ends (hfirst : s.first.Within source file) (hlast : s.last.Within source file)
    (hle : s.start ≤ s.stop) : s.Within source file := by
  obtain ⟨start, stop, name⟩ := s
  obtain ⟨before, after, hsource, hb⟩ := hfirst
  obtain ⟨before', after', hsource', hb'⟩ := hlast
  obtain ⟨rfl, rfl⟩ := Position.mk.inj hb
  obtain ⟨rfl, -⟩ := Position.mk.inj hb'
  have hp : before <+: source.toList := ⟨after, hsource.symm⟩
  have hp' : before' <+: source.toList := ⟨after', hsource'.symm⟩
  have hprefix : before <+: before' := by
    rcases List.prefix_or_prefix_of_prefix hp hp' with h | ⟨rest, hrest⟩
    · exact h
    · -- the later place has no more bytes before it, so it is the same place
      have hlength := congrArg Text.byteLength hrest
      have hrestle := Text.length_le_byteLength rest
      rw [Text.byteLength_append] at hlength
      change Text.byteLength before ≤ Text.byteLength before' at hle
      have hnil : rest = [] := List.length_eq_zero_iff.mp (by omega)
      rw [hnil, List.append_nil] at hrest
      exact ⟨[], (List.append_nil before).trans hrest.symm⟩
  obtain ⟨text, rfl⟩ := hprefix
  exact ⟨before, text, after', hsource', by rw [Text.byteLength_append]⟩

end Span.Within

inductive Token.Unexpected (t : Token) : Diagnostic → Prop where
  | plain : Unexpected t ⟨.unexpectedToken t.value, t.span.first⟩
  | detailed (message : String) :
    Unexpected t ⟨.unexpectedTokenDetailed t.value message, t.span.first⟩

theorem Token.Unexpected.pointsInto {source file : String} {t : Token} {d : Diagnostic}
    (h : t.Unexpected d) (ht : t.span.Within source file) : d.PointsInto source file := by
  cases h with
  | plain => exact ⟨ht.first, fun _ _ _ _ h => by cases h⟩
  | detailed => exact ⟨ht.first, fun _ _ _ _ h => by cases h⟩

namespace Tree

def Stream.Shows (s : Stream) (t : Token) : Prop := t ∈ s.rest ∨ t = s.last

theorem Stream.shows_current (s : Stream) : s.Shows s.current := by
  unfold Stream.current
  cases hr : s.rest with
  | nil => exact .inr rfl
  | cons t rest => exact .inl (by rw [hr]; exact List.mem_cons_self)

theorem Stream.Shows.of_advance {s : Stream} {t : Token} (h : s.advance.Shows t) : s.Shows t :=
  h.imp_left List.mem_of_mem_tail

/-- The reader leaves a part of its stream, and if it fails, it complains about a token of it. -/
structure Heeds {α : Type} (r : Reader α) : Prop where
  keeps : ∀ {s t : Stream} {a : α}, r s = .ok a t → ∀ x, t.Shows x → s.Shows x
  complains : ∀ {s t : Stream} {d : Diagnostic}, r s = .failed d t → ∃ x, s.Shows x ∧ x.Unexpected d

namespace Heeds

variable {α β : Type} {r : Reader α} {f : α → Reader β}

theorem pure (a : α) : Heeds (Pure.pure a) where
  keeps := by
    intro s t b h
    cases h
    exact fun x hx => hx
  complains := by
    intro s t d h
    cases h

theorem endless : Heeds (Reader.endless : Reader α) where
  keeps := by
    intro s t a h
    cases h
  complains := by
    intro s t d h
    cases h

/-- Readers that heed their stream do so one after the other. -/
theorem bind (hr : Heeds r) (hf : ∀ a, Heeds (f a)) : Heeds (r >>= f) where
  keeps := by
    intro s u b h x hx
    change Reader.bind r f s = .ok b u at h
    unfold Reader.bind at h
    cases ha : r s with
    | ok a t =>
      rw [ha] at h
      exact hr.keeps ha x ((hf a).keeps h x hx)
    | failed d t => simp [ha] at h
    | endless => simp [ha] at h
  complains := by
    intro s u d h
    change Reader.bind r f s = .failed d u at h
    unfold Reader.bind at h
    cases ha : r s with
    | ok a t =>
      rw [ha] at h
      obtain ⟨x, hx, hd⟩ := (hf a).complains h
      exact ⟨x, hr.keeps ha x hx, hd⟩
    | failed e t =>
      rw [ha] at h
      cases h
      exact hr.complains ha
    | endless => simp [ha] at h

/-- A reader that looks at the stream and leaves it. -/
theorem look (g : Stream → α) : Heeds (fun s => .ok (g s) s) where
  keeps := by
    intro s t a h
    cases h
    exact fun x hx => hx
  complains := by
    intro s t d h
    cases h

theorem kind : Heeds Reader.kind := look _

theorem nextKind : Heeds Reader.nextKind := look _

theorem more : Heeds Reader.more := look _

theorem fail {why : Stream → Diagnostic} (h : ∀ s : Stream, s.current.Unexpected (why s)) :
    Heeds (Reader.fail why : Reader α) where
  keeps := by
    intro s t a h
    cases h
  complains := by
    intro s t d hd
    cases hd
    exact ⟨s.current, s.shows_current, h s⟩

theorem unexpected : Heeds (Reader.fail Stream.unexpected : Reader α) := fail fun _ => .plain

theorem unexpectedWith (message : String) :
    Heeds (Reader.fail (·.unexpectedWith message) : Reader α) :=
  fail fun _ => .detailed message

theorem take : Heeds Reader.take where
  keeps := by
    intro s t a h
    cases h
    exact fun x hx => hx.of_advance
  complains := by
    intro s t d h
    cases h

/-- An expected token that is not there is a complaint about the one that is. -/
theorem expect (k : Token.Kind) : Heeds (Reader.expect k) where
  keeps := by
    intro s t a h
    unfold Reader.expect at h
    split at h
    · cases h
      exact fun x hx => hx.of_advance
    · cases h
  complains := by
    intro s t d h
    unfold Reader.expect at h
    split at h
    · cases h
    · cases h
      exact ⟨s.current, s.shows_current, .plain⟩

theorem takeLeaf (node : Node.Kind) : Heeds (Reader.takeLeaf node) := take.bind fun _ => .pure _

theorem expectLeaf (k : Token.Kind) (node : Node.Kind) : Heeds (Reader.expectLeaf k node) :=
  (expect k).bind fun _ => .pure _

end Heeds

open Heeds

structure ExprsHeed (steps : Nat) : Prop where
  expr : ∀ power, Heeds (expr steps power)
  operand : Heeds (operand steps)
  prefixed : ∀ power, Heeds (prefixed steps power)
  climb : ∀ power left, Heeds (climb steps power left)
  arguments : Heeds (arguments steps)

/-- All readers of expressions heed their stream, by induction on the steps they may take. -/
theorem exprsHeed (steps : Nat) : ExprsHeed steps := by
  induction steps with
  | zero => exact ⟨fun _ => .endless, .endless, fun _ => .endless, fun _ _ => .endless, .endless⟩
  | succ steps ih =>
    refine ⟨fun power => ?_, ?_, fun power => ?_, fun power left => ?_, ?_⟩
    · unfold expr
      exact ih.operand.bind fun left => ih.climb power left
    · unfold operand
      refine kind.bind fun kind => ?_
      split
      · exact ih.prefixed .negation
      · exact ih.prefixed .unary
      · refine (takeLeaf _).bind fun opening => (ih.expr .none).bind fun inner => ?_
        exact (expectLeaf _ _).bind fun closing => .pure _
      · split
        · exact takeLeaf _
        · exact unexpected
    · unfold prefixed
      exact (takeLeaf _).bind fun operator => (ih.expr power).bind fun inner => .pure _
    · unfold climb
      refine kind.bind fun kind => ?_
      split
      · split
        · refine (takeLeaf _).bind fun opening => ?_
          exact ih.arguments.bind fun items => ih.climb power _
        · refine (takeLeaf _).bind fun operator => ?_
          exact (ih.expr _).bind fun right => ih.climb power _
        · exact unexpected
      · exact .pure _
    · unfold arguments
      refine kind.bind fun kind => ?_
      split
      · exact (takeLeaf _).bind fun closing => .pure _
      · refine (ih.expr .none).bind fun argument => Heeds.kind.bind fun kind => ?_
        split
        · refine (takeLeaf _).bind fun comma => ?_
          exact ih.arguments.bind fun items => .pure _
        · exact (expectLeaf _ _).bind fun closing => .pure _

theorem typeName_heeds : Heeds typeName := by
  unfold typeName
  refine kind.bind fun kind => ?_
  split
  · exact takeLeaf _
  · exact takeLeaf _
  · exact unexpectedWith _

/-- A type behind its mark is a complaint about the mark or the type, whichever is missing. -/
theorem typeAfter_heeds (mark : Token.Kind) (node : Node.Kind) : Heeds (typeAfter mark node) :=
  (expectLeaf _ _).bind fun _ => typeName_heeds.bind fun _ => .pure _

theorem typeIf_heeds (mark : Token.Kind) (node : Node.Kind) : Heeds (typeIf mark node) := by
  unfold typeIf
  refine kind.bind fun kind => ?_
  split
  · exact (typeAfter_heeds _ _).bind fun type => .pure _
  · exact .pure _

theorem parameters_heeds (steps : Nat) : Heeds (parameters steps) := by
  induction steps with
  | zero => exact .endless
  | succ steps ih =>
    unfold parameters
    refine kind.bind fun kind => ?_
    split
    · exact (takeLeaf _).bind fun closing => .pure _
    · refine (expectLeaf _ _).bind fun name => (typeAfter_heeds _ _).bind fun typed => ?_
      refine Heeds.kind.bind fun kind => ?_
      split
      · exact (takeLeaf _).bind fun comma => ih.bind fun items => .pure _
      · exact (expectLeaf _ _).bind fun closing => .pure _

theorem assignment_heeds (steps : Nat) : Heeds (assignment steps) := by
  unfold assignment
  refine (expectLeaf _ _).bind fun name => (typeIf_heeds _ _).bind fun typed => ?_
  refine (expectLeaf _ _).bind fun operator => ((exprsHeed steps).expr .none).bind fun value => ?_
  exact (expect _).bind fun _ => .pure _

theorem expression_heeds (steps : Nat) : Heeds (expression steps) :=
  ((exprsHeed steps).expr .none).bind fun _ => (expect _).bind fun _ => .pure _

theorem returning_heeds (steps : Nat) : Heeds (returning steps) := by
  unfold returning
  refine (takeLeaf _).bind fun keyword => kind.bind fun kind => ?_
  split
  · exact take.bind fun _ => .pure _
  · exact ((exprsHeed steps).expr .none).bind fun value => (expect _).bind fun _ => .pure _

theorem passing_heeds : Heeds passing :=
  (takeLeaf _).bind fun _ => (expect _).bind fun _ => .pure _

structure StmtsHeed (steps : Nat) : Prop where
  stmt : Heeds (stmt steps)
  laterArms : Heeds (laterArms steps)
  definition : Heeds (definition steps)
  body : Heeds (body steps)
  block : Heeds (block steps)

theorem stmt_succ_heeds {steps : Nat} (ih : StmtsHeed steps) : Heeds (stmt (steps + 1)) := by
  unfold stmt
  refine kind.bind fun kind => ?_
  split
  · exact ih.definition
  · refine (takeLeaf _).bind fun keyword => ((exprsHeed steps).expr .none).bind fun condition => ?_
    exact ih.body.bind fun yes => ih.laterArms.bind fun arms => .pure _
  · refine (takeLeaf _).bind fun keyword => ((exprsHeed steps).expr .none).bind fun condition => ?_
    exact ih.body.bind fun body => .pure _
  · exact returning_heeds steps
  · exact passing_heeds
  · refine nextKind.bind fun next => ?_
    split
    · exact assignment_heeds steps
    · exact assignment_heeds steps
    · exact expression_heeds steps
  · exact expression_heeds steps

theorem body_succ_heeds {steps : Nat} (ih : StmtsHeed steps) : Heeds (body (steps + 1)) := by
  unfold body
  refine (expectLeaf _ _).bind fun colon => kind.bind fun kind => ?_
  split
  · refine take.bind fun _ => Heeds.kind.bind fun kind => ?_
    split
    · exact take.bind fun _ => ih.block.bind fun stmts => .pure _
    · exact unexpectedWith _
  · exact unexpectedWith _
  · exact unexpectedWith _
  · exact unexpectedWith _
  · exact ih.stmt.bind fun stmt => .pure _

/-- All readers of statements heed their stream. -/
theorem stmtsHeed (steps : Nat) : StmtsHeed steps := by
  induction steps with
  | zero => exact ⟨.endless, .endless, .endless, .endless, .endless⟩
  | succ steps ih =>
    refine ⟨stmt_succ_heeds ih, ?_, ?_, body_succ_heeds ih, ?_⟩
    · unfold laterArms
      refine kind.bind fun kind => ?_
      split
      · refine (takeLeaf _).bind fun keyword => ?_
        refine ((exprsHeed steps).expr .none).bind fun condition => ?_
        exact ih.body.bind fun body => ih.laterArms.bind fun arms => .pure _
      · exact (takeLeaf _).bind fun keyword => ih.body.bind fun body => .pure _
      · exact .pure _
    · unfold definition
      refine (takeLeaf _).bind fun keyword => (expectLeaf _ _).bind fun name => ?_
      refine (expectLeaf _ _).bind fun opening => (parameters_heeds steps).bind fun items => ?_
      exact (typeIf_heeds _ _).bind fun result => ih.body.bind fun body => .pure _
    · unfold block
      refine more.bind fun more => kind.bind fun kind => ?_
      split
      · exact ih.stmt.bind fun first => ih.block.bind fun rest => .pure _
      · exact (expect _).bind fun _ => .pure _

theorem script_heeds (steps : Nat) : Heeds (script steps) := by
  induction steps with
  | zero => exact .endless
  | succ steps ih =>
    unfold script
    refine more.bind fun more => ?_
    split
    · exact (stmtsHeed steps).stmt.bind fun first => ih.bind fun rest => .pure _
    · exact .pure _

theorem root_heeds (stmts : List Node) : Heeds (root stmts) := by
  cases stmts with
  | nil => exact .look _
  | cons stmt stmts => exact .pure _

/-- A list of tokens without a tree is refused for one of its tokens. -/
theorem ofStream_unexpected {s rest : Stream} {d : Diagnostic}
    (h : ofStream s = (.error d, rest)) : ∃ t, s.Shows t ∧ t.Unexpected d := by
  unfold ofStream at h
  split at h
  · cases h
  · rename_i hfailed
    cases h
    exact ((script_heeds _).bind root_heeds).complains hfailed
  · cases h
    exact ⟨s.last, .inr rfl, .plain⟩

end Tree

namespace Token

variable {source file : String}

/-- The scanner is always at a place of its text. -/
theorem Scanner.Sound.here_within {s : Scanner} (h : s.Sound source) :
    s.here.Within source s.file := by
  obtain ⟨done, hd, ho⟩ := h.place
  exact ⟨done, s.rest, hd, by rw [Scanner.here, ho]⟩

/-- The scanner stops at a place of the text. -/
theorem scan_pointsInto {d : Diagnostic} (h : scan source file = .error d) :
    d.PointsInto source file := by
  obtain ⟨n, s, hs, -, hstep⟩ := Scanner.exists_rounds_of_scan_error h
  have hfile := hs.file_eq
  rcases hs.steady.step_error hstep with ⟨-, rfl⟩ | ⟨-, rfl⟩
  · exact ⟨hfile ▸ hs.sound.entered.here_within, fun _ _ _ _ h => by cases h⟩
  · exact ⟨hfile ▸ hs.sound.here_within, fun _ _ _ _ h => by cases h⟩

end Token

namespace Tree

open Node Token

variable {source file : String} {s rest : Stream} {tree : Node}

/-- The tokens of a text are stretches of it. -/
theorem within_of_streamOf (h : streamOf source file = .ok s) {t : Token} (ht : s.Shows t) :
    t.span.Within source file := by
  obtain ⟨tokens, hscan, he⟩ := bind_eq_ok.mp h
  cases he
  have hwithin := scan_within hscan
  rcases ht with ht | rfl
  · exact hwithin t ht
  · rw [List.getLastD_eq_getLast?]
    cases hlast : tokens.getLast? with
    | none => exact ⟨[], [], source.toList, rfl, rfl⟩
    | some last => exact hwithin last (List.mem_of_getLast? hlast)

/-- The nodes of a text's tree are stretches of the text. -/
theorem nodes_within (hs : streamOf source file = .ok s) (ht : parse s = .ok tree rest)
    (hne : tree.children ≠ []) : ∀ n ∈ tree.nodes, n.span.Within source file := by
  obtain ⟨tokens, hscan, hrest⟩ := exists_scan_of_streamOf hs
  have hcovers := covers_of_scan hscan hrest ht hne
  have hleaves : ∀ l ∈ tree.leaves, l.span.Within source file := by
    intro l hl
    have hmem : l.span ∈ (wordsOf tokens).map Token.span :=
      hcovers.spans ▸ List.mem_map_of_mem hl
    obtain ⟨t, ht, hspan⟩ := List.mem_map.mp hmem
    rw [← hspan]
    exact scan_within hscan t (List.mem_filter.mp ht).1
  intro n hn
  obtain ⟨htight, hsub⟩ := hcovers.tight.of_mem_nodes n hn
  have hfilled := htight.filled (hcovers.inOrder.sublist hsub)
  obtain ⟨first, hfirst, last, hlast, hspan⟩ := htight.span_eq
  have hfirst := hleaves first (hsub.subset (List.mem_of_head? hfirst))
  have hlast := hleaves last (hsub.subset (List.mem_of_getLast? hlast))
  rw [hspan] at hfilled ⊢
  exact .of_ends hfirst.first (hfirst.upTo_last hlast) (Nat.le_of_lt hfilled)

end Tree

namespace Node

/-- A refused node is quoted with the text it stands for. -/
theorem unsupported_pointsInto {source file : String} {span : Span} (what : String)
    (h : span.Within source file) : (unsupported what span source).PointsInto source file := by
  refine ⟨h.first, fun node start stop text he => ?_⟩
  have hfile := h.file_eq
  obtain ⟨start, stop, name⟩ := span
  obtain rfl : name = file := hfile
  cases he
  exact ⟨h, rfl⟩

theorem mem_nodes_self (n : Node) : n ∈ n.nodes := by
  cases n
  exact List.mem_cons_self

theorem mem_nodes_of_child {n c : Node} (h : c ∈ n.children) : c ∈ n.nodes := by
  cases n
  exact List.mem_cons_of_mem _ (mem_nodesAll.mpr ⟨c, h, c.mem_nodes_self⟩)

/-- Nodes of nodes are nodes of the tree. -/
theorem Tight.nodes_trans {tree : Node} (h : tree.Tight) :
    ∀ n ∈ tree.nodes, ∀ m ∈ n.nodes, m ∈ tree.nodes := by
  induction h with
  | leaf =>
    intro n hn m hm
    rw [List.mem_singleton.mp hn] at hm
    exact hm
  | branch _ ih =>
    intro n hn m hm
    rcases List.mem_cons.mp hn with rfl | hn
    · exact hm
    · obtain ⟨c, hc, hn⟩ := mem_nodesAll.mp hn
      exact List.mem_cons_of_mem _ (mem_nodesAll.mpr ⟨c, hc, ih c hc n hn m hm⟩)

/-- What is said about a refused node is said about it or one of its children. -/
theorem Refused.pointsInto {source file : String} {n : Node} {d : Diagnostic}
    (h : Refused source n d) (hn : n.span.Within source file)
    (hc : ∀ c ∈ n.children, c.span.Within source file) : d.PointsInto source file := by
  cases h with
  | string | logic => exact unsupported_pointsInto _ hn
  | @secondElif _ children _ _ second hs =>
    have hsecond : second ∈ children.filter (fun n => n.kind = .kwElif) := by
      rw [hs]
      exact List.mem_cons_of_mem _ List.mem_cons_self
    exact unsupported_pointsInto _ (hc second (List.mem_filter.mp hsecond).1)
  | callee => exact unsupported_pointsInto _ (hc _ List.mem_cons_self)
  | typeName =>
    exact ⟨(hc _ (List.mem_cons_of_mem _ List.mem_cons_self)).first, fun _ _ _ _ h => by cases h⟩
  | number | printing => exact ⟨hn.first, fun _ _ _ _ h => by cases h⟩

end Node

namespace Program

open Node StackScript.Tree

theorem ofTree_nil {tree : Node} {source : String} (hk : tree.kind = .script)
    (hc : tree.children = []) : ofTree tree source = .ok ⟨[]⟩ := by
  rw [ofTree, if_pos hk, hc]
  rfl

/-- A text that is no program is refused for something that stands in it. -/
theorem parse_pointsInto (source file : String) :
    Fails (Diagnostic.PointsInto source file) (parse source file) := by
  refine .bind (.bind (fun d h => Token.scan_pointsInto h) fun _ _ => .ok _) fun s hs => ?_
  refine .bind (fun d h => ?_) fun tree htree d h => ?_
  · obtain ⟨t, ht, hd⟩ := ofStream_unexpected (Prod.ext h rfl)
    exact hd.pointsInto (within_of_streamOf hs ht)
  · have hparse := parse_of_ofStream (Prod.ext htree rfl)
    have hne : tree.children ≠ [] := by
      intro hnil
      obtain ⟨_, _, _, _, _, hkind, _⟩ := parse_built hparse
      rw [ofTree_nil hkind hnil] at h
      cases h
    obtain ⟨n, hn, hd⟩ := (judged_ofTree hparse (spelled_of_streamOf hs)).sound d h
    have hwithin := nodes_within hs hparse hne
    obtain ⟨tokens, hscan, hrest⟩ := exists_scan_of_streamOf hs
    have htight := (covers_of_scan hscan hrest hparse hne).tight
    refine hd.pointsInto (hwithin n hn) fun c hc => hwithin c ?_
    exact htight.nodes_trans n hn c (mem_nodes_of_child hc)

end Program

end StackScript
