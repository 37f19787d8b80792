import StackScript.Proofs.Acceptance
import StackScript.Proofs.Balance
import StackScript.Proofs.Lowering

namespace StackScript

namespace Node

mutual

def leaves : Node → List Node
  | mk kind span children =>
    match children with
    | [] => [mk kind span []]
    | _ => leavesAll children

def leavesAll : List Node → List Node
  | [] => []
  | n :: ns => leaves n ++ leavesAll ns

end

@[simp] theorem leaves_leaf (kind : Kind) (t : Token) : (leaf kind t).leaves = [leaf kind t] := rfl

@[simp] theorem leaves_branch (kind : Kind) (n : Node) (ns : List Node) :
    (branch kind (n :: ns)).leaves = leavesAll (n :: ns) := rfl

@[simp] theorem leavesAll_nil : leavesAll [] = [] := rfl

@[simp] theorem leavesAll_cons (n : Node) (ns : List Node) :
    leavesAll (n :: ns) = n.leaves ++ leavesAll ns := rfl

@[simp] theorem leavesAll_append (ms ns : List Node) :
    leavesAll (ms ++ ns) = leavesAll ms ++ leavesAll ns := by
  induction ms with
  | nil => rfl
  | cons m ms ih => simp [ih]

@[simp] theorem span_leaf (kind : Kind) (t : Token) : (leaf kind t).span = t.span := rfl

/-- Every node over others lies from the first of them to the last. -/
inductive Tight : Node → Prop where
  | leaf {kind : Kind} {t : Token} : Tight (.leaf kind t)
  | branch {kind : Kind} {n : Node} {ns : List Node} : (∀ c ∈ n :: ns, Tight c) →
    Tight (.branch kind (n :: ns))

theorem mem_nodesAll {n : Node} {ns : List Node} :
    n ∈ nodesAll ns ↔ ∃ c ∈ ns, n ∈ c.nodes := by
  induction ns with
  | nil => simp
  | cons c cs ih => simp [ih]

/-- The leaves of one node stand together among those of all. -/
theorem leaves_sublist_leavesAll {n : Node} {ns : List Node} (h : n ∈ ns) :
    n.leaves.Sublist (leavesAll ns) := by
  obtain ⟨before, after, rfl⟩ := List.append_of_mem h
  rw [leavesAll_append, leavesAll_cons]
  exact (List.sublist_append_left _ _).trans (List.sublist_append_right _ _)

theorem span_branch (kind : Kind) (n : Node) (ns : List Node) {last : Node}
    (h : (n :: ns).getLast? = some last) :
    (branch kind (n :: ns)).span = n.span.upTo last.span := by
  simp only [branch, span, List.head?_cons, h]

structure InOrder (ns : List Node) : Prop where
  filled : ∀ n ∈ ns, n.span.start < n.span.stop
  apart : ns.Pairwise fun a b => a.span.stop ≤ b.span.start

namespace InOrder

variable {ms ns : List Node} {n first last : Node}

theorem sublist (h : InOrder ns) (hs : ms.Sublist ns) : InOrder ms :=
  ⟨fun n hn => h.filled n (hs.subset hn), h.apart.sublist hs⟩

theorem first_le (h : InOrder ns) (hfirst : first ∈ ns.head?) (hn : n ∈ ns) :
    first.span.start ≤ n.span.start := by
  obtain ⟨rest, rfl⟩ := List.head?_eq_some_iff.mp hfirst
  rcases List.mem_cons.mp hn with rfl | hn
  · exact Nat.le_refl _
  · have hfilled := h.filled first List.mem_cons_self
    have hapart := List.rel_of_pairwise_cons h.apart hn
    omega

theorem le_last (h : InOrder ns) (hlast : last ∈ ns.getLast?) (hn : n ∈ ns) :
    n.span.stop ≤ last.span.stop := by
  obtain ⟨rest, rfl⟩ := List.getLast?_eq_some_iff.mp hlast
  rcases List.mem_append.mp hn with hn | hn
  · have hfilled := h.filled last (List.mem_append_right _ List.mem_cons_self)
    have hapart := (List.pairwise_append.mp h.apart).2.2 n hn last List.mem_cons_self
    omega
  · obtain rfl := List.mem_singleton.mp hn
    exact Nat.le_refl _

end InOrder

namespace Tight

variable {n tree : Node}

/-- A node lies from the start of its first leaf to the end of its last one. -/
theorem span_eq (h : n.Tight) : ∃ first ∈ n.leaves.head?, ∃ last ∈ n.leaves.getLast?,
    n.span = first.span.upTo last.span := by
  induction h with
  | leaf => exact ⟨_, rfl, _, rfl, rfl⟩
  | @branch kind n ns _ ih =>
    obtain ⟨last, hlast⟩ : ∃ last, (n :: ns).getLast? = some last :=
      Option.isSome_iff_exists.mp (List.getLast?_isSome.mpr (List.cons_ne_nil n ns))
    obtain ⟨before, hbefore⟩ := List.getLast?_eq_some_iff.mp hlast
    obtain ⟨first, hfirst, _, _, hn⟩ := ih n List.mem_cons_self
    obtain ⟨_, _, final, hfinal, hspan⟩ := ih last (List.mem_of_getLast? hlast)
    refine ⟨first, ?_, final, ?_, ?_⟩
    · rw [leaves_branch, leavesAll_cons, List.head?_append, hfirst]
      rfl
    · rw [leaves_branch, hbefore, leavesAll_append, leavesAll_cons, leavesAll_nil, List.append_nil,
        List.getLast?_append, hfinal]
      rfl
    · rw [span_branch kind n ns hlast, hn, hspan]
      rfl

theorem filled (h : n.Tight) (ho : InOrder n.leaves) : n.span.start < n.span.stop := by
  obtain ⟨first, hfirst, last, hlast, hspan⟩ := h.span_eq
  have hfilled := ho.filled last (List.mem_of_getLast? hlast)
  have hle := ho.first_le hfirst (List.mem_of_getLast? hlast)
  rw [hspan]
  exact Nat.lt_of_le_of_lt hle hfilled

/-- Nodes whose leaves come one after the other do so themselves. -/
theorem inOrder {ns : List Node} (h : ∀ n ∈ ns, n.Tight) (ho : InOrder (leavesAll ns)) :
    InOrder ns := by
  refine ⟨fun n hn => (h n hn).filled (ho.sublist (leaves_sublist_leavesAll hn)), ?_⟩
  induction ns with
  | nil => exact .nil
  | cons n ns ih =>
    obtain ⟨_, hns, hcross⟩ := List.pairwise_append.mp ho.apart
    have htail : InOrder (leavesAll ns) := ho.sublist (List.sublist_append_right _ _)
    refine .cons (fun m hm => ?_) (ih (fun m hm => h m (List.mem_cons_of_mem n hm)) htail)
    obtain ⟨_, _, last, hlast, hn⟩ := (h n List.mem_cons_self).span_eq
    obtain ⟨first, hfirst, _, _, hm'⟩ := (h m (List.mem_cons_of_mem n hm)).span_eq
    rw [hn, hm']
    exact hcross last (List.mem_of_getLast? hlast) first
      ((leaves_sublist_leavesAll hm).subset (List.mem_of_head? hfirst))

/-- Below a tight node all nodes are tight, over leaves of its own. -/
theorem of_mem_nodes (h : tree.Tight) : ∀ n ∈ tree.nodes, n.Tight ∧ n.leaves.Sublist tree.leaves := by
  induction h with
  | leaf =>
    intro n hn
    rw [List.mem_singleton.mp hn]
    exact ⟨.leaf, .refl _⟩
  | @branch kind first rest hc ih =>
    intro n hn
    rcases List.mem_cons.mp hn with rfl | hn
    · exact ⟨.branch hc, .refl _⟩
    · obtain ⟨c, hc, hn⟩ := mem_nodesAll.mp hn
      obtain ⟨htight, hsub⟩ := ih c hc n hn
      exact ⟨htight, hsub.trans (leaves_sublist_leavesAll hc)⟩

/-- Over others, a node encloses them, and they come one after the other if their leaves do. -/
theorem encloses (h : n.Tight) (hc : n.children ≠ []) (ho : InOrder n.leaves) :
    InOrder n.children ∧
      ∀ c ∈ n.children, n.span.start ≤ c.span.start ∧ c.span.stop ≤ n.span.stop := by
  cases h with
  | leaf => exact absurd rfl hc
  | @branch kind first rest htight =>
    have horder : InOrder (first :: rest) := inOrder htight ho
    obtain ⟨last, hlast⟩ : ∃ last, (first :: rest).getLast? = some last :=
      Option.isSome_iff_exists.mp (List.getLast?_isSome.mpr (List.cons_ne_nil first rest))
    refine ⟨horder, fun c hc => ?_⟩
    rw [span_branch kind first rest hlast]
    exact ⟨horder.first_le rfl hc, horder.le_last hlast hc⟩

end Tight

end Node

namespace Token

@[simp] theorem wordsOf_nil : wordsOf [] = [] := rfl

@[simp] theorem wordsOf_append (as bs : List Token) : wordsOf (as ++ bs) = wordsOf as ++ wordsOf bs :=
  List.filter_append ..

theorem wordsOf_word {t : Token} {tokens : List Token} (h : t.kind.isLayout = false) :
    wordsOf (t :: tokens) = t :: wordsOf tokens :=
  List.filter_cons_of_pos (by simp [isWord, h])

/-- The text is what the token carries, with quotes around it for a literal. -/
def Written (t : Token) (text : String) : Prop :=
  if t.kind = .string then
    ∃ quote, (quote = '"' ∨ quote = '\'') ∧ text.toList = quote :: t.value.toList ++ [quote]
  else text = t.value

/-- What a token carries is what stands in its span. -/
theorem Carries.written {source : String} {t : Token} (h : t.Carries source) :
    t.Written (t.span.text source) := by
  unfold Written
  cases h with
  | plain hk hslice =>
    rw [if_neg hk, Span.text, Text.slice, hslice]
    exact String.ofList_toList
  | quoted hk hquote hslice =>
    rw [if_pos hk, Span.text, Text.slice, hslice]
    exact ⟨_, hquote, String.toList_ofList⟩

end Token

namespace Tree

open Node Token

theorem operandKind?_isLayout {k : Token.Kind} {node : Node.Kind} (h : operandKind? k = some node) :
    k.isLayout = false := by
  cases k <;> first | rfl | cases h

theorem operatorKind?_isLayout {k : Token.Kind} {node : Node.Kind}
    (h : operatorKind? k = some node) : k.isLayout = false := by
  cases k <;> first | rfl | cases h

theorem typeKind?_isLayout {k : Token.Kind} {node : Node.Kind} (h : typeKind? k = some node) :
    k.isLayout = false := by
  cases k <;> first | rfl | cases h

def Part.marked : Part → Bool
  | .typeIf mark _ => !mark.isLayout
  | _ => true

/-- The leaves of what is built are the words it is built from. No layout token becomes one. -/
theorem Built.spans_leavesAll {p : Part} {used : List Token} {ns : List Node} (h : Built p used ns)
    (hp : p.marked = true) : (leavesAll ns).map Node.span = (wordsOf used).map Token.span := by
  induction h with
  | leaf hk => simp [wordsOf_word (operandKind?_isLayout hk)]
  | binary _ hk _ iha ihb =>
    simp_all [Part.marked, wordsOf_word (operatorKind?_isLayout hk)]
  | @typed mark _ _ m t hm ht =>
    have hmark : m.kind.isLayout = false := by simpa [Part.marked, hm] using hp
    simp [wordsOf_word hmark, wordsOf_word (typeKind?_isLayout ht)]
  | @prefixed op _ _ hk _ ih =>
    have hop : op.kind.isLayout = false := by rcases hk with hk | hk <;> rw [hk] <;> rfl
    simp_all [Part.marked, wordsOf_word hop]
  | _ => simp_all [Part.marked, wordsOf, isWord, Token.Kind.isLayout]

/-- All that is built is tight, so what is known of the words' spans carries over to all nodes. -/
theorem Built.tight {p : Part} {used : List Token} {ns : List Node} (h : Built p used ns) :
    ∀ n ∈ ns, n.Tight := by
  induction h with
  | leaf | noArgument | noParameter => simp [Tight.leaf]
  | untyped | noArm | noStmt => simp
  | typed => simp [Tight.leaf, Tight.branch]
  | @call _ _ callee l items _ _ _ ihcallee ihitems =>
    have hlist : (Node.branch .argList (.leaf .openParen l :: items)).Tight :=
      .branch (by simpa [Tight.leaf] using ihitems)
    have hcallee : callee.Tight := ihcallee callee List.mem_cons_self
    rintro n hn
    rw [List.mem_singleton.mp hn]
    exact .branch (by simp [hlist, hcallee])
  | @defined word name l _ _ _ items result body _ _ _ _ _ _ ihitems ihresult ihbody =>
    have hlist : (Node.branch .paramList (.leaf .openParen l :: items)).Tight :=
      .branch (by simpa [Tight.leaf] using ihitems)
    rintro n hn
    rw [List.mem_singleton.mp hn]
    refine .branch ?_
    simp_all [Tight.leaf, or_imp]
  | _ => simp_all [Tight.leaf, Tight.branch, or_imp]

/-- A tree with statements is the root over them. -/
theorem parse_root {s t : Stream} {tree : Node} (h : parse s = .ok tree t)
    (hne : tree.children ≠ []) : tree = .branch .script tree.children := by
  unfold parse at h
  change Reader.bind (script _) root s = .ok tree t at h
  unfold Reader.bind at h
  cases hs : script (enoughSteps s.rest.length) s with
  | ok ns u =>
    rw [hs] at h
    cases ns with
    | nil =>
      cases h
      exact absurd rfl hne
    | cons n ns =>
      cases h
      rfl
  | failed d u => simp [hs] at h
  | endless => simp [hs] at h

theorem exists_scan_of_streamOf {source file : String} {s : Stream}
    (h : streamOf source file = .ok s) :
    ∃ tokens, scan source file = .ok tokens ∧ s.rest = tokens := by
  obtain ⟨tokens, hscan, he⟩ := bind_eq_ok.mp h
  cases he
  exact ⟨tokens, hscan, rfl⟩

/-- The statements of a text's tree are built from all of its tokens but the end mark. -/
theorem built_of_scan {source file : String} {s rest : Stream} {tree : Node} {tokens : List Token}
    (hscan : scan source file = .ok tokens) (hs : s.rest = tokens)
    (ht : parse s = .ok tree rest) :
    ∃ body, Built .stmts body tree.children ∧ wordsOf body = wordsOf tokens := by
  obtain ⟨body, mark, htokens, hmark, hbody⟩ := (Balanced.of_scan hscan).ends
  obtain ⟨used, ns, htakes, hbuilt, hmore, -, hchildren⟩ := parse_built ht
  have hused : ∀ t ∈ used, t.kind ≠ .eof := by
    have hderives : Derives .stmts (used.map Token.kind) := hbuilt.allowed
    intro t hmem hk
    exact hderives.no_eof (hk ▸ List.mem_map_of_mem hmem)
  have hall : used = body := htakes.eq_rest (hs.trans htokens) hmark hbody hused hmore
  refine ⟨body, by rwa [hchildren, ← hall], ?_⟩
  have hlayout : mark.kind.isLayout = true := by rw [hmark]; rfl
  rw [htokens, wordsOf_append, wordsOf_layout hlayout, wordsOf_nil, List.append_nil]

/-- The tree stands over these words. -/
structure Covers (tree : Node) (words : List Token) : Prop where
  tight : tree.Tight
  spans : tree.leaves.map Node.span = words.map Token.span
  inOrder : InOrder tree.leaves

/-- The tree of a text stands over its words. -/
theorem covers_of_scan {source file : String} {s rest : Stream} {tree : Node} {tokens : List Token}
    (hscan : scan source file = .ok tokens) (hs : s.rest = tokens)
    (ht : parse s = .ok tree rest) (hne : tree.children ≠ []) : Covers tree (wordsOf tokens) := by
  obtain ⟨body, hbuilt, hwords⟩ := built_of_scan hscan hs ht
  have hroot := parse_root ht hne
  obtain ⟨first, others, hchildren⟩ := List.exists_cons_of_ne_nil hne
  rw [hchildren] at hroot hbuilt
  have hspans : tree.leaves.map Node.span = (wordsOf tokens).map Token.span := by
    rw [hroot, leaves_branch, hbuilt.spans_leavesAll rfl, hwords]
  have hfilled := scan_filled hscan
  rw [← hspans] at hfilled
  refine ⟨?_, hspans, fun n hn => ?_, List.pairwise_map.mp hfilled.ordered⟩
  · rw [hroot]
    exact .branch hbuilt.tight
  · exact (hfilled.bounds n.span (List.mem_map_of_mem hn)).2.1

/-- A node begins and ends where leaves do. -/
theorem Covers.narrow {tree : Node} {words : List Token} (h : Covers tree words)
    (hw : ∀ t ∈ words, t.span.Narrow) : ∀ n ∈ tree.nodes, n.span.Narrow := by
  have hleaves : ∀ l ∈ tree.leaves, l.span.Narrow := by
    intro l hl
    have hmem : l.span ∈ words.map Token.span := h.spans ▸ List.mem_map_of_mem hl
    obtain ⟨t, ht, hspan⟩ := List.mem_map.mp hmem
    exact hspan ▸ hw t ht
  intro n hn
  obtain ⟨htight, hsub⟩ := h.tight.of_mem_nodes n hn
  obtain ⟨first, hfirst, last, hlast, hspan⟩ := htight.span_eq
  rw [hspan]
  exact ⟨(hleaves first (hsub.subset (List.mem_of_head? hfirst))).start,
    (hleaves last (hsub.subset (List.mem_of_getLast? hlast))).stop⟩

theorem forall₂_written {source : String} {leaves : List Node} {words : List Token}
    (h : leaves.map Node.span = words.map Token.span) (hwords : ∀ t ∈ words, t.Carries source) :
    List.Forall₂ (fun leaf t => leaf.span = t.span ∧ t.Written (leaf.text source)) leaves words := by
  induction leaves generalizing words with
  | nil =>
    cases words with
    | nil => exact .nil
    | cons t words => cases h
  | cons leaf leaves ih =>
    cases words with
    | nil => cases h
    | cons t words =>
      obtain ⟨hspan, hrest⟩ := List.cons.inj h
      refine .cons ⟨hspan, ?_⟩ (ih hrest fun u hu => hwords u (List.mem_cons_of_mem t hu))
      rw [Node.text, hspan]
      exact (hwords t List.mem_cons_self).written

/-- The leaves of a text's tree are its words, each once and in order, and show their texts. Every
other node lies from its first leaf to its last one and encloses its children, which come one after
the other. The offsets of a short text fit in 32 bits. -/
theorem tree_keeps_words {source file : String} {s rest : Stream} {tree : Node}
    (hs : streamOf source file = .ok s) (ht : ofStream s = (.ok tree, rest))
    (hne : tree.children ≠ []) :
    ∃ tokens, scan source file = .ok tokens ∧
      List.Forall₂ (fun leaf t => leaf.span = t.span ∧ t.Written (leaf.text source)) tree.leaves
        (wordsOf tokens) ∧
      (∀ n ∈ tree.nodes, n.children ≠ [] →
        (∃ first ∈ n.leaves.head?, ∃ last ∈ n.leaves.getLast?,
          n.span = ⟨first.span.start, last.span.stop, file⟩) ∧
        InOrder n.children ∧
        ∀ c ∈ n.children, n.span.start ≤ c.span.start ∧ c.span.stop ≤ n.span.stop) ∧
      (Text.Short source.toList → ∀ n ∈ tree.nodes, n.span.Narrow) := by
  obtain ⟨tokens, hscan, hrest⟩ := exists_scan_of_streamOf hs
  have hcovers := covers_of_scan hscan hrest (parse_of_ofStream ht) hne
  obtain ⟨htight, hspans, horder⟩ := id hcovers
  refine ⟨tokens, hscan, forall₂_written hspans (scan_carries hscan), fun n hn hc => ?_,
    fun hshort => hcovers.narrow fun t ht =>
      (scan_within hscan t (List.mem_filter.mp ht).1).narrow hshort⟩
  obtain ⟨hn, hsub⟩ := htight.of_mem_nodes n hn
  refine ⟨?_, hn.encloses hc (horder.sublist hsub)⟩
  obtain ⟨first, hfirst, last, hlast, hspan⟩ := hn.span_eq
  have hmem : first.span ∈ (wordsOf tokens).map Token.span := by
    rw [← hspans]
    exact List.mem_map_of_mem (hsub.subset (List.mem_of_head? hfirst))
  have hfile : first.span.file = file := ((scan_filled hscan).bounds _ hmem).2.2
  exact ⟨first, hfirst, last, hlast, by rw [hspan, Span.upTo, hfile]⟩

/-- Trailing commas, a literal that is not ASCII, and a body on the line of its condition. -/
theorem tree_keeps_words_commas : ∃ s tree rest tokens,
    streamOf "def f(a: int,):\n  # é\n\treturn f(a, 'é',)\nif not a: pass" "f" = .ok s ∧
      ofStream s = (.ok tree, rest) ∧
      tree.leaves.map (Node.text · "def f(a: int,):\n  # é\n\treturn f(a, 'é',)\nif not a: pass") =
        ["def", "f", "(", "a", ":", "int", ",", ")", ":", "return", "f", "(", "a", ",", "'é'", ",",
          ")", "if", "not", "a", ":", "pass"] ∧
      scan "def f(a: int,):\n  # é\n\treturn f(a, 'é',)\nif not a: pass" "f" = .ok tokens ∧
      List.Forall₂ (fun leaf t => leaf.span = t.span ∧
        t.Written (leaf.text "def f(a: int,):\n  # é\n\treturn f(a, 'é',)\nif not a: pass"))
        tree.leaves (wordsOf tokens) := by
  generalize htext : "def f(a: int,):\n  # é\n\treturn f(a, 'é',)\nif not a: pass" = text
  have htest : (Program.treeOf? text "f").any (fun tree => !tree.children.isEmpty &&
      tree.leaves.map (Node.text · text) =
        ["def", "f", "(", "a", ":", "int", ",", ")", ":", "return", "f", "(", "a", ",", "'é'", ",",
          ")", "if", "not", "a", ":", "pass"]) = true := by
    subst htext
    decide +kernel
  obtain ⟨s, tree, rest, hs, ht, htree⟩ := Program.exists_of_treeOf? htest
  rw [Bool.and_eq_true, decide_eq_true_eq] at htree
  have hne : tree.children ≠ [] := by
    intro hnil
    rw [hnil] at htree
    cases htree.1
  obtain ⟨tokens, hscan, hleaves, -⟩ := tree_keeps_words hs ht hne
  exact ⟨s, tree, rest, tokens, hs, ht, htree.2, hscan, hleaves⟩

end Tree

end StackScript
