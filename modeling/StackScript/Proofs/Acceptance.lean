import StackScript.Proofs.Grammar

namespace StackScript.Tree

open Token (Kind)

theorem Derives.read_type {a : List Token} (h : Derives .type (a.map Token.kind)) :
    ∃ token node, a = [token] ∧ typeKind? token.kind = some node := by
  generalize hks : a.map Token.kind = ks at h
  cases h <;> obtain ⟨token, a, rfl, hk, hnil⟩ := List.map_eq_cons_iff.mp hks <;>
    rw [List.map_eq_nil_iff] at hnil <;> exact ⟨token, _, by rw [hnil], by rw [hk]; rfl⟩

theorem Derives.read_param {a : List Token} {t : Stream} (h : Derives .param (a.map Token.kind)) :
    ∃ name rest typed, a = name :: rest ∧ name.kind = .identifier ∧
      Gives (fun _ => typeAfter .colon .colon) (t.before rest) typed t := by
  generalize hks : a.map Token.kind = ks at h
  cases h with
  | param htype =>
    obtain ⟨name, a, rfl, hname, ha⟩ := List.map_eq_cons_iff.mp hks
    obtain ⟨colon, a, rfl, hcolon, rfl⟩ := List.map_eq_cons_iff.mp ha
    obtain ⟨token, node, rfl, hnode⟩ := htype.read_type
    exact ⟨name, _, _, rfl, hname, .typeAfter hcolon hnode⟩

theorem items_read {a : List Token} {t : Stream} {close : Token}
    (ha : Derives (.items .param) (a.map Token.kind)) (hclose : close.kind = .closeParen) :
    ∃ ns, Gives parameters (t.before (a ++ [close])) ns t := by
  generalize hp : Phrase.items .param = p at ha
  generalize hks : a.map Token.kind = ks at ha
  induction ha generalizing a with
  | lastItem h =>
    cases hp
    subst hks
    obtain ⟨name, a, typed, rfl, hname, htyped⟩ := h.read_param
    rw [← Stream.before_append] at htyped
    exact ⟨_, Gives.lastParameter (t := t.before [close]) hname htyped hclose⟩
  | lastComma h =>
    cases hp
    obtain ⟨a, c, rfl, rfl, hc⟩ := List.map_eq_append_iff.mp hks
    obtain ⟨comma, c, rfl, hcomma, hnil⟩ := List.map_eq_cons_iff.mp hc
    rw [List.map_eq_nil_iff] at hnil
    subst hnil
    obtain ⟨name, a, typed, rfl, hname, htyped⟩ := h.read_param
    rw [← Stream.before_append] at htyped
    rw [List.append_assoc]
    exact ⟨_, Gives.moreParameters (t := t.before [comma, close]) hname htyped hcomma
      (.noParameter hclose)⟩
  | moreItems h _ _ ih =>
    cases hp
    obtain ⟨a, c, rfl, rfl, hc⟩ := List.map_eq_append_iff.mp hks
    obtain ⟨comma, c, rfl, hcomma, rfl⟩ := List.map_eq_cons_iff.mp hc
    obtain ⟨name, a, typed, rfl, hname, htyped⟩ := h.read_param
    obtain ⟨ns, hns⟩ := ih rfl rfl
    rw [← Stream.before_append] at htyped
    rw [List.append_assoc]
    exact ⟨_, Gives.moreParameters (t := t.before (comma :: (c ++ [close]))) hname htyped hcomma
      hns⟩
  | _ => cases hp

/-- A parameter list is read up to its closing parenthesis, with a comma before it or none. -/
theorem Derives.read_params {a : List Token} {t : Stream} {close : Token}
    (ha : Derives (.listed .param) (a.map Token.kind)) (hclose : close.kind = .closeParen) :
    ∃ ns, Gives parameters (t.before (a ++ [close])) ns t := by
  generalize hks : a.map Token.kind = ks at ha
  cases ha with
  | noItem =>
    rw [List.map_eq_nil_iff] at hks
    subst hks
    exact ⟨_, .noParameter hclose⟩
  | someItems h =>
    subst hks
    exact items_read h hclose

def followsStatement (k : Kind) : Bool :=
  match k with
  | .eof | .newline | .dedent | .kwElif | .kwElse => true
  | _ => false

/-- A statement starts with none of the kinds that can stand right behind one. -/
theorem Derives.stmt_head {a : List Kind} (h : Derives .stmt a) :
    ∃ k rest, a = k :: rest ∧ followsStatement k = false := by
  cases h with
  | expression h =>
    obtain ⟨k, rest, rfl, hk⟩ := h.expr_head
    refine ⟨k, _, rfl, ?_⟩
    cases k <;> first | rfl | cases hk
  | _ => exact ⟨_, _, rfl, rfl⟩

/-- Where a statement ends, no arm of a condition may follow a condition. -/
def NoArm (a : List Kind) (t : Stream) : Prop :=
  a.head? = some .kwIf → t.kind ≠ .kwElif ∧ t.kind ≠ .kwElse

/-- What it means for the kinds of a phrase to be read, whatever follows them. -/
def Phrase.Read : Phrase → List Kind → Prop
  | .stmts, ks => ∀ a : List Token, a.map Token.kind = ks → ∀ t : Stream,
    (t.kind = .dedent → ∃ ns, Gives block (t.before a) ns t.advance) ∧
      (t.kind = .eof → ∃ ns, Gives script (t.before a) ns t)
  | .stmt, ks => ∀ a : List Token, a.map Token.kind = ks → ∀ t, NoArm ks t →
    ∃ n, Gives Tree.stmt (t.before a) n t
  | .elifs, ks => ∀ a : List Token, a.map Token.kind = ks → ∀ t u arms, Gives laterArms t arms u →
    ∃ arms, Gives laterArms (t.before a) arms u
  | .orElse, ks => ∀ a : List Token, a.map Token.kind = ks → ∀ t : Stream,
    t.kind ≠ .kwElif ∧ t.kind ≠ .kwElse → ∃ arms, Gives laterArms (t.before a) arms t
  | .body, ks => ∀ a : List Token, a.map Token.kind = ks → ∀ t,
    ∃ n, Gives Tree.body (t.before a) n t
  | .result, ks => ∀ a : List Token, a.map Token.kind = ks → ∀ t : Stream, t.kind ≠ .arrow →
    ∃ ns, Gives (fun _ => typeIf .arrow .arrow) (t.before a) ns t
  | _, _ => True

section Statements

variable {a b c e o r ps ks : List Kind}

theorem Derives.body_head (h : Derives .body b) : ∃ rest, b = .colon :: rest := by
  cases h <;> exact ⟨_, rfl⟩

/-- A condition is read up to the colon of its body. -/
theorem Derives.read_condition {x y : List Token} (hc : Derives .expr (x.map Token.kind))
    (hb : Derives .body (y.map Token.kind)) (t : Stream) :
    ∃ n, Gives (Tree.expr · .none) (t.before (x ++ y)) n (t.before y) := by
  obtain ⟨rest, hrest⟩ := hb.body_head
  obtain ⟨colon, z, rfl, hcolon, -⟩ := List.map_eq_cons_iff.mp hrest
  rw [Stream.before_append]
  refine hc.read_expr ?_
  rw [Stream.kind_before, hcolon]
  rfl

/-- A value is read up to the end of its line. -/
theorem Derives.read_value {x : List Token} (h : Derives .expr (x.map Token.kind)) {nl : Token}
    (hnl : nl.kind = .newline) (t : Stream) :
    ∃ n, Gives (Tree.expr · .none) (t.before (x ++ [nl])) n (t.before [nl]) := by
  rw [Stream.before_append]
  refine h.read_expr ?_
  rw [Stream.kind_before, hnl]
  rfl

/-- A definition is read from its parts, whatever follows it. -/
theorem read_definition (hps : Derives (.listed .param) ps) (hr : Derives .result r)
    (ihr : Phrase.result.Read r) (hb : Derives .body b) (ihb : Phrase.body.Read b) :
    Phrase.stmt.Read (.kwDef :: .identifier :: .openParen :: (ps ++ .closeParen :: (r ++ b))) := by
  intro tokens hks t _
  obtain ⟨word, x, rfl, hword, hx₁⟩ := List.map_eq_cons_iff.mp hks
  obtain ⟨name, x, rfl, hname, hx₂⟩ := List.map_eq_cons_iff.mp hx₁
  obtain ⟨l, x, rfl, hl, hx₃⟩ := List.map_eq_cons_iff.mp hx₂
  obtain ⟨ps, x, rfl, rfl, hx₄⟩ := List.map_eq_append_iff.mp hx₃
  obtain ⟨close, x, rfl, hclose, hx₅⟩ := List.map_eq_cons_iff.mp hx₄
  obtain ⟨r, b, rfl, rfl, rfl⟩ := List.map_eq_append_iff.mp hx₅
  obtain ⟨items, hitems⟩ := @Derives.read_params _ (t.before (r ++ b)) close hps hclose
  obtain ⟨rest, hrest⟩ := hb.body_head
  have harrow : (t.before b).kind ≠ .arrow := by
    obtain ⟨colon, z, rfl, hcolon, -⟩ := List.map_eq_cons_iff.mp hrest
    rw [Stream.kind_before, hcolon]
    decide
  obtain ⟨result, hresult⟩ := ihr r rfl (t.before b) harrow
  obtain ⟨body, hbody⟩ := ihb b rfl t
  rw [← Stream.before_append] at hitems hresult
  rw [List.append_assoc, List.singleton_append] at hitems
  exact ⟨_, .defined hword hname hl hitems hresult hbody⟩

/-- A condition is read with all its arms, if no further arm follows it. -/
theorem read_condition_stmt (hc : Derives .expr c) (hb : Derives .body b)
    (ihb : Phrase.body.Read b) (ihe : Phrase.elifs.Read e) (iho : Phrase.orElse.Read o) :
    Phrase.stmt.Read (.kwIf :: (c ++ (b ++ (e ++ o)))) := by
  intro tokens hks t ht
  obtain ⟨word, x, rfl, hword, hx₁⟩ := List.map_eq_cons_iff.mp hks
  obtain ⟨c, x, rfl, rfl, hx₂⟩ := List.map_eq_append_iff.mp hx₁
  obtain ⟨b, x, rfl, rfl, hx₃⟩ := List.map_eq_append_iff.mp hx₂
  obtain ⟨e, o, rfl, rfl, rfl⟩ := List.map_eq_append_iff.mp hx₃
  obtain ⟨arms, harms⟩ := iho o rfl t (ht rfl)
  obtain ⟨arms, harms⟩ := ihe e rfl _ _ _ harms
  obtain ⟨body, hbody⟩ := ihb b rfl (t.before (e ++ o))
  obtain ⟨cond, hcond⟩ := hc.read_condition hb (t.before (e ++ o))
  simp only [← Stream.before_append, List.append_assoc] at harms hbody hcond
  exact ⟨_, .chosen hword hcond hbody harms⟩

theorem read_loop (hc : Derives .expr c) (hb : Derives .body b) (ihb : Phrase.body.Read b) :
    Phrase.stmt.Read (.kwWhile :: (c ++ b)) := by
  intro tokens hks t _
  obtain ⟨word, x, rfl, hword, hx₁⟩ := List.map_eq_cons_iff.mp hks
  obtain ⟨c, b, rfl, rfl, rfl⟩ := List.map_eq_append_iff.mp hx₁
  obtain ⟨body, hbody⟩ := ihb b rfl t
  obtain ⟨cond, hcond⟩ := hc.read_condition hb t
  exact ⟨_, .repeated hword hcond hbody⟩

theorem read_ret : Phrase.stmt.Read [.kwReturn, .newline] := by
  intro tokens hks t _
  obtain ⟨word, x, rfl, hword, hx₁⟩ := List.map_eq_cons_iff.mp hks
  obtain ⟨nl, x, rfl, hnl, hx₂⟩ := List.map_eq_cons_iff.mp hx₁
  rw [List.map_eq_nil_iff] at hx₂
  subst hx₂
  exact ⟨_, .returned hword hnl⟩

theorem read_pass : Phrase.stmt.Read [.kwPass, .newline] := by
  intro tokens hks t _
  obtain ⟨word, x, rfl, hword, hx₁⟩ := List.map_eq_cons_iff.mp hks
  obtain ⟨nl, x, rfl, hnl, hx₂⟩ := List.map_eq_cons_iff.mp hx₁
  rw [List.map_eq_nil_iff] at hx₂
  subst hx₂
  exact ⟨_, .passed hword hnl⟩

/-- The tokens of a value and of the line end behind it. -/
theorem split_line {tokens : List Token} (h : tokens.map Token.kind = a ++ [.newline]) :
    ∃ x nl, tokens = x ++ [nl] ∧ x.map Token.kind = a ∧ nl.kind = .newline := by
  obtain ⟨x, y, rfl, hx, hy⟩ := List.map_eq_append_iff.mp h
  obtain ⟨nl, y, rfl, hnl, hy⟩ := List.map_eq_cons_iff.mp hy
  rw [List.map_eq_nil_iff] at hy
  subst hy
  exact ⟨x, nl, rfl, hx, hnl⟩

theorem read_retValue (h : Derives .expr a) : Phrase.stmt.Read (.kwReturn :: (a ++ [.newline])) := by
  intro tokens hks t _
  obtain ⟨word, x, rfl, hword, hx₁⟩ := List.map_eq_cons_iff.mp hks
  obtain ⟨x, nl, rfl, rfl, hnl⟩ := split_line hx₁
  obtain ⟨k, rest, hrest, hk⟩ := h.expr_head
  have hfirst : (t.before (x ++ [nl])).kind ≠ .newline := by
    obtain ⟨token, x, rfl, rfl, -⟩ := List.map_eq_cons_iff.mp hrest
    intro hk'
    change token.kind = .newline at hk'
    rw [hk'] at hk
    cases hk
  obtain ⟨value, hvalue⟩ := h.read_value hnl t
  exact ⟨_, Gives.returnedValue (t := t.before [nl]) hword hfirst hvalue hnl⟩

theorem read_assign (h : Derives .expr a) :
    Phrase.stmt.Read (.identifier :: .assignment :: (a ++ [.newline])) := by
  intro tokens hks t _
  obtain ⟨name, x, rfl, hname, hx₁⟩ := List.map_eq_cons_iff.mp hks
  obtain ⟨op, x, rfl, hop, hx₂⟩ := List.map_eq_cons_iff.mp hx₁
  obtain ⟨x, nl, rfl, rfl, hnl⟩ := split_line hx₂
  obtain ⟨value, hvalue⟩ := h.read_value hnl t
  refine ⟨_, Gives.assigned (u := t.before [nl]) hname (.inr hop) (.untyped ?_) hop hvalue hnl⟩
  rw [Stream.advance_before, Stream.kind_before, hop]
  decide

theorem read_declare (ht : Derives .type b) (h : Derives .expr a) :
    Phrase.stmt.Read (.identifier :: .colon :: (b ++ .assignment :: (a ++ [.newline]))) := by
  intro tokens hks t _
  obtain ⟨name, x, rfl, hname, hx₁⟩ := List.map_eq_cons_iff.mp hks
  obtain ⟨colon, x, rfl, hcolon, hx₂⟩ := List.map_eq_cons_iff.mp hx₁
  obtain ⟨type, x, rfl, rfl, hx₃⟩ := List.map_eq_append_iff.mp hx₂
  obtain ⟨op, x, rfl, hop, hx₄⟩ := List.map_eq_cons_iff.mp hx₃
  obtain ⟨x, nl, rfl, rfl, hnl⟩ := split_line hx₄
  obtain ⟨value, hvalue⟩ := h.read_value hnl t
  obtain ⟨token, node, rfl, hnode⟩ := ht.read_type
  exact ⟨_, Gives.assigned (u := t.before [nl]) hname (.inl hcolon) (.typed hcolon hnode) hop
    hvalue hnl⟩

/-- Behind a name that starts an expression comes the end of the line, a call or an operator. -/
theorem Derives.expr_next {k : Kind} (h : Derives .expr (.identifier :: a))
    (hk : (a ++ [Kind.newline]).head? = some k) : k ≠ .colon ∧ k ≠ .assignment := by
  obtain ⟨c, d, hcd, hc, hd⟩ := h.expr_split
  cases hc with
  | word _ =>
    cases hcd
    rcases hd.head with rfl | ⟨k', rest, rfl, hk'⟩
    · cases hk
      decide
    · cases hk
      rcases hk' with rfl | hk'
      · decide
      · constructor <;> rintro rfl <;> cases hk'
  | group _ => cases hcd
  | signed hsign _ =>
    rw [List.cons_append, List.cons.injEq] at hcd
    rcases hsign with rfl | rfl <;> cases hcd.1

theorem read_expression (h : Derives .expr a) : Phrase.stmt.Read (a ++ [.newline]) := by
  intro tokens hks t _
  obtain ⟨x, nl, rfl, rfl, hnl⟩ := split_line hks
  obtain ⟨value, hvalue⟩ := h.read_value hnl t
  obtain ⟨k, rest, hrest, hk⟩ := h.expr_head
  obtain ⟨token, x, rfl, rfl, rfl⟩ := List.map_eq_cons_iff.mp hrest
  refine ⟨_, Gives.expression (t := t.before [nl]) ?_ ?_ hvalue hnl⟩
  · change Gives.startsStatement token.kind = false
    generalize token.kind = k at hk ⊢
    cases k <;> first | rfl | cases hk
  · intro hname
    change token.kind = .identifier at hname
    rw [List.map_cons, hname] at h
    refine h.expr_next ?_
    cases x with
    | nil => simp [hnl]
    | cons next x => simp

theorem read_elifs (hc : Derives .expr c) (hb : Derives .body b) (ihb : Phrase.body.Read b)
    (ihe : Phrase.elifs.Read e) : Phrase.elifs.Read (.kwElif :: (c ++ (b ++ e))) := by
  intro tokens hks t u arms harms
  obtain ⟨word, x, rfl, hword, hx₁⟩ := List.map_eq_cons_iff.mp hks
  obtain ⟨c, x, rfl, rfl, hx₂⟩ := List.map_eq_append_iff.mp hx₁
  obtain ⟨b, e, rfl, rfl, rfl⟩ := List.map_eq_append_iff.mp hx₂
  obtain ⟨arms, harms⟩ := ihe e rfl _ _ _ harms
  obtain ⟨body, hbody⟩ := ihb b rfl (t.before e)
  obtain ⟨cond, hcond⟩ := hc.read_condition hb (t.before e)
  simp only [← Stream.before_append, List.append_assoc] at hbody hcond
  exact ⟨_, .elifArm hword hcond hbody harms⟩

theorem read_else (ihb : Phrase.body.Read b) : Phrase.orElse.Read (.kwElse :: b) := by
  intro tokens hks t _
  obtain ⟨word, b, rfl, hword, rfl⟩ := List.map_eq_cons_iff.mp hks
  obtain ⟨body, hbody⟩ := ihb b rfl t
  exact ⟨_, .elseArm hword hbody⟩

/-- A body on the same line is a statement that has no body of its own. -/
theorem read_inline (h : Derives .stmt a) (ih : Phrase.stmt.Read a)
    (hopens : ∀ k ∈ a.head?, k ≠ .kwIf ∧ k ≠ .kwWhile ∧ k ≠ .kwDef) :
    Phrase.body.Read (.colon :: a) := by
  intro tokens hks t
  obtain ⟨colon, x, rfl, hcolon, rfl⟩ := List.map_eq_cons_iff.mp hks
  obtain ⟨k, rest, hrest, hk⟩ := h.stmt_head
  rw [hrest] at hopens
  obtain ⟨hif, hwhile, hdef⟩ := hopens k rfl
  have hnoArm : NoArm (x.map Token.kind) t := by
    intro h
    rw [hrest] at h
    cases h
    contradiction
  obtain ⟨n, hn⟩ := ih x rfl t hnoArm
  obtain ⟨token, x, rfl, rfl, -⟩ := List.map_eq_cons_iff.mp hrest
  refine ⟨_, .inline hcolon ?_ ?_ hn⟩
  · intro h
    change token.kind = .newline at h
    rw [h] at hk
    cases hk
  · change opensBlock token.kind = false
    unfold opensBlock
    split <;> first | contradiction | rfl

theorem read_block (ih : Phrase.stmts.Read a) :
    Phrase.body.Read (.colon :: .newline :: .indent :: (a ++ [.dedent])) := by
  intro tokens hks t
  obtain ⟨colon, x, rfl, hcolon, hx₁⟩ := List.map_eq_cons_iff.mp hks
  obtain ⟨nl, x, rfl, hnl, hx₂⟩ := List.map_eq_cons_iff.mp hx₁
  obtain ⟨indent, x, rfl, hindent, hx₃⟩ := List.map_eq_cons_iff.mp hx₂
  obtain ⟨x, y, rfl, hx, hy⟩ := List.map_eq_append_iff.mp hx₃
  obtain ⟨dedent, y, rfl, hdedent, hnil⟩ := List.map_eq_cons_iff.mp hy
  rw [List.map_eq_nil_iff] at hnil
  subst hnil
  obtain ⟨ns, hns⟩ := (ih x hx (t.before [dedent])).1 hdedent
  rw [← Stream.before_append] at hns
  exact ⟨_, .indented hcolon hnl hindent hns⟩

theorem read_result (ht : Derives .type a) : Phrase.result.Read (.arrow :: a) := by
  intro tokens hks t _
  obtain ⟨arrow, x, rfl, harrow, rfl⟩ := List.map_eq_cons_iff.mp hks
  obtain ⟨token, node, rfl, hnode⟩ := ht.read_type
  exact ⟨_, .typed harrow hnode⟩

theorem Derives.stmts_head (h : Derives .stmts a) :
    a = [] ∨ ∃ k rest, a = k :: rest ∧ followsStatement k = false := by
  cases h with
  | noStmt => exact .inl rfl
  | moreStmts h _ =>
    obtain ⟨k, rest, rfl, hk⟩ := h.stmt_head
    exact .inr ⟨k, _, rfl, hk⟩

/-- Neither another statement nor the end of a block looks like an arm of a condition. -/
theorem Derives.no_arm {x : List Token} {t : Stream} (h : Derives .stmts (x.map Token.kind))
    (ht : t.kind = .dedent ∨ t.kind = .eof) :
    (t.before x).kind ≠ .kwElif ∧ (t.before x).kind ≠ .kwElse := by
  rcases h.stmts_head with hnil | ⟨k, rest, hks, hk⟩
  · rw [List.map_eq_nil_iff] at hnil
    subst hnil
    rw [Stream.before_nil]
    rcases ht with ht | ht <;> rw [ht] <;> decide
  · obtain ⟨token, x, rfl, rfl, -⟩ := List.map_eq_cons_iff.mp hks
    rw [Stream.kind_before]
    constructor <;> intro h <;> rw [h] at hk <;> cases hk

/-- Behind a statement the rest of the script or block is read. -/
theorem read_stmts (h : Derives .stmt a) (ih : Phrase.stmt.Read a) (hs : Derives .stmts b)
    (ihs : Phrase.stmts.Read b) : Phrase.stmts.Read (a ++ b) := by
  intro tokens hks t
  obtain ⟨x, y, rfl, rfl, rfl⟩ := List.map_eq_append_iff.mp hks
  obtain ⟨k, rest, hrest, hk⟩ := h.stmt_head
  have hfirst (ht : t.kind = .dedent ∨ t.kind = .eof) :
      (∃ n, Gives Tree.stmt (t.before (x ++ y)) n (t.before y)) ∧
        (t.before (x ++ y)).more = true ∧ (t.before (x ++ y)).kind ≠ .dedent := by
    rw [Stream.before_append]
    refine ⟨ih x rfl (t.before y) fun _ => hs.no_arm ht, ?_⟩
    obtain ⟨token, x, rfl, rfl, -⟩ := List.map_eq_cons_iff.mp hrest
    refine ⟨Stream.more_before _ _ _ ?_, ?_⟩
    · intro h
      rw [h] at hk
      cases hk
    · intro h
      change token.kind = .dedent at h
      rw [h] at hk
      cases hk
  constructor
  · intro ht
    obtain ⟨⟨n, hn⟩, hmore, hne⟩ := hfirst (.inl ht)
    obtain ⟨ns, hns⟩ := (ihs y rfl t).1 ht
    exact ⟨_, .moreBlock hmore hne hn hns⟩
  · intro ht
    obtain ⟨⟨n, hn⟩, hmore, -⟩ := hfirst (.inr ht)
    obtain ⟨ns, hns⟩ := (ihs y rfl t).2 ht
    exact ⟨_, .moreScript hmore hn hns⟩

/-- Every phrase of the grammar is read, whatever follows it, by induction on its derivation. Only a
condition must not be followed by what looks like one of its arms. -/
theorem Derives.read {p : Phrase} (h : Derives p ks) : p.Read ks := by
  have nil {tokens : List Token} (h : tokens.map Token.kind = []) : tokens = [] :=
    List.map_eq_nil_iff.mp h
  induction h with
  | noStmt =>
    intro tokens hks t
    rw [nil hks]
    refine ⟨fun ht => ⟨_, .endBlock ht⟩, fun ht => ⟨_, .endScript ?_⟩⟩
    rw [Stream.before_nil, Stream.more, ht]
    simp
  | moreStmts h hs ih ihs => exact read_stmts h ih hs ihs
  | definition hps hr hb _ ihr ihb => exact read_definition hps hr ihr hb ihb
  | condition hc hb _ _ _ ihb ihe iho => exact read_condition_stmt hc hb ihb ihe iho
  | loop hc hb _ ihb => exact read_loop hc hb ihb
  | ret => exact read_ret
  | retValue h => exact read_retValue h
  | pass => exact read_pass
  | assign h => exact read_assign h
  | declare ht h => exact read_declare ht h
  | expression h => exact read_expression h
  | noElif =>
    intro tokens hks t u arms harms
    rw [nil hks]
    exact ⟨arms, harms⟩
  | moreElifs hc hb _ _ ihb ihe => exact read_elifs hc hb ihb ihe
  | noElse =>
    intro tokens hks t ht
    rw [nil hks]
    exact ⟨_, .noArm ht⟩
  | someElse _ ihb => exact read_else ihb
  | inline h hopens ih => exact read_inline h ih hopens
  | block _ ih => exact read_block ih
  | noResult =>
    intro tokens hks t ht
    rw [nil hks]
    exact ⟨_, .untyped ht⟩
  | someResult ht => exact read_result ht
  | _ => trivial

end Statements

/-- Reading stops at the first end mark, and everything before it has been taken. -/
theorem Stream.Takes.eq_rest {s t : Stream} {used tokens : List Token} {mark : Token}
    (h : s.Takes used t) (hs : s.rest = tokens ++ [mark]) (hmark : mark.kind = .eof)
    (htokens : ∀ token ∈ tokens, token.kind ≠ .eof) (hused : ∀ token ∈ used, token.kind ≠ .eof)
    (ht : t.more = false) : used = tokens := by
  induction used generalizing s tokens with
  | nil =>
    cases tokens with
    | nil => rfl
    | cons token tokens =>
      rw [h] at ht
      have hmore : s.more = true := by
        refine more_iff.mpr ⟨by simp [hs], ?_⟩
        rw [kind, current, hs]
        exact htokens token (by simp)
      rw [hmore] at ht
      cases ht
  | cons token used ih =>
    cases tokens with
    | nil =>
      have hcurrent : token = mark := by rw [← h.1, current, hs]; rfl
      rw [← hcurrent] at hmark
      exact absurd hmark (hused token (by simp))
    | cons first tokens =>
      have hfirst : first = token := by rw [← h.1, current, hs]; rfl
      have hrest : s.advance.rest = tokens ++ [mark] := by rw [advance, hs]; rfl
      rw [hfirst, ih h.2 hrest (fun token h => htokens token (by simp [h]))
        (fun token h => hused token (by simp [h]))]

/-- A phrase of the grammar has no end mark in it. -/
theorem Derives.no_eof {p : Phrase} {ks : List Kind} (h : Derives p ks) : Kind.eof ∉ ks := by
  induction h with
  | @moreOperators k a b hk _ _ ih ih' =>
    have hne : Kind.eof ≠ k := by
      rintro rfl
      cases hk
    simp [hne, ih, ih']
  | @word k hk =>
    have hne : Kind.eof ≠ k := by
      rintro rfl
      cases hk
    simp [hne]
  | signed hk _ ih => rcases hk with rfl | rfl <;> simp [ih]
  | _ => simp_all

/-- A list that ends in its only end mark has a tree exactly if what stands before the mark is a
script. -/
theorem parse_accepts_scripts {tokens : List Token} {mark : Token} {s : Stream}
    (htokens : ∀ token ∈ tokens, token.kind ≠ .eof) (hmark : mark.kind = .eof)
    (hs : Stream.ofTokens? (tokens ++ [mark]) = some s) :
    (∃ tree rest, parse s = .ok tree rest) ↔ Derives .stmts (tokens.map Token.kind) := by
  have hs : s = ⟨tokens ++ [mark], mark⟩ := by simpa [Stream.ofTokens?, eq_comm] using hs
  constructor
  · rintro ⟨tree, rest, hparse⟩
    obtain ⟨used, ns, htakes, hbuilt, hmore, -⟩ := parse_built hparse
    have hderives : Derives .stmts (used.map Token.kind) := hbuilt.allowed
    have hused : ∀ token ∈ used, token.kind ≠ .eof := by
      intro token hmem hk
      exact hderives.no_eof (hk ▸ List.mem_map_of_mem hmem)
    rw [← htakes.eq_rest (by rw [hs]) hmark htokens hused hmore]
    exact hderives
  · intro hderives
    have hend : (⟨[mark], mark⟩ : Stream).kind = .eof := hmark
    obtain ⟨ns, hns⟩ := (hderives.read tokens rfl ⟨[mark], mark⟩).2 hend
    have hlast : awaitsOperand mark.kind = false := by rw [hmark]; rfl
    obtain ⟨tree, htree, -⟩ := hns.parse hlast
    rw [hs]
    exact ⟨tree, _, htree⟩

/-- The kinds of `def f(a: int,) -> None:` with `return not -f(a,)(a) is None` in its block. -/
def sampleKinds : List Kind :=
  [.kwDef, .identifier, .openParen, .identifier, .colon, .identifier, .comma, .closeParen, .arrow,
    .kwNone, .colon, .newline, .indent, .kwReturn, .kwNot, .dash, .identifier, .openParen,
    .identifier, .comma, .closeParen, .openParen, .identifier, .closeParen, .kwIs, .kwNone,
    .newline, .dedent]

theorem sampleKinds_derives : Derives .stmts sampleKinds := by
  have hname : Derives .expr [.identifier] := .chain (.called (.word rfl) .noCall) .noOperator
  have hcalls : Derives .calls [.openParen, .identifier, .comma, .closeParen, .openParen,
      .identifier, .closeParen] :=
    .moreCalls (.someItems (.lastComma hname)) (.moreCalls (.someItems (.lastItem hname)) .noCall)
  have hvalue : Derives .expr [.kwNot, .dash, .identifier, .openParen, .identifier, .comma,
      .closeParen, .openParen, .identifier, .closeParen, .kwIs, .kwNone] :=
    .chain (.signed (.inr rfl) (.signed (.inl rfl) (.called (.word rfl) hcalls)))
      (.moreOperators rfl (.called (.word rfl) .noCall) .noOperator)
  have hbody := Derives.block (.moreStmts (.retValue hvalue) .noStmt)
  have hparams : Derives (.listed .param) [.identifier, .colon, .identifier, .comma] :=
    .someItems (.lastComma (.param .namedType))
  exact .moreStmts (.definition hparams (.someResult .noneType) hbody) .noStmt

def blankToken (k : Kind) : Token := ⟨k, "", .nowhere⟩

theorem parse_accepts_scripts_definition :
    (∀ token ∈ sampleKinds.map blankToken, token.kind ≠ .eof) ∧ (blankToken .eof).kind = .eof ∧
      ∃ s, Stream.ofTokens? (sampleKinds.map blankToken ++ [blankToken .eof]) = some s ∧
        ∃ tree rest, parse s = .ok tree rest := by
  have htokens : ∀ token ∈ sampleKinds.map blankToken, token.kind ≠ .eof := by decide
  refine ⟨htokens, rfl, _, rfl, (parse_accepts_scripts htokens rfl rfl).mpr ?_⟩
  exact sampleKinds_derives

end StackScript.Tree
