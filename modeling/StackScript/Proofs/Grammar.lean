import StackScript.Proofs.Readings

namespace StackScript.Tree

open Token (Kind)

inductive Phrase where
  /-- A script, or the statements of a block. -/
  | stmts
  | stmt
  | elifs
  | orElse
  | body
  | result
  | param
  | type
  | expr
  /-- Operators, each with an operand behind it. -/
  | operators
  | operand
  | calls
  | atom
  /-- What may stand between parentheses: nothing, or phrases with commas between them. -/
  | listed (of : Phrase)
  | items (of : Phrase)

def isOperator (k : Kind) : Bool :=
  [.kwAnd, .kwOr, .less, .lessEquals, .greater, .greaterEquals, .equals, .notEquals, .kwIs,
    .plus, .dash, .star, .slashSlash, .percent].contains k

def isAtom (k : Kind) : Bool :=
  [.number, .identifier, .string, .kwTrue, .kwFalse, .kwNone].contains k

/-- Phrases over the kinds of tokens. The grammar knows nothing of binding powers: an expression is
a chain of operands with operators between them. -/
inductive Derives : Phrase → List Kind → Prop where
  | noStmt : Derives .stmts []
  | moreStmts {a b : List Kind} : Derives .stmt a → Derives .stmts b → Derives .stmts (a ++ b)
  | definition {ps r b : List Kind} :
    Derives (.listed .param) ps → Derives .result r → Derives .body b →
    Derives .stmt (.kwDef :: .identifier :: .openParen :: (ps ++ .closeParen :: (r ++ b)))
  | condition {c b e o : List Kind} :
    Derives .expr c → Derives .body b → Derives .elifs e → Derives .orElse o →
    Derives .stmt (.kwIf :: (c ++ (b ++ (e ++ o))))
  | loop {c b : List Kind} : Derives .expr c → Derives .body b → Derives .stmt (.kwWhile :: (c ++ b))
  | ret : Derives .stmt [.kwReturn, .newline]
  | retValue {a : List Kind} : Derives .expr a → Derives .stmt (.kwReturn :: (a ++ [.newline]))
  | pass : Derives .stmt [.kwPass, .newline]
  | assign {a : List Kind} :
    Derives .expr a → Derives .stmt (.identifier :: .assignment :: (a ++ [.newline]))
  | declare {t a : List Kind} :
    Derives .type t → Derives .expr a →
    Derives .stmt (.identifier :: .colon :: (t ++ .assignment :: (a ++ [.newline])))
  | expression {a : List Kind} : Derives .expr a → Derives .stmt (a ++ [.newline])
  | noElif : Derives .elifs []
  | moreElifs {c b e : List Kind} :
    Derives .expr c → Derives .body b → Derives .elifs e →
    Derives .elifs (.kwElif :: (c ++ (b ++ e)))
  | noElse : Derives .orElse []
  | someElse {b : List Kind} : Derives .body b → Derives .orElse (.kwElse :: b)
  | inline {a : List Kind} :
    Derives .stmt a → (∀ k ∈ a.head?, k ≠ .kwIf ∧ k ≠ .kwWhile ∧ k ≠ .kwDef) →
    Derives .body (.colon :: a)
  | block {a : List Kind} :
    Derives .stmts a → Derives .body (.colon :: .newline :: .indent :: (a ++ [.dedent]))
  | noResult : Derives .result []
  | someResult {t : List Kind} : Derives .type t → Derives .result (.arrow :: t)
  | param {t : List Kind} : Derives .type t → Derives .param (.identifier :: .colon :: t)
  | namedType : Derives .type [.identifier]
  | noneType : Derives .type [.kwNone]
  | chain {a b : List Kind} : Derives .operand a → Derives .operators b → Derives .expr (a ++ b)
  | noOperator : Derives .operators []
  | moreOperators {k : Kind} {a b : List Kind} :
    isOperator k → Derives .operand a → Derives .operators b → Derives .operators (k :: (a ++ b))
  | signed {k : Kind} {a : List Kind} :
    k = .dash ∨ k = .kwNot → Derives .operand a → Derives .operand (k :: a)
  | called {a b : List Kind} : Derives .atom a → Derives .calls b → Derives .operand (a ++ b)
  | noCall : Derives .calls []
  | moreCalls {a b : List Kind} :
    Derives (.listed .expr) a → Derives .calls b →
    Derives .calls (.openParen :: (a ++ .closeParen :: b))
  | word {k : Kind} : isAtom k → Derives .atom [k]
  | group {a : List Kind} : Derives .expr a → Derives .atom (.openParen :: (a ++ [.closeParen]))
  | noItem {p : Phrase} : Derives (.listed p) []
  | someItems {p : Phrase} {a : List Kind} : Derives (.items p) a → Derives (.listed p) a
  | lastItem {p : Phrase} {a : List Kind} : Derives p a → Derives (.items p) a
  | lastComma {p : Phrase} {a : List Kind} : Derives p a → Derives (.items p) (a ++ [.comma])
  | moreItems {p : Phrase} {a b : List Kind} :
    Derives p a → Derives (.items p) b → Derives (.items p) (a ++ .comma :: b)

namespace Derives

theorem calls_append {a b : List Kind} (ha : Derives .calls a) (hb : Derives .calls b) :
    Derives .calls (a ++ b) := by
  generalize hp : Phrase.calls = p at ha
  induction ha with
  | noCall => exact hb
  | moreCalls hargs _ _ ih => simpa using moreCalls hargs (ih hp)
  | _ => cases hp

/-- A call can follow an operand. -/
theorem operand_call {a b : List Kind} (ha : Derives .operand a) (hb : Derives .calls b) :
    Derives .operand (a ++ b) := by
  generalize hp : Phrase.operand = p at ha
  induction ha with
  | signed hk _ ih => exact signed hk (ih hp)
  | called hatom hcalls => simpa using called hatom (calls_append hcalls hb)
  | _ => cases hp

theorem operators_append {a b : List Kind} (ha : Derives .operators a) (hb : Derives .operators b) :
    Derives .operators (a ++ b) := by
  generalize hp : Phrase.operators = p at ha
  induction ha with
  | noOperator => exact hb
  | moreOperators hk hoperand _ _ ih => simpa using moreOperators hk hoperand (ih hp)
  | _ => cases hp

/-- A call can follow the last operand of a chain. -/
theorem operators_call {a b : List Kind} (ha : Derives .operators a) (hne : a ≠ [])
    (hb : Derives .calls b) : Derives .operators (a ++ b) := by
  generalize hp : Phrase.operators = p at ha
  induction ha with
  | noOperator => contradiction
  | @moreOperators k c d hk hoperand hrest _ ih =>
    cases d with
    | nil => simpa using moreOperators hk (operand_call hoperand hb) noOperator
    | cons x d => simpa using moreOperators hk hoperand (ih (by simp) hp)
  | _ => cases hp

theorem expr_signed {k : Kind} {a : List Kind} (hk : k = .dash ∨ k = .kwNot)
    (h : Derives .expr a) : Derives .expr (k :: a) := by
  cases h with
  | chain hoperand hrest => exact chain (signed hk hoperand) hrest

/-- Two expressions with an operator between them are one, however tightly it binds. -/
theorem expr_binary {k : Kind} {a b : List Kind} (ha : Derives .expr a) (hk : isOperator k)
    (hb : Derives .expr b) : Derives .expr (a ++ k :: b) := by
  cases ha with
  | chain hoperand hrest =>
    cases hb with
    | chain hoperand' hrest' =>
      simpa using chain hoperand (operators_append hrest (moreOperators hk hoperand' hrest'))

theorem expr_call {a b : List Kind} (ha : Derives .expr a) (hb : Derives (.listed .expr) b) :
    Derives .expr (a ++ .openParen :: (b ++ [.closeParen])) := by
  have hcall : Derives .calls (.openParen :: (b ++ [.closeParen])) := moreCalls hb noCall
  cases ha with
  | @chain c d hoperand hrest =>
    cases d with
    | nil => simpa using chain (operand_call hoperand hcall) noOperator
    | cons x d => simpa using chain hoperand (operators_call hrest (by simp) hcall)

end Derives

def Part.Allows : Part → List Kind → Prop
  | .expr, ks => Derives .expr ks
  | .arguments, ks => ∃ a, ks = a ++ [.closeParen] ∧ Derives (.listed .expr) a
  | .typeIf mark _, ks => ks = [] ∨ ∃ t, ks = mark :: t ∧ Derives .type t
  | .parameters, ks => ∃ a, ks = a ++ [.closeParen] ∧ Derives (.listed .param) a
  | .stmt, ks => Derives .stmt ks
  | .arms, ks => ∃ e o, ks = e ++ o ∧ Derives .elifs e ∧ Derives .orElse o
  | .body, ks => Derives .body ks
  | .stmts, ks => Derives .stmts ks

theorem isAtom_of_operandKind? {k : Kind} {node : Node.Kind} (h : operandKind? k = some node) :
    isAtom k = true := by
  cases k <;> cases h <;> rfl

theorem isOperator_of_operatorKind? {k : Kind} {node : Node.Kind}
    (h : operatorKind? k = some node) : isOperator k = true := by
  cases k <;> cases h <;> rfl

theorem type_of_typeKind? {k : Kind} {node : Node.Kind} (h : typeKind? k = some node) :
    Derives .type [k] := by
  cases k <;> cases h
  · exact .namedType
  · exact .noneType

theorem Derives.listed_cons {p : Phrase} {a b : List Kind} (ha : Derives p a)
    (hb : Derives (.listed p) b) : Derives (.items p) (a ++ .comma :: b) := by
  cases hb with
  | noItem => exact .lastComma ha
  | someItems hb => exact .moreItems ha hb

/-- The type that a parameter has to have. -/
theorem Built.typed_one {mark : Kind} {node : Node.Kind} {used : List Token} {n : Node}
    (h : Built (.typeIf mark node) used [n]) :
    ∃ t, used.map Token.kind = mark :: t ∧ Derives .type t := by
  cases h with
  | typed hm ht => exact ⟨_, by simp [hm], type_of_typeKind? ht⟩

/-- What reading builds is a phrase of the grammar. -/
theorem Built.allowed {p : Part} {used : List Token} {ns : List Node} (h : Built p used ns) :
    p.Allows (used.map Token.kind) := by
  induction h with
  | leaf hk => exact .chain (.called (.word (isAtom_of_operandKind? hk)) .noCall) .noOperator
  | prefixed hk _ ih => exact .expr_signed hk.symm ih
  | grouped hl _ hr ih =>
    have hgroup := Derives.chain (.called (.group ih) .noCall) .noOperator
    simpa [Part.Allows, hl, hr] using hgroup
  | binary _ hk _ ih ih' =>
    simpa [Part.Allows] using Derives.expr_binary ih (isOperator_of_operatorKind? hk) ih'
  | call _ hl _ ih ih' =>
    obtain ⟨a, ha, hargs⟩ := ih'
    simpa [Part.Allows, hl, ha] using Derives.expr_call ih hargs
  | noArgument hr => exact ⟨[], by simp [hr], .noItem⟩
  | lastArgument _ hr ih => exact ⟨_, by simp [hr], .someItems (.lastItem ih)⟩
  | moreArguments _ hc _ ih ih' =>
    obtain ⟨a, ha, hargs⟩ := ih'
    exact ⟨_, by simp [hc, ha], .someItems (.listed_cons ih hargs)⟩
  | untyped => exact .inl rfl
  | typed hm ht => exact .inr ⟨_, by simp [hm], type_of_typeKind? ht⟩
  | noParameter hr => exact ⟨[], by simp [hr], .noItem⟩
  | lastParameter hname htyped hr =>
    obtain ⟨t, ht, htype⟩ := htyped.typed_one
    exact ⟨_, by simp [hname, ht, hr], .someItems (.lastItem (.param htype))⟩
  | moreParameters hname htyped hc _ _ ih =>
    obtain ⟨t, ht, htype⟩ := htyped.typed_one
    obtain ⟨a, ha, hparams⟩ := ih
    exact ⟨_, by simp [hname, ht, hc, ha],
      .someItems (.listed_cons (.param htype) hparams)⟩
  | assigned hname _ hop _ hnl ih ih' =>
    rcases ih with ht | ⟨t, ht, htype⟩
    · simpa [Part.Allows, hname, hop, hnl, ht] using Derives.assign ih'
    · simpa [Part.Allows, hname, hop, hnl, ht] using Derives.declare htype ih'
  | returned hk hnl => simpa [Part.Allows, hk, hnl] using Derives.ret
  | returnedValue hk _ hnl ih => simpa [Part.Allows, hk, hnl] using Derives.retValue ih
  | passed hk hnl => simpa [Part.Allows, hk, hnl] using Derives.pass
  | expression _ hnl ih => simpa [Part.Allows, hnl] using Derives.expression ih
  | defined hk hname hl _ _ _ ih ihr ihb =>
    obtain ⟨a, ha, hparams⟩ := ih
    rcases ihr with hr | ⟨t, hr, htype⟩
    · simpa [Part.Allows, hk, hname, hl, ha, hr] using Derives.definition hparams .noResult ihb
    · simpa [Part.Allows, hk, hname, hl, ha, hr] using
        Derives.definition hparams (.someResult htype) ihb
  | chosen hk _ _ _ ih ihb iha =>
    obtain ⟨e, o, ha, he, ho⟩ := iha
    simpa [Part.Allows, hk, ha] using Derives.condition ih ihb he ho
  | repeated hk _ _ ih ihb => simpa [Part.Allows, hk] using Derives.loop ih ihb
  | noArm => exact ⟨[], [], rfl, .noElif, .noElse⟩
  | elifArm hk _ _ _ ih ihb iha =>
    obtain ⟨e, o, ha, he, ho⟩ := iha
    exact ⟨_, o, by simp [hk, ha], .moreElifs ih ihb he, ho⟩
  | elseArm hk _ ih => exact ⟨[], _, by simp [hk], .noElif, .someElse ih⟩
  | inline hk hopens _ ih =>
    rw [List.map_cons, hk]
    refine .inline ih fun k hmem => ?_
    rw [List.head?_map] at hmem
    obtain ⟨t, ht, rfl⟩ := Option.map_eq_some_iff.mp hmem
    have := hopens t ht
    refine ⟨?_, ?_, ?_⟩ <;> intro hk <;> rw [hk] at this <;> cases this
  | indented hk hnl hi _ hd ih => simpa [Part.Allows, hk, hnl, hi, hd] using Derives.block ih
  | noStmt => exact .noStmt
  | moreStmts _ _ ih ih' => simpa [Part.Allows] using Derives.moreStmts ih ih'

inductive Core : List Kind → Prop where
  | word {k : Kind} : isAtom k → Core [k]
  | group {a : List Kind} : Derives .expr a → Core (.openParen :: (a ++ [.closeParen]))
  | signed {k : Kind} {a : List Kind} : k = .dash ∨ k = .kwNot → Core a → Core (k :: a)

/-- What can follow an operand in an expression, seen one call or operator at a time. -/
inductive Tail : List Kind → Prop where
  | nil : Tail []
  | call {a b : List Kind} :
    Derives (.listed .expr) a → Tail b → Tail (.openParen :: (a ++ .closeParen :: b))
  | operator {k : Kind} {a b : List Kind} :
    isOperator k → Core a → Tail b → Tail (k :: (a ++ b))

theorem Tail.of_calls {a b : List Kind} (h : Derives .calls a) (hb : Tail b) : Tail (a ++ b) := by
  generalize hp : Phrase.calls = p at h
  induction h with
  | noCall => exact hb
  | moreCalls hargs _ _ ih => simpa using Tail.call hargs (ih hp)
  | _ => cases hp

/-- An operand is its core, and calls that belong to the tail. -/
theorem Core.of_operand {a : List Kind} (h : Derives .operand a) :
    ∃ c d, a = c ++ d ∧ Core c ∧ ∀ b, Tail b → Tail (d ++ b) := by
  generalize hp : Phrase.operand = p at h
  induction h with
  | signed hk _ ih =>
    obtain ⟨c, d, rfl, hc, hd⟩ := ih hp
    exact ⟨_, d, rfl, .signed hk hc, hd⟩
  | called hatom hcalls =>
    refine ⟨_, _, rfl, ?_, fun b hb => .of_calls hcalls hb⟩
    cases hatom with
    | word hk => exact .word hk
    | group h => exact .group h
  | _ => cases hp

theorem Tail.of_operators {a : List Kind} (h : Derives .operators a) : Tail a := by
  generalize hp : Phrase.operators = p at h
  induction h with
  | noOperator => exact .nil
  | moreOperators hk hoperand _ _ ih =>
    obtain ⟨c, d, rfl, hc, hd⟩ := Core.of_operand hoperand
    simpa using Tail.operator hk hc (hd _ (ih hp))
  | _ => cases hp

/-- A chain starts with an operand, and the rest of it can be seen one call or operator at a
time. -/
theorem Derives.expr_split {a : List Kind} (h : Derives .expr a) :
    ∃ c d, a = c ++ d ∧ Core c ∧ Tail d := by
  cases h with
  | chain hoperand hrest =>
    obtain ⟨c, d, rfl, hc, hd⟩ := Core.of_operand hoperand
    exact ⟨c, _, List.append_assoc .., hc, hd _ (.of_operators hrest)⟩

theorem operandKind?_of_isAtom {k : Kind} (h : isAtom k = true) :
    ∃ node, operandKind? k = some node := by
  cases k <;> first | exact ⟨_, rfl⟩ | cases h

theorem operatorKind?_of_isOperator {k : Kind} (h : isOperator k = true) :
    ∃ node, operatorKind? k = some node ∧ .none < Power.ofKind k ∧ Power.ofKind k < .call := by
  cases k <;> first | exact ⟨_, rfl, by decide, by decide⟩ | cases h

def startsExpr (k : Kind) : Bool := awaitsOperand k || isAtom k

theorem Core.head {a : List Kind} (h : Core a) : ∃ k rest, a = k :: rest ∧ startsExpr k = true := by
  cases h with
  | word hk => exact ⟨_, _, rfl, by simp [startsExpr, hk]⟩
  | group _ => exact ⟨_, _, rfl, rfl⟩
  | signed hk _ =>
    refine ⟨_, _, rfl, ?_⟩
    rcases hk with rfl | rfl <;> rfl

theorem Derives.expr_head {a : List Kind} (h : Derives .expr a) :
    ∃ k rest, a = k :: rest ∧ startsExpr k = true := by
  obtain ⟨c, d, rfl, hc, -⟩ := h.expr_split
  obtain ⟨k, rest, rfl, hk⟩ := hc.head
  exact ⟨k, rest ++ d, rfl, hk⟩

theorem Tail.head {a : List Kind} (h : Tail a) :
    a = [] ∨ ∃ k rest, a = k :: rest ∧ (k = .openParen ∨ isOperator k = true) := by
  cases h with
  | nil => exact .inl rfl
  | call _ _ => exact .inr ⟨_, _, rfl, .inl rfl⟩
  | operator hk _ _ => exact .inr ⟨_, _, rfl, .inr hk⟩

/-- Expressions of fewer than `m` tokens are read through: an operand with its tail up to a part of
the tail that does not bind tightly enough, the items in parentheses up to the closing one. -/
structure ReadThrough (m : Nat) : Prop where
  expr : ∀ {a b : List Token} {t : Stream} {power : Power}, (a ++ b).length < m →
    Core (a.map Token.kind) → Tail (b.map Token.kind) → Power.ofKind t.kind = .none →
    power < .call →
    ∃ n rest, rest.length ≤ b.length ∧ Tail (rest.map Token.kind) ∧
      ¬power < .ofKind (t.before rest).kind ∧
      Gives (expr · power) (t.before (a ++ b)) n (t.before rest)
  climb : ∀ {b : List Token} {t : Stream} {power : Power} (left : Node), b.length < m →
    Tail (b.map Token.kind) → Power.ofKind t.kind = .none → power < .call →
    ∃ n rest, rest.length ≤ b.length ∧ Tail (rest.map Token.kind) ∧
      ¬power < .ofKind (t.before rest).kind ∧
      Gives (climb · power left) (t.before b) n (t.before rest)
  arguments : ∀ {a : List Token} {t : Stream} {close : Token}, (a ++ [close]).length < m →
    Derives (.listed .expr) (a.map Token.kind) → close.kind = .closeParen →
    ∃ ns, Gives arguments (t.before (a ++ [close])) ns t

/-- Nothing binds too loosely for a whole expression, so it is read to its end. -/
theorem ReadThrough.whole {m : Nat} (h : ReadThrough m) {a : List Token} {t : Stream}
    (hm : a.length < m) (ha : Derives .expr (a.map Token.kind))
    (ht : Power.ofKind t.kind = .none) : ∃ n, Gives (Tree.expr · .none) (t.before a) n t := by
  obtain ⟨c, d, he, hc, hd⟩ := ha.expr_split
  obtain ⟨c, d, rfl, rfl, rfl⟩ := List.map_eq_append_iff.mp he
  obtain ⟨n, rest, -, htail, hstop, hgives⟩ := h.expr hm hc hd ht (show Power.none < .call by decide)
  cases rest with
  | nil => exact ⟨n, hgives⟩
  | cons token rest =>
    refine absurd ?_ hstop
    rcases htail.head with hnil | ⟨k, _, hcons, hk⟩
    · cases hnil
    · cases hcons
      rcases hk with hk | hk
      · simp only [Stream.kind_before, hk]
        decide
      · exact (operatorKind?_of_isOperator hk).choose_spec.2.1

/-- Behind an operand, climbing takes what binds tightly enough and leaves a tail. -/
theorem climb_succ_through {m : Nat} (ih : ReadThrough m) {b : List Token} {t : Stream}
    {power : Power} (left : Node) (hm : b.length < m + 1) (hb : Tail (b.map Token.kind))
    (ht : Power.ofKind t.kind = .none) (hp : power < .call) :
    ∃ n rest, rest.length ≤ b.length ∧ Tail (rest.map Token.kind) ∧
      ¬power < .ofKind (t.before rest).kind ∧
      Gives (climb · power left) (t.before b) n (t.before rest) := by
  by_cases hstop : power < .ofKind (t.before b).kind
  case neg => exact ⟨left, b, Nat.le_refl _, hb, hstop, .stop hstop⟩
  generalize hks : b.map Token.kind = ks at hb
  cases hb with
  | nil =>
    rw [List.map_eq_nil_iff] at hks
    subst hks
    rw [Stream.before_nil, ht] at hstop
    exact absurd hstop (Nat.not_lt_zero _)
  | call hargs htail =>
    obtain ⟨l, b, rfl, hl, hb⟩ := List.map_eq_cons_iff.mp hks
    obtain ⟨a, b, rfl, rfl, hc⟩ := List.map_eq_append_iff.mp hb
    obtain ⟨r, b, rfl, hr, rfl⟩ := List.map_eq_cons_iff.mp hc
    simp only [List.length_cons, List.length_append] at hm ⊢
    obtain ⟨items, hitems⟩ := @ih.arguments a (t.before b) r (by simp; omega) hargs hr
    obtain ⟨n, rest, hlen, hrest, hend, hgives⟩ := ih.climb (.branch .callExpression
      [left, .branch .argList (.leaf .openParen l :: items)]) (by omega) htail ht hp
    refine ⟨n, rest, by omega, hrest, hend, .called hl hp ?_ hgives⟩
    rw [Stream.advance_before, show a ++ r :: b = a ++ [r] ++ b by simp, Stream.before_append]
    exact hitems
  | operator hk hcore htail =>
    obtain ⟨op, b, rfl, hop, hb⟩ := List.map_eq_cons_iff.mp hks
    obtain ⟨a, b, rfl, rfl, rfl⟩ := List.map_eq_append_iff.mp hb
    simp only [List.length_cons, List.length_append] at hm ⊢
    rw [← hop] at hk
    obtain ⟨node, hnode, -, hcall⟩ := operatorKind?_of_isOperator hk
    obtain ⟨right, b', hlen', htail', hend', hright⟩ :=
      ih.expr (by rw [List.length_append]; omega) hcore htail ht hcall
    obtain ⟨n, rest, hlen, hrest, hend, hgives⟩ := ih.climb (.branch .binaryExpression
      [left, .leaf node op, right]) (by omega) htail' ht hp
    exact ⟨n, rest, by omega, hrest, hend, .binary hnode hstop hright hgives⟩

/-- An operand is read, with what binds tighter than its sign, and climbing goes on behind it. -/
theorem expr_succ_through {m : Nat} (ih : ReadThrough m) {a b : List Token} {t : Stream}
    {power : Power} (hm : (a ++ b).length < m + 1) (ha : Core (a.map Token.kind))
    (hb : Tail (b.map Token.kind)) (ht : Power.ofKind t.kind = .none) (hp : power < .call) :
    ∃ n rest, rest.length ≤ b.length ∧ Tail (rest.map Token.kind) ∧
      ¬power < .ofKind (t.before rest).kind ∧
      Gives (expr · power) (t.before (a ++ b)) n (t.before rest) := by
  rw [List.length_append] at hm
  generalize hks : a.map Token.kind = ks at ha
  cases ha with
  | word hk =>
    obtain ⟨x, a, rfl, rfl, ha⟩ := List.map_eq_cons_iff.mp hks
    rw [List.map_eq_nil_iff] at ha
    subst ha
    simp only [List.length_cons, List.length_nil] at hm
    obtain ⟨node, hnode⟩ := operandKind?_of_isAtom hk
    obtain ⟨n, rest, hlen, hrest, hend, hgives⟩ :=
      ih.climb (.leaf node x) (by omega) hb ht hp
    exact ⟨n, rest, hlen, hrest, hend, .expr (.leaf hnode) hgives⟩
  | group hexpr =>
    obtain ⟨l, a, rfl, hl, ha⟩ := List.map_eq_cons_iff.mp hks
    obtain ⟨a, c, rfl, rfl, hc⟩ := List.map_eq_append_iff.mp ha
    obtain ⟨r, c, rfl, hr, hc⟩ := List.map_eq_cons_iff.mp hc
    rw [List.map_eq_nil_iff] at hc
    subst hc
    simp only [List.length_cons, List.length_append, List.length_nil] at hm
    have hclose : Power.ofKind ((t.before b).before [r]).kind = .none := by
      rw [Stream.kind_before, hr]
      rfl
    obtain ⟨inner, hinner⟩ := ih.whole (by omega) hexpr hclose
    obtain ⟨n, rest, hlen, hrest, hend, hgives⟩ := ih.climb (.branch .parenthesizedExpression
      [.leaf .openParen l, inner, .leaf .closeParen r]) (by omega) hb ht hp
    have hgroup : Gives operand ((t.before b).before (l :: (a ++ [r]))) (.branch
        .parenthesizedExpression [.leaf .openParen l, inner, .leaf .closeParen r]) (t.before b) := by
      refine Gives.grouped (t := (t.before b).before [r]) hl ?_ hr
      rw [Stream.advance_before, Stream.before_append]
      exact hinner
    rw [← Stream.before_append] at hgroup
    exact ⟨n, rest, hlen, hrest, hend, .expr hgroup hgives⟩
  | signed hk hcore =>
    obtain ⟨op, a, rfl, rfl, rfl⟩ := List.map_eq_cons_iff.mp hks
    simp only [List.length_cons] at hm
    obtain ⟨low, hlow, hcall⟩ : ∃ low : Power, (op.kind = .kwNot ∧ low = .negation ∨
        op.kind = .dash ∧ low = .unary) ∧ low < .call := by
      rcases hk with hk | hk
      · exact ⟨.unary, .inr ⟨hk, rfl⟩, by decide⟩
      · exact ⟨.negation, .inl ⟨hk, rfl⟩, by decide⟩
    obtain ⟨inner, b', hlen', htail', -, hinner⟩ :=
      ih.expr (by rw [List.length_append]; omega) hcore hb ht hcall
    obtain ⟨n, rest, hlen, hrest, hend, hgives⟩ := ih.climb (.branch .unaryExpression
      [.leaf .unaryOp op, inner]) (by omega) htail' ht hp
    exact ⟨n, rest, by omega, hrest, hend, .expr (.prefixed hlow hinner) hgives⟩

theorem startsExpr_ne_closeParen {k : Kind} (h : startsExpr k = true) : k ≠ .closeParen := by
  rintro rfl
  cases h

/-- Items are read one by one; `hexpr` reads one of them, with fewer tokens than all have. -/
theorem items_through {m : Nat} {a : List Token} {t : Stream} {close : Token}
    (ha : Derives (.items .expr) (a.map Token.kind)) (hclose : close.kind = .closeParen)
    (hm : a.length < m) (hexpr : ∀ {b : List Token} {u : Stream}, b.length < m →
      Derives .expr (b.map Token.kind) → Power.ofKind u.kind = .none →
      ∃ n, Gives (expr · .none) (u.before b) n u) :
    ∃ ns, Gives arguments (t.before (a ++ [close])) ns t := by
  have hfirst {b : List Token} {u : Stream} (hb : Derives .expr (b.map Token.kind)) :
      (u.before b).kind ≠ .closeParen := by
    obtain ⟨k, rest, hks, hk⟩ := hb.expr_head
    obtain ⟨x, b, rfl, rfl, -⟩ := List.map_eq_cons_iff.mp hks
    exact startsExpr_ne_closeParen hk
  generalize hp : Phrase.items .expr = p at ha
  generalize hks : a.map Token.kind = ks at ha
  induction ha generalizing a with
  | lastItem h =>
    cases hp
    subst hks
    have hend : Power.ofKind (t.before [close]).kind = .none := by
      rw [Stream.kind_before, hclose]
      rfl
    obtain ⟨n, hn⟩ := hexpr hm h hend
    rw [Stream.before_append]
    exact ⟨_, .lastArgument (hfirst h) hn hclose⟩
  | lastComma h =>
    cases hp
    obtain ⟨a, c, rfl, rfl, hc⟩ := List.map_eq_append_iff.mp hks
    obtain ⟨comma, c, rfl, hcomma, hnil⟩ := List.map_eq_cons_iff.mp hc
    rw [List.map_eq_nil_iff] at hnil
    subst hnil
    simp only [List.length_append, List.length_cons, List.length_nil] at hm
    have hend : Power.ofKind (t.before [comma, close]).kind = .none := by
      rw [Stream.kind_before, hcomma]
      rfl
    obtain ⟨n, hn⟩ := hexpr (by omega) h hend
    rw [List.append_assoc, Stream.before_append]
    exact ⟨_, .moreArguments (hfirst h) hn hcomma (.noArgument hclose)⟩
  | moreItems h _ _ ih =>
    cases hp
    obtain ⟨a, c, rfl, rfl, hc⟩ := List.map_eq_append_iff.mp hks
    obtain ⟨comma, c, rfl, hcomma, rfl⟩ := List.map_eq_cons_iff.mp hc
    simp only [List.length_append, List.length_cons] at hm
    have hend : Power.ofKind (t.before (comma :: c ++ [close])).kind = .none := by
      rw [List.cons_append, Stream.kind_before, hcomma]
      rfl
    obtain ⟨n, hn⟩ := hexpr (by omega) h hend
    obtain ⟨ns, hns⟩ := ih (by omega) rfl rfl
    rw [List.append_assoc, Stream.before_append]
    exact ⟨_, .moreArguments (hfirst h) hn hcomma hns⟩
  | _ => cases hp

/-- Reading splits a chain by the powers and gets through to its end, whichever operator goes
where. -/
theorem readThrough (m : Nat) : ReadThrough m := by
  induction m with
  | zero => refine ⟨fun h => ?_, fun _ h => ?_, fun h => ?_⟩ <;> exact absurd h (Nat.not_lt_zero _)
  | succ m ih =>
    refine ⟨expr_succ_through ih, climb_succ_through ih, fun {a t close} hm ha hclose => ?_⟩
    generalize hks : a.map Token.kind = ks at ha
    cases ha with
    | noItem =>
      rw [List.map_eq_nil_iff] at hks
      subst hks
      exact ⟨_, .noArgument hclose⟩
    | someItems h =>
      subst hks
      rw [List.length_append, List.length_singleton] at hm
      exact items_through h hclose (by omega) fun hb => ih.whole hb

/-- An expression is read up to a token that cannot go on with it. -/
theorem Derives.read_expr {a : List Token} {t : Stream} (ha : Derives .expr (a.map Token.kind))
    (ht : Power.ofKind t.kind = .none) : ∃ n, Gives (Tree.expr · .none) (t.before a) n t :=
  (readThrough (a.length + 1)).whole (Nat.lt_succ_self _) ha ht

end StackScript.Tree
