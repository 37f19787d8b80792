import StackScript.Proofs.Steps

namespace StackScript.Tree

namespace Stream

def before (t : Stream) (tokens : List Token) : Stream := { t with rest := tokens ++ t.rest }

variable (t : Stream) (token next : Token) (a b tokens : List Token)

@[simp] theorem before_nil : t.before [] = t := rfl

theorem before_append : t.before (a ++ b) = (t.before b).before a := by simp [before]

@[simp] theorem current_before : (t.before (token :: tokens)).current = token := rfl

@[simp] theorem kind_before : (t.before (token :: tokens)).kind = token.kind := rfl

@[simp] theorem nextKind_before : (t.before (token :: next :: tokens)).nextKind = next.kind := rfl

@[simp] theorem advance_before : (t.before (token :: tokens)).advance = t.before tokens := rfl

@[simp] theorem last_before : (t.before tokens).last = t.last := rfl

theorem more_before (h : token.kind ≠ .eof) : (t.before (token :: tokens)).more = true :=
  more_iff.mpr ⟨by simp [before], h⟩

end Stream

/-- With steps enough the reader takes `s` to `a` and `t`. -/
def Gives {α : Type} (r : Nat → Reader α) (s : Stream) (a : α) (t : Stream) : Prop :=
  ∃ enough, ∀ steps, enough ≤ steps → r steps s = .ok a t

namespace Gives

section Combinators

variable {α β : Type} {s t u : Stream} {a : α} {b : β}

/-- A reader that needs no steps. -/
theorem plain {r : Reader α} (h : r s = .ok a t) : Gives (fun _ => r) s a t := ⟨0, fun _ _ => h⟩

theorem pure : Gives (fun _ => Pure.pure a) s a s := plain rfl

/-- Steps that are enough for both readers are enough for one after the other. -/
theorem bind {r : Nat → Reader α} {f : α → Nat → Reader β} (hr : Gives r s a t)
    (hf : Gives (f a) t b u) : Gives (fun steps => r steps >>= fun a => f a steps) s b u := by
  obtain ⟨n, hn⟩ := hr
  obtain ⟨k, hk⟩ := hf
  refine ⟨max n k, fun steps hsteps => ?_⟩
  change Reader.bind (r steps) _ s = _
  simp only [Reader.bind, hn steps (by omega)]
  exact hk steps (by omega)

/-- A reader that spends a step on its parts. -/
theorem succ {r : Nat → Reader α} (h : Gives (fun steps => r (steps + 1)) s a t) :
    Gives r s a t := by
  obtain ⟨n, hn⟩ := h
  refine ⟨n + 1, fun steps hsteps => ?_⟩
  obtain ⟨k, rfl⟩ := Nat.exists_eq_add_of_le' (show 1 ≤ steps by omega)
  exact hn k (by omega)

theorem kind {f : Token.Kind → Nat → Reader β} (h : Gives (f s.kind) s b u) :
    Gives (fun steps => Reader.kind >>= fun k => f k steps) s b u := h

theorem nextKind {f : Token.Kind → Nat → Reader β} (h : Gives (f s.nextKind) s b u) :
    Gives (fun steps => Reader.nextKind >>= fun k => f k steps) s b u := h

theorem more {f : Bool → Nat → Reader β} (h : Gives (f s.more) s b u) :
    Gives (fun steps => Reader.more >>= fun k => f k steps) s b u := h

theorem take {f : Token → Nat → Reader β} (h : Gives (f s.current) s.advance b u) :
    Gives (fun steps => Reader.take >>= fun k => f k steps) s b u := h

theorem takeLeaf {node : Node.Kind} {f : Node → Nat → Reader β}
    (h : Gives (f (.leaf node s.current)) s.advance b u) :
    Gives (fun steps => Reader.takeLeaf node >>= fun k => f k steps) s b u := h

theorem expect {k : Token.Kind} {f : Token → Nat → Reader β} (hk : s.kind = k)
    (h : Gives (f s.current) s.advance b u) :
    Gives (fun steps => Reader.expect k >>= fun a => f a steps) s b u :=
  bind (plain (by simp [Reader.expect, hk])) h

theorem expectLeaf {k : Token.Kind} {node : Node.Kind} {f : Node → Nat → Reader β}
    (hk : s.kind = k) (h : Gives (f (.leaf node s.current)) s.advance b u) :
    Gives (fun steps => Reader.expectLeaf k node >>= fun a => f a steps) s b u := by
  refine bind (plain ?_) h
  change Reader.bind (Reader.expect k) _ s = _
  simp only [Reader.bind, Reader.expect, hk, ↓reduceIte]
  rfl

end Combinators

section Expressions

variable {s t u : Stream} {left n : Node} {power : Power} {items : List Node}

theorem expr (h : Gives operand s left t) (h' : Gives (climb · power left) t n u) :
    Gives (expr · power) s n u := succ (bind h h')

theorem leaf {node : Node.Kind} (h : operandKind? s.kind = some node) :
    Gives operand s (.leaf node s.current) s.advance :=
  succ ⟨0, fun steps _ => operand_leaf steps h⟩

/-- A prefix operator, with the power that its operand is read at. -/
theorem prefixed (hk : s.kind = .kwNot ∧ power = .negation ∨ s.kind = .dash ∧ power = .unary)
    (h : Gives (Tree.expr · power) s.advance n t) :
    Gives operand s (.branch .unaryExpression [.leaf .unaryOp s.current, n]) t := by
  have hprefixed : Gives (Tree.prefixed · power) s
      (.branch .unaryExpression [.leaf .unaryOp s.current, n]) t := succ (takeLeaf (bind h pure))
  refine succ (kind ?_)
  rcases hk with ⟨hk, rfl⟩ | ⟨hk, rfl⟩ <;> rw [hk] <;> exact hprefixed

theorem grouped (hk : s.kind = .openParen) (h : Gives (Tree.expr · .none) s.advance n t)
    (hc : t.kind = .closeParen) :
    Gives operand s (.branch .parenthesizedExpression
      [.leaf .openParen s.current, n, .leaf .closeParen t.current]) t.advance := by
  refine succ (kind ?_)
  rw [hk]
  exact takeLeaf (bind h (expectLeaf hc pure))

/-- Climbing stops where the next operator does not bind tighter. -/
theorem stop (h : ¬power < .ofKind s.kind) : Gives (climb · power left) s left s :=
  succ ⟨0, fun steps _ => climb_stops steps left h⟩

/-- A call binds tighter than all operators, so it goes to the operand to its left. -/
theorem called (hk : s.kind = .openParen) (hp : power < .call)
    (h : Gives arguments s.advance items t)
    (h' : Gives (climb · power (.branch .callExpression
      [left, .branch .argList (.leaf .openParen s.current :: items)])) t n u) :
    Gives (climb · power left) s n u := by
  refine succ (kind ?_)
  simp only [hk]
  rw [show Power.ofKind .openParen = .call from rfl]
  simp only [hp, ↓reduceIte]
  exact takeLeaf (bind h h')

/-- An operator that binds tighter takes the left operand, and climbing goes on behind its right
one. -/
theorem binary {node : Node.Kind} {right : Node} (hk : operatorKind? s.kind = some node)
    (hp : power < .ofKind s.kind) (h : Gives (Tree.expr · (.ofKind s.kind)) s.advance right t)
    (h' : Gives (climb · power (.branch .binaryExpression
      [left, .leaf node s.current, right])) t n u) :
    Gives (climb · power left) s n u := by
  have hrest : Gives (fun steps => do
      let operator ← Reader.takeLeaf node
      let right ← Tree.expr steps (.ofKind s.kind)
      climb steps power (.branch .binaryExpression [left, operator, right])) s n u :=
    takeLeaf (bind h h')
  refine succ (kind ?_)
  simp only [hp, ↓reduceIte]
  generalize s.kind = k at hk hrest ⊢
  cases k <;> cases hk <;> exact hrest

theorem noArgument (hk : s.kind = .closeParen) :
    Gives arguments s [.leaf .closeParen s.current] s.advance := by
  refine succ (kind ?_)
  simp only [hk, ↓reduceIte]
  exact takeLeaf pure

theorem lastArgument (hk : s.kind ≠ .closeParen) (h : Gives (Tree.expr · .none) s n t)
    (hc : t.kind = .closeParen) :
    Gives arguments s [n, .leaf .closeParen t.current] t.advance := by
  refine succ (kind ?_)
  simp only [hk, ↓reduceIte]
  refine bind h (kind ?_)
  simp only [hc, reduceCtorEq, ↓reduceIte]
  exact expectLeaf hc pure

theorem moreArguments (hk : s.kind ≠ .closeParen) (h : Gives (Tree.expr · .none) s n t)
    (hc : t.kind = .comma) (h' : Gives arguments t.advance items u) :
    Gives arguments s (n :: .leaf .comma t.current :: items) u := by
  refine succ (kind ?_)
  simp only [hk, ↓reduceIte]
  refine bind h (kind ?_)
  simp only [hc, ↓reduceIte]
  exact takeLeaf (bind h' pure)

end Expressions

section Types

variable {s t : Stream} {mark : Token.Kind} {node type : Node.Kind} {typeDef : Node}
  {items : List Node}

theorem typeName (h : typeKind? s.kind = some type) :
    Gives (fun _ => Tree.typeName) s (.leaf type s.current) s.advance := by
  refine kind ?_
  generalize s.kind = k at h ⊢
  cases k <;> cases h <;> exact plain rfl

theorem typeAfter (hm : s.kind = mark) (h : typeKind? s.advance.kind = some type) :
    Gives (fun _ => Tree.typeAfter mark node) s
      (.branch .typeDef [.leaf node s.current, .leaf type s.advance.current])
      s.advance.advance := expectLeaf hm (bind (typeName h) pure)

theorem untyped (hm : s.kind ≠ mark) : Gives (fun _ => typeIf mark node) s [] s := by
  refine kind ?_
  simp only [hm, ↓reduceIte]
  exact pure

theorem typed (hm : s.kind = mark) (h : typeKind? s.advance.kind = some type) :
    Gives (fun _ => typeIf mark node) s
      [.branch .typeDef [.leaf node s.current, .leaf type s.advance.current]]
      s.advance.advance := by
  refine kind ?_
  simp only [hm, ↓reduceIte]
  exact bind (typeAfter hm h) pure

theorem noParameter (hk : s.kind = .closeParen) :
    Gives parameters s [.leaf .closeParen s.current] s.advance := by
  refine succ (kind ?_)
  simp only [hk, ↓reduceIte]
  exact takeLeaf pure

theorem lastParameter (hk : s.kind = .identifier)
    (h : Gives (fun _ => Tree.typeAfter .colon .colon) s.advance typeDef t)
    (hc : t.kind = .closeParen) :
    Gives parameters s [.leaf .variableName s.current, typeDef, .leaf .closeParen t.current]
      t.advance := by
  refine succ (kind ?_)
  simp only [hk, reduceCtorEq, ↓reduceIte]
  refine expectLeaf hk (bind h (kind ?_))
  simp only [hc, reduceCtorEq, ↓reduceIte]
  exact expectLeaf hc pure

theorem moreParameters {u : Stream} (hk : s.kind = .identifier)
    (h : Gives (fun _ => Tree.typeAfter .colon .colon) s.advance typeDef t)
    (hc : t.kind = .comma) (h' : Gives parameters t.advance items u) :
    Gives parameters s (.leaf .variableName s.current :: typeDef :: .leaf .comma t.current :: items)
      u := by
  refine succ (kind ?_)
  simp only [hk, reduceCtorEq, ↓reduceIte]
  refine expectLeaf hk (bind h (kind ?_))
  simp only [hc, ↓reduceIte]
  exact takeLeaf (bind h' pure)

end Types

section Statements

variable {s t u v w : Stream} {value cond body n : Node} {typed items result arms ns : List Node}

theorem assigned (hk : s.kind = .identifier) (hn : s.nextKind = .colon ∨ s.nextKind = .assignment)
    (h : Gives (fun _ => typeIf .colon .colon) s.advance typed t) (ho : t.kind = .assignment)
    (h' : Gives (Tree.expr · .none) t.advance value u) (hnl : u.kind = .newline) :
    Gives stmt s (.branch .assignStatement
      (.leaf .variableName s.current :: typed ++ [.leaf .assignOp t.current, value])) u.advance := by
  have hassignment : Gives assignment s (.branch .assignStatement
      (.leaf .variableName s.current :: typed ++ [.leaf .assignOp t.current, value])) u.advance :=
    expectLeaf hk (bind h (expectLeaf ho (bind h' (expect hnl pure))))
  refine succ (kind ?_)
  rw [hk]
  refine nextKind ?_
  rcases hn with hn | hn <;> rw [hn] <;> exact hassignment

theorem returned (hk : s.kind = .kwReturn) (hnl : s.advance.kind = .newline) :
    Gives stmt s (.branch .returnStatement [.leaf .kwReturn s.current]) s.advance.advance := by
  refine succ (kind ?_)
  rw [hk]
  refine takeLeaf (kind ?_)
  simp only [hnl, ↓reduceIte]
  exact take pure

theorem returnedValue (hk : s.kind = .kwReturn) (hv : s.advance.kind ≠ .newline)
    (h : Gives (Tree.expr · .none) s.advance value t) (hnl : t.kind = .newline) :
    Gives stmt s (.branch .returnStatement [.leaf .kwReturn s.current, value]) t.advance := by
  refine succ (kind ?_)
  rw [hk]
  refine takeLeaf (kind ?_)
  simp only [hv, ↓reduceIte]
  exact bind h (expect hnl pure)

theorem passed (hk : s.kind = .kwPass) (hnl : s.advance.kind = .newline) :
    Gives stmt s (.branch .passStatement [.leaf .kwPass s.current]) s.advance.advance := by
  refine succ (kind ?_)
  rw [hk]
  exact takeLeaf (expect hnl pure)

/-- The first words that make a statement something else than an expression. -/
def startsStatement (kind : Token.Kind) : Bool :=
  match kind with
  | .kwDef | .kwIf | .kwWhile | .kwReturn | .kwPass => true
  | _ => false

/-- A statement is an expression if its first words make it nothing else. -/
theorem expression (hk : startsStatement s.kind = false)
    (hn : s.kind = .identifier → s.nextKind ≠ .colon ∧ s.nextKind ≠ .assignment)
    (h : Gives (Tree.expr · .none) s value t) (hnl : t.kind = .newline) :
    Gives stmt s (.branch .expressionStatement [value]) t.advance := by
  have hexpression : Gives Tree.expression s (.branch .expressionStatement [value]) t.advance :=
    bind h (expect hnl pure)
  refine succ (kind ?_)
  split
  case h_6 hidentifier =>
    refine nextKind ?_
    split
    · rename_i hcolon
      exact absurd hcolon (hn hidentifier).1
    · rename_i hassignment
      exact absurd hassignment (hn hidentifier).2
    · exact hexpression
  case h_7 => exact hexpression
  all_goals simp_all [startsStatement]

theorem defined (hk : s.kind = .kwDef) (hname : s.advance.kind = .identifier)
    (hopen : s.advance.advance.kind = .openParen)
    (h : Gives parameters s.advance.advance.advance items t)
    (h' : Gives (fun _ => typeIf .arrow .arrow) t result u) (hb : Gives Tree.body u body v) :
    Gives stmt s (.branch .functionDefinition
      (.leaf .kwDef s.current :: .leaf .variableName s.advance.current ::
        .branch .paramList (.leaf .openParen s.advance.advance.current :: items) ::
        result ++ [body])) v := by
  refine succ (kind ?_)
  rw [hk]
  exact succ (takeLeaf (expectLeaf hname (expectLeaf hopen (bind h (bind h' (bind hb pure))))))

theorem chosen (hk : s.kind = .kwIf) (h : Gives (Tree.expr · .none) s.advance cond t)
    (hb : Gives Tree.body t body u) (ha : Gives laterArms u arms v) :
    Gives stmt s (.branch .ifStatement (.leaf .kwIf s.current :: cond :: body :: arms)) v := by
  refine succ (kind ?_)
  rw [hk]
  exact takeLeaf (bind h (bind hb (bind ha pure)))

theorem repeated (hk : s.kind = .kwWhile) (h : Gives (Tree.expr · .none) s.advance cond t)
    (hb : Gives Tree.body t body u) :
    Gives stmt s (.branch .whileStatement [.leaf .kwWhile s.current, cond, body]) u := by
  refine succ (kind ?_)
  rw [hk]
  exact takeLeaf (bind h (bind hb pure))

/-- A condition ends where no further arm starts. -/
theorem noArm (hk : s.kind ≠ .kwElif ∧ s.kind ≠ .kwElse) : Gives laterArms s [] s := by
  refine succ (kind ?_)
  split
  · rename_i helif
    exact absurd helif hk.1
  · rename_i helse
    exact absurd helse hk.2
  · exact pure

theorem elifArm (hk : s.kind = .kwElif) (h : Gives (Tree.expr · .none) s.advance cond t)
    (hb : Gives Tree.body t body u) (ha : Gives laterArms u arms v) :
    Gives laterArms s (.leaf .kwElif s.current :: cond :: body :: arms) v := by
  refine succ (kind ?_)
  rw [hk]
  exact takeLeaf (bind h (bind hb (bind ha pure)))

theorem elseArm (hk : s.kind = .kwElse) (hb : Gives Tree.body s.advance body t) :
    Gives laterArms s [.leaf .kwElse s.current, body] t := by
  refine succ (kind ?_)
  rw [hk]
  exact takeLeaf (bind hb pure)

/-- What opens a block needs a line of its own. -/
theorem inline (hk : s.kind = .colon) (hnl : s.advance.kind ≠ .newline)
    (ho : opensBlock s.advance.kind = false) (h : Gives stmt s.advance n t) :
    Gives Tree.body s (.branch .body [.leaf .colon s.current, n]) t := by
  refine succ (expectLeaf hk (kind ?_))
  split
  case h_1 hnewline => exact absurd hnewline hnl
  case h_5 => exact bind h pure
  all_goals simp_all [opensBlock]

theorem indented (hk : s.kind = .colon) (hnl : s.advance.kind = .newline)
    (hi : s.advance.advance.kind = .indent) (h : Gives block s.advance.advance.advance ns t) :
    Gives Tree.body s (.branch .body (.leaf .colon s.current :: ns)) t := by
  refine succ (expectLeaf hk (kind ?_))
  rw [hnl]
  refine take (kind ?_)
  simp only [hi, ↓reduceIte]
  exact take (bind h pure)

theorem endBlock (hk : s.kind = .dedent) : Gives block s [] s.advance := by
  refine succ (more (kind ?_))
  simp only [hk, bne_self_eq_false, Bool.and_false, Bool.false_eq_true, ↓reduceIte]
  exact expect hk pure

/-- A block goes on as long as no dedent comes, nor the end of the text. -/
theorem moreBlock (hm : s.more = true) (hk : s.kind ≠ .dedent) (h : Gives stmt s n t)
    (h' : Gives block t ns u) : Gives block s (n :: ns) u := by
  have hne : (s.kind != .dedent) = true := by simpa using hk
  refine succ (more (kind ?_))
  simp only [hm, hne, Bool.and_self, ↓reduceIte]
  exact bind h (bind h' pure)

theorem endScript (hm : s.more = false) : Gives script s [] s := by
  refine succ (more ?_)
  simp only [hm, Bool.false_eq_true, ↓reduceIte]
  exact pure

theorem moreScript (hm : s.more = true) (h : Gives stmt s n t) (h' : Gives script t ns u) :
    Gives script s (n :: ns) u := by
  refine succ (more ?_)
  simp only [hm, ↓reduceIte]
  exact bind h (bind h' pure)

/-- What the script gives with steps enough is the tree. -/
theorem parse (h : Gives script s ns t) (ha : awaitsOperand s.last.kind = false) :
    ∃ tree, Tree.parse s = .ok tree t ∧ tree.kind = .script ∧ tree.children = ns := by
  obtain ⟨steps, hsteps⟩ := h
  exact parse_of_script ha (hsteps steps (Nat.le_refl _))

end Statements

end Gives

end StackScript.Tree
