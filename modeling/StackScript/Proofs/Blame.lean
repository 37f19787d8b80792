import StackScript.Proofs.Complaints
import StackScript.Proofs.Instructions

namespace StackScript

def Position.Of (S : Span → Prop) (p : Position) : Prop :=
  ∃ s, S s ∧ (p = s.first ∨ p = s.last)

def Cause.isUnbalanced : Cause → Bool
  | .unbalancedStack .. => true
  | _ => false

/-- The diagnostic is not about syntax or a count at the end of code, and at one end of a span like
this. -/
structure Diagnostic.Blames (S : Span → Prop) (d : Diagnostic) : Prop where
  stage : d.cause.stage ≠ .syntactic
  balanced : d.cause.isUnbalanced = false
  place : d.position.Of S

section

variable {S : Span → Prop} {s : Scopes}

theorem Diagnostic.Blames.first {span : Span} {cause : Cause} (h : S span)
    (hc : (cause.stage == .syntactic || cause.isUnbalanced) = false) :
    Diagnostic.Blames S ⟨cause, span.first⟩ := by
  rw [Bool.or_eq_false_iff] at hc
  exact ⟨beq_eq_false_iff_ne.mp hc.1, hc.2, span, h, .inl rfl⟩

namespace Expr

theorem Spanned.start {e : Expr} (h : e.Spanned S) : S e.span := by
  cases e with
  | noneLit | boolLit | intLit | var => exact h
  | unary | binary | call | print => exact h.1

mutual

/-- Whatever is wrong with the types of an expression is found at one of its spans. -/
theorem typeIn_blames (e : Expr) (he : e.Spanned S) :
    Fails (Diagnostic.Blames S) (e.typeIn s) := by
  cases e with
  | noneLit | boolLit | intLit => exact .ok _
  | var span name =>
    rw [typeIn]
    split
    · exact .ok _
    · exact .error (.first he rfl)
  | unary span op operand =>
    refine .bind (typeIn_blames operand he.2) fun type _ => ?_
    split
    · exact .ok _
    · exact .error (.first he.1 rfl)
  | binary span op left right =>
    refine .bind (typeIn_blames left he.2.1) fun l _ => ?_
    refine .bind (typeIn_blames right he.2.2) fun r _ => ?_
    split
    · exact .ok _
    · exact .error (.first he.1 rfl)
  | call span callee args =>
    rw [typeIn]
    split
    · exact .error (.first he.1 rfl)
    · rename_i sig _
      split
      · exact .error (.first he.1 rfl)
      · exact .bind (checkArgs_blames args he.2 0 sig.params) fun _ _ => .ok _
  | print span arg => exact typeIn_blames arg he.2
termination_by structural e

theorem checkArgs_blames (es : List Expr) (he : SpannedAll S es) (index : Nat) (types : List Ty) :
    Fails (Diagnostic.Blames S) (checkArgs s index types es) := by
  cases es with
  | nil => cases types <;> exact .ok _
  | cons e es =>
    cases types with
    | nil => exact .ok _
    | cons type types =>
      refine .bind (typeIn_blames e he.1) fun received _ => ?_
      split
      · exact checkArgs_blames es he.2 (index + 1) types
      · exact .error (.first he.1.start rfl)
termination_by structural es

end

theorem checkCondition_blames {cond : Expr} (h : cond.Spanned S) :
    Fails (Diagnostic.Blames S) (cond.checkCondition s) := by
  refine .bind (typeIn_blames cond h) fun type _ => ?_
  split
  · exact .ok _
  · exact .error (.first h.start rfl)

end Expr

namespace Stmt

variable {result : Option Ty}

mutual

/-- A statement is refused at a span of its own or of a part of it. -/
theorem typeIn_blames (stmt : Stmt) (h : stmt.Spanned S) :
    Fails (Diagnostic.Blames S) (stmt.typeIn s result) := by
  cases stmt with
  | init => exact .error (.first h.1 rfl)
  | define => cases result <;> exact .error (.first h.1 rfl)
  | ret span value =>
    cases result with
    | none => exact .error (.first h.1 rfl)
    | some expected =>
      refine .bind (Expr.typeIn_blames value h.2) fun type _ => ?_
      split
      · exact .ok _
      · exact .error (.first h.1 rfl)
  | assign span name value =>
    rw [typeIn]
    split
    · exact .error (.first h.1 rfl)
    · split
      · exact .error (.first h.1 rfl)
      · refine .bind (Expr.typeIn_blames value h.2) fun type _ => ?_
        split
        · exact .ok _
        · exact .error (.first h.2.start rfl)
  | ifElse span cond yes no =>
    refine .bind (Expr.checkCondition_blames h.2.1) fun _ _ => ?_
    refine .bind (checkAll_blames yes h.2.2.1) fun _ _ => ?_
    exact .bind (checkAll_blames no h.2.2.2) fun _ _ => .ok _
  | ifElif span cond yes cond' yes' no =>
    obtain ⟨-, hcond, hyes, hcond', hyes', hno⟩ := h
    refine .bind (Expr.checkCondition_blames hcond) fun _ _ => ?_
    refine .bind (checkAll_blames yes hyes) fun _ _ => ?_
    refine .bind (Expr.checkCondition_blames hcond') fun _ _ => ?_
    refine .bind (checkAll_blames yes' hyes') fun _ _ => ?_
    exact .bind (checkAll_blames no hno) fun _ _ => .ok _
  | whileDo span cond body =>
    refine .bind (Expr.checkCondition_blames h.2.1) fun _ _ => ?_
    exact .bind (checkAll_blames body h.2.2) fun _ _ => .ok _
  | pass => exact .ok _
  | expr span value => exact Expr.typeIn_blames value h.2
termination_by structural stmt

theorem checkAll_blames (stmts : List Stmt) (h : SpannedAll S stmts) :
    Fails (Diagnostic.Blames S) (checkAll s result stmts) := by
  cases stmts with
  | nil => exact .ok _
  | cons stmt stmts =>
    exact .bind (typeIn_blames stmt h.1) fun _ _ => checkAll_blames stmts h.2
termination_by structural stmts

end

theorem lastType_blames {stmts : List Stmt} (h : SpannedAll S stmts) (type : Ty) :
    Fails (Diagnostic.Blames S) (lastType s type stmts) := by
  induction stmts generalizing type with
  | nil => exact .ok _
  | cons stmt stmts ih => exact .bind (typeIn_blames stmt h.1) fun _ _ => ih h.2 _

theorem layer_blames {span : Span} (h : S span) (name : String) (b : Binding) (l : Layer) :
    Fails (Diagnostic.Blames S) (settled (l.put name b span.first)) := by
  rw [Layer.settled_put]
  split
  · exact .error (.first h rfl)
  · exact .ok _

/-- A name that cannot be declared is reported at its declaration. -/
theorem put_blames {span : Span} (h : S span) (ofUnit : Bool) (name : String) (b : Binding) :
    Fails (Diagnostic.Blames S) (settled (s.put ofUnit name b span.first)) := by
  rw [Scopes.settled_put]
  split
  · exact .error (.first h rfl)
  · exact .bind (layer_blames h name b _) fun _ _ => .ok _

theorem spannedAll_append {a b : List Stmt} :
    SpannedAll S (a ++ b) ↔ SpannedAll S a ∧ SpannedAll S b := by
  induction a with
  | nil => simp [SpannedAll]
  | cons stmt a ih => simp [SpannedAll, ih, and_assoc]

/-- Declaring the names of a unit or function fails at one of the declarations. -/
theorem declareAll_blames (inFunction : Bool) {stmts : List Stmt} (h : SpannedAll S stmts) :
    Fails (Diagnostic.Blames S) (declareAll s inFunction stmts) := by
  fun_induction declareAll s inFunction stmts with
  | case1 s span name type value stmts ih =>
    refine .bind (Expr.typeIn_blames value h.1.2) fun received _ => ?_
    split
    · exact .bind (put_blames h.1.1 _ name _) fun s _ => ih s h.2
    · exact .error (.first h.1.2.start rfl)
  | case2 | case3 => exact .error (.first h.1.1 rfl)
  | case4 s span name params result body stmts _ _ ih =>
    exact .bind (put_blames h.1.1 _ name _) fun s _ => ih s h.2
  | case5 => exact .ok _

theorem paramLayer_blames {params : List Param} (h : ∀ p ∈ params, S p.span) (l : Layer) :
    Fails (Diagnostic.Blames S) (paramLayer l params) := by
  induction params generalizing l with
  | nil => exact .ok _
  | cons p ps ih =>
    refine .bind ?_ fun l _ => ih (fun q hq => h q (List.mem_cons_of_mem p hq)) l
    exact layer_blames (h p List.mem_cons_self) p.name _ l

/-- The body of a function is refused at a span of its parameters or statements. -/
theorem checkFunction_blames {params : List Param} {returned : Ty} {body : List Stmt}
    (hparams : ∀ p ∈ params, S p.span) (h : SpannedAll S body) :
    Fails (Diagnostic.Blames S) (checkFunction s params returned body) := by
  refine .bind (paramLayer_blames hparams _) fun layer _ => ?_
  refine .bind (declareAll_blames true h) fun declared hdeclared => ?_
  obtain ⟨head, rfl, -⟩ := declareAll_ok hdeclared
  exact checkAll_blames _ (spannedAll_append.mp h).2

theorem checkFunctions_blames {stmts : List Stmt} (h : SpannedAll S stmts) :
    Fails (Diagnostic.Blames S) (checkFunctions s stmts) := by
  fun_induction checkFunctions s stmts with
  | case1 span name params returned body stmts ih =>
    exact .bind (checkFunction_blames h.1.2.1 h.1.2.2) fun _ _ => ih h.2
  | case2 span name type value stmts ih => exact ih h.2
  | case3 => exact .ok _

end Stmt

/-- A program that is not well typed is refused at one end of one of its spans, and not for its
syntax. -/
theorem Program.typeFrom_blames {p : Program} (h : Stmt.SpannedAll S p.body) :
    Fails (Diagnostic.Blames S) (p.typeFrom s) := by
  refine .bind (Stmt.declareAll_blames false h) fun declared hdeclared => ?_
  obtain ⟨head, hbody, -⟩ := Stmt.declareAll_ok hdeclared
  have hrest := (Stmt.spannedAll_append.mp (hbody ▸ h)).2
  refine .bind (Stmt.lastType_blames hrest _) fun result _ => ?_
  exact .bind (Stmt.checkFunctions_blames h) fun _ _ => .ok _

end

theorem Position.Of.first {S : Span → Prop} {span : Span} (h : S span) : span.first.Of S :=
  ⟨span, h, .inl rfl⟩

def Gen.Stops {α : Type} (P : Diagnostic → Prop) (g : Gen α) : Prop := ∀ depth, Fails P (g depth)

/-- A computation fails as its first part does, or as the second does where the first has led. -/
theorem Fails.next {α β : Type} {P : Diagnostic → Prop} {g : Gen α} {f : α → Gen β} {depth : Nat}
    (hg : Fails P (g depth)) (hf : ∀ a depth', g depth = .ok (a, depth') → Fails P (f a depth')) :
    Fails P ((g >>= f) depth) := by
  intro d h
  change Gen.bind g f depth = .error d at h
  unfold Gen.bind at h
  cases hr : g depth with
  | ok r =>
    rw [hr] at h
    exact hf r.1 r.2 hr d h
  | error e =>
    rw [hr] at h
    cases h
    exact hg d hr

namespace Gen.Stops

variable {α β : Type} {S : Span → Prop} {P : Diagnostic → Prop} {g : Gen α}

theorem pure (a : α) : Stops P (Pure.pure a : Gen α) := fun _ => .ok _

theorem bind {f : α → Gen β} (hg : Stops P g) (hf : ∀ a, Stops P (f a)) : Stops P (g >>= f) :=
  fun depth => .next (hg depth) fun a depth' _ => hf a depth'

theorem depth : Stops P Gen.depth := fun _ => .ok _

theorem fail {d : Diagnostic} (h : P d) : Stops P (Gen.fail d : Gen α) := fun _ => .error h

theorem lift {r : Except Diagnostic α} (h : Fails P r) : Stops P (Gen.lift r) := by
  intro depth d hd
  cases r with
  | ok a => cases hd
  | error e =>
    cases hd
    exact h d rfl

/-- An instruction that finds too few words on the stack is reported at the place it is written
for. -/
theorem emit {at_ : Position} (h : at_.Of S) (i : Instr) :
    Stops (Diagnostic.Blames S) (Gen.emit at_ i) := by
  intro depth
  unfold Gen.emit Instr.depthAfter
  split
  · exact .ok _
  · rename_i hcause
    split at hcause
    · cases hcause
      exact .error ⟨by simp [Cause.stage], rfl, h⟩
    · cases hcause

end Gen.Stops

section

open Gen

variable {S : Span → Prop} {c : Context}

theorem unaryCode_blames {at_ : Position} (h : at_.Of S) (op : UnaryOp) :
    Stops (Diagnostic.Blames S) (unaryCode at_ op) := by
  cases op with
  | not =>
    refine (Stops.emit h _).bind fun _ => (Stops.emit h _).bind fun _ => ?_
    exact (Stops.emit h _).bind fun _ => (Stops.emit h _).bind fun _ => .pure _
  | neg => exact (Stops.emit h _).bind fun _ => (Stops.emit h _).bind fun _ => .pure _

theorem addressCode_blames {at_ : Position} (h : at_.Of S) (name : String) :
    Stops (Diagnostic.Blames S) (addressCode c name at_) := by
  unfold addressCode
  split
  · exact .emit h _
  · exact .fail ⟨by simp [Cause.stage], rfl, h⟩

namespace Expr

mutual

/-- The code of an expression fails at one of its spans. The count of words is never the reason. -/
theorem code_blames (e : Expr) (he : e.Spanned S) : Stops (Diagnostic.Blames S) (e.code c) := by
  cases e with
  | noneLit | boolLit | intLit => exact .emit (.first he) _
  | var span name =>
    rw [code]
    split
    · exact .emit (.first he) _
    · refine (addressCode_blames (.first he) name).bind fun _ => ?_
      exact (Stops.emit (.first he) _).bind fun _ => .pure _
  | unary span op operand =>
    refine (code_blames operand he.2).bind fun _ => ?_
    exact (unaryCode_blames (.first he.1) op).bind fun _ => .pure _
  | binary span op left right =>
    refine (code_blames left he.2.1).bind fun _ => (code_blames right he.2.2).bind fun _ => ?_
    exact (Stops.emit (.first he.1) _).bind fun _ => .pure _
  | call span callee args =>
    refine (codeAll_blames args he.2).bind fun _ => ?_
    exact (Stops.emit (.first he.1) _).bind fun _ => .pure _
  | print span arg =>
    refine (code_blames arg he.2).bind fun _ => (Stops.lift (typeIn_blames arg he.2)).bind fun _ => ?_
    exact (Stops.emit (.first he.1) _).bind fun _ => .pure _
termination_by structural e

theorem codeAll_blames (es : List Expr) (he : SpannedAll S es) :
    Stops (Diagnostic.Blames S) (codeAll c es) := by
  cases es with
  | nil => exact .pure _
  | cons e es =>
    exact (code_blames e he.1).bind fun _ => (codeAll_blames es he.2).bind fun _ => .pure _
termination_by structural es

end

end Expr

theorem storeCode_blames {at_ : Position} (h : at_.Of S) (name : String) {value : Expr}
    (hv : value.Spanned S) : Stops (Diagnostic.Blames S) (storeCode c name value at_) := by
  unfold storeCode
  split
  · exact (Expr.code_blames value hv).bind fun _ => (Stops.emit h _).bind fun _ => .pure _
  · refine (addressCode_blames h name).bind fun _ => (Expr.code_blames value hv).bind fun _ => ?_
    exact (Stops.emit h _).bind fun _ => .pure _

namespace Stmt

theorem valueCode_blames {at_ : Position} (h : at_.Of S) {value : Expr} (hv : value.Spanned S) :
    Stops (Diagnostic.Blames S) (valueCode c value at_) := by
  refine Stops.depth.bind fun _ => (Expr.code_blames value hv).bind fun _ => ?_
  refine Stops.depth.bind fun _ => ?_
  split
  · exact (Stops.emit h _).bind fun _ => .pure _
  · exact .pure _

mutual

/-- The code of a statement fails at a span of its own or of a part of it. -/
theorem code_blames (stmt : Stmt) (h : stmt.Spanned S) :
    Stops (Diagnostic.Blames S) (stmt.code c) := by
  cases stmt with
  | pass span => exact .emit (.first h) .nop
  | init span name type value => exact storeCode_blames (.first h.1) name h.2
  | assign span name value => exact storeCode_blames (.first h.1) name h.2
  | expr span value => exact valueCode_blames (.first h.1) h.2
  | ret span value =>
    refine (Expr.code_blames value h.2).bind fun _ => ?_
    exact (Stops.emit (.first h.1) _).bind fun _ => .pure _
  | ifElse span cond yes no =>
    obtain ⟨hspan, hcond, hyes, hno⟩ := h
    have hat (i : Instr) : Stops (Diagnostic.Blames S) (emit span.first i) := .emit (.first hspan) i
    refine (Expr.code_blames cond hcond).bind fun _ => (hat _).bind fun _ => ?_
    refine (codeAll_blames no hno).bind fun _ => (hat _).bind fun _ => ?_
    exact (codeAll_blames yes hyes).bind fun _ => hat _
  | ifElif span cond yes cond' yes' no =>
    obtain ⟨hspan, hcond, hyes, hcond', hyes', hno⟩ := h
    have hat (i : Instr) : Stops (Diagnostic.Blames S) (emit span.first i) := .emit (.first hspan) i
    refine (Expr.code_blames cond hcond).bind fun _ => (hat _).bind fun _ => ?_
    refine (Expr.code_blames cond' hcond').bind fun _ => (hat _).bind fun _ => ?_
    refine (codeAll_blames no hno).bind fun _ => (hat _).bind fun _ => ?_
    refine (codeAll_blames yes hyes).bind fun _ => (hat _).bind fun _ => ?_
    exact (codeAll_blames yes' hyes').bind fun _ => hat _
  | whileDo span cond body =>
    obtain ⟨hspan, hcond, hbody⟩ := h
    have hat (i : Instr) : Stops (Diagnostic.Blames S) (emit span.first i) := .emit (.first hspan) i
    have hguard : (Expr.unary cond.span .not cond).Spanned S := ⟨hcond.start, hcond⟩
    refine (Expr.code_blames _ hguard).bind fun _ => (hat _).bind fun _ => ?_
    refine (codeAll_blames body hbody).bind fun _ => (Expr.code_blames cond hcond).bind fun _ => ?_
    refine (hat _).bind fun _ => (hat _).bind fun _ => (hat _).bind fun _ => ?_
    exact hat _
  | define => exact .pure _
termination_by structural stmt

theorem codeAll_blames (stmts : List Stmt) (h : SpannedAll S stmts) :
    Stops (Diagnostic.Blames S) (codeAll c stmts) := by
  cases stmts with
  | nil => exact .pure _
  | cons stmt stmts =>
    exact (code_blames stmt h.1).bind fun _ => (codeAll_blames stmts h.2).bind fun _ => .pure _
termination_by structural stmts

end

end Stmt

namespace FunctionCode

/-- The count that ends the code of a function never fails. -/
theorem ofDefinition_blames (name : String) (params : List Param) {body : List Stmt}
    (hbody : Stmt.SpannedAll S body) (at_ : Position) :
    Fails (Diagnostic.Blames S) (ofDefinition c name params body at_) := by
  have hcode (c : Context) : Fails (Diagnostic.Blames S) (bodyCode c name body at_ 0) := by
    refine .next (Stmt.codeAll_blames body hbody 0) fun code depth hcode => ?_
    obtain ⟨-, -, rfl⟩ := Stmt.codeAll_ok body hcode
    exact .ok _
  unfold ofDefinition
  dsimp only
  split
  · exact .ok _
  · rename_i hd
    exact .error (hcode _ _ hd)

theorem ofStmts_blames {stmts : List Stmt} (h : Stmt.SpannedAll S stmts) :
    Fails (Diagnostic.Blames S) (ofStmts c stmts) := by
  fun_induction ofStmts c stmts with
  | case1 => exact .ok _
  | case2 span name params result body stmts ih =>
    refine .bind (ofDefinition_blames name params h.1.2.2 _) fun _ _ => ?_
    exact .bind (ih h.2) fun _ _ => .ok _
  | case3 stmt stmts _ ih => exact ih h.2

end FunctionCode

namespace UnitCode

theorem topCode_blames {stmts : List Stmt} (h : Stmt.SpannedAll S stmts) :
    Stops (Diagnostic.Blames S) (topCode c stmts) := by
  fun_induction topCode c stmts with
  | case1 => exact .pure _
  | case2 span value => exact Expr.code_blames value h.1.2
  | case3 stmt stmts _ ih =>
    exact (Stmt.code_blames stmt h.1).bind fun _ => (ih h.2).bind fun _ => .pure _

/-- The count that ends the entry never fails either. -/
theorem mainCode_blames {p : Program} (h : Stmt.SpannedAll S p.body) :
    Fails (Diagnostic.Blames S) (mainCode c p 0) := by
  refine .next (topCode_blames h 0) fun code depth hcode => ?_
  rcases topCode_depth hcode with rfl | ⟨hends, rfl⟩
  · cases hends : p.endsInExpr <;> exact .ok _
  · change p.endsInExpr = true at hends
    rw [hends]
    exact .ok _

/-- A program that has no code is refused at one end of one of its spans. With
`Program.typeFrom_blames`, positions are as good as the spans are. -/
theorem ofProgram_blames {p : Program} (h : Stmt.SpannedAll S p.body) (declared : Layer)
    (layout : Layout) : Fails (Diagnostic.Blames S) (ofProgram declared layout p) := by
  refine .bind (FunctionCode.ofStmts_blames h) fun functions _ => ?_
  exact .bind (mainCode_blames h) fun main _ => .ok _

end UnitCode

end

end StackScript
