import StackScript.Proofs.Checked

namespace StackScript

abbrev Meaning := String → Option Binding

namespace Meaning

def extend (Γ : Meaning) (entry : String × Binding) : Meaning :=
  fun name => if name = entry.1 then some entry.2 else Γ name

def extendAll (Γ : Meaning) (entries : List (String × Binding)) : Meaning := entries.foldl extend Γ

theorem extendAll_append (Γ : Meaning) (a b : List (String × Binding)) :
    Γ.extendAll (a ++ b) = (Γ.extendAll a).extendAll b := List.foldl_append

end Meaning

inductive Expr.HasType (Γ : Meaning) : Expr → Ty → Prop
  | noneLit {span : Span} : HasType Γ (.noneLit span) .none
  | boolLit {span : Span} {value : Bool} : HasType Γ (.boolLit span value) .bool
  | intLit {span : Span} {value : Int32} : HasType Γ (.intLit span value) .int
  | var {span : Span} {name : String} {type : Ty} (bound : Γ name = some (.variable type)) :
      HasType Γ (.var span name) type
  | neg {span : Span} {e : Expr} (operand : HasType Γ e .int) :
      HasType Γ (.unary span .neg e) .int
  | not {span : Span} {e : Expr} (operand : HasType Γ e .bool) :
      HasType Γ (.unary span .not e) .bool
  | arithmetic {span : Span} {op : BinaryOp} {l r : Expr}
      (kind : op ∈ [.add, .sub, .mul, .floorDiv, .mod]) (left : HasType Γ l .int)
      (right : HasType Γ r .int) : HasType Γ (.binary span op l r) .int
  | order {span : Span} {op : BinaryOp} {l r : Expr} (kind : op ∈ [.lt, .le, .gt, .ge])
      (left : HasType Γ l .int) (right : HasType Γ r .int) : HasType Γ (.binary span op l r) .bool
  /-- Values of any two types can be compared. -/
  | equality {span : Span} {op : BinaryOp} {l r : Expr} {t u : Ty} (kind : op ∈ [.eq, .ne])
      (left : HasType Γ l t) (right : HasType Γ r u) : HasType Γ (.binary span op l r) .bool
  | identity {span : Span} {l r : Expr} (left : HasType Γ l .none) (right : HasType Γ r .none) :
      HasType Γ (.binary span .is l r) .bool
  | call {span : Span} {callee : String} {args : List Expr} {sig : Signature}
      (bound : Γ callee = some (.function sig)) (arity : args.length = sig.params.length)
      (typed : ∀ pair ∈ args.zip sig.params, HasType Γ pair.1 pair.2) :
      HasType Γ (.call span callee args) sig.result
  | print {span : Span} {e : Expr} {type : Ty} (arg : HasType Γ e type) :
      HasType Γ (.print span e) type

/-- A function as its statements see it: what it gives, and the names of its parameters and
variables. -/
structure Enclosing where
  result : Ty
  own : List String

/-- Statements behind the declarations of a block, in a function or at the top level. No rule is for
declarations, so none of them holds one. -/
inductive Stmt.WellTyped (Γ : Meaning) (f : Option Enclosing) : Stmt → Prop
  | pass {span : Span} : WellTyped Γ f (.pass span)
  | expr {span : Span} {e : Expr} {type : Ty} (value : e.HasType Γ type) :
      WellTyped Γ f (.expr span e)
  | assign {span : Span} {name : String} {e : Expr} {type : Ty}
      (bound : Γ name = some (.variable type)) (value : e.HasType Γ type)
      (own : ∀ g ∈ f, name ∈ g.own) : WellTyped Γ f (.assign span name e)
  | ret {span : Span} {e : Expr} {g : Enclosing} (inside : f = some g)
      (value : e.HasType Γ g.result) : WellTyped Γ f (.ret span e)
  | ifElse {span : Span} {c : Expr} {ys ns : List Stmt} (cond : c.HasType Γ .bool)
      (yes : ∀ s ∈ ys, WellTyped Γ f s) (no : ∀ s ∈ ns, WellTyped Γ f s) :
      WellTyped Γ f (.ifElse span c ys ns)
  | ifElif {span : Span} {c c' : Expr} {ys ys' ns : List Stmt} (cond : c.HasType Γ .bool)
      (yes : ∀ s ∈ ys, WellTyped Γ f s) (cond' : c'.HasType Γ .bool)
      (yes' : ∀ s ∈ ys', WellTyped Γ f s) (no : ∀ s ∈ ns, WellTyped Γ f s) :
      WellTyped Γ f (.ifElif span c ys c' ys' ns)
  | whileDo {span : Span} {c : Expr} {ss : List Stmt} (cond : c.HasType Γ .bool)
      (body : ∀ s ∈ ss, WellTyped Γ f s) : WellTyped Γ f (.whileDo span c ss)

namespace Stmt

def binding? : Stmt → Option (String × Binding)
  | .init _ name type _ => some (name, .variable type)
  | .define _ name params result _ => some (name, .function (signatureOf params result))
  | _ => none

def bindings (ss : List Stmt) : List (String × Binding) := ss.filterMap binding?

def declaredNames (ss : List Stmt) : List String := (bindings ss).map (·.1)

def paramBindings (params : List Param) : List (String × Binding) :=
  params.map fun p => (p.name, .variable p.type)

def ValuesTyped (Γ : Meaning) (head : List Stmt) : Prop :=
  ∀ pre span name type value post, head = pre ++ .init span name type value :: post →
    value.HasType (Γ.extendAll (bindings pre)) type

/-- A function: variables, and then statements that know them and the parameters. -/
inductive FunctionTyped (Γ : Meaning) (params : List Param) (result : Ty) : List Stmt → Prop
  | intro {head rest : List Stmt}
      (declarations : ∀ stmt ∈ head, ∃ span name type value, stmt = .init span name type value)
      (names : (params.map (·.name) ++ declaredNames head).Nodup)
      (values : ValuesTyped (Γ.extendAll (paramBindings params)) head)
      (statements : ∀ stmt ∈ rest,
        stmt.WellTyped ((Γ.extendAll (paramBindings params)).extendAll (bindings head))
          (some ⟨result, params.map (·.name) ++ declaredNames head⟩)) :
      FunctionTyped Γ params result (head ++ rest)

end Stmt

/-- A program on top of names that have a meaning. Variables can be declared again, functions
cannot. -/
inductive Program.WellTyped (Γ : Meaning) : Program → Prop
  | intro {head rest : List Stmt} (declarations : ∀ stmt ∈ head, stmt.isDeclaration = true)
      (names : (Stmt.declaredNames head).Nodup)
      (vars : ∀ name type, (name, .variable type) ∈ Stmt.bindings head →
        ∀ sig, Γ name ≠ some (.function sig))
      (funcs : ∀ name sig, (name, .function sig) ∈ Stmt.bindings head →
        isReserved name = false ∧ Γ name = none)
      (values : Stmt.ValuesTyped Γ head)
      (bodies : ∀ span name params result body, .define span name params result body ∈ head →
        Stmt.FunctionTyped (Γ.extendAll (Stmt.bindings head)) params result body)
      (statements : ∀ stmt ∈ rest, stmt.WellTyped (Γ.extendAll (Stmt.bindings head)) none) :
      WellTyped Γ ⟨head ++ rest⟩

section Expressions

variable {s : Scopes}

namespace Expr

theorem HasType.binary {Γ : Meaning} {span : Span} {op : BinaryOp} {left right : Expr}
    {l r type : Ty} (hl : left.HasType Γ l) (hr : right.HasType Γ r)
    (hop : binaryType? op l r = some type) : (Expr.binary span op left right).HasType Γ type := by
  cases op with
  | add | sub | mul | floorDiv | mod =>
    simp only [binaryType?, Option.ite_none_right_eq_some, Bool.and_eq_true, beq_iff_eq,
      Option.some.injEq] at hop
    obtain ⟨⟨rfl, rfl⟩, rfl⟩ := hop
    exact .arithmetic (by simp) hl hr
  | lt | le | gt | ge =>
    simp only [binaryType?, Option.ite_none_right_eq_some, Bool.and_eq_true, beq_iff_eq,
      Option.some.injEq] at hop
    obtain ⟨⟨rfl, rfl⟩, rfl⟩ := hop
    exact .order (by simp) hl hr
  | eq | ne =>
    cases hop
    exact .equality (by simp) hl hr
  | is =>
    simp only [binaryType?, Option.ite_none_right_eq_some, Bool.and_eq_true, beq_iff_eq,
      Option.some.injEq] at hop
    obtain ⟨⟨rfl, rfl⟩, rfl⟩ := hop
    exact .identity hl hr

mutual

/-- A type that checking finds is one by the rules. -/
theorem hasType_of_typeIn (e : Expr) {type : Ty} (h : e.typeIn s = .ok type) :
    e.HasType s.lookup type := by
  match e with
  | .noneLit _ =>
    cases h
    exact .noneLit
  | .boolLit .. =>
    cases h
    exact .boolLit
  | .intLit .. =>
    cases h
    exact .intLit
  | .var _ name =>
    simp only [typeIn] at h
    split at h
    · rename_i t ht
      cases h
      exact .var (Scopes.typeOf?_eq_some.mp ht)
    · cases h
  | .unary _ .neg operand =>
    obtain ⟨ho, rfl⟩ := typeIn_unary h
    exact .neg (hasType_of_typeIn operand ho)
  | .unary _ .not operand =>
    obtain ⟨ho, rfl⟩ := typeIn_unary h
    exact .not (hasType_of_typeIn operand ho)
  | .binary _ op left right =>
    obtain ⟨l, r, hl, hr, hop⟩ := typeIn_binary h
    exact .binary (hasType_of_typeIn left hl) (hasType_of_typeIn right hr) hop
  | .call _ callee args =>
    obtain ⟨sig, hs, hlen, hargs, rfl⟩ := typeIn_call h
    exact .call (Scopes.signatureOf?_eq_some.mp hs) hlen (hasType_of_checkArgs args hargs)
  | .print _ arg => exact .print (hasType_of_typeIn arg h)

theorem hasType_of_checkArgs (es : List Expr) {index : Nat} {types : List Ty}
    (h : checkArgs s index types es = .ok ()) :
    ∀ pair ∈ es.zip types, pair.1.HasType s.lookup pair.2 := by
  match es, types with
  | [], _ | _ :: _, [] => simp
  | e :: es, type :: types =>
    obtain ⟨he, hes⟩ := checkArgs_cons h
    intro pair hp
    rcases List.mem_cons.mp hp with rfl | hp
    · exact hasType_of_typeIn e he
    · exact hasType_of_checkArgs es hes pair hp

end

theorem checkArgs_of_typed {es : List Expr} {types : List Ty}
    (h : ∀ pair ∈ es.zip types, pair.1.typeIn s = .ok pair.2) (index : Nat) :
    checkArgs s index types es = .ok () := by
  induction es generalizing types index with
  | nil => cases types <;> simp [checkArgs]
  | cons e es ih =>
    cases types with
    | nil => simp [checkArgs]
    | cons type types =>
      have hfirst : e.typeIn s = .ok type := h (e, type) List.mem_cons_self
      have hrest := ih (fun pair hp => h pair (List.mem_cons_of_mem _ hp)) (index + 1)
      simp only [checkArgs, bind_eq_ok]
      exact ⟨type, hfirst, by rw [if_pos rfl]; exact hrest⟩

theorem typeIn_of_binary {span : Span} {op : BinaryOp} {left right : Expr} {l r type : Ty}
    (hl : left.typeIn s = .ok l) (hr : right.typeIn s = .ok r)
    (hop : binaryType? op l r = some type) :
    (Expr.binary span op left right).typeIn s = .ok type := by
  simp only [typeIn, bind_eq_ok]
  exact ⟨l, hl, r, hr, by rw [hop]; rfl⟩

/-- A type by the rules is found by checking, so an expression has one type at most. -/
theorem typeIn_of_hasType {e : Expr} {type : Ty} (h : e.HasType s.lookup type) :
    e.typeIn s = .ok type := by
  induction h with
  | noneLit | boolLit | intLit => rfl
  | var bound => simp only [typeIn, Scopes.typeOf?_eq_some.mpr bound]
  | neg _ ih | not _ ih =>
    simp only [typeIn, bind_eq_ok]
    exact ⟨_, ih, rfl⟩
  | arithmetic kind _ _ ihl ihr =>
    refine typeIn_of_binary ihl ihr ?_
    simp only [List.mem_cons, List.not_mem_nil, or_false] at kind
    rcases kind with rfl | rfl | rfl | rfl | rfl <;> rfl
  | order kind _ _ ihl ihr =>
    refine typeIn_of_binary ihl ihr ?_
    simp only [List.mem_cons, List.not_mem_nil, or_false] at kind
    rcases kind with rfl | rfl | rfl | rfl <;> rfl
  | equality kind _ _ ihl ihr =>
    refine typeIn_of_binary ihl ihr ?_
    simp only [List.mem_cons, List.not_mem_nil, or_false] at kind
    rcases kind with rfl | rfl <;> rfl
  | identity _ _ ihl ihr => exact typeIn_of_binary ihl ihr rfl
  | call bound arity _ ih =>
    simp only [typeIn, Scopes.signatureOf?_eq_some.mpr bound, arity, ne_eq, not_true_eq_false,
      ↓reduceIte, bind_eq_ok, pure_eq_ok]
    exact ⟨(), checkArgs_of_typed ih 0, trivial⟩
  | print _ ih => exact ih

/-- Checking finds the type that the rules give. -/
theorem typeIn_iff {e : Expr} {type : Ty} : e.typeIn s = .ok type ↔ e.HasType s.lookup type :=
  ⟨hasType_of_typeIn e, typeIn_of_hasType⟩

theorem checkCondition_of {cond : Expr} (h : cond.HasType s.lookup .bool) :
    cond.checkCondition s = .ok () := by
  simp only [checkCondition, bind_eq_ok]
  exact ⟨.bool, typeIn_of_hasType h, rfl⟩

end Expr

end Expressions

structure Scopes.Within (s : Scopes) (result : Option Ty) (f : Option Enclosing) : Prop where
  result : result = f.map (·.result)
  own : ∀ g ∈ f, ∀ name, name ∈ g.own ↔ s.isLocal name = true

namespace Stmt

section Statements

variable {s : Scopes} {result : Option Ty} {f : Option Enclosing}

mutual

theorem wellTyped_of_typeIn (hf : s.Within result f) (stmt : Stmt) {type : Ty}
    (h : stmt.typeIn s result = .ok type) : stmt.WellTyped s.lookup f := by
  match stmt with
  | .pass _ => exact .pass
  | .init .. => exact absurd h typeIn_init
  | .define .. => exact absurd h typeIn_define
  | .expr _ value => exact .expr (Expr.hasType_of_typeIn value h)
  | .assign _ name value =>
    obtain ⟨expected, hn, hv, hlocal⟩ := typeIn_assign h
    refine .assign (Scopes.typeOf?_eq_some.mp hn) (Expr.hasType_of_typeIn value hv) ?_
    intro g hg
    refine (hf.own g hg name).mpr (hlocal ?_)
    rw [hf.result, Option.mem_def.mp hg]
    rfl
  | .ret _ value =>
    obtain ⟨expected, hr, hv⟩ := typeIn_ret h
    rw [hf.result] at hr
    obtain ⟨g, hg, rfl⟩ := Option.map_eq_some_iff.mp hr
    exact .ret hg (Expr.hasType_of_typeIn value hv)
  | .ifElse _ cond yes no =>
    obtain ⟨hc, hy, hn⟩ := typeIn_ifElse h
    exact .ifElse (Expr.hasType_of_typeIn cond hc) (wellTyped_of_checkAll hf yes hy)
      (wellTyped_of_checkAll hf no hn)
  | .ifElif _ cond yes cond' yes' no =>
    obtain ⟨hc, hy, hc', hy', hn⟩ := typeIn_ifElif h
    exact .ifElif (Expr.hasType_of_typeIn cond hc) (wellTyped_of_checkAll hf yes hy)
      (Expr.hasType_of_typeIn cond' hc') (wellTyped_of_checkAll hf yes' hy')
      (wellTyped_of_checkAll hf no hn)
  | .whileDo _ cond body =>
    obtain ⟨hc, hb⟩ := typeIn_whileDo h
    exact .whileDo (Expr.hasType_of_typeIn cond hc) (wellTyped_of_checkAll hf body hb)

theorem wellTyped_of_checkAll (hf : s.Within result f) (stmts : List Stmt)
    (h : checkAll s result stmts = .ok ()) : ∀ stmt ∈ stmts, stmt.WellTyped s.lookup f := by
  match stmts with
  | [] => simp
  | first :: stmts =>
    obtain ⟨⟨type, ht⟩, h⟩ := checkAll_cons h
    intro stmt hm
    rcases List.mem_cons.mp hm with he | hm
    · rw [he]
      exact wellTyped_of_typeIn hf first ht
    · exact wellTyped_of_checkAll hf stmts h stmt hm

end

theorem checkAll_of_typed {stmts : List Stmt}
    (h : ∀ stmt ∈ stmts, ∃ type, stmt.typeIn s result = .ok type) :
    checkAll s result stmts = .ok () := by
  induction stmts with
  | nil => rfl
  | cons stmt stmts ih =>
    obtain ⟨type, ht⟩ := h stmt List.mem_cons_self
    simp only [checkAll, bind_eq_ok]
    exact ⟨type, ht, ih fun other hm => h other (List.mem_cons_of_mem stmt hm)⟩

theorem typeIn_of_wellTyped (hf : s.Within result f) {stmt : Stmt}
    (h : stmt.WellTyped s.lookup f) : ∃ type, stmt.typeIn s result = .ok type := by
  induction h with
  | pass => exact ⟨.void, rfl⟩
  | expr value => exact ⟨_, Expr.typeIn_of_hasType value⟩
  | @assign span name e type bound value own =>
    have hlocal : (result.isSome && !s.isLocal name) = false := by
      cases hg : f with
      | none => rw [hf.result, hg]; rfl
      | some g => simp [(hf.own g hg name).mp (own g hg)]
    refine ⟨.void, ?_⟩
    simp only [typeIn, Scopes.typeOf?_eq_some.mpr bound, hlocal, Bool.false_eq_true, ↓reduceIte,
      bind_eq_ok]
    exact ⟨type, Expr.typeIn_of_hasType value, if_pos rfl⟩
  | @ret span e g inside value =>
    refine ⟨g.result, ?_⟩
    have hresult : result = some g.result := by rw [hf.result, inside]; rfl
    simp only [typeIn, hresult, bind_eq_ok]
    exact ⟨g.result, Expr.typeIn_of_hasType value, by rw [if_pos rfl]; rfl⟩
  | ifElse cond _ _ ihy ihn =>
    refine ⟨.void, ?_⟩
    simp only [typeIn, bind_eq_ok]
    exact ⟨(), Expr.checkCondition_of cond, (), checkAll_of_typed ihy, (), checkAll_of_typed ihn,
      rfl⟩
  | ifElif cond _ cond' _ _ ihy ihy' ihn =>
    refine ⟨.void, ?_⟩
    simp only [typeIn, bind_eq_ok]
    exact ⟨(), Expr.checkCondition_of cond, (), checkAll_of_typed ihy, (),
      Expr.checkCondition_of cond', (), checkAll_of_typed ihy', (), checkAll_of_typed ihn, rfl⟩
  | whileDo cond _ ih =>
    refine ⟨.void, ?_⟩
    simp only [typeIn, bind_eq_ok]
    exact ⟨(), Expr.checkCondition_of cond, (), checkAll_of_typed ih, rfl⟩

/-- Statements pass the check exactly if each of them is well typed. -/
theorem checkAll_iff (hf : s.Within result f) {stmts : List Stmt} :
    checkAll s result stmts = .ok () ↔ ∀ stmt ∈ stmts, stmt.WellTyped s.lookup f := by
  refine ⟨wellTyped_of_checkAll hf stmts, fun h => checkAll_of_typed fun stmt hm => ?_⟩
  exact typeIn_of_wellTyped hf (h stmt hm)

theorem WellTyped.not_declaration {Γ : Meaning} {stmt : Stmt} (h : stmt.WellTyped Γ f) :
    stmt.isDeclaration = false := by
  cases h <;> rfl

end Statements

section Declarations

variable {inFunction : Bool} {s s' : Scopes} {head rest : List Stmt}

theorem bindings_append (a b : List Stmt) : bindings (a ++ b) = bindings a ++ bindings b :=
  List.filterMap_append

theorem declaredNames_append (a b : List Stmt) :
    declaredNames (a ++ b) = declaredNames a ++ declaredNames b := by
  rw [declaredNames, bindings_append, List.map_append]
  rfl

theorem lookup_withVariable_eq (s : Scopes) (name : String) (type : Ty) :
    (s.withVariable name type).lookup = Meaning.extend s.lookup (name, .variable type) :=
  funext fun other => s.lookup_withVariable name other type

theorem lookup_withFunction_eq {s : Scopes} {name : String} (h : s.inner.get? name = none)
    (sig : Signature) :
    (s.withFunction name sig).lookup = Meaning.extend s.lookup (name, .function sig) :=
  funext fun other => Scopes.lookup_withFunction h other sig

/-- After declarations names mean what they declare, and otherwise what they meant before. -/
theorem Declares.lookup_eq (h : Declares inFunction s head s') :
    s'.lookup = Meaning.extendAll s.lookup (bindings head) := by
  induction h with
  | nil => rfl
  | init _ _ _ _ ih =>
    rw [ih, lookup_withVariable_eq]
    rfl
  | define _ _ free _ ih =>
    rw [ih, lookup_withFunction_eq (Scopes.inner_none free)]
    rfl

structure Declarable (inFunction : Bool) (s : Scopes) (head : List Stmt) : Prop where
  declarations : ∀ stmt ∈ head, stmt.isDeclaration = true
  names : (declaredNames head).Nodup
  free : ∀ name ∈ declaredNames head, s.inner.get? name = none
  vars : inFunction = false → ∀ name type, (name, .variable type) ∈ bindings head →
    ∀ sig, s.lookupOuter name ≠ some (.function sig)
  funcs : ∀ name sig, (name, .function sig) ∈ bindings head →
    inFunction = false ∧ isReserved name = false ∧ s.lookupOuter name = none
  values : ValuesTyped s.lookup head

theorem ValuesTyped.tail {Γ : Meaning} {stmt : Stmt} (h : ValuesTyped Γ (stmt :: head)) :
    ValuesTyped (Γ.extendAll (bindings [stmt])) head := by
  intro pre span name type value post he
  have hall := h (stmt :: pre) span name type value post (by rw [he]; rfl)
  have hsplit : bindings (stmt :: pre) = bindings [stmt] ++ bindings pre :=
    bindings_append [stmt] pre
  rwa [hsplit, Meaning.extendAll_append] at hall

theorem ValuesTyped.cons {Γ : Meaning} {stmt : Stmt}
    (hfirst : ∀ span name type value, stmt = .init span name type value → value.HasType Γ type)
    (h : ValuesTyped (Γ.extendAll (bindings [stmt])) head) : ValuesTyped Γ (stmt :: head) := by
  intro pre span name type value post he
  cases pre with
  | nil =>
    rw [List.nil_append, List.cons.injEq] at he
    exact hfirst span name type value he.1
  | cons first pre =>
    rw [List.cons_append, List.cons.injEq] at he
    obtain ⟨rfl, he⟩ := he
    have hrest := h pre span name type value post he
    have hsplit : bindings (stmt :: pre) = bindings [stmt] ++ bindings pre :=
      bindings_append [stmt] pre
    rwa [hsplit, Meaning.extendAll_append]

theorem inner_withVariable (s : Scopes) (name other : String) (type : Ty) :
    (s.withVariable name type).inner.get? other =
      if other = name then some (.variable type) else s.inner.get? other :=
  Layer.get?_insertVariable s.inner name other type

theorem inner_withFunction {s : Scopes} {name : String} (h : s.inner.get? name = none)
    (other : String) (sig : Signature) :
    (s.withFunction name sig).inner.get? other =
      if other = name then some (.function sig) else s.inner.get? other :=
  Layer.get?_insertFunction (Layer.get?_none h).1 other sig

/-- Names that are free behind a declaration were free before it, and are not its name. -/
theorem free_before {before after : Meaning} {name : String} {b : Binding} {names : List String}
    (hafter : ∀ other, after other = if other = name then some b else before other)
    (h : ∀ other ∈ names, after other = none) :
    name ∉ names ∧ ∀ other ∈ names, before other = none := by
  refine ⟨fun hm => ?_, fun other hm => ?_⟩
  · have hnone := h name hm
    rw [hafter, if_pos rfl] at hnone
    cases hnone
  · have hnone := h other hm
    rw [hafter] at hnone
    split at hnone
    · cases hnone
    · exact hnone

/-- Declarations that are taken up one by one keep to the rules, which speak of all of them at
once. -/
theorem Declares.declarable (h : Declares inFunction s head s') : Declarable inFunction s head := by
  induction h with
  | nil => exact ⟨by simp, List.nodup_nil, by simp [declaredNames, bindings],
      by simp [bindings], by simp [bindings], fun _ _ _ _ _ _ he => by simp at he⟩
  | @init s s' span name type value ss typed free kept _ ih =>
    obtain ⟨hnot, hfree⟩ := free_before (fun other => inner_withVariable s name other type) ih.free
    refine ⟨?_, List.nodup_cons.mpr ⟨hnot, ih.names⟩, ?_, ?_, ?_, ?_⟩
    · intro stmt hm
      rcases List.mem_cons.mp hm with rfl | hm
      · rfl
      · exact ih.declarations stmt hm
    · intro other hm
      rcases List.mem_cons.mp hm with rfl | hm
      · exact free
      · exact hfree other hm
    · intro htop other t hm sig
      rcases List.mem_cons.mp hm with he | hm
      · cases he
        have hk := kept htop sig
        rwa [Scopes.lookup_eq, free, Option.none_or] at hk
      · exact ih.vars htop other t hm sig
    · intro other sig hm
      rcases List.mem_cons.mp hm with he | hm
      · cases he
      · exact ih.funcs other sig hm
    · refine ValuesTyped.cons ?_ ?_
      · rintro _ _ _ _ ⟨⟩
        exact Expr.hasType_of_typeIn value typed
      · have hrest := ih.values
        rwa [lookup_withVariable_eq] at hrest
  | @define s s' span name params result body ss top own free _ ih =>
    have hinner := Scopes.inner_none free
    obtain ⟨hnot, hfree⟩ := free_before
      (fun other => inner_withFunction hinner other (signatureOf params result)) ih.free
    refine ⟨?_, List.nodup_cons.mpr ⟨hnot, ih.names⟩, ?_, ?_, ?_, ?_⟩
    · intro stmt hm
      rcases List.mem_cons.mp hm with rfl | hm
      · rfl
      · exact ih.declarations stmt hm
    · intro other hm
      rcases List.mem_cons.mp hm with rfl | hm
      · exact hinner
      · exact hfree other hm
    · intro htop other t hm sig
      rcases List.mem_cons.mp hm with he | hm
      · cases he
      · exact ih.vars htop other t hm sig
    · intro other sig hm
      rcases List.mem_cons.mp hm with he | hm
      · cases he
        rw [Scopes.lookup_eq, hinner, Option.none_or] at free
        exact ⟨top, own, free⟩
      · exact ih.funcs other sig hm
    · refine ValuesTyped.cons (by simp) ?_
      have hrest := ih.values
      rwa [lookup_withFunction_eq hinner] at hrest

theorem Declarable.tail {stmt : Stmt} {t : Scopes} {entry : String × Binding}
    (h : Declarable inFunction s (stmt :: head)) (hentry : stmt.binding? = some entry)
    (hinner : ∀ other, t.inner.get? other =
      if other = entry.1 then some entry.2 else s.inner.get? other)
    (houter : t.outer = s.outer) (hlookup : t.lookup = Meaning.extend s.lookup entry) :
    Declarable inFunction t head := by
  have hbindings : bindings (stmt :: head) = entry :: bindings head :=
    List.filterMap_cons_some hentry
  have hnames : declaredNames (stmt :: head) = entry.1 :: declaredNames head := by
    rw [declaredNames, hbindings]
    rfl
  have houter (name : String) : t.lookupOuter name = s.lookupOuter name := by
    rw [Scopes.lookupOuter, houter]
    rfl
  have hdistinct := h.names
  rw [hnames, List.nodup_cons] at hdistinct
  have hmem {e : String × Binding} (hm : e ∈ bindings head) : e ∈ bindings (stmt :: head) := by
    rw [hbindings]
    exact List.mem_cons_of_mem entry hm
  refine ⟨fun other hm => h.declarations other (List.mem_cons_of_mem stmt hm), hdistinct.2, ?_, ?_,
    ?_, ?_⟩
  · intro name hm
    have hne : name ≠ entry.1 := by
      rintro rfl
      exact hdistinct.1 hm
    rw [hinner, if_neg hne]
    exact h.free name (by rw [hnames]; exact List.mem_cons_of_mem _ hm)
  · intro htop name type hm sig
    rw [houter]
    exact h.vars htop name type (hmem hm) sig
  · intro name sig hm
    rw [houter]
    exact h.funcs name sig (hmem hm)
  · have hrest := h.values.tail
    have hone : bindings [stmt] = [entry] := List.filterMap_cons_some hentry
    rw [hone] at hrest
    rw [hlookup]
    exact hrest

/-- Declarations that keep to the rules are taken up. -/
theorem Declarable.declares (h : Declarable inFunction s head) :
    ∃ s', Declares inFunction s head s' := by
  induction head generalizing s with
  | nil => exact ⟨s, .nil s⟩
  | cons stmt head ih =>
    cases stmt with
    | init span name type value =>
      have hfree : s.inner.get? name = none := h.free name List.mem_cons_self
      obtain ⟨s', hs'⟩ := ih (s := s.withVariable name type) <|
        h.tail rfl (fun other => inner_withVariable s name other type) rfl
          (lookup_withVariable_eq s name type)
      refine ⟨s', .init ?_ hfree ?_ hs'⟩
      · exact Expr.typeIn_of_hasType (h.values [] span name type value head rfl)
      · intro htop sig
        rw [Scopes.lookup_eq, hfree, Option.none_or]
        exact h.vars htop name type (by simp [bindings, binding?]) sig
    | define span name params result body =>
      have hfree : s.inner.get? name = none := h.free name List.mem_cons_self
      obtain ⟨htop, hown, houter⟩ := h.funcs name (signatureOf params result)
        (by simp [bindings, binding?])
      obtain ⟨s', hs'⟩ := ih (s := s.withFunction name (signatureOf params result)) <|
        h.tail rfl (fun other => inner_withFunction hfree other _) rfl
          (lookup_withFunction_eq hfree _)
      refine ⟨s', .define htop hown ?_ hs'⟩
      rw [Scopes.lookup_eq, hfree, Option.none_or]
      exact houter
    | _ => simpa [isDeclaration] using h.declarations _ List.mem_cons_self

theorem declareVariable_of {name : String} {type : Ty} (free : s.inner.get? name = none)
    (kept : inFunction = false → ∀ sig, s.lookup name ≠ some (.function sig)) (at_ : Position) :
    declareVariable s inFunction name type at_ = .ok (s.withVariable name type) := by
  have hconflict : (!inFunction && s.conflictsOuter name false) = false := by
    rw [Bool.eq_false_iff, ne_eq, Bool.and_eq_true, Scopes.conflictsOuter_variable]
    rintro ⟨htop, sig, hsig⟩
    refine kept (by simpa using htop) sig ?_
    rw [Scopes.lookup_eq, free, Option.none_or, hsig]
  rw [declareVariable, Scopes.settled_put, Binding.isFunction, hconflict, Layer.put_of_free free]
  rfl

theorem declareFunction_of {name : String} (free : s.lookup name = none) (sig : Signature)
    (at_ : Position) : s.declareFunction name sig at_ = .ok (s.withFunction name sig) := by
  have hinner := Scopes.inner_none free
  rw [Scopes.lookup_eq, hinner, Option.none_or] at free
  have hconflict : s.conflictsOuter name true = false := by
    rw [Bool.eq_false_iff, ne_eq, Scopes.conflictsOuter_function, not_not]
    exact free
  rw [Scopes.declareFunction, Scopes.settled_put, Binding.isFunction, hconflict,
    Layer.put_of_free hinner]
  rfl

theorem declareAll_of_declares (h : Declares inFunction s head s')
    (hrest : ∀ stmt ∈ rest, stmt.isDeclaration = false) :
    declareAll s inFunction (head ++ rest) = .ok (s', rest) := by
  induction h with
  | nil =>
    cases rest with
    | nil => rfl
    | cons stmt rest =>
      have hfirst := hrest stmt List.mem_cons_self
      cases stmt with
      | init | define => cases hfirst
      | _ => rfl
  | init typed free kept _ ih =>
    simp only [List.cons_append, declareAll, bind_eq_ok]
    refine ⟨_, typed, ?_⟩
    rw [if_pos rfl, bind_eq_ok]
    exact ⟨_, declareVariable_of free kept _, ih⟩
  | define top own free _ ih =>
    subst top
    simp only [List.cons_append, declareAll, own, Bool.false_eq_true, ↓reduceIte, bind_eq_ok]
    exact ⟨_, declareFunction_of free _ _, ih⟩

end Declarations

section Functions

variable {s s' : Scopes} {params : List Param} {result : Ty} {head rest body : List Stmt}

/-- In a function the names of its parameters mean these. -/
theorem lookup_paramLayer {l l' : Layer} (h : paramLayer l params = .ok l') :
    (s.push l').lookup = Meaning.extendAll (s.push l).lookup (paramBindings params) := by
  induction params generalizing l with
  | nil =>
    cases h
    rfl
  | cons p params ih =>
    simp only [paramLayer, bind_eq_ok] at h
    obtain ⟨m, hm, h⟩ := h
    obtain ⟨_, rfl⟩ := Layer.declareVariable_ok hm
    rw [ih h]
    exact congrArg (Meaning.extendAll · (paramBindings params))
      (lookup_withVariable_eq (s.push l) p.name p.type)

/-- Parameters need names of their own. -/
theorem paramLayer_iff {l : Layer} : (∃ l', paramLayer l params = .ok l') ↔
    (params.map (·.name)).Nodup ∧ ∀ name ∈ params.map (·.name), l.get? name = none := by
  induction params generalizing l with
  | nil => simp [paramLayer]
  | cons p params ih =>
    simp only [paramLayer, bind_eq_ok]
    constructor
    · rintro ⟨l', m, hm, h⟩
      obtain ⟨hfree, rfl⟩ := Layer.declareVariable_ok hm
      obtain ⟨hnames, hnone⟩ := ih.mp ⟨l', h⟩
      obtain ⟨hnot, hother⟩ :=
        free_before (fun other => Layer.get?_insertVariable l p.name other p.type) hnone
      exact ⟨List.nodup_cons.mpr ⟨hnot, hnames⟩, List.forall_mem_cons.mpr ⟨hfree, hother⟩⟩
    · rintro ⟨hnames, hnone⟩
      obtain ⟨hnot, hnames⟩ := List.nodup_cons.mp hnames
      obtain ⟨hfree, hnone⟩ := List.forall_mem_cons.mp hnone
      have hm : l.declareVariable p.name p.type p.span.first =
          .ok { l with vars := l.vars.insert p.name p.type } := by
        rw [Layer.declareVariable, Layer.put_of_free hfree]
        rfl
      obtain ⟨l', hl'⟩ := (ih (l := { l with vars := l.vars.insert p.name p.type })).mpr
        ⟨hnames, fun name hn => by
          rw [Layer.get?_insertVariable, if_neg (by rintro rfl; exact hnot hn)]
          exact hnone name hn⟩
      exact ⟨l', _, hm, hl'⟩

theorem paramLayer_names {l l' : Layer} (h : paramLayer l params = .ok l') (name : String) :
    l'.vars.get? name ≠ none ↔ name ∈ params.map (·.name) ∨ l.vars.get? name ≠ none := by
  obtain ⟨_, hparam, hother, _⟩ := paramLayer_ok h
  by_cases hm : name ∈ params.map (·.name)
  · obtain ⟨p, hp, rfl⟩ := List.mem_map.mp hm
    simp [hparam p hp, hm]
  · rw [hother name fun p hp he => hm (List.mem_map.mpr ⟨p, hp, he⟩)]
    simp [hm]

/-- The names of a function are those of its parameters and of the variables that it declares. -/
theorem Declares.inner_names (h : Declares true s head s') (name : String) :
    s'.inner.vars.get? name ≠ none ↔
      s.inner.vars.get? name ≠ none ∨ name ∈ declaredNames head := by
  induction h with
  | nil => simp [declaredNames, bindings]
  | @init s s' span x type value ss _ _ _ _ ih =>
    have hnames : declaredNames (.init span x type value :: ss) = x :: declaredNames ss := rfl
    rw [ih, hnames, List.mem_cons]
    simp only [Scopes.withVariable, Table.get?_insert]
    by_cases hx : name = x <;> simp [hx]
  | define top => cases top

theorem Declares.only_variables (h : Declares true s head s') :
    ∀ stmt ∈ head, ∃ span name type value, stmt = .init span name type value := by
  induction h with
  | nil => simp
  | init _ _ _ _ ih => exact List.forall_mem_cons.mpr ⟨⟨_, _, _, _, rfl⟩, ih⟩
  | define top => cases top

/-- Behind its declarations a function knows its names. -/
theorem within_function {layer : Layer} (hl : paramLayer .empty params = .ok layer)
    (hd : Declares true (s.push layer) head s') :
    s'.Within (some result) (some ⟨result, params.map (·.name) ++ declaredNames head⟩) := by
  refine ⟨rfl, fun g hg name => ?_⟩
  cases hg
  have hinner := hd.inner_names name
  have hparams := paramLayer_names hl name
  have hempty : Layer.empty.vars.get? name = none := rfl
  simp only [hempty, ne_eq, not_true_eq_false, or_false] at hparams
  have hpush : (s.push layer).inner = layer := rfl
  rw [hpush, ne_eq, ne_eq, hparams] at hinner
  rw [List.mem_append, ← hinner, Scopes.isLocal, Table.contains, Option.isSome_iff_ne_none]

theorem lookup_params {layer : Layer} (h : paramLayer .empty params = .ok layer) :
    (s.push layer).lookup = Meaning.extendAll s.lookup (paramBindings params) := by
  have hstart : (s.push .empty).lookup = s.lookup := funext fun name => s.lookup_push .empty name
  rw [lookup_paramLayer h, hstart]

/-- Variables with names that no parameter has can be declared in a function. -/
theorem declarable_function {layer : Layer} (hl : paramLayer .empty params = .ok layer)
    (hdecls : ∀ stmt ∈ head, ∃ span name type value, stmt = .init span name type value)
    (hnames : (params.map (·.name) ++ declaredNames head).Nodup)
    (hvalues : ValuesTyped (Meaning.extendAll s.lookup (paramBindings params)) head) :
    Declarable true (s.push layer) head := by
  obtain ⟨_, hdistinct, hapart⟩ := List.nodup_append.mp hnames
  refine ⟨?_, hdistinct, ?_, by simp, ?_, ?_⟩
  · intro stmt hm
    obtain ⟨_, _, _, _, rfl⟩ := hdecls stmt hm
    rfl
  · intro name hm
    have hnot : name ∉ params.map (·.name) := fun hp => hapart name hp name hm rfl
    have hvar : layer.vars.get? name = none := by
      by_contra hne
      rcases (paramLayer_names hl name).mp hne with hp | hempty
      · exact hnot hp
      · exact hempty rfl
    have hfunc : layer.funcs = .empty := (paramLayer_ok hl).1
    change layer.get? name = none
    simp [Layer.get?, hvar, hfunc]
  · intro name sig hm
    obtain ⟨stmt, hs, hb⟩ := List.mem_filterMap.mp hm
    obtain ⟨_, _, _, _, rfl⟩ := hdecls stmt hs
    cases hb
  · rw [lookup_params hl]
    exact hvalues

/-- A function is accepted exactly if it is well typed. -/
theorem checkFunction_iff :
    checkFunction s params result body = .ok () ↔ FunctionTyped s.lookup params result body := by
  constructor
  · intro h
    obtain ⟨layer, head, rest, s', hl, rfl, hd, hc⟩ := checkFunction_ok h
    have hlookup := lookup_params (s := s) hl
    have hdecl := hd.declarable
    obtain ⟨hnames, _⟩ := paramLayer_iff.mp ⟨layer, hl⟩
    refine .intro hd.only_variables ?_ ?_ ?_
    · refine List.nodup_append.mpr ⟨hnames, hdecl.names, ?_⟩
      rintro name hp _ hn rfl
      have hfree := (Layer.get?_none (hdecl.free name hn)).1
      exact (paramLayer_names hl name).mpr (.inl hp) hfree
    · rw [← hlookup]
      exact hdecl.values
    · rw [← hlookup, ← hd.lookup_eq]
      exact (checkAll_iff (within_function hl hd)).mp hc
  · rintro ⟨hdecls, hnames, hvalues, hstmts⟩
    obtain ⟨layer, hl⟩ := (paramLayer_iff (l := .empty)).mpr
      ⟨(List.nodup_append.mp hnames).1, fun _ _ => rfl⟩
    obtain ⟨s', hd⟩ := (declarable_function hl hdecls hnames hvalues).declares
    rw [← lookup_params hl, ← hd.lookup_eq] at hstmts
    simp only [checkFunction, bind_eq_ok]
    refine ⟨layer, hl, _, declareAll_of_declares hd fun stmt hm => ?_, ?_⟩
    · exact (hstmts stmt hm).not_declaration
    · exact (checkAll_iff (within_function hl hd)).mpr hstmts

theorem checkFunctions_of (hdecls : ∀ stmt ∈ head, stmt.isDeclaration = true)
    (hrest : ∀ stmt ∈ rest, stmt.isDeclaration = false)
    (h : ∀ span name params result body, .define span name params result body ∈ head →
      checkFunction s params result body = .ok ()) : checkFunctions s (head ++ rest) = .ok () := by
  induction head with
  | nil =>
    cases rest with
    | nil => rfl
    | cons stmt rest =>
      have hfirst := hrest stmt List.mem_cons_self
      cases stmt with
      | init | define => cases hfirst
      | _ => rfl
  | cons stmt head ih =>
    obtain ⟨hfirst, hdecls⟩ := List.forall_mem_cons.mp hdecls
    have hlater := ih hdecls fun span name params result body hm =>
      h span name params result body (List.mem_cons_of_mem stmt hm)
    cases stmt with
    | init => exact hlater
    | define span name params result body =>
      simp only [List.cons_append, checkFunctions, bind_eq_ok]
      exact ⟨(), h span name params result body List.mem_cons_self, hlater⟩
    | _ => cases hfirst

theorem lastType_of_checkAll {stmts : List Stmt} (h : checkAll s none stmts = .ok ()) (type : Ty) :
    ∃ last, lastType s type stmts = .ok last := by
  induction stmts generalizing type with
  | nil => exact ⟨type, rfl⟩
  | cons stmt stmts ih =>
    obtain ⟨⟨t, ht⟩, h⟩ := checkAll_cons h
    obtain ⟨last, hlast⟩ := ih h (if t.isValue then t else type)
    refine ⟨last, ?_⟩
    simp only [lastType, bind_eq_ok]
    exact ⟨t, ht, hlast⟩

end Functions

end Stmt

namespace Program

variable {s₀ s : Scopes} {p : Program} {typing : Typing}

/-- A program that is accepted is well typed: the value of a declaration is typed with the
declarations before it, everything else with all of them. -/
theorem Checked.wellTyped {head rest : List Stmt} (h : p.Checked s₀ head rest s typing)
    (hempty : ∀ name, s₀.inner.get? name = none) : p.WellTyped s₀.lookup := by
  obtain ⟨body⟩ := p
  obtain rfl : body = head ++ rest := h.body
  have hdecl := h.declares.declarable
  have hlookup := h.declares.lookup_eq
  have houter (name : String) : s₀.lookupOuter name = s₀.lookup name := by
    rw [Scopes.lookup_eq, hempty, Option.none_or]
  refine .intro hdecl.declarations hdecl.names ?_ ?_ hdecl.values ?_ ?_
  · intro name type hm sig
    rw [← houter]
    exact hdecl.vars rfl name type hm sig
  · intro name sig hm
    rw [← houter]
    exact (hdecl.funcs name sig hm).2
  · intro span name params result body hm
    rw [← hlookup]
    exact Stmt.checkFunction_iff.mp
      (h.functions span name params result body (List.mem_append_left rest hm))
  · rw [← hlookup]
    exact (Stmt.checkAll_iff ⟨rfl, by simp⟩).mp (Stmt.checkAll_of_lastType h.last)

/-- A program that is well typed is accepted. -/
theorem WellTyped.typeFrom (hempty : ∀ name, s₀.inner.get? name = none)
    (h : p.WellTyped s₀.lookup) : ∃ typing, p.typeFrom s₀ = .ok typing := by
  obtain ⟨hdecls, hnames, hvars, hfuncs, hvalues, hbodies, hstmts⟩ := h
  rename_i head rest
  have houter (name : String) : s₀.lookupOuter name = s₀.lookup name := by
    rw [Scopes.lookup_eq, hempty, Option.none_or]
  have hdecl : Stmt.Declarable false s₀ head := by
    refine ⟨hdecls, hnames, fun name _ => hempty name, ?_, ?_, hvalues⟩
    · intro _ name type hm sig
      rw [houter]
      exact hvars name type hm sig
    · intro name sig hm
      rw [houter]
      exact ⟨rfl, hfuncs name sig hm⟩
  obtain ⟨s, hd⟩ := hdecl.declares
  rw [← hd.lookup_eq] at hbodies hstmts
  have hrest : ∀ stmt ∈ rest, stmt.isDeclaration = false :=
    fun stmt hm => (hstmts stmt hm).not_declaration
  have hcheck : Stmt.checkAll s none rest = .ok () := (Stmt.checkAll_iff ⟨rfl, by simp⟩).mpr hstmts
  obtain ⟨last, hlast⟩ := Stmt.lastType_of_checkAll hcheck .none
  have hfunctions : Stmt.checkFunctions s (head ++ rest) = .ok () :=
    Stmt.checkFunctions_of hdecls hrest fun span name params result body hm =>
      Stmt.checkFunction_iff.mpr (hbodies span name params result body hm)
  refine ⟨⟨last, s.flatten⟩, ?_⟩
  simp only [Program.typeFrom, bind_eq_ok]
  exact ⟨(s, rest), Stmt.declareAll_of_declares hd hrest, last, hlast, (), hfunctions, rfl⟩

/-- In scopes whose innermost layer is empty, checking accepts the well typed programs. -/
theorem typeFrom_iff (hempty : ∀ name, s₀.inner.get? name = none) :
    (∃ typing, p.typeFrom s₀ = .ok typing) ↔ p.WellTyped s₀.lookup := by
  constructor
  · rintro ⟨typing, h⟩
    obtain ⟨head, rest, s, hc⟩ := typeFrom_ok h
    exact hc.wellTyped hempty
  · exact WellTyped.typeFrom hempty

theorem typeOn_iff {seed : Layer} :
    (∃ typing, p.typeOn seed = .ok typing) ↔ p.WellTyped seed.get? := by
  have hlookup : (Scopes.seeded seed).lookup = seed.get? := funext (Scopes.lookup_seeded seed)
  rw [← hlookup]
  exact typeFrom_iff fun _ => rfl

/-- Checking decides typing, on top of earlier units and on its own: a program is accepted exactly
if it is well typed by the rules. -/
theorem checking_decides_typing (seed : Layer) (p : Program) :
    ((∃ typing, p.typeOn seed = .ok typing) ↔ p.WellTyped seed.get?) ∧
      ((∃ typing, p.typeAlone = .ok typing) ↔ p.WellTyped fun _ => none) :=
  ⟨typeOn_iff, typeFrom_iff fun _ => rfl⟩

end Program

end StackScript
