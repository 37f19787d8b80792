import StackScript.Proofs.Linking

namespace StackScript

def Scopes.Calls (known : String → Option Signature) (s : Scopes) : Prop :=
  ∀ name sig, s.signatureOf? name = some sig → known name = some sig

theorem Scopes.signatureOf?_eq_some {s : Scopes} {name : String} {sig : Signature} :
    s.signatureOf? name = some sig ↔ s.lookup name = some (.function sig) := by
  unfold Scopes.signatureOf?
  split <;> simp_all

theorem Scopes.typeOf?_eq_some {s : Scopes} {name : String} {type : Ty} :
    s.typeOf? name = some type ↔ s.lookup name = some (.variable type) := by
  unfold Scopes.typeOf?
  split <;> simp_all

def arityOf (known : String → Option Signature) (name : String) : Option Nat :=
  (known name).map fun sig => sig.params.length

section Calls

variable {known : String → Option Signature} {s : Scopes}

namespace Expr

theorem typeIn_unary {span : Span} {op : UnaryOp} {operand : Expr} {type : Ty}
    (h : (Expr.unary span op operand).typeIn s = .ok type) :
    operand.typeIn s = .ok (unaryType op) ∧ type = unaryType op := by
  obtain ⟨t, ht, h⟩ := bind_eq_ok.mp h
  split at h
  · rename_i he
    cases h
    exact ⟨he ▸ ht, rfl⟩
  · cases h

theorem typeIn_binary {span : Span} {op : BinaryOp} {left right : Expr} {type : Ty}
    (h : (Expr.binary span op left right).typeIn s = .ok type) :
    ∃ l r, left.typeIn s = .ok l ∧ right.typeIn s = .ok r ∧ binaryType? op l r = some type := by
  obtain ⟨l, hl, h⟩ := bind_eq_ok.mp h
  obtain ⟨r, hr, h⟩ := bind_eq_ok.mp h
  refine ⟨l, r, hl, hr, ?_⟩
  split at h
  · rename_i t ht
    cases h
    exact ht
  · cases h

/-- A typed call is to a function that is known, with arguments of the types of its parameters. -/
theorem typeIn_call {span : Span} {callee : String} {args : List Expr} {type : Ty}
    (h : (Expr.call span callee args).typeIn s = .ok type) :
    ∃ sig, s.signatureOf? callee = some sig ∧ args.length = sig.params.length ∧
      checkArgs s 0 sig.params args = .ok () ∧ type = sig.result := by
  simp only [typeIn] at h
  split at h
  · cases h
  · rename_i sig hs
    split at h
    · cases h
    · rename_i hlen
      simp only [bind_eq_ok, pure_eq_ok] at h
      obtain ⟨_, hargs, rfl⟩ := h
      exact ⟨sig, hs, by omega, hargs, rfl⟩

theorem checkArgs_cons {index : Nat} {expected : Ty} {types : List Ty} {e : Expr} {es : List Expr}
    (h : checkArgs s index (expected :: types) (e :: es) = .ok ()) :
    e.typeIn s = .ok expected ∧ checkArgs s (index + 1) types es = .ok () := by
  obtain ⟨received, hr, h⟩ := bind_eq_ok.mp h
  split at h
  · rename_i he
    exact ⟨he ▸ hr, h⟩
  · cases h

mutual

/-- The calls of a typed expression have as many arguments as their functions take. -/
theorem callsFit_of_typeIn (hk : s.Calls known) (e : Expr) {type : Ty}
    (h : e.typeIn s = .ok type) : e.CallsFit (arityOf known) := by
  match e with
  | .noneLit _ | .boolLit .. | .intLit .. | .var .. => trivial
  | .unary _ _ operand => exact callsFit_of_typeIn hk operand (typeIn_unary h).1
  | .binary _ _ left right =>
    obtain ⟨l, r, hl, hr, _⟩ := typeIn_binary h
    exact ⟨callsFit_of_typeIn hk left hl, callsFit_of_typeIn hk right hr⟩
  | .call _ callee args =>
    obtain ⟨sig, hs, hlen, hargs, _⟩ := typeIn_call h
    refine ⟨?_, callsFit_of_checkArgs hk args hlen hargs⟩
    rw [arityOf, hk callee sig hs, hlen]
    rfl
  | .print _ arg => exact callsFit_of_typeIn hk arg h

theorem callsFit_of_checkArgs (hk : s.Calls known) (es : List Expr) {index : Nat}
    {types : List Ty} (hlen : es.length = types.length)
    (h : checkArgs s index types es = .ok ()) : CallsFitAll (arityOf known) es := by
  match es, types with
  | [], _ => trivial
  | _ :: _, [] => simp at hlen
  | e :: es, type :: types =>
    obtain ⟨he, hes⟩ := checkArgs_cons h
    exact ⟨callsFit_of_typeIn hk e he, callsFit_of_checkArgs hk es (by simpa using hlen) hes⟩

end

theorem checkCondition_ok {cond : Expr} (h : cond.checkCondition s = .ok ()) :
    cond.typeIn s = .ok .bool := by
  obtain ⟨type, ht, h⟩ := bind_eq_ok.mp h
  split at h
  · rename_i he
    exact he ▸ ht
  · cases h

end Expr

namespace Stmt

variable {result : Option Ty}

theorem checkAll_cons {stmt : Stmt} {stmts : List Stmt}
    (h : checkAll s result (stmt :: stmts) = .ok ()) :
    (∃ type, stmt.typeIn s result = .ok type) ∧ checkAll s result stmts = .ok () := by
  obtain ⟨type, ht, h⟩ := bind_eq_ok.mp h
  exact ⟨⟨type, ht⟩, h⟩

/-- A return stands in a function, and gives a value of its result type. -/
theorem typeIn_ret {span : Span} {value : Expr} {type : Ty}
    (h : (Stmt.ret span value).typeIn s result = .ok type) :
    ∃ expected, result = some expected ∧ value.typeIn s = .ok expected := by
  simp only [typeIn] at h
  split at h
  · cases h
  · rename_i expected
    rw [bind_eq_ok] at h
    obtain ⟨t, ht, h⟩ := h
    split at h
    · rename_i he
      exact ⟨expected, rfl, he ▸ ht⟩
    · cases h

/-- An assignment inside a function is to one of its own variables. -/
theorem typeIn_assign {span : Span} {name : String} {value : Expr} {type : Ty}
    (h : (Stmt.assign span name value).typeIn s result = .ok type) :
    ∃ expected, s.typeOf? name = some expected ∧ value.typeIn s = .ok expected ∧
      (result.isSome = true → s.isLocal name = true) := by
  simp only [typeIn] at h
  split at h
  · cases h
  · rename_i expected hx
    split at h
    · cases h
    · rename_i hl
      rw [bind_eq_ok] at h
      obtain ⟨t, ht, h⟩ := h
      split at h
      · rename_i he
        refine ⟨expected, hx, he ▸ ht, fun hr => ?_⟩
        simpa [hr] using hl
      · cases h

theorem typeIn_ifElse {span : Span} {cond : Expr} {yes no : List Stmt} {type : Ty}
    (h : (Stmt.ifElse span cond yes no).typeIn s result = .ok type) :
    cond.typeIn s = .ok .bool ∧ checkAll s result yes = .ok () ∧ checkAll s result no = .ok () := by
  obtain ⟨_, hc, h⟩ := bind_eq_ok.mp h
  obtain ⟨_, hy, h⟩ := bind_eq_ok.mp h
  obtain ⟨_, hn, -⟩ := bind_eq_ok.mp h
  exact ⟨Expr.checkCondition_ok hc, hy, hn⟩

theorem typeIn_ifElif {span : Span} {cond cond' : Expr} {yes yes' no : List Stmt} {type : Ty}
    (h : (Stmt.ifElif span cond yes cond' yes' no).typeIn s result = .ok type) :
    cond.typeIn s = .ok .bool ∧ checkAll s result yes = .ok () ∧ cond'.typeIn s = .ok .bool ∧
      checkAll s result yes' = .ok () ∧ checkAll s result no = .ok () := by
  obtain ⟨_, hc, h⟩ := bind_eq_ok.mp h
  obtain ⟨_, hy, h⟩ := bind_eq_ok.mp h
  obtain ⟨_, hc', h⟩ := bind_eq_ok.mp h
  obtain ⟨_, hy', h⟩ := bind_eq_ok.mp h
  obtain ⟨_, hn, -⟩ := bind_eq_ok.mp h
  exact ⟨Expr.checkCondition_ok hc, hy, Expr.checkCondition_ok hc', hy', hn⟩

theorem typeIn_whileDo {span : Span} {cond : Expr} {body : List Stmt} {type : Ty}
    (h : (Stmt.whileDo span cond body).typeIn s result = .ok type) :
    cond.typeIn s = .ok .bool ∧ checkAll s result body = .ok () := by
  obtain ⟨_, hc, h⟩ := bind_eq_ok.mp h
  obtain ⟨_, hb, -⟩ := bind_eq_ok.mp h
  exact ⟨Expr.checkCondition_ok hc, hb⟩

theorem typeIn_init {span : Span} {name : String} {type t : Ty} {value : Expr} :
    (Stmt.init span name type value).typeIn s result ≠ .ok t := by
  intro h
  cases h

theorem typeIn_define {span : Span} {name : String} {params : List Param} {returned t : Ty}
    {body : List Stmt} : (Stmt.define span name params returned body).typeIn s result ≠ .ok t := by
  intro h
  cases result <;> cases h

mutual

/-- The calls of a typed statement fit, those of its blocks included. -/
theorem callsFit_of_typeIn (hk : s.Calls known) (stmt : Stmt) {type : Ty}
    (h : stmt.typeIn s result = .ok type) : stmt.CallsFit (arityOf known) := by
  match stmt with
  | .pass _ | .define .. => trivial
  | .init .. => exact absurd h typeIn_init
  | .assign .. =>
    obtain ⟨_, _, hv, _⟩ := typeIn_assign h
    exact Expr.callsFit_of_typeIn hk _ hv
  | .expr _ value => exact Expr.callsFit_of_typeIn hk value h
  | .ret _ value =>
    obtain ⟨_, _, hv⟩ := typeIn_ret h
    exact Expr.callsFit_of_typeIn hk value hv
  | .ifElse _ cond yes no =>
    obtain ⟨hc, hy, hn⟩ := typeIn_ifElse h
    exact ⟨Expr.callsFit_of_typeIn hk cond hc, callsFit_of_checkAll hk yes hy,
      callsFit_of_checkAll hk no hn⟩
  | .ifElif _ cond yes cond' yes' no =>
    obtain ⟨hc, hy, hc', hy', hn⟩ := typeIn_ifElif h
    exact ⟨Expr.callsFit_of_typeIn hk cond hc, callsFit_of_checkAll hk yes hy,
      Expr.callsFit_of_typeIn hk cond' hc', callsFit_of_checkAll hk yes' hy',
      callsFit_of_checkAll hk no hn⟩
  | .whileDo _ cond body =>
    obtain ⟨hc, hb⟩ := typeIn_whileDo h
    exact ⟨Expr.callsFit_of_typeIn hk cond hc, callsFit_of_checkAll hk body hb⟩

theorem callsFit_of_checkAll (hk : s.Calls known) (stmts : List Stmt)
    (h : checkAll s result stmts = .ok ()) : CallsFitAll (arityOf known) stmts := by
  match stmts with
  | [] => trivial
  | stmt :: stmts =>
    obtain ⟨⟨type, ht⟩, h⟩ := checkAll_cons h
    exact ⟨callsFit_of_typeIn hk stmt ht, callsFit_of_checkAll hk stmts h⟩

end

mutual

/-- Outside of functions nothing returns. -/
theorem returns_of_typeIn (stmt : Stmt) {type : Ty} (h : stmt.typeIn s none = .ok type) :
    stmt.returns = false := by
  match stmt with
  | .pass _ | .define .. | .init .. | .assign .. | .expr .. => rfl
  | .ret .. =>
    obtain ⟨_, he, _⟩ := typeIn_ret h
    cases he
  | .ifElse _ cond yes no =>
    obtain ⟨_, hy, hn⟩ := typeIn_ifElse h
    simp [returns, returns_of_checkAll yes hy, returns_of_checkAll no hn]
  | .ifElif _ cond yes cond' yes' no =>
    obtain ⟨_, hy, _, hy', hn⟩ := typeIn_ifElif h
    simp [returns, returns_of_checkAll yes hy, returns_of_checkAll yes' hy',
      returns_of_checkAll no hn]
  | .whileDo _ cond body =>
    obtain ⟨_, hb⟩ := typeIn_whileDo h
    simp [returns, returns_of_checkAll body hb]

theorem returns_of_checkAll (stmts : List Stmt) (h : checkAll s none stmts = .ok ()) :
    returnsAny stmts = false := by
  match stmts with
  | [] => rfl
  | stmt :: stmts =>
    obtain ⟨⟨type, ht⟩, h⟩ := checkAll_cons h
    simp [returnsAny, returns_of_typeIn stmt ht, returns_of_checkAll stmts h]

end

end Stmt

end Calls

namespace Scopes.Calls

variable {known : String → Option Signature} {s : Scopes}

/-- A variable hides functions, it does not bring any. -/
theorem withVariable (h : s.Calls known) (name : String) (type : Ty) :
    (s.withVariable name type).Calls known := by
  intro callee sig hc
  rw [signatureOf?_eq_some, lookup_withVariable] at hc
  split at hc
  · cases hc
  · exact h callee sig (signatureOf?_eq_some.mpr hc)

theorem push (h : s.Calls known) {l : Layer} (hl : l.funcs = .empty) : (s.push l).Calls known := by
  intro callee sig hc
  rw [signatureOf?_eq_some, lookup_push] at hc
  cases hv : l.vars.get? callee with
  | some type => simp [Layer.get?, hv] at hc
  | none =>
    have hn : l.get? callee = none := by simp [Layer.get?, hv, hl]
    rw [hn, Option.none_or] at hc
    exact h callee sig (signatureOf?_eq_some.mpr hc)

end Scopes.Calls

theorem FunctionCode.localsOf_append (a b : List Stmt) :
    localsOf (a ++ b) = localsOf a ++ localsOf b := by
  fun_induction localsOf a with
  | case1 => rfl
  | case2 span name type value stmts ih =>
    rw [List.cons_append, localsOf, ih]
    rfl
  | case3 s stmts hs ih =>
    rw [← ih]
    cases s with
    | init => exact (hs _ _ _ _ rfl).elim
    | _ => rfl

namespace Stmt

section Declares

variable {inFunction : Bool} {s s' : Scopes} {ss : List Stmt} {known : String → Option Signature}

/-- Declarations never leave a name that is a variable and a function at once. -/
theorem Declares.sound (h : Declares inFunction s ss s') (hs : s.Sound) : s'.Sound := by
  induction h with
  | nil => exact hs
  | init _ free _ _ ih => exact ih (hs.withVariable _ free)
  | define _ _ free _ ih => exact ih (hs.withFunction _ (Scopes.inner_none free))

/-- At the top level a function name stays taken. -/
theorem Declares.keeps_function (h : Declares false s ss s') {name : String} {sig : Signature}
    (hn : s.lookup name = some (.function sig)) : s'.lookup name = some (.function sig) := by
  induction h with
  | nil => exact hn
  | init _ _ kept _ ih =>
    apply ih
    rw [Scopes.lookup_withVariable, if_neg]
    · exact hn
    · rintro rfl
      exact kept rfl sig hn
  | define _ _ free _ ih =>
    apply ih
    rw [Scopes.lookup_withFunction (Scopes.inner_none free), if_neg]
    · exact hn
    · rintro rfl
      rw [free] at hn
      cases hn

theorem Declares.calls_before (h : Declares false s ss s') (hk : s'.Calls known) :
    s.Calls known := by
  intro name sig hs
  rw [Scopes.signatureOf?_eq_some] at hs
  exact hk name sig (Scopes.signatureOf?_eq_some.mpr (h.keeps_function hs))

theorem Declares.callsFit (h : Declares false s ss s') (hk : s'.Calls known) :
    CallsFitAll (arityOf known) ss := by
  induction h with
  | nil => trivial
  | @init _ _ span _ _ _ _ typed free kept rest ih =>
    have hall : Declares false _ (.init span _ _ _ :: _) _ := .init typed free kept rest
    exact ⟨Expr.callsFit_of_typeIn (hall.calls_before hk) _ typed, ih hk⟩
  | define _ _ _ _ ih => exact ⟨trivial, ih hk⟩

/-- In a function only variables are declared, so calls go to the functions around it. -/
theorem Declares.callsFit_inside (h : Declares true s ss s') (hk : s.Calls known) :
    CallsFitAll (arityOf known) ss ∧ s'.Calls known := by
  induction h with
  | nil => exact ⟨trivial, hk⟩
  | init typed _ _ _ ih =>
    obtain ⟨hrest, hend⟩ := ih (hk.withVariable _ _)
    exact ⟨⟨Expr.callsFit_of_typeIn hk _ typed, hrest⟩, hend⟩
  | define top => cases top

theorem Declares.returns (h : Declares inFunction s ss s') : returnsAny ss = false := by
  induction h with
  | nil => rfl
  | init _ _ _ _ ih => exact ih
  | define _ _ _ _ ih => exact ih

end Declares

theorem callsFitAll_append {arity : String → Option Nat} {a b : List Stmt}
    (ha : CallsFitAll arity a) (hb : CallsFitAll arity b) : CallsFitAll arity (a ++ b) := by
  induction a with
  | nil => exact hb
  | cons s a ih => exact ⟨ha.1, ih ha.2⟩

theorem returnsAny_append (a b : List Stmt) :
    returnsAny (a ++ b) = (returnsAny a || returnsAny b) := by
  induction a with
  | nil => rfl
  | cons s a ih => simp [returnsAny, ih, Bool.or_assoc]

/-- The parameters of a function have names of their own, and their types. -/
theorem paramLayer_ok {l l' : Layer} {params : List Param} (h : paramLayer l params = .ok l') :
    l'.funcs = l.funcs ∧ (∀ p ∈ params, l'.vars.get? p.name = some p.type) ∧
      (∀ name, (∀ p ∈ params, p.name ≠ name) → l'.vars.get? name = l.vars.get? name) ∧
      ∀ name type, l.vars.get? name = some type → l'.vars.get? name = some type := by
  induction params generalizing l with
  | nil =>
    cases h
    simp
  | cons p params ih =>
    simp only [paramLayer, bind_eq_ok] at h
    obtain ⟨m, hm, h⟩ := h
    obtain ⟨hfree, rfl⟩ := Layer.declareVariable_ok hm
    have hnone : l.vars.get? p.name = none := (Layer.get?_none hfree).1
    obtain ⟨hf, hp, hother, hkept⟩ := ih h
    refine ⟨hf, ?_, ?_, ?_⟩
    · intro q hq
      rcases List.mem_cons.mp hq with rfl | hq
      · exact hkept q.name q.type (by simp)
      · exact hp q hq
    · intro name hn
      rw [hother name fun q hq => hn q (List.mem_cons_of_mem p hq)]
      simp [Ne.symm (hn p List.mem_cons_self)]
    · intro name type ht
      apply hkept
      have hne : name ≠ p.name := by
        rintro rfl
        rw [hnone] at ht
        cases ht
      simpa [hne] using ht

/-- A checked function: parameters, then declarations, then statements that fit them. -/
theorem checkFunction_ok {s : Scopes} {params : List Param} {result : Ty} {body : List Stmt}
    (h : checkFunction s params result body = .ok ()) :
    ∃ layer head rest s', paramLayer .empty params = .ok layer ∧ body = head ++ rest ∧
      Declares true (s.push layer) head s' ∧ checkAll s' (some result) rest = .ok () := by
  simp only [checkFunction, bind_eq_ok] at h
  obtain ⟨layer, hl, ⟨s', rest⟩, hd, hc⟩ := h
  obtain ⟨head, hb, hh⟩ := declareAll_ok hd
  exact ⟨layer, head, rest, s', hl, hb, hh, hc⟩

/-- The calls in the body of a checked function fit. -/
theorem callsFit_of_checkFunction {known : String → Option Signature} {s : Scopes}
    {params : List Param} {result : Ty} {body : List Stmt} (hk : s.Calls known)
    (h : checkFunction s params result body = .ok ()) : CallsFitAll (arityOf known) body := by
  obtain ⟨layer, head, rest, s', hl, rfl, hd, hc⟩ := checkFunction_ok h
  obtain ⟨hhead, hend⟩ := hd.callsFit_inside (hk.push (paramLayer_ok hl).1)
  exact callsFitAll_append hhead (callsFit_of_checkAll hend rest hc)

theorem checkAll_of_lastType {s : Scopes} {ss : List Stmt} {type result : Ty}
    (h : lastType s type ss = .ok result) : checkAll s none ss = .ok () := by
  induction ss generalizing type with
  | nil => rfl
  | cons stmt ss ih =>
    simp only [lastType, bind_eq_ok] at h
    obtain ⟨t, ht, h⟩ := h
    simp only [checkAll, bind_eq_ok]
    exact ⟨t, ht, ih h⟩

/-- Behind its declarations a block declares nothing. -/
theorem not_declared_of_checkAll {s : Scopes} {result : Option Ty} {ss : List Stmt}
    (h : checkAll s result ss = .ok ()) :
    (∀ span name params returned body, .define span name params returned body ∉ ss) ∧
      FunctionCode.localsOf ss = [] := by
  induction ss with
  | nil => simp [FunctionCode.localsOf]
  | cons stmt ss ih =>
    obtain ⟨⟨type, ht⟩, h⟩ := checkAll_cons h
    obtain ⟨hd, hl⟩ := ih h
    cases stmt with
    | init => exact absurd ht typeIn_init
    | define => exact absurd ht typeIn_define
    | _ => exact ⟨by simpa using hd, hl⟩

/-- Every function of a unit is checked, in the scopes behind all declarations. -/
theorem checkFunctions_ok {inFunction : Bool} {s t t' : Scopes} {head rest : List Stmt}
    (hd : Declares inFunction t head t') (h : checkFunctions s (head ++ rest) = .ok ()) :
    ∀ span name params result body, .define span name params result body ∈ head →
      checkFunction s params result body = .ok () := by
  induction hd with
  | nil => simp
  | init _ _ _ _ ih =>
    intro span name params result body hm
    have hm' := List.mem_of_ne_of_mem (by simp) hm
    exact ih h span name params result body hm'
  | define _ _ _ _ ih =>
    simp only [List.cons_append, checkFunctions, bind_eq_ok] at h
    obtain ⟨_, hf, h⟩ := h
    intro span name params result body hm
    rcases List.mem_cons.mp hm with he | hm
    · cases he
      exact hf
    · exact ih h span name params result body hm

end Stmt

/-- A checked unit: declarations that lead from `s₀` to `s`, statements checked in `s`, and functions
checked in `s`. -/
structure Program.Checked (s₀ : Scopes) (p : Program) (head rest : List Stmt) (s : Scopes)
    (typing : Typing) : Prop where
  body : p.body = head ++ rest
  declares : Stmt.Declares false s₀ head s
  last : Stmt.lastType s .none rest = .ok typing.result
  functions : ∀ span name params result body, .define span name params result body ∈ p.body →
    Stmt.checkFunction s params result body = .ok ()
  declared : typing.declared = s.flatten

/-- A unit that is accepted starts with declarations, in whose scopes the rest is typed. -/
theorem Program.typeFrom_ok {s₀ : Scopes} {p : Program} {typing : Typing}
    (h : p.typeFrom s₀ = .ok typing) : ∃ head rest s, p.Checked s₀ head rest s typing := by
  simp only [typeFrom, bind_eq_ok, pure_eq_ok] at h
  obtain ⟨⟨s, rest⟩, hd, result, hl, _, hf, rfl⟩ := h
  obtain ⟨head, hb, hh⟩ := Stmt.declareAll_ok hd
  refine ⟨head, rest, s, hb, hh, hl, ?_, rfl⟩
  intro span name params returned body hm
  rw [hb] at hm hf
  rcases List.mem_append.mp hm with hm | hm
  · exact Stmt.checkFunctions_ok hh hf span name params returned body hm
  · exact absurd hm
      ((Stmt.not_declared_of_checkAll (Stmt.checkAll_of_lastType hl)).1 span name params returned body)

namespace Program.Checked

variable {s₀ s : Scopes} {p : Program} {head rest : List Stmt} {typing : Typing}
  {known : String → Option Signature}

theorem callsFit (h : p.Checked s₀ head rest s typing) (hk : s.Calls known) :
    Stmt.CallsFitAll (arityOf known) p.body := by
  rw [h.body]
  exact Stmt.callsFitAll_append (h.declares.callsFit hk)
    (Stmt.callsFit_of_checkAll hk rest (Stmt.checkAll_of_lastType h.last))

theorem returns (h : p.Checked s₀ head rest s typing) : Stmt.returnsAny p.body = false := by
  rw [h.body, Stmt.returnsAny_append, h.declares.returns,
    Stmt.returns_of_checkAll rest (Stmt.checkAll_of_lastType h.last)]
  rfl

end Program.Checked

end StackScript
