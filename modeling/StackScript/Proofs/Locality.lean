import StackScript.Proofs.Checked

namespace StackScript

namespace Expr

mutual

/-- The variables of an expression are in `V`, the functions that it calls in `F`. -/
def Uses (V F : String → Prop) : Expr → Prop
  | .noneLit _ | .boolLit .. | .intLit .. => True
  | .var _ name => V name
  | .unary _ _ operand => Uses V F operand
  | .binary _ _ left right => Uses V F left ∧ Uses V F right
  | .call _ callee args => F callee ∧ UsesAll V F args
  | .print _ arg => Uses V F arg

def UsesAll (V F : String → Prop) : List Expr → Prop
  | [] => True
  | e :: es => Uses V F e ∧ UsesAll V F es

end

end Expr

namespace Stmt

mutual

def Uses (V F : String → Prop) : Stmt → Prop
  | .pass _ | .define .. => True
  | .init _ name _ value | .assign _ name value => V name ∧ value.Uses V F
  | .expr _ value | .ret _ value => value.Uses V F
  | .ifElse _ cond yes no => cond.Uses V F ∧ UsesAll V F yes ∧ UsesAll V F no
  | .ifElif _ cond yes cond' yes' no =>
    cond.Uses V F ∧ UsesAll V F yes ∧ cond'.Uses V F ∧ UsesAll V F yes' ∧ UsesAll V F no
  | .whileDo _ cond body => cond.Uses V F ∧ UsesAll V F body

def UsesAll (V F : String → Prop) : List Stmt → Prop
  | [] => True
  | s :: ss => Uses V F s ∧ UsesAll V F ss

end

theorem usesAll_append {V F : String → Prop} {a b : List Stmt} :
    UsesAll V F (a ++ b) ↔ UsesAll V F a ∧ UsesAll V F b := by
  induction a with
  | nil => simp [UsesAll]
  | cons s a ih => simp [UsesAll, ih, and_assoc]

end Stmt

mutual

theorem Expr.uses_any (e : Expr) : e.Uses (fun _ => True) (fun _ => True) := by
  match e with
  | .noneLit _ | .boolLit .. | .intLit .. | .var .. => trivial
  | .unary _ _ operand => exact Expr.uses_any operand
  | .binary _ _ left right => exact ⟨Expr.uses_any left, Expr.uses_any right⟩
  | .call _ _ args => exact ⟨trivial, Expr.usesAll_any args⟩
  | .print _ arg => exact Expr.uses_any arg

theorem Expr.usesAll_any (es : List Expr) : UsesAll (fun _ => True) (fun _ => True) es := by
  match es with
  | [] => trivial
  | e :: es => exact ⟨Expr.uses_any e, Expr.usesAll_any es⟩

end

mutual

theorem Stmt.uses_any (stmt : Stmt) : stmt.Uses (fun _ => True) (fun _ => True) := by
  match stmt with
  | .pass _ | .define .. => trivial
  | .init _ _ _ value | .assign _ _ value => exact ⟨trivial, value.uses_any⟩
  | .expr _ value | .ret _ value => exact value.uses_any
  | .ifElse _ cond yes no => exact ⟨cond.uses_any, Stmt.usesAll_any yes, Stmt.usesAll_any no⟩
  | .ifElif _ cond yes cond' yes' no =>
    exact ⟨cond.uses_any, Stmt.usesAll_any yes, cond'.uses_any, Stmt.usesAll_any yes',
      Stmt.usesAll_any no⟩
  | .whileDo _ cond body => exact ⟨cond.uses_any, Stmt.usesAll_any body⟩

theorem Stmt.usesAll_any (stmts : List Stmt) : UsesAll (fun _ => True) (fun _ => True) stmts := by
  match stmts with
  | [] => trivial
  | stmt :: stmts => exact ⟨Stmt.uses_any stmt, Stmt.usesAll_any stmts⟩

end

structure Scopes.Only (V F : String → Prop) (s : Scopes) : Prop where
  vars : ∀ {name : String} {type : Ty}, s.lookup name = some (.variable type) → V name
  funcs : ∀ {name : String} {sig : Signature}, s.lookup name = some (.function sig) → F name

section Typed

variable {V F : String → Prop} {s : Scopes}

theorem Scopes.Only.withVariable (h : s.Only V F) {x : String} (hx : V x) (type : Ty) :
    (s.withVariable x type).Only V F := by
  constructor
  · intro name t hn
    rw [lookup_withVariable] at hn
    split at hn
    · rename_i he
      exact he ▸ hx
    · exact h.vars hn
  · intro name sig hn
    rw [lookup_withVariable] at hn
    split at hn
    · cases hn
    · exact h.funcs hn

theorem Scopes.Only.withFunction (h : s.Only V F) {x : String} (hx : F x)
    (free : s.lookup x = none) (sig : Signature) : (s.withFunction x sig).Only V F := by
  constructor
  · intro name t hn
    rw [lookup_withFunction (inner_none free)] at hn
    split at hn
    · cases hn
    · exact h.vars hn
  · intro name sig' hn
    rw [lookup_withFunction (inner_none free)] at hn
    split at hn
    · rename_i he
      exact he ▸ hx
    · exact h.funcs hn

theorem Scopes.Only.push (h : s.Only V F) {params : List Param} {layer : Layer}
    (hl : Stmt.paramLayer .empty params = .ok layer) (hp : ∀ p ∈ params, V p.name) :
    (s.push layer).Only V F := by
  obtain ⟨hfuncs, _, hother, _⟩ := Stmt.paramLayer_ok hl
  have hvars {name : String} (hn : layer.vars.get? name ≠ none) : V name := by
    by_contra hnot
    apply hn
    rw [hother name]
    · rfl
    · rintro p hm rfl
      exact hnot (hp p hm)
  constructor
  · intro name type hn
    rw [lookup_push] at hn
    cases hg : layer.vars.get? name with
    | some t => exact hvars (by simp [hg])
    | none =>
      simp only [Layer.get?, hg, hfuncs] at hn
      exact h.vars hn
  · intro name sig hn
    rw [lookup_push] at hn
    cases hg : layer.vars.get? name with
    | some t => simp [Layer.get?, hg] at hn
    | none =>
      simp only [Layer.get?, hg, hfuncs] at hn
      exact h.funcs hn

mutual

/-- What is checked uses names that are known. -/
theorem Expr.uses_of_typeIn (hs : s.Only V F) (e : Expr) {type : Ty}
    (h : e.typeIn s = .ok type) : e.Uses V F := by
  match e with
  | .noneLit _ | .boolLit .. | .intLit .. => trivial
  | .var _ name =>
    simp only [typeIn] at h
    cases ht : s.typeOf? name with
    | none => simp [ht] at h
    | some t => exact hs.vars (Scopes.typeOf?_eq_some.mp ht)
  | .unary _ _ operand => exact Expr.uses_of_typeIn hs operand (typeIn_unary h).1
  | .binary _ _ left right =>
    obtain ⟨l, r, hl, hr, _⟩ := typeIn_binary h
    exact ⟨Expr.uses_of_typeIn hs left hl, Expr.uses_of_typeIn hs right hr⟩
  | .call _ callee args =>
    obtain ⟨sig, hsig, hlen, hargs, _⟩ := typeIn_call h
    exact ⟨hs.funcs (Scopes.signatureOf?_eq_some.mp hsig), Expr.usesAll_of_checkArgs hs args hlen hargs⟩
  | .print _ arg => exact Expr.uses_of_typeIn hs arg h

theorem Expr.usesAll_of_checkArgs (hs : s.Only V F) (es : List Expr) {types : List Ty}
    {index : Nat} (hlen : es.length = types.length) (h : checkArgs s index types es = .ok ()) :
    UsesAll V F es := by
  match es, types with
  | [], _ => trivial
  | _ :: _, [] => simp at hlen
  | e :: es, type :: types =>
    obtain ⟨hfirst, hrest⟩ := checkArgs_cons h
    exact ⟨Expr.uses_of_typeIn hs e hfirst,
      Expr.usesAll_of_checkArgs hs es (by simpa using hlen) hrest⟩

end

variable {result : Option Ty}

mutual

theorem Stmt.uses_of_typeIn (hs : s.Only V F) (stmt : Stmt) {type : Ty}
    (h : stmt.typeIn s result = .ok type) : stmt.Uses V F := by
  match stmt with
  | .pass _ | .define .. => trivial
  | .init .. => exact absurd h typeIn_init
  | .assign _ _ value =>
    obtain ⟨_, hn, hvalue, _⟩ := typeIn_assign h
    exact ⟨hs.vars (Scopes.typeOf?_eq_some.mp hn), Expr.uses_of_typeIn hs value hvalue⟩
  | .expr _ value => exact Expr.uses_of_typeIn hs value h
  | .ret _ value =>
    obtain ⟨_, _, hvalue⟩ := typeIn_ret h
    exact Expr.uses_of_typeIn hs value hvalue
  | .ifElse _ cond yes no =>
    obtain ⟨hc, hy, hn⟩ := typeIn_ifElse h
    exact ⟨Expr.uses_of_typeIn hs cond hc, Stmt.usesAll_of_checkAll hs yes hy,
      Stmt.usesAll_of_checkAll hs no hn⟩
  | .ifElif _ cond yes cond' yes' no =>
    obtain ⟨hc, hy, hc', hy', hn⟩ := typeIn_ifElif h
    exact ⟨Expr.uses_of_typeIn hs cond hc, Stmt.usesAll_of_checkAll hs yes hy,
      Expr.uses_of_typeIn hs cond' hc', Stmt.usesAll_of_checkAll hs yes' hy',
      Stmt.usesAll_of_checkAll hs no hn⟩
  | .whileDo _ cond body =>
    obtain ⟨hc, hb⟩ := typeIn_whileDo h
    exact ⟨Expr.uses_of_typeIn hs cond hc, Stmt.usesAll_of_checkAll hs body hb⟩

theorem Stmt.usesAll_of_checkAll (hs : s.Only V F) (stmts : List Stmt)
    (h : checkAll s result stmts = .ok ()) : UsesAll V F stmts := by
  match stmts with
  | [] => trivial
  | stmt :: stmts =>
    obtain ⟨⟨_, hstmt⟩, hrest⟩ := checkAll_cons h
    exact ⟨Stmt.uses_of_typeIn hs stmt hstmt, Stmt.usesAll_of_checkAll hs stmts hrest⟩

end

/-- Declarations use what is known, and what they declare. -/
theorem Stmt.Declares.usesAll {inFunction : Bool} {s' : Scopes} {head : List Stmt}
    (h : Declares inFunction s head s') (hs : s.Only V F)
    (hlocals : ∀ d ∈ FunctionCode.localsOf head, V d.1)
    (hdefined : inFunction = false → ∀ span name params result body,
      .define span name params result body ∈ head → F name) :
    UsesAll V F head ∧ s'.Only V F := by
  induction h with
  | nil => exact ⟨trivial, hs⟩
  | @init _ _ _ x type value _ typed _ _ _ ih =>
    have hx : V x := hlocals (x, type) List.mem_cons_self
    obtain ⟨hhead, hend⟩ := ih (hs.withVariable hx type)
      (fun d hd => hlocals d (List.mem_cons_of_mem _ hd))
      (fun top span name params result body hm =>
        hdefined top span name params result body (List.mem_cons_of_mem _ hm))
    exact ⟨⟨⟨hx, Expr.uses_of_typeIn hs value typed⟩, hhead⟩, hend⟩
  | @define _ _ span x params returned body _ top _ free _ ih =>
    have hx : F x := hdefined top span x params returned body List.mem_cons_self
    obtain ⟨hhead, hend⟩ := ih (hs.withFunction hx free _) hlocals
      (fun top span name params result body hm =>
        hdefined top span name params result body (List.mem_cons_of_mem _ hm))
    exact ⟨⟨trivial, hhead⟩, hend⟩

/-- A function uses its own names, and what is known around it. -/
theorem Stmt.usesAll_of_checkFunction {params : List Param} {returned : Ty} {body : List Stmt}
    (h : checkFunction s params returned body = .ok ()) (hs : s.Only V F)
    (hparams : ∀ p ∈ params, V p.name) (hlocals : ∀ d ∈ FunctionCode.localsOf body, V d.1) :
    UsesAll V F body := by
  obtain ⟨layer, head, rest, s', hl, rfl, hd, hrest⟩ := checkFunction_ok h
  rw [FunctionCode.localsOf_append] at hlocals
  obtain ⟨hhead, hend⟩ := hd.usesAll (hs.push hl hparams)
    (fun d hm => hlocals d (List.mem_append_left _ hm)) (by simp)
  exact usesAll_append.mpr ⟨hhead, usesAll_of_checkAll hend rest hrest⟩

end Typed

structure Scopes.Agree (V F : String → Prop) (s t : Scopes) : Prop where
  vars : ∀ {name : String}, V name → s.lookup name = t.lookup name
  funcs : ∀ {name : String}, F name → s.lookup name = t.lookup name

section Types

variable {V F : String → Prop} {s t : Scopes}

mutual

/-- The type of an expression depends on the names that it uses, and on no others. -/
theorem Expr.typeIn_agree (h : s.Agree V F t) (e : Expr) (he : e.Uses V F) :
    e.typeIn s = e.typeIn t := by
  match e with
  | .noneLit _ | .boolLit .. | .intLit .. => rfl
  | .var _ name => simp only [typeIn, Scopes.typeOf?, h.vars he]
  | .unary _ _ operand => simp only [typeIn, Expr.typeIn_agree h operand he]
  | .binary _ _ left right =>
    simp only [typeIn, Expr.typeIn_agree h left he.1, Expr.typeIn_agree h right he.2]
  | .call _ callee args =>
    simp only [typeIn, Scopes.signatureOf?, h.funcs he.1, Expr.checkArgs_agree h args he.2]
  | .print _ arg => simp only [typeIn, Expr.typeIn_agree h arg he]

theorem Expr.checkArgs_agree (h : s.Agree V F t) (es : List Expr) (he : UsesAll V F es)
    (index : Nat) (types : List Ty) : checkArgs s index types es = checkArgs t index types es := by
  match es, types with
  | [], [] | [], _ :: _ | _ :: _, [] => simp [checkArgs]
  | e :: es, type :: types =>
    simp only [checkArgs, Expr.typeIn_agree h e he.1, Expr.checkArgs_agree h es he.2]

end

end Types

structure Context.Agree (V F : String → Prop) (c c' : Context) : Prop where
  own : ∀ {name : String}, V name → c.isLocal name = c'.isLocal name
  slots : ∀ {name : String}, V name → c.isLocal name = false →
    c.layout.slots.get? name = c'.layout.slots.get? name
  scopes : c.scopes.Agree V F c'.scopes

section Code

variable {V F : String → Prop} {c c' : Context}

theorem Context.Agree.addressCode (h : c.Agree V F c') {name : String} (hn : V name)
    (hl : c.isLocal name = false) (at_ : Position) :
    StackScript.addressCode c name at_ = StackScript.addressCode c' name at_ := by
  simp only [StackScript.addressCode, Layout.address?, h.slots hn hl]

mutual

/-- The code of an expression depends on the names that it uses, and on no others. -/
theorem Expr.code_agree (h : c.Agree V F c') (e : Expr) (he : e.Uses V F) :
    e.code c = e.code c' := by
  match e with
  | .noneLit _ | .boolLit .. | .intLit .. => simp only [code]
  | .var _ name =>
    simp only [code]
    cases hl : c.isLocal name with
    | true => simp only [← h.own he, hl, ↓reduceIte]
    | false => simp only [← h.own he, hl, h.addressCode he hl]
  | .unary _ _ operand => simp only [code, Expr.code_agree h operand he]
  | .binary _ _ left right =>
    simp only [code, Expr.code_agree h left he.1, Expr.code_agree h right he.2]
  | .call _ _ args => simp only [code, Expr.codeAll_agree h args he.2]
  | .print _ arg => simp only [code, Expr.code_agree h arg he, arg.typeIn_agree h.scopes he]

theorem Expr.codeAll_agree (h : c.Agree V F c') (es : List Expr) (he : UsesAll V F es) :
    codeAll c es = codeAll c' es := by
  match es with
  | [] => simp only [codeAll]
  | e :: es => simp only [codeAll, Expr.code_agree h e he.1, Expr.codeAll_agree h es he.2]

end

theorem storeCode_agree (h : c.Agree V F c') {name : String} {value : Expr}
    (hn : V name) (hv : value.Uses V F) (at_ : Position) :
    storeCode c name value at_ = storeCode c' name value at_ := by
  simp only [storeCode, value.code_agree h hv]
  cases hl : c.isLocal name with
  | true => simp only [← h.own hn, hl, ↓reduceIte]
  | false => simp only [← h.own hn, hl, h.addressCode hn hl]

mutual

/-- The code of a statement depends on the names that it uses or sets. -/
theorem Stmt.code_agree (h : c.Agree V F c') (stmt : Stmt) (hs : stmt.Uses V F) :
    stmt.code c = stmt.code c' := by
  match stmt with
  | .pass _ | .define .. => simp only [code]
  | .init .. | .assign .. => simp only [code, storeCode_agree h hs.1 hs.2]
  | .expr _ value => simp only [code, valueCode, value.code_agree h hs]
  | .ret _ value => simp only [code, value.code_agree h hs]
  | .ifElse _ cond yes no =>
    simp only [code, cond.code_agree h hs.1, Stmt.codeAll_agree h yes hs.2.1,
      Stmt.codeAll_agree h no hs.2.2]
  | .ifElif _ cond yes cond' yes' no =>
    obtain ⟨hc, hy, hc', hy', hn⟩ := hs
    simp only [code, cond.code_agree h hc, Stmt.codeAll_agree h yes hy, cond'.code_agree h hc',
      Stmt.codeAll_agree h yes' hy', Stmt.codeAll_agree h no hn]
  | .whileDo _ cond body =>
    simp only [code, Expr.code, cond.code_agree h hs.1, Stmt.codeAll_agree h body hs.2]

theorem Stmt.codeAll_agree (h : c.Agree V F c') (stmts : List Stmt) (hs : UsesAll V F stmts) :
    codeAll c stmts = codeAll c' stmts := by
  match stmts with
  | [] => simp only [codeAll]
  | stmt :: stmts =>
    simp only [codeAll, Stmt.code_agree h stmt hs.1, Stmt.codeAll_agree h stmts hs.2]

end

theorem UnitCode.topCode_agree (h : c.Agree V F c') {stmts : List Stmt}
    (hs : Stmt.UsesAll V F stmts) : topCode c stmts = topCode c' stmts := by
  fun_induction topCode c stmts with
  | case1 => simp only [topCode]
  | case2 _ value => simp only [topCode, value.code_agree h hs.1]
  | case3 stmt stmts hlast ih =>
    rw [ih hs.2, stmt.code_agree h hs.1, topCode.eq_3 c' stmt stmts hlast]

theorem FunctionCode.get?_layerOf {params : List Param} {locals : List (String × Ty)}
    {name : String} (h : (layerOf params locals).get? name = none) :
    name ∉ params.map (·.name) ++ locals.map (·.1) := by
  have hvars : (Table.ofList (params.map (fun p => (p.name, p.type)) ++ locals)).get? name = none :=
    (Layer.get?_none h).1
  have hnone := Table.contains_ofList (params.map (fun p => (p.name, p.type)) ++ locals) name
  rw [Table.contains, hvars] at hnone
  simpa [Function.comp_def] using hnone

/-- Inside a function its own names mean the same. -/
theorem Context.Agree.inside (h : c.Agree V F c') (hc : c.locals = none) (params : List Param)
    (body : List Stmt) :
    (c.inside params body).Agree
      (fun name => V name ∨
        name ∈ params.map (·.name) ++ (FunctionCode.localsOf body).map (·.1))
      F (c'.inside params body) := by
  refine ⟨fun _ => rfl, ?_, ?_, ?_⟩
  · intro name hn hl
    have hnot : name ∉ params.map (·.name) ++ (FunctionCode.localsOf body).map (·.1) := by
      simpa [isLocal, Context.inside] using hl
    exact h.slots (hn.resolve_right hnot) (by simp [isLocal, hc])
  · intro name hn
    simp only [Context.inside, Scopes.lookup_push]
    cases hg : (FunctionCode.layerOf params (FunctionCode.localsOf body)).get? name with
    | some b => rfl
    | none => exact h.scopes.vars (hn.resolve_right (FunctionCode.get?_layerOf hg))
  · intro name hn
    simp only [Context.inside, Scopes.lookup_push, h.scopes.funcs hn]

/-- A function has the same code in both contexts if it is checked with names that mean the same. -/
theorem FunctionCode.ofDefinition_agree (h : c.Agree V F c') (hc : c.locals = none) {s : Scopes}
    (hs : s.Only V F) {params : List Param} {result : Ty} {body : List Stmt}
    (hchecked : Stmt.checkFunction s params result body = .ok ()) (name : String)
    (at_ : Position) : ofDefinition c name params body at_ = ofDefinition c' name params body at_ := by
  have hbody : Stmt.UsesAll (fun x => V x ∨ x ∈ params.map (·.name) ++ (localsOf body).map (·.1)) F
      body := by
    refine Stmt.usesAll_of_checkFunction hchecked ⟨fun hn => .inl (hs.vars hn), hs.funcs⟩ ?_ ?_
    · exact fun p hp => .inr (List.mem_append_left _ (List.mem_map_of_mem hp))
    · exact fun d hd => .inr (List.mem_append_right _ (List.mem_map_of_mem hd))
  have hcode : bodyCode (c.inside params body) name body at_ =
      bodyCode (c'.inside params body) name body at_ := by
    simp only [bodyCode, Stmt.codeAll_agree (h.inside hc params body) body hbody]
  unfold Context.inside at hcode
  simp only [ofDefinition, hcode]

theorem FunctionCode.ofStmts_agree {stmts : List Stmt}
    (h : ∀ span name params result body, .define span name params result body ∈ stmts →
      ofDefinition c name params body span.first = ofDefinition c' name params body span.first) :
    ofStmts c stmts = ofStmts c' stmts := by
  fun_induction ofStmts c stmts with
  | case1 => simp only [ofStmts]
  | case2 span name params result body stmts ih =>
    simp only [ofStmts, h span name params result body List.mem_cons_self]
    rw [ih fun span name params result body hm =>
      h span name params result body (List.mem_cons_of_mem _ hm)]
  | case3 stmt stmts hother ih =>
    rw [ofStmts.eq_3 c' stmt stmts hother]
    exact ih fun span name params result body hm =>
      h span name params result body (List.mem_cons_of_mem _ hm)

end Code

section Related

variable {σ : Type}

/-- A relation between evaluations that the operations of evaluation keep. -/
structure Eval.Related (R : ∀ ⦃α : Type⦄, Eval σ α → Eval σ α → Prop) : Prop where
  pure : ∀ {α : Type} (a : α), R (Pure.pure a) (Pure.pure a)
  bind : ∀ {α β : Type} {g g' : Eval σ α} {h h' : α → Eval σ β}, R g g' →
    (∀ a, R (h a) (h' a)) → R (g >>= h) (g' >>= h')
  endless : ∀ {α : Type}, R (Eval.endless : Eval σ α) Eval.endless
  lift : ∀ {α : Type} (r : Except Stop α), R (Eval.lift r) (Eval.lift r)
  read : ∀ {α : Type} (f : σ → α), R (Eval.read f) (Eval.read f)
  modify : ∀ f : σ → σ, R (Eval.modify f) (Eval.modify f)
  serve : ∀ c : HostCall, R (Eval.serve c) (Eval.serve c)

def Eval.Fueled (R : ∀ ⦃α : Type⦄, Eval σ α → Eval σ α → Prop) (fuel fuel' : Nat) : Prop :=
  fuel = fuel' ∨ fuel ≤ fuel' ∧ ∀ {α : Type} (g : Eval σ α), R Eval.endless g

structure Site.Agree (V F : String → Prop) (a b : Site σ) : Prop where
  read : ∀ {name : String}, V name → a.read name = b.read name
  write : ∀ {name : String}, V name → a.write name = b.write name
  scopes : a.scopes.Agree V F b.scopes

variable {R : ∀ ⦃α : Type⦄, Eval σ α → Eval σ α → Prop} {V F : String → Prop} {t : Truth}
  {f g : String → List Word → Eval σ Word} {a b : Site σ} {fuel fuel' : Nat}

theorem Site.agree_refl (V F : String → Prop) (a : Site σ) : a.Agree V F a :=
  ⟨fun _ => rfl, fun _ => rfl, fun _ => rfl, fun _ => rfl⟩

theorem Eval.Fueled.zero (h : Fueled R 0 fuel') (hR : Related R) {α : Type} {e : Eval σ α}
    (he : fuel' = 0 → e = Eval.endless) : R Eval.endless e := by
  rcases h with hzero | ⟨_, hless⟩
  · rw [he hzero.symm]
    exact hR.endless
  · exact hless e

theorem Eval.Fueled.succ (h : Fueled R (fuel + 1) fuel') :
    ∃ more, fuel' = more + 1 ∧ Fueled R fuel more := by
  rcases h with rfl | ⟨hle, hless⟩
  · exact ⟨fuel, rfl, .inl rfl⟩
  · exact ⟨fuel' - 1, by omega, .inr ⟨by omega, hless⟩⟩

mutual

/-- Evaluation is sequences of a few operations, so what these keep, expressions keep. -/
theorem Expr.eval_related (hR : Eval.Related R) (hsite : a.Agree V F b)
    (hcall : ∀ name args, F name → R (f name args) (g name args)) (locals : Table Word) (e : Expr)
    (he : e.Uses V F) : R (e.eval t f a locals) (e.eval t g b locals) := by
  match e with
  | .noneLit _ | .boolLit .. | .intLit .. => exact hR.pure _
  | .var _ name =>
    simp only [eval, ← hsite.read he]
    split
    · exact hR.pure _
    · exact hR.read _
  | .unary _ _ operand =>
    exact hR.bind (Expr.eval_related hR hsite hcall locals operand he) fun _ => hR.pure _
  | .binary _ _ left right =>
    exact hR.bind (Expr.eval_related hR hsite hcall locals left he.1) fun _ =>
      hR.bind (Expr.eval_related hR hsite hcall locals right he.2) fun _ => hR.lift _
  | .call _ callee args =>
    exact hR.bind (Expr.evalAll_related hR hsite hcall locals args he.2) fun values =>
      hcall callee values he.1
  | .print _ arg =>
    simp only [eval, printType, arg.typeIn_agree hsite.scopes he]
    exact hR.bind (Expr.eval_related hR hsite hcall locals arg he) fun _ =>
      hR.bind (hR.serve _) fun _ => hR.pure _

theorem Expr.evalAll_related (hR : Eval.Related R) (hsite : a.Agree V F b)
    (hcall : ∀ name args, F name → R (f name args) (g name args)) (locals : Table Word)
    (es : List Expr) (he : UsesAll V F es) :
    R (evalAll t f a locals es) (evalAll t g b locals es) := by
  match es with
  | [] => exact hR.pure _
  | e :: es =>
    exact hR.bind (Expr.eval_related hR hsite hcall locals e he.1) fun _ =>
      hR.bind (Expr.evalAll_related hR hsite hcall locals es he.2) fun _ => hR.pure _

end

theorem Stmt.assignTo_related (hR : Eval.Related R) (hsite : a.Agree V F b) {name : String}
    (hn : V name) (value : Word) (locals : Table Word) :
    R (assignTo a name value locals) (assignTo b name value locals) := by
  simp only [assignTo, ← hsite.write hn]
  split
  · exact hR.pure _
  · exact hR.bind (hR.modify _) fun _ => hR.pure _

/-- Loops keep it round by round, with more fuel on the right if the relation allows for it. -/
theorem Stmt.loop_related (hR : Eval.Related R) {cond cond' : Table Word → Eval σ Word}
    {body body' : Table Word → Eval σ Flow} (hcond : ∀ locals, R (cond locals) (cond' locals))
    (hbody : ∀ locals, R (body locals) (body' locals)) {rounds rounds' : Nat}
    (h : Eval.Fueled R rounds rounds') (test : Word → Bool) (locals : Table Word) :
    R (loop cond body rounds test locals) (loop cond' body' rounds' test locals) := by
  induction rounds generalizing rounds' test locals with
  | zero =>
    exact h.zero hR fun he => by rw [he]; rfl
  | succ rounds ih =>
    obtain ⟨more, rfl, hmore⟩ := h.succ
    refine hR.bind (hcond locals) fun value => ?_
    split
    · refine hR.bind (hbody locals) fun flow => ?_
      cases flow with
      | next locals => exact ih hmore _ locals
      | returned value => exact hR.pure _
    · exact hR.pure _

mutual

/-- Statements keep it. -/
theorem Stmt.eval_related (hR : Eval.Related R) (hsite : a.Agree V F b)
    (hcall : ∀ name args, F name → R (f name args) (g name args))
    (hfuel : Eval.Fueled R fuel fuel') (stmt : Stmt) (hs : stmt.Uses V F) (locals : Table Word) :
    R (stmt.eval t f a fuel locals) (stmt.eval t g b fuel' locals) := by
  match stmt with
  | .pass _ | .define .. => exact hR.pure _
  | .init _ _ _ value | .assign _ _ value =>
    exact hR.bind (value.eval_related hR hsite hcall locals hs.2) fun x =>
      assignTo_related hR hsite hs.1 x locals
  | .expr _ value =>
    exact hR.bind (value.eval_related hR hsite hcall locals hs) fun _ => hR.pure _
  | .ret _ value =>
    exact hR.bind (value.eval_related hR hsite hcall locals hs) fun _ => hR.pure _
  | .ifElse _ cond yes no =>
    refine hR.bind (cond.eval_related hR hsite hcall locals hs.1) fun _ => ?_
    split
    · exact Stmt.evalAll_related hR hsite hcall hfuel yes hs.2.1 locals
    · exact Stmt.evalAll_related hR hsite hcall hfuel no hs.2.2 locals
  | .ifElif _ cond yes cond' yes' no =>
    obtain ⟨hc, hy, hc', hy', hn⟩ := hs
    refine hR.bind (cond.eval_related hR hsite hcall locals hc) fun _ => ?_
    split
    · exact Stmt.evalAll_related hR hsite hcall hfuel yes hy locals
    · refine hR.bind (cond'.eval_related hR hsite hcall locals hc') fun _ => ?_
      split
      · exact Stmt.evalAll_related hR hsite hcall hfuel yes' hy' locals
      · exact Stmt.evalAll_related hR hsite hcall hfuel no hn locals
  | .whileDo _ cond body =>
    exact loop_related hR (fun locals => cond.eval_related hR hsite hcall locals hs.1)
      (fun locals => Stmt.evalAll_related hR hsite hcall hfuel body hs.2 locals) hfuel _ locals

theorem Stmt.evalAll_related (hR : Eval.Related R) (hsite : a.Agree V F b)
    (hcall : ∀ name args, F name → R (f name args) (g name args))
    (hfuel : Eval.Fueled R fuel fuel') (stmts : List Stmt) (hs : UsesAll V F stmts)
    (locals : Table Word) :
    R (evalAll t f a fuel stmts locals) (evalAll t g b fuel' stmts locals) := by
  match stmts with
  | [] => exact hR.pure _
  | stmt :: stmts =>
    refine hR.bind (Stmt.eval_related hR hsite hcall hfuel stmt hs.1 locals) fun flow => ?_
    cases flow with
    | next locals => exact Stmt.evalAll_related hR hsite hcall hfuel stmts hs.2 locals
    | returned value => exact hR.pure _

end

theorem Stmt.evalTop_related (hR : Eval.Related R) (hsite : a.Agree V F b)
    (hcall : ∀ name args, F name → R (f name args) (g name args))
    (hfuel : Eval.Fueled R fuel fuel') {stmts : List Stmt} (hs : UsesAll V F stmts) :
    R (evalTop t f a fuel stmts) (evalTop t g b fuel' stmts) := by
  fun_induction evalTop t f a fuel stmts with
  | case1 => exact hR.pure _
  | case2 _ value =>
    exact hR.bind (value.eval_related hR hsite hcall _ hs.1) fun _ => hR.pure _
  | case3 stmt stmts hlast ih =>
    rw [evalTop.eq_3 t g b fuel' stmt stmts hlast]
    exact hR.bind (stmt.eval_related hR hsite hcall hfuel hs.1 _) fun _ => ih hs.2

/-- Calls keep it at every depth, if the functions that are used are the same. -/
theorem callAt_related (hR : Eval.Related R) {fs gs : String → Option (Routine σ)}
    (hsame : ∀ name, F name → fs name = gs name)
    (huses : ∀ name r, F name → fs name = some r → Stmt.UsesAll (fun _ => True) F r.body)
    (limit : Nat) (hfuel : Eval.Fueled R fuel fuel') (depth : Nat) {name : String} (hn : F name)
    (args : List Word) :
    R (callAt t fs limit fuel depth name args) (callAt t gs limit fuel' depth name args) := by
  induction fuel generalizing fuel' depth name args with
  | zero =>
    exact hfuel.zero hR fun he => by rw [he]; rfl
  | succ fuel ih =>
    obtain ⟨more, rfl, hmore⟩ := hfuel.succ
    simp only [callAt, ← hsame name hn]
    cases hr : fs name with
    | none => exact hR.endless
    | some r =>
      dsimp only
      split
      · refine hR.bind (Stmt.evalAll_related hR (r.site.agree_refl _ F)
          (fun name args hn => ih hmore _ hn args) hmore r.body (huses name r hn hr) _)
          fun flow => ?_
        cases flow with
        | next _ => exact hR.pure _
        | returned _ => exact hR.pure _
      · exact hR.lift (.error .exhausted)

/-- Units keep it, so names that are not used do not matter. -/
theorem evalUnit_related (hR : Eval.Related R) {fs gs : String → Option (Routine σ)}
    (hsite : a.Agree V F b) (hsame : ∀ name, F name → fs name = gs name)
    (huses : ∀ name r, F name → fs name = some r → Stmt.UsesAll (fun _ => True) F r.body)
    (limit : Nat) (hfuel : Eval.Fueled R fuel fuel') {stmts : List Stmt}
    (hs : Stmt.UsesAll V F stmts) :
    R (evalUnit t fs limit a fuel stmts) (evalUnit t gs limit b fuel' stmts) := by
  unfold evalUnit
  split
  · exact Stmt.evalTop_related hR hsite
      (fun _ args hn => callAt_related hR hsame huses limit hfuel 1 hn args) hfuel hs
  · exact hR.lift (.error .exhausted)

theorem Eval.related_eq : Related (σ := σ) (fun _ g g' => g = g') where
  pure _ := rfl
  bind hg hh := by rw [hg, funext hh]
  endless := rfl
  lift _ := rfl
  read _ := rfl
  modify _ := rfl
  serve _ := rfl

/-- An answer on the left is one on the right. -/
theorem Eval.related_answer :
    Related (σ := σ) (fun _ g g' => ∀ w r, g w = some r → g' w = some r) where
  pure _ _ _ h := h
  bind := by
    intro α β g g' h h' hg hh w r hr
    change Eval.bind g h w = some r at hr
    change Eval.bind g' h' w = some r
    unfold Eval.bind at hr ⊢
    cases hw : g w with
    | none =>
      rw [hw] at hr
      cases hr
    | some answer =>
      rw [hg w answer hw]
      rw [hw] at hr
      obtain ⟨_ | x, v⟩ := answer
      · exact hr
      · exact hh x v r hr
  endless _ _ h := h
  lift _ _ _ h := h
  read _ _ _ h := h
  modify _ _ _ h := h
  serve _ _ _ h := h

/-- What has been printed stays. -/
def Eval.Prints {α : Type} (g : Eval σ α) : Prop :=
  ∀ w r w', g w = some (r, w') → w.host.served <:+ w'.host.served

/-- Nothing that has been printed is taken back. -/
theorem Eval.related_prints : Related (σ := σ) (fun _ g _ => Prints g) where
  pure _ w r w' h := by
    cases h
    exact List.suffix_rfl
  bind := by
    intro α β g _ h _ hg hh w r w' hr
    change Eval.bind g h w = some (r, w') at hr
    unfold Eval.bind at hr
    cases hw : g w with
    | none =>
      rw [hw] at hr
      cases hr
    | some answer =>
      obtain ⟨r', v⟩ := answer
      have hfirst := hg w r' v hw
      rw [hw] at hr
      cases r' with
      | error stop =>
        cases hr
        exact hfirst
      | ok x => exact hfirst.trans (hh x v r w' hr)
  endless _ _ _ h := by cases h
  lift _ w r w' h := by
    cases h
    exact List.suffix_rfl
  read _ w r w' h := by
    cases h
    exact List.suffix_rfl
  modify _ w r w' h := by
    cases h
    exact List.suffix_rfl
  serve c w r w' h := by
    unfold Eval.serve at h
    split at h
    · rename_i host hserve
      cases h
      rw [Host.serve_served hserve]
      exact List.suffix_cons _ _
    · cases h
      exact List.suffix_rfl

/-- More fuel does not change an answer. -/
theorem evalUnit_mono {fs : String → Option (Routine σ)} {limit : Nat} {stmts : List Stmt}
    {w : World σ} {r : Except Stop (Option Word) × World σ} (hle : fuel ≤ fuel')
    (h : evalUnit t fs limit a fuel stmts w = some r) :
    evalUnit t fs limit a fuel' stmts w = some r :=
  evalUnit_related Eval.related_answer (a.agree_refl _ _) (fun _ _ => rfl)
    (fun _ r _ _ => Stmt.usesAll_any r.body) limit
    (.inr ⟨hle, fun _ _ _ h => nomatch h⟩) (Stmt.usesAll_any stmts) w r h

theorem evalUnit_prints (fs : String → Option (Routine σ)) (limit : Nat) (stmts : List Stmt) :
    Eval.Prints (evalUnit t fs limit a fuel stmts) :=
  evalUnit_related Eval.related_prints (a.agree_refl _ _) (fun _ _ => rfl)
    (fun _ r _ _ => Stmt.usesAll_any r.body) limit (.inl rfl) (Stmt.usesAll_any stmts)

end Related

end StackScript
