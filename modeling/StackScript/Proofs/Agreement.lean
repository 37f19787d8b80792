import Mathlib.Data.List.Forall2
import StackScript.Proofs.Checked

namespace StackScript

/-- The words that values of a type can be. -/
def Ty.Admits : Ty → Word → Prop
  | .int, _ => True
  | .bool, v => v = 0 ∨ v = 1
  | .none, v | .void, v => v = 0

instance (type : Ty) (v : Word) : Decidable (type.Admits v) := by
  unfold Ty.Admits
  split <;> infer_instance

theorem Ty.admits_zero (type : Ty) : type.Admits 0 := by
  cases type with
  | int => trivial
  | bool => exact .inl rfl
  | none | void => rfl

theorem Ty.admits_truthWord (b : Bool) : Ty.bool.Admits (truthWord b) := by
  cases b with
  | false => exact .inl rfl
  | true => exact .inr rfl

structure Truth.Agrees (t u : Truth) : Prop where
  negate : ∀ {v : Word}, Ty.bool.Admits v → t.negate v = u.negate v ∧ Ty.bool.Admits (u.negate v)
  enters : ∀ {v : Word}, Ty.bool.Admits v → t.enters v = u.enters v

theorem Truth.plain_agrees : plain.Agrees parity := by
  constructor
  · rintro v (rfl | rfl) <;> decide
  · rintro v (rfl | rfl) <;> decide

theorem Truth.parity_agrees : parity.Agrees parity := by
  constructor
  · rintro v (rfl | rfl) <;> decide
  · rintro v (rfl | rfl) <;> rfl

/-- An operator gives words of the type that checking finds for it. -/
theorem BinaryOp.admits_apply {op : BinaryOp} {l r type : Ty} {left right value : Word}
    (ht : Expr.binaryType? op l r = some type) (h : op.apply left right = .ok value) :
    type.Admits value := by
  cases op with
  | add | sub | mul | floorDiv | mod =>
    simp only [Expr.binaryType?, Option.ite_none_right_eq_some, Option.some.injEq] at ht
    rw [← ht.2]
    trivial
  | lt | le | gt | ge | is =>
    simp only [Expr.binaryType?, Option.ite_none_right_eq_some, Option.some.injEq] at ht
    cases h
    rw [← ht.2]
    exact Ty.admits_truthWord _
  | eq | ne =>
    cases ht
    cases h
    exact Ty.admits_truthWord _

section Answers

variable {σ τ α β : Type}

/-- Two answers agree: both are missing, both are the same stop, or both are the same value. `E`
relates the worlds behind a stop, `post` those behind a value. -/
inductive Alike (E : World σ → World τ → Prop) (post : α → World σ → World τ → Prop) :
    Option (Except Stop α × World σ) → Option (Except Stop α × World τ) → Prop
  | endless : Alike E post none none
  | stopped {stop : Stop} {w : World σ} {v : World τ} (worlds : E w v) :
      Alike E post (some (.error stop, w)) (some (.error stop, v))
  | done {a : α} {w : World σ} {v : World τ} (worlds : post a w v) :
      Alike E post (some (.ok a, w)) (some (.ok a, v))

variable {E E' : World σ → World τ → Prop} {post : α → World σ → World τ → Prop} {w : World σ}
  {v : World τ}

namespace Alike

theorem weaken {post' : α → World σ → World τ → Prop} {r : Option (Except Stop α × World σ)}
    {q : Option (Except Stop α × World τ)} (h : Alike E post r q) (he : ∀ w v, E w v → E' w v)
    (hp : ∀ a w v, post a w v → post' a w v) : Alike E' post' r q := by
  cases h with
  | endless => exact .endless
  | stopped worlds => exact .stopped (he _ _ worlds)
  | done worlds => exact .done (hp _ _ _ worlds)

/-- Two computations that agree go on with ones that agree on every common value. -/
theorem bind {post' : β → World σ → World τ → Prop} {f : Eval σ α} {g : Eval τ α}
    {f' : α → Eval σ β} {g' : α → Eval τ β} (h : Alike E post (f w) (g v))
    (hn : ∀ a w v, post a w v → Alike E post' (f' a w) (g' a v)) :
    Alike E post' ((f >>= f') w) ((g >>= g') v) := by
  change Alike E post' (Eval.bind f f' w) (Eval.bind g g' v)
  unfold Eval.bind
  generalize f w = r at h
  generalize g v = q at h
  cases h with
  | endless => exact .endless
  | stopped worlds => exact .stopped worlds
  | done worlds => exact hn _ _ _ worlds

/-- An answer on the one side is the answer on the other. -/
theorem answer {r : Except Stop α} {x : Option (Except Stop α × World τ)}
    (h : Alike E (fun _ => E) (some (r, w)) x) : ∃ v, x = some (r, v) ∧ E w v := by
  cases h with
  | stopped worlds => exact ⟨_, rfl, worlds⟩
  | done worlds => exact ⟨_, rfl, worlds⟩

theorem answer_back {r : Except Stop α} {x : Option (Except Stop α × World σ)}
    (h : Alike E (fun _ => E) x (some (r, v))) : ∃ w, x = some (r, w) ∧ E w v := by
  cases h with
  | stopped worlds => exact ⟨_, rfl, worlds⟩
  | done worlds => exact ⟨_, rfl, worlds⟩

theorem pure {a : α} (h : post a w v) :
    Alike E post ((Pure.pure a : Eval σ α) w) ((Pure.pure a : Eval τ α) v) := .done h

end Alike

structure Together (S : σ → τ → Prop) (w : World σ) (v : World τ) : Prop where
  host : w.host = v.host
  store : S w.store v.store

variable {S : σ → τ → Prop}

theorem Alike.serve (h : Together S w v) (c : HostCall) :
    Alike (Together S) (fun _ => Together S) (Eval.serve c w) (Eval.serve c v) := by
  unfold Eval.serve
  rw [h.host]
  cases v.host.serve c with
  | error reason => exact .stopped ⟨rfl, h.store⟩
  | ok host => exact .done ⟨rfl, h.store⟩

theorem Alike.lift (h : Together S w v) (r : Except Stop α) :
    Alike (Together S) (fun a w v => r = .ok a ∧ Together S w v) (Eval.lift r w)
      (Eval.lift r v) := by
  cases r with
  | error stop => exact .stopped h
  | ok a => exact .done ⟨rfl, h⟩

def ValuePost (S : σ → τ → Prop) (type : Ty) (value : Word) (w : World σ) (v : World τ) : Prop :=
  type.Admits value ∧ Together S w v

end Answers

section Agreement

variable {σ τ : Type}

/-- What two sites have in common for expressions that are checked in `s`. `own` are the names of the
call around them. -/
structure View (S : σ → τ → Prop) (s : Scopes) (own : String → Bool) (a : Site σ) (b : Site τ) :
    Prop where
  reads : ∀ {name : String} {type : Ty}, own name = false → s.typeOf? name = some type →
    ∀ {x : σ} {y : τ}, S x y → a.read name x = b.read name y ∧ type.Admits (b.read name y)
  prints : a.scopes.Alike b.scopes

structure Setting (S : σ → τ → Prop) (s : Scopes) (result : Option Ty) (own : String → Bool)
    (a : Site σ) (b : Site τ) : Prop extends View S s own a b where
  writes : ∀ {name : String} {type : Ty} {value : Word}, own name = false →
    s.typeOf? name = some type → (result.isSome = true → s.isLocal name = true) →
    type.Admits value → ∀ {x : σ} {y : τ}, S x y → S (a.write name value x) (b.write name value y)

structure Scopes.Covers (s : Scopes) (own : String → Bool) (locals : Table Word) : Prop where
  own : ∀ name, locals.contains name = own name
  typed : ∀ {name : String} {type : Ty} {value : Word}, locals.get? name = some value →
    s.typeOf? name = some type → type.Admits value

theorem Scopes.Covers.not_own {s : Scopes} {own : String → Bool} {locals : Table Word}
    (h : s.Covers own locals) {name : String} (hn : locals.get? name = none) :
    own name = false := by
  rw [← h.own name, Table.contains, hn]
  rfl

def CallsAlike (S : σ → τ → Prop) (s : Scopes) (f : String → List Word → Eval σ Word)
    (g : String → List Word → Eval τ Word) : Prop :=
  ∀ {name : String} {sig : Signature} {args : List Word}, s.signatureOf? name = some sig →
    List.Forall₂ Ty.Admits sig.params args → ∀ {w : World σ} {v : World τ}, Together S w v →
    Alike (Together S) (ValuePost S sig.result) (f name args w) (g name args v)

variable {S : σ → τ → Prop} {s : Scopes} {result : Option Ty} {own : String → Bool} {a : Site σ}
  {b : Site τ} {t u : Truth} {f : String → List Word → Eval σ Word}
  {g : String → List Word → Eval τ Word} {locals : Table Word}

theorem UnaryOp.apply_agrees (ht : t.Agrees u) (op : UnaryOp) {value : Word}
    (hv : (Expr.unaryType op).Admits value) :
    op.apply t value = op.apply u value ∧ (Expr.unaryType op).Admits (op.apply u value) := by
  cases op with
  | neg => exact ⟨rfl, trivial⟩
  | not => exact ht.negate hv

mutual

/-- A checked expression has the same value of its type on both sides, or stops in the same way on
both. -/
theorem Expr.alike (ht : t.Agrees u) (hs : View S s own a b) (hcalls : CallsAlike S s f g)
    (hl : s.Covers own locals) (e : Expr) {type : Ty} (he : e.typeIn s = .ok type)
    {w : World σ} {v : World τ} (hw : Together S w v) :
    Alike (Together S) (ValuePost S type) (e.eval t f a locals w) (e.eval u g b locals v) := by
  match e with
  | .noneLit _ =>
    cases he
    exact .pure ⟨rfl, hw⟩
  | .boolLit _ value =>
    cases he
    exact .pure ⟨Ty.admits_truthWord value, hw⟩
  | .intLit _ value =>
    cases he
    exact .pure ⟨trivial, hw⟩
  | .var _ name =>
    simp only [typeIn] at he
    cases hn : s.typeOf? name with
    | none => simp [hn] at he
    | some expected =>
      simp only [hn, Except.ok.injEq] at he
      subst he
      simp only [eval]
      cases hv : locals.get? name with
      | some value => exact .pure ⟨hl.typed hv hn, hw⟩
      | none =>
        obtain ⟨hread, hadmits⟩ := hs.reads (hl.not_own hv) hn hw.store
        change Alike _ _ (some (.ok (a.read name w.store), w)) _
        rw [hread]
        exact .done ⟨hadmits, hw⟩
  | .unary _ op operand =>
    obtain ⟨ho, rfl⟩ := typeIn_unary he
    refine (Expr.alike ht hs hcalls hl operand ho hw).bind ?_
    rintro value w v ⟨hv, hw⟩
    obtain ⟨heq, hadmits⟩ := op.apply_agrees ht hv
    rw [heq]
    exact .pure ⟨hadmits, hw⟩
  | .binary _ op left right =>
    obtain ⟨l, r, hleft, hright, hop⟩ := typeIn_binary he
    refine (Expr.alike ht hs hcalls hl left hleft hw).bind ?_
    rintro x w v ⟨_, hw⟩
    refine (Expr.alike ht hs hcalls hl right hright hw).bind ?_
    rintro y w v ⟨_, hw⟩
    refine (Alike.lift hw _).weaken (fun _ _ h => h) ?_
    rintro value w v ⟨hvalue, hw⟩
    exact ⟨BinaryOp.admits_apply hop hvalue, hw⟩
  | .call _ callee args =>
    obtain ⟨sig, hsig, hlen, hargs, rfl⟩ := typeIn_call he
    refine (Expr.alikeAll ht hs hcalls hl args hlen hargs hw).bind ?_
    rintro values w v ⟨hvalues, hw⟩
    exact hcalls hsig hvalues hw
  | .print _ arg =>
    refine (Expr.alike ht hs hcalls hl arg he hw).bind ?_
    rintro value w v ⟨_, hw⟩
    have hprint : arg.printType a.scopes = arg.printType b.scopes := by
      simp only [printType, typeIn_congr hs.prints arg]
    rw [hprint]
    refine (Alike.serve hw _).bind ?_
    intro _ w v hw
    exact .pure ⟨type.admits_zero, hw⟩

theorem Expr.alikeAll (ht : t.Agrees u) (hs : View S s own a b)
    (hcalls : CallsAlike S s f g) (hl : s.Covers own locals) (es : List Expr) {index : Nat}
    {types : List Ty} (hlen : es.length = types.length) (he : checkArgs s index types es = .ok ())
    {w : World σ} {v : World τ} (hw : Together S w v) :
    Alike (Together S) (fun values w v => List.Forall₂ Ty.Admits types values ∧ Together S w v)
      (evalAll t f a locals es w) (evalAll u g b locals es v) := by
  match es, types with
  | [], [] => exact .pure ⟨.nil, hw⟩
  | [], _ :: _ | _ :: _, [] => simp at hlen
  | e :: es, type :: types =>
    obtain ⟨hfirst, hrest⟩ := checkArgs_cons he
    refine (Expr.alike ht hs hcalls hl e hfirst hw).bind ?_
    rintro value w v ⟨hv, hw⟩
    refine (Expr.alikeAll ht hs hcalls hl es (by simpa using hlen) hrest hw).bind ?_
    rintro values w v ⟨hvs, hw⟩
    exact .pure ⟨.cons hv hvs, hw⟩

end

/-- How statements end on both sides: with variables that still hold words of their types, or with a
value of the result type. -/
def FlowPost (S : σ → τ → Prop) (s : Scopes) (own : String → Bool) (result : Option Ty)
    (flow : Flow) (w : World σ) (v : World τ) : Prop :=
  Together S w v ∧
    match flow with
    | .next locals => s.Covers own locals
    | .returned value => ∃ type, result = some type ∧ type.Admits value

theorem Scopes.Covers.assign (h : s.Covers own locals) {name : String} {type : Ty} {value : Word}
    (hn : locals.contains name = true) (ht : s.typeOf? name = some type) (hv : type.Admits value) :
    s.Covers own (locals.insert name value) := by
  constructor
  · intro other
    rw [← h.own other, Table.contains_insert]
    by_cases ho : other = name
    · simp [ho, hn]
    · simp [ho]
  · intro other t v hg ho
    rw [Table.get?_insert] at hg
    split at hg
    · rename_i he
      cases hg
      rw [he, ht] at ho
      cases ho
      exact hv
    · exact h.typed hg ho

/-- A variable is declared with a first value. -/
theorem Scopes.Covers.declare (h : s.Covers own locals) {name : String} {type : Ty} {value : Word}
    (hn : own name = true) (hv : type.Admits value) :
    (s.withVariable name type).Covers own (locals.insert name value) := by
  constructor
  · intro other
    rw [← h.own other, Table.contains_insert]
    by_cases ho : other = name
    · simp [ho, h.own, hn]
    · simp [ho]
  · intro other t v hg ho
    rw [Scopes.typeOf?_eq_some, Scopes.lookup_withVariable] at ho
    rw [Table.get?_insert] at hg
    split at ho
    · rename_i he
      rw [if_pos he] at hg
      cases hg
      cases ho
      exact hv
    · rename_i he
      rw [if_neg he] at hg
      exact h.typed hg (Scopes.typeOf?_eq_some.mpr ho)

/-- An assignment goes to a variable of the call or, at the top level, to both stores. -/
theorem Stmt.assignTo_alike (hs : Setting S s result own a b) (hl : s.Covers own locals)
    {name : String} {type : Ty} {value : Word} (hn : s.typeOf? name = some type)
    (hlocal : result.isSome = true → s.isLocal name = true) (hv : type.Admits value)
    {w : World σ} {v : World τ} (hw : Together S w v) :
    Alike (Together S) (FlowPost S s own result) (assignTo a name value locals w)
      (assignTo b name value locals v) := by
  unfold assignTo
  cases hc : locals.contains name with
  | true => exact .pure ⟨hw, hl.assign hc hn hv⟩
  | false =>
    have hown : own name = false := by rw [← hl.own name, hc]
    have hstore := hs.writes hown hn hlocal hv hw.store
    exact .done ⟨⟨hw.host, hstore⟩, hl⟩

/-- Loops agree round by round if their conditions and bodies do. -/
theorem Stmt.loop_alike {cond : Table Word → Eval σ Word} {cond' : Table Word → Eval τ Word}
    {body : Table Word → Eval σ Flow} {body' : Table Word → Eval τ Flow}
    (hcond : ∀ {locals w v}, s.Covers own locals → Together S w v →
      Alike (Together S) (ValuePost S .bool) (cond locals w) (cond' locals v))
    (hbody : ∀ {locals w v}, s.Covers own locals → Together S w v →
      Alike (Together S) (FlowPost S s own result) (body locals w) (body' locals v))
    (rounds : Nat) {test test' : Word → Bool}
    (htest : ∀ {value : Word}, Ty.bool.Admits value → test value = test' value)
    {locals : Table Word} (hl : s.Covers own locals) {w : World σ} {v : World τ}
    (hw : Together S w v) :
    Alike (Together S) (FlowPost S s own result) (loop cond body rounds test locals w)
      (loop cond' body' rounds test' locals v) := by
  induction rounds generalizing test test' locals w v with
  | zero => exact .endless
  | succ rounds ih =>
    refine (hcond hl hw).bind ?_
    rintro value w v ⟨hv, hw⟩
    rw [htest hv]
    split
    · refine (hbody hl hw).bind ?_
      rintro (locals | returned) w v ⟨hw, hflow⟩
      · exact ih (fun _ => rfl) hflow hw
      · exact .pure ⟨hw, hflow⟩
    · exact .pure ⟨hw, hl⟩

mutual

/-- A checked statement ends in the same way on both sides. Truth values are 0 or 1, so a different
reading of other words makes no difference. -/
theorem Stmt.alike (ht : t.Agrees u) (hs : Setting S s result own a b)
    (hcalls : CallsAlike S s f g) (fuel : Nat) (stmt : Stmt) {type : Ty}
    (hstmt : stmt.typeIn s result = .ok type) {locals : Table Word} (hl : s.Covers own locals)
    {w : World σ} {v : World τ} (hw : Together S w v) :
    Alike (Together S) (FlowPost S s own result) (stmt.eval t f a fuel locals w)
      (stmt.eval u g b fuel locals v) := by
  match stmt with
  | .pass _ => exact .pure ⟨hw, hl⟩
  | .init .. => exact absurd hstmt typeIn_init
  | .define .. => exact absurd hstmt typeIn_define
  | .assign _ name value =>
    obtain ⟨expected, hn, hvalue, hlocal⟩ := typeIn_assign hstmt
    refine (Expr.alike ht hs.toView hcalls hl value hvalue hw).bind ?_
    rintro x w v ⟨hx, hw⟩
    exact assignTo_alike hs hl hn hlocal hx hw
  | .expr _ value =>
    refine (Expr.alike ht hs.toView hcalls hl value hstmt hw).bind ?_
    rintro x w v ⟨_, hw⟩
    exact .pure ⟨hw, hl⟩
  | .ret _ value =>
    obtain ⟨expected, hr, hvalue⟩ := typeIn_ret hstmt
    refine (Expr.alike ht hs.toView hcalls hl value hvalue hw).bind ?_
    rintro x w v ⟨hx, hw⟩
    exact .pure ⟨hw, expected, hr, hx⟩
  | .ifElse _ cond yes no =>
    obtain ⟨hcond, hyes, hno⟩ := typeIn_ifElse hstmt
    refine (Expr.alike ht hs.toView hcalls hl cond hcond hw).bind ?_
    rintro x w v ⟨_, hw⟩
    split
    · exact Stmt.alikeAll ht hs hcalls fuel yes hyes hl hw
    · exact Stmt.alikeAll ht hs hcalls fuel no hno hl hw
  | .ifElif _ cond yes cond' yes' no =>
    obtain ⟨hcond, hyes, hcond', hyes', hno⟩ := typeIn_ifElif hstmt
    refine (Expr.alike ht hs.toView hcalls hl cond hcond hw).bind ?_
    rintro x w v ⟨_, hw⟩
    split
    · exact Stmt.alikeAll ht hs hcalls fuel yes hyes hl hw
    · refine (Expr.alike ht hs.toView hcalls hl cond' hcond' hw).bind ?_
      rintro y w v ⟨_, hw⟩
      split
      · exact Stmt.alikeAll ht hs hcalls fuel yes' hyes' hl hw
      · exact Stmt.alikeAll ht hs hcalls fuel no hno hl hw
  | .whileDo _ cond body =>
    obtain ⟨hcond, hbody⟩ := typeIn_whileDo hstmt
    exact loop_alike (fun hl hw => Expr.alike ht hs.toView hcalls hl cond hcond hw)
      (fun hl hw => Stmt.alikeAll ht hs hcalls fuel body hbody hl hw) fuel ht.enters hl hw

theorem Stmt.alikeAll (ht : t.Agrees u) (hs : Setting S s result own a b)
    (hcalls : CallsAlike S s f g) (fuel : Nat) (stmts : List Stmt)
    (hstmts : checkAll s result stmts = .ok ()) {locals : Table Word} (hl : s.Covers own locals)
    {w : World σ} {v : World τ} (hw : Together S w v) :
    Alike (Together S) (FlowPost S s own result) (evalAll t f a fuel stmts locals w)
      (evalAll u g b fuel stmts locals v) := by
  match stmts with
  | [] => exact .pure ⟨hw, hl⟩
  | stmt :: stmts =>
    obtain ⟨⟨type, hstmt⟩, hstmts⟩ := checkAll_cons hstmts
    refine (Stmt.alike ht hs hcalls fuel stmt hstmt hl hw).bind ?_
    rintro (locals | returned) w v ⟨hw, hflow⟩
    · exact Stmt.alikeAll ht hs hcalls fuel stmts hstmts hflow hw
    · exact .pure ⟨hw, hflow⟩

end

end Agreement

section Calls

theorem Table.mem_of_get?_foldl {α : Type} {entries : List (String × α)} {table : Table α}
    {name : String} {x : α}
    (h : (entries.foldl (fun t e => t.insert e.1 e.2) table).get? name = some x) :
    (name, x) ∈ entries ∨ table.get? name = some x := by
  induction entries generalizing table with
  | nil => exact .inr h
  | cons e entries ih =>
    rcases ih h with hm | hg
    · exact .inl (List.mem_cons_of_mem e hm)
    · rw [Table.get?_insert] at hg
      split at hg
      · rename_i he
        cases hg
        rw [he]
        exact .inl List.mem_cons_self
      · exact .inr hg

variable {σ τ : Type}

theorem Param.admits_of_mem_zip {params : List Param} {args : List Word} {name : String}
    {value : Word} (h : List.Forall₂ (fun p v => Ty.Admits p.type v) params args)
    (hm : (name, value) ∈ (params.map (·.name)).zip args) :
    ∃ p ∈ params, p.name = name ∧ p.type.Admits value := by
  induction h with
  | nil => cases hm
  | @cons p v params args hv _ ih =>
    rcases List.mem_cons.mp hm with he | hm
    · cases he
      exact ⟨p, List.mem_cons_self, rfl, hv⟩
    · obtain ⟨q, hq, hname, hadmits⟩ := ih hm
      exact ⟨q, List.mem_cons_of_mem p hq, hname, hadmits⟩

/-- A call starts with words of the right types: arguments, and zeros. -/
theorem Routine.frame_covers (r : Routine σ) {args : List Word} {layer : Layer}
    (hl : Stmt.paramLayer .empty r.params = .ok layer)
    (hargs : List.Forall₂ (fun p v => Ty.Admits p.type v) r.params args) (s : Scopes) :
    (s.push layer).Covers (r.frame args).contains (r.frame args) := by
  refine ⟨fun _ => rfl, ?_⟩
  intro name type value hv hn
  have hmem : (name, value) ∈ (r.params.map (·.name)).zip args ++
      ((FunctionCode.localsOf r.body).map (·.1)).map fun name => (name, 0) := by
    rcases Table.mem_of_get?_foldl hv with hm | hg
    · exact hm
    · cases hg
  rcases List.mem_append.mp hmem with hm | hm
  · obtain ⟨p, hp, rfl, hadmits⟩ := Param.admits_of_mem_zip hargs hm
    have hlayer := (Stmt.paramLayer_ok hl).2.1 p hp
    rw [Scopes.typeOf?_eq_some, Scopes.lookup_push, Layer.get?, hlayer] at hn
    cases hn
    exact hadmits
  · obtain ⟨other, _, he⟩ := List.mem_map.mp hm
    cases he
    exact type.admits_zero

/-- Scopes inside a function: `own` are all names of the call, those that are still to be declared
included. -/
structure Scopes.Inside (s₀ : Scopes) (own : String → Bool) (s : Scopes) : Prop where
  outside : ∀ {name : String}, own name = false → s.lookup name = s₀.lookup name
  own : ∀ {name : String}, s.isLocal name = true → own name = true

theorem Scopes.Inside.withVariable {s₀ s : Scopes} {own : String → Bool} (h : s₀.Inside own s)
    {name : String} (hn : own name = true) (type : Ty) :
    s₀.Inside own (s.withVariable name type) := by
  constructor
  · intro other ho
    rw [lookup_withVariable, if_neg]
    · exact h.outside ho
    · rintro rfl
      rw [hn] at ho
      cases ho
  · intro other ho
    rw [isLocal, Scopes.withVariable, Table.contains_insert, Bool.or_eq_true] at ho
    rcases ho with he | ho
    · rw [beq_iff_eq] at he
      rw [he]
      exact hn
    · exact h.own ho

/-- A function starts with its parameters in a layer of their own. -/
theorem Scopes.inside_push {s₀ : Scopes} {params : List Param} {layer : Layer}
    (hl : Stmt.paramLayer .empty params = .ok layer) {own : String → Bool}
    (hown : ∀ p ∈ params, own p.name = true) : s₀.Inside own (s₀.push layer) := by
  obtain ⟨hfuncs, _, hother, _⟩ := Stmt.paramLayer_ok hl
  have hnone {name : String} (hn : own name = false) : layer.vars.get? name = none := by
    rw [hother name]
    · rfl
    · rintro p hp rfl
      rw [hown p hp] at hn
      cases hn
  constructor
  · intro name hn
    rw [lookup_push, Layer.get?, hnone hn, hfuncs]
    rfl
  · intro name hn
    rw [← Bool.not_eq_false]
    intro hnot
    simp [isLocal, push, Table.contains, hnone hnot] at hn

/-- A function of both sides: the same text, checked, with the same meaning for the names around. -/
structure Routine.Pair (S : σ → τ → Prop) (known : String → Option Signature) (sig : Signature)
    (a : Routine σ) (b : Routine τ) : Prop where
  params : a.params = b.params
  body : a.body = b.body
  sig : sig = Stmt.signatureOf b.params b.result
  checked : ∃ s : Scopes, Stmt.checkFunction s b.params b.result b.body = .ok () ∧ s.Calls known ∧
    ∀ {name : String} {type : Ty}, s.typeOf? name = some type → ∀ {x : σ} {y : τ}, S x y →
      a.site.read name x = b.site.read name y ∧ type.Admits (b.site.read name y)
  prints : a.site.scopes.Alike b.site.scopes

def Paired (S : σ → τ → Prop) (known : String → Option Signature)
    (fs : String → Option (Routine σ)) (gs : String → Option (Routine τ)) : Prop :=
  ∀ {name : String} {sig : Signature}, known name = some sig →
    ∃ a b, fs name = some a ∧ gs name = some b ∧ Routine.Pair S known sig a b

variable {S : σ → τ → Prop} {t u : Truth} {known : String → Option Signature}
  {f : String → List Word → Eval σ Word} {g : String → List Word → Eval τ Word}

def KnownAlike (S : σ → τ → Prop) (known : String → Option Signature)
    (f : String → List Word → Eval σ Word) (g : String → List Word → Eval τ Word) : Prop :=
  ∀ {name : String} {sig : Signature} {args : List Word}, known name = some sig →
    List.Forall₂ Ty.Admits sig.params args → ∀ {w : World σ} {v : World τ}, Together S w v →
    Alike (Together S) (ValuePost S sig.result) (f name args w) (g name args v)

theorem KnownAlike.calls (h : KnownAlike S known f g) {s : Scopes} (hs : s.Calls known) :
    CallsAlike S s f g := by
  intro name sig args hn hargs w v hw
  exact h (hs name sig hn) hargs hw

variable {s₀ : Scopes} {own : String → Bool} {a : Site σ} {b : Site τ} {result : Ty}

theorem Scopes.Inside.setting {s : Scopes} (h : s₀.Inside own s)
    (hreads : ∀ {name : String} {type : Ty}, s₀.typeOf? name = some type → ∀ {x : σ} {y : τ},
      S x y → a.read name x = b.read name y ∧ type.Admits (b.read name y))
    (hprints : a.scopes.Alike b.scopes) : Setting S s (some result) own a b := by
  refine ⟨⟨?_, hprints⟩, ?_⟩
  · intro name type hn ht x y hxy
    rw [Scopes.typeOf?, h.outside hn] at ht
    exact hreads ht hxy
  · intro name type value hn _ hlocal
    rw [h.own (hlocal rfl)] at hn
    cases hn

/-- The declarations of a function give values to names of the call. -/
theorem Stmt.Declares.alike_inside (ht : t.Agrees u) (hcalls : KnownAlike S known f g)
    (hreads : ∀ {name : String} {type : Ty}, s₀.typeOf? name = some type → ∀ {x : σ} {y : τ},
      S x y → a.read name x = b.read name y ∧ type.Admits (b.read name y))
    (hprints : a.scopes.Alike b.scopes) (fuel : Nat) {s s' : Scopes} {head : List Stmt}
    (hd : Declares true s head s') (hs : s₀.Inside own s) (hk : s.Calls known)
    (hown : ∀ l ∈ FunctionCode.localsOf head, own l.1 = true) {rest : List Stmt}
    (hrest : checkAll s' (some result) rest = .ok ()) {locals : Table Word}
    (hl : s.Covers own locals) {w : World σ} {v : World τ} (hw : Together S w v) :
    Alike (Together S) (FlowPost S s' own (some result))
      (evalAll t f a fuel (head ++ rest) locals w) (evalAll u g b fuel (head ++ rest) locals v) := by
  induction hd generalizing locals w v with
  | nil => exact alikeAll ht (hs.setting hreads hprints) (hcalls.calls hk) fuel rest hrest hl hw
  | @init s _ span name type value head typed _ _ _ ih =>
    have hname : own name = true := hown (name, type) List.mem_cons_self
    have hset : Setting S s (some result) own a b := hs.setting hreads hprints
    have hinit : Alike (Together S)
        (fun flow w v => FlowPost S (s.withVariable name type) own none flow w v)
        ((Stmt.init span name type value).eval t f a fuel locals w)
        ((Stmt.init span name type value).eval u g b fuel locals v) := by
      refine (Expr.alike ht hset.toView (hcalls.calls hk) hl value typed hw).bind ?_
      rintro x w v ⟨hx, hw⟩
      unfold assignTo
      rw [hl.own name, hname]
      exact .pure ⟨hw, hl.declare hname hx⟩
    refine hinit.bind ?_
    rintro (locals | returned) w v ⟨hw, hflow⟩
    · exact ih (hs.withVariable hname type) (hk.withVariable name type)
        (fun l hm => hown l (List.mem_cons_of_mem _ hm)) hrest hflow hw
    · obtain ⟨_, hnone, _⟩ := hflow
      cases hnone
  | define top => cases top

/-- The body of a function, from the arguments on. -/
theorem Routine.Pair.body_alike {sig : Signature} {r : Routine σ} {q : Routine τ}
    (hp : Routine.Pair S known sig r q) (ht : t.Agrees u) (hcalls : KnownAlike S known f g)
    (fuel : Nat) {args : List Word} (hargs : List.Forall₂ Ty.Admits sig.params args)
    {w : World σ} {v : World τ} (hw : Together S w v) :
    ∃ s own, Alike (Together S) (FlowPost S s own (some sig.result))
      (Stmt.evalAll t f r.site fuel r.body (r.frame args) w)
      (Stmt.evalAll u g q.site fuel q.body (q.frame args) v) := by
  obtain ⟨s₀, hchecked, hk, hreads⟩ := hp.checked
  obtain ⟨layer, head, rest, s', hlayer, hbody, hd, hrest⟩ := Stmt.checkFunction_ok hchecked
  have hframe : r.frame args = q.frame args := by
    rw [Routine.frame, Routine.frame, hp.params, hp.body]
  have hparams : List.Forall₂ (fun p v => Ty.Admits p.type v) q.params args := by
    rw [hp.sig] at hargs
    exact List.forall₂_map_left_iff.mp hargs
  have hnames := q.contains_frame hparams.length_eq
  have hfuncs := (Stmt.paramLayer_ok hlayer).1
  have hinside : s₀.Inside (q.frame args).contains (s₀.push layer) := by
    refine Scopes.inside_push hlayer fun p hp => ?_
    rw [hnames, List.contains_eq_mem, decide_eq_true_iff, List.mem_append]
    exact .inl (List.mem_map_of_mem hp)
  refine ⟨s', (q.frame args).contains, ?_⟩
  rw [hframe, hp.body, hp.sig]
  have hhead : ∀ l ∈ FunctionCode.localsOf head, (q.frame args).contains l.1 = true := by
    intro l hl
    rw [hnames, List.contains_eq_mem, decide_eq_true_iff, List.mem_append]
    refine .inr (List.mem_map_of_mem ?_)
    rw [hbody, FunctionCode.localsOf_append]
    exact List.mem_append_left _ hl
  have hcovers := q.frame_covers hlayer hparams s₀
  generalize q.frame args = locals at hinside hhead hcovers
  rw [hbody]
  exact hd.alike_inside ht hcalls hreads hp.prints fuel hinside (hk.push hfuncs) hhead hrest
    hcovers hw

/-- Calls of checked functions go the same way at every depth, by induction on the fuel. -/
theorem callAt_alike {fs : String → Option (Routine σ)} {gs : String → Option (Routine τ)}
    (ht : t.Agrees u) (hp : Paired S known fs gs) (limit fuel depth : Nat) :
    KnownAlike S known (callAt t fs limit fuel depth) (callAt u gs limit fuel depth) := by
  induction fuel generalizing depth with
  | zero =>
    intro name sig args _ _ w v _
    exact .endless
  | succ fuel ih =>
    intro name sig args hn hargs w v hw
    obtain ⟨r, q, hr, hq, hpair⟩ := hp hn
    simp only [callAt, hr, hq]
    split
    · obtain ⟨s, own, hbody⟩ := hpair.body_alike ht (ih (depth + 1)) fuel hargs hw
      refine hbody.bind ?_
      rintro (locals | value) w v ⟨hw, hflow⟩
      · exact .pure ⟨Ty.admits_zero _, hw⟩
      · obtain ⟨type, htype, hv⟩ := hflow
        cases htype
        exact .pure ⟨hv, hw⟩
    · exact .stopped hw

theorem Stmt.evalTop_cons {stmt : Stmt} {stmts : List Stmt}
    (h : ∀ span value, stmt = .expr span value → stmts ≠ []) (fuel : Nat) :
    evalTop t f a fuel (stmt :: stmts) =
      stmt.eval t f a fuel .empty >>= fun _ => evalTop t f a fuel stmts := by
  cases stmts with
  | nil =>
    cases stmt with
    | expr span value => exact absurd rfl (h span value rfl)
    | _ => rfl
  | cons => cases stmt <;> rfl

/-- Top-level statements end with a value of the type that checking finds for them. -/
theorem Stmt.evalTop_alike {s : Scopes} (ht : t.Agrees u)
    (hs : Setting S s none (fun _ => false) a b) (hcalls : CallsAlike S s f g) (fuel : Nat)
    {stmts : List Stmt} {before type : Ty} (h : lastType s before stmts = .ok type)
    {w : World σ} {v : World τ} (hw : Together S w v) :
    Alike (Together S) (fun raw w v => (∀ value, raw = some value → type.Admits value) ∧
        Together S w v)
      (evalTop t f a fuel stmts w) (evalTop u g b fuel stmts v) := by
  have hempty : s.Covers (fun _ => false) .empty := ⟨fun _ => rfl, by simp⟩
  induction stmts generalizing before w v with
  | nil => exact .pure ⟨by simp, hw⟩
  | cons stmt stmts ih =>
    simp only [lastType, bind_eq_ok] at h
    obtain ⟨type', hstmt, h⟩ := h
    by_cases hlast : ∃ span value, stmt = .expr span value ∧ stmts = []
    · obtain ⟨span, value, rfl, rfl⟩ := hlast
      cases h
      refine (Expr.alike ht hs.toView hcalls hempty value hstmt hw).bind ?_
      rintro x w v ⟨hx, hw⟩
      refine .pure ⟨?_, hw⟩
      rintro y ⟨⟩
      split
      · exact hx
      · rename_i hvoid
        have hzero : x = 0 := by
          cases type' with
          | void => exact hx
          | _ => simp [Ty.isValue] at hvoid
        rw [hzero]
        exact before.admits_zero
    · have hne : ∀ span value, stmt = .expr span value → stmts ≠ [] := by
        intro span value he hnil
        exact hlast ⟨span, value, he, hnil⟩
      rw [evalTop_cons hne, evalTop_cons hne]
      refine (Stmt.alike ht hs hcalls fuel stmt hstmt hempty hw).bind ?_
      rintro flow w v ⟨hw, _⟩
      exact ih h hw

end Calls

end StackScript
