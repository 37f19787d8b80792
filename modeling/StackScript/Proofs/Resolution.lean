import StackScript.Proofs.Coherence
import StackScript.Proofs.Redeclaration
import StackScript.Proofs.TypeRules

namespace StackScript

namespace Stmt

def values : Stmt → List Expr
  | .pass _ | .define .. => []
  | .init _ _ _ value | .assign _ _ value | .expr _ value | .ret _ value => [value]
  | .ifElse _ cond _ _ | .whileDo _ cond _ => [cond]
  | .ifElif _ cond _ cond' _ _ => [cond, cond']

/-- A statement somewhere in a block of a function, and the scopes `m` in which it is checked if the
block is checked from `s` on. -/
inductive Place (m : Scopes) (stmt : Stmt) : Scopes → List Stmt → Prop
  | here {rest : List Stmt} : Place m stmt m (stmt :: rest)
  | declared {s s' : Scopes} {span : Span} {name : String} {type : Ty} {value : Expr}
      {rest : List Stmt} (taken : declareVariable s true name type span.first = .ok s')
      (more : Place m stmt s' rest) : Place m stmt s (.init span name type value :: rest)
  | after {s : Scopes} {first : Stmt} {rest : List Stmt}
      (other : ∀ span name type value, first ≠ .init span name type value)
      (more : Place m stmt s rest) : Place m stmt s (first :: rest)
  | within {s : Scopes} {first : Stmt} {block rest : List Stmt} (part : block ∈ first.blocks)
      (more : Place m stmt s block) : Place m stmt s (first :: rest)

/-- A run of a block comes from some locals and a world to a statement somewhere in it, as in
`Place`. Which way a test goes is left open, so that these are all runs, and more. -/
inductive Comes {σ : Type} (t : Truth) (f : String → List Word → Eval σ Word) (a : Site σ)
    (fuel : Nat) (m : Scopes) (stmt : Stmt) (found : Table Word) (v : World σ) :
    Scopes → List Stmt → Table Word → World σ → Prop
  | here {rest : List Stmt} : Comes t f a fuel m stmt found v m (stmt :: rest) found v
  | declared {s s' : Scopes} {span : Span} {name : String} {type : Ty} {value : Expr}
      {rest : List Stmt} {locals locals' : Table Word} {w w' : World σ}
      (taken : declareVariable s true name type span.first = .ok s')
      (run : (init span name type value).eval t f a fuel locals w = some (.ok (.next locals'), w'))
      (more : Comes t f a fuel m stmt found v s' rest locals' w') :
      Comes t f a fuel m stmt found v s (.init span name type value :: rest) locals w
  | after {s : Scopes} {first : Stmt} {rest : List Stmt} {locals locals' : Table Word}
      {w w' : World σ} (other : ∀ span name type value, first ≠ .init span name type value)
      (run : first.eval t f a fuel locals w = some (.ok (.next locals'), w'))
      (more : Comes t f a fuel m stmt found v s rest locals' w') :
      Comes t f a fuel m stmt found v s (first :: rest) locals w
  | within {s : Scopes} {first : Stmt} {block rest : List Stmt} {tests : List Expr}
      {answers : List Word} {locals : Table Word} {w w' : World σ} (part : block ∈ first.blocks)
      (begun : tests <+: first.values)
      (tested : Expr.evalAll t f a locals tests w = some (.ok answers, w'))
      (more : Comes t f a fuel m stmt found v s block locals w') :
      Comes t f a fuel m stmt found v s (first :: rest) locals w
  | again {s : Scopes} {span : Span} {cond : Expr} {body rest : List Stmt} {answer : Word}
      {locals locals' : Table Word} {w w' w'' : World σ}
      (tested : cond.eval t f a locals w = some (.ok answer, w'))
      (round : evalAll t f a fuel body locals w' = some (.ok (.next locals'), w''))
      (more : Comes t f a fuel m stmt found v s (.whileDo span cond body :: rest) locals' w'') :
      Comes t f a fuel m stmt found v s (.whileDo span cond body :: rest) locals w

inductive Block (own : String → Bool) (result : Ty) : Scopes → List Stmt → Prop
  | declared {s : Scopes} {span : Span} {name : String} {type : Ty} {value : Expr}
      {rest : List Stmt} (typed : value.typeIn s = .ok type) (named : own name = true)
      (free : s.inner.get? name = none) (more : Block own result (s.withVariable name type) rest) :
      Block own result s (.init span name type value :: rest)
  | plain {s : Scopes} {stmts : List Stmt} (all : ∀ name, own name = true → s.isLocal name = true)
      (checked : checkAll s (some result) stmts = .ok ()) : Block own result s stmts

theorem values_typed {s : Scopes} {result : Option Ty} {stmt : Stmt} {type : Ty}
    (h : stmt.typeIn s result = .ok type) : ∀ e ∈ stmt.values, ∃ t, e.typeIn s = .ok t := by
  cases stmt with
  | pass => simp [values]
  | init => exact absurd h typeIn_init
  | define => exact absurd h typeIn_define
  | assign =>
    obtain ⟨expected, _, hvalue, _⟩ := typeIn_assign h
    simpa [values] using ⟨expected, hvalue⟩
  | expr => simpa [values] using ⟨type, h⟩
  | ret =>
    obtain ⟨expected, _, hvalue⟩ := typeIn_ret h
    simpa [values] using ⟨expected, hvalue⟩
  | ifElse =>
    obtain ⟨hcond, _, _⟩ := typeIn_ifElse h
    simpa [values] using ⟨.bool, hcond⟩
  | ifElif =>
    obtain ⟨hcond, _, hcond', _, _⟩ := typeIn_ifElif h
    simpa [values] using ⟨⟨.bool, hcond⟩, .bool, hcond'⟩
  | whileDo =>
    obtain ⟨hcond, _⟩ := typeIn_whileDo h
    simpa [values] using ⟨.bool, hcond⟩

theorem blocks_checked {s : Scopes} {result : Option Ty} {stmt : Stmt} {type : Ty}
    (h : stmt.typeIn s result = .ok type) : ∀ b ∈ stmt.blocks, checkAll s result b = .ok () := by
  cases stmt with
  | ifElse =>
    obtain ⟨_, hyes, hno⟩ := typeIn_ifElse h
    simp [blocks, hyes, hno]
  | ifElif =>
    obtain ⟨_, hyes, _, hyes', hno⟩ := typeIn_ifElif h
    simp [blocks, hyes, hyes', hno]
  | whileDo =>
    obtain ⟨_, hbody⟩ := typeIn_whileDo h
    simp [blocks, hbody]
  | _ => simp [blocks]

namespace Block

variable {own : String → Bool} {result : Ty} {s : Scopes} {stmt : Stmt} {rest : List Stmt}

theorem values (h : Block own result s (stmt :: rest)) :
    ∀ e ∈ stmt.values, ∃ type, e.typeIn s = .ok type := by
  cases h with
  | declared typed => simpa [Stmt.values] using ⟨_, typed⟩
  | plain _ checked =>
    obtain ⟨⟨_, hstmt⟩, _⟩ := checkAll_cons checked
    exact values_typed hstmt

theorem within (h : Block own result s (stmt :: rest)) {block : List Stmt}
    (hb : block ∈ stmt.blocks) : Block own result s block := by
  cases h with
  | declared => cases hb
  | plain all checked =>
    obtain ⟨⟨_, hstmt⟩, _⟩ := checkAll_cons checked
    exact .plain all (blocks_checked hstmt block hb)

theorem init {span : Span} {name : String} {type : Ty} {value : Expr}
    (h : Block own result s (.init span name type value :: rest)) :
    value.typeIn s = .ok type ∧ own name = true ∧ s.inner.get? name = none ∧
      Block own result (s.withVariable name type) rest := by
  cases h with
  | declared typed named free more => exact ⟨typed, named, free, more⟩
  | plain _ checked =>
    obtain ⟨⟨_, hstmt⟩, _⟩ := checkAll_cons checked
    exact absurd hstmt typeIn_init

theorem other (h : Block own result s (stmt :: rest))
    (ho : ∀ span name type value, stmt ≠ .init span name type value) :
    (∀ name, own name = true → s.isLocal name = true) ∧
      (∃ type, stmt.typeIn s (some result) = .ok type) ∧ Block own result s rest := by
  cases h with
  | declared => exact absurd rfl (ho _ _ _ _)
  | plain all checked =>
    obtain ⟨hstmt, hrest⟩ := checkAll_cons checked
    exact ⟨all, hstmt, .plain all hrest⟩

end Block

/-- The declarations of a function, with the statements behind them, are a block that passes the
check. -/
theorem Declares.block {own : String → Bool} {result : Ty} {s s' : Scopes} {head rest : List Stmt}
    (h : Declares true s head s') (hown : ∀ d ∈ FunctionCode.localsOf head, own d.1 = true)
    (hall : ∀ name, own name = true → s'.isLocal name = true)
    (hrest : checkAll s' (some result) rest = .ok ()) : Block own result s (head ++ rest) := by
  induction h with
  | nil => exact .plain hall hrest
  | @init _ _ span name type _ _ typed free _ _ ih =>
    exact .declared typed (hown (name, type) List.mem_cons_self) free
      (ih (fun d hd => hown d (List.mem_cons_of_mem _ hd)) hall hrest)
  | define top => cases top

/-- What checking knows at a place: the names of the function that it has taken up before, and all
names around the function. -/
theorem Place.checked {own : String → Bool} {result : Ty} {s₀ s m : Scopes} {stmt : Stmt}
    {stmts : List Stmt} (h : Place m stmt s stmts) (hb : Block own result s stmts)
    (hs : s₀.Inside own s) :
    s₀.Inside own m ∧ (∀ e ∈ stmt.values, ∃ type, e.typeIn m = .ok type) ∧
      ∀ name b, s.inner.get? name = some b → m.inner.get? name = some b := by
  induction h with
  | here => exact ⟨hs, hb.values, fun _ _ h => h⟩
  | declared taken _ ih =>
    obtain ⟨_, named, free, more⟩ := hb.init
    obtain ⟨_, _, rfl⟩ := declareVariable_ok taken
    obtain ⟨hm, hvalues, hkept⟩ := ih more (hs.withVariable named _)
    refine ⟨hm, hvalues, fun name b hn => hkept name b ?_⟩
    rw [Scopes.withVariable, Layer.get?_insertVariable, if_neg]
    · exact hn
    · rintro rfl
      rw [free] at hn
      cases hn
  | after other _ ih => exact ih (hb.other other).2.2 hs
  | within part _ ih => exact ih (hb.within part) hs

end Stmt

namespace Expr

mutual

/-- A name that is read is a variable. -/
theorem lookup_of_mem_names {s : Scopes} (e : Expr) {type : Ty} (h : e.typeIn s = .ok type)
    {name : String} (hn : name ∈ e.names) : ∃ t, s.lookup name = some (.variable t) := by
  match e with
  | .noneLit _ | .boolLit .. | .intLit .. => cases hn
  | .var _ x =>
    rw [names, List.mem_singleton] at hn
    subst hn
    simp only [typeIn] at h
    cases ht : s.typeOf? name with
    | none => simp [ht] at h
    | some t => exact ⟨t, Scopes.typeOf?_eq_some.mp ht⟩
  | .unary _ _ operand => exact lookup_of_mem_names operand (typeIn_unary h).1 hn
  | .binary _ _ left right =>
    obtain ⟨l, r, hl, hr, _⟩ := typeIn_binary h
    rcases List.mem_append.mp hn with hn | hn
    · exact lookup_of_mem_names left hl hn
    · exact lookup_of_mem_names right hr hn
  | .call _ _ args =>
    obtain ⟨sig, _, hlen, hargs, _⟩ := typeIn_call h
    exact lookup_of_mem_namesAll args hlen hargs hn
  | .print _ arg => exact lookup_of_mem_names arg h hn

theorem lookup_of_mem_namesAll {s : Scopes} (es : List Expr) {types : List Ty} {index : Nat}
    (hlen : es.length = types.length) (h : checkArgs s index types es = .ok ()) {name : String}
    (hn : name ∈ namesAll es) : ∃ t, s.lookup name = some (.variable t) := by
  match es, types with
  | [], _ => cases hn
  | _ :: _, [] => simp at hlen
  | e :: es, type :: types =>
    obtain ⟨hfirst, hrest⟩ := checkArgs_cons h
    rcases List.mem_append.mp hn with hn | hn
    · exact lookup_of_mem_names e hfirst hn
    · exact lookup_of_mem_namesAll es (by simpa using hlen) hrest hn

end

end Expr

/-- A variable of the innermost layer, or one of a layer around it. -/
theorem Scopes.inner_of_lookup {s : Scopes} {name : String} {type : Ty}
    (h : s.lookup name = some (.variable type)) :
    s.isLocal name = true ∧ s.inner.get? name = some (.variable type) ∨
      s.isLocal name = false ∧ s.inner.get? name = none := by
  rw [lookup_eq] at h
  cases hi : s.inner.get? name with
  | none =>
    obtain ⟨hvars, _⟩ := Layer.get?_none hi
    exact .inr ⟨by simp [isLocal, Table.contains, hvars], rfl⟩
  | some b =>
    rw [hi] at h
    cases h
    have hvars := Layer.get?_variable.mp hi
    exact .inl ⟨by simp [isLocal, Table.contains, hvars], rfl⟩

namespace Definition

/-- A name that the function declares, but not before the place at which checking has the scopes
`m`. -/
def Pending (d : Definition) (m : Scopes) (name : String) : Prop :=
  m.inner.get? name = none ∧ name ∈ (FunctionCode.localsOf d.body).map (·.1)

structure Resolves (d : Definition) (types : List Ty) (m : Scopes) (name : String) (type : Ty) :
    Prop where
  typed : m.lookup name = some (.variable type)
  own : ∀ span, (Expr.var span name).instrs d.inner = [.localGet name] ↔
    m.inner.get? name = some (.variable type) ∨ d.Pending m name
  /-- A top-level variable is read from a slot of its type. -/
  outer : ∀ span, (∃ slot : Nat, d.inner.layout.slots.get? name = some slot ∧
      types[slot]? = some type ∧ (Expr.var span name).instrs d.inner =
        [.address (Int32.ofNat (slot * Layout.slotSize)) name, .load]) ↔
    m.inner.get? name = none ∧ ¬ d.Pending m name

variable {d : Definition} {s m : Scopes} {layer : Layer} {types : List Ty}

theorem isLocal_inner {name : String} : d.inner.isLocal name = true ↔
    (∃ p ∈ d.params, p.name = name) ∨ name ∈ (FunctionCode.localsOf d.body).map (·.1) := by
  change (d.params.map (·.name) ++ (FunctionCode.localsOf d.body).map (·.1)).contains name = true ↔ _
  rw [List.contains_eq_mem, decide_eq_true_iff, List.mem_append, List.mem_map]

/-- The code owns a name exactly if checking has found it in the layer of the function or will. -/
theorem isLocal_iff (hm : s.Inside d.inner.isLocal m)
    (hparams : ∀ p ∈ d.params, m.inner.get? p.name ≠ none) {name : String} {type : Ty}
    (ht : m.lookup name = some (.variable type)) :
    d.inner.isLocal name = true ↔
      m.inner.get? name = some (.variable type) ∨ d.Pending m name := by
  rcases Scopes.inner_of_lookup ht with ⟨hlocal, hinner⟩ | ⟨_, hinner⟩
  · simp [hinner, hm.own hlocal]
  · rw [isLocal_inner, Pending, hinner]
    constructor
    · rintro (⟨p, hp, rfl⟩ | hn)
      · exact absurd hinner (hparams p hp)
      · exact .inr ⟨rfl, hn⟩
    · rintro (hsome | ⟨_, hn⟩)
      · cases hsome
      · exact .inr hn

/-- Checking takes up the variables of a function one by one; to its code all of them are there from
the start. They agree on every name but a pending one. -/
theorem resolves (hm : s.Inside d.inner.isLocal m)
    (hparams : ∀ p ∈ d.params, m.inner.get? p.name ≠ none)
    (hslots : d.inner.layout.Types types s.lookup) {name : String} {type : Ty}
    (ht : m.lookup name = some (.variable type)) : d.Resolves types m name type := by
  have hiff := isLocal_iff hm hparams ht
  refine ⟨ht, fun span => ?_, fun span => ?_⟩
  · rw [← hiff, Expr.instrs]
    split <;> simp_all
  · have hnot : m.inner.get? name = none ∧ ¬ d.Pending m name ↔ d.inner.isLocal name = false := by
      rw [← Bool.not_eq_true, hiff, not_or]
      rcases Scopes.inner_of_lookup ht with ⟨_, hinner⟩ | ⟨_, hinner⟩ <;> simp [hinner]
    rw [hnot, Expr.instrs]
    constructor
    · rintro ⟨slot, _, _, hcode⟩
      cases hl : d.inner.isLocal name with
      | false => rfl
      | true => simp [hl] at hcode
    · intro hl
      rw [hm.outside hl] at ht
      obtain ⟨slot, hslot, htype⟩ := hslots.typed ht
      refine ⟨slot, hslot, htype, ?_⟩
      simp [hl, Context.addressInstr, Layout.address?, hslot]

end Definition

/-- What a function finds around it: a page that stays as it is, calls that leave it alone, and
variables that hold words of their types. -/
structure Surrounds (page : Page) (known : String → Option Signature)
    (f : String → List Word → Eval Page Word) (a : Site Page) (s₀ : Scopes) : Prop where
  calls : KnownAlike (At page) known f f
  reads : ∀ {name : String} {type : Ty}, s₀.typeOf? name = some type →
    type.Admits (a.read name page)

/-- A function at a place where checking has the scopes `m`: its variables hold words of their types,
those that are still to be declared hold zero, and the page is as at its start. -/
structure Holds (page : Page) (known : String → Option Signature) (s₀ : Scopes)
    (own : String → Bool) (m : Scopes) (locals : Table Word) (w : World Page) : Prop where
  inside : s₀.Inside own m
  calls : m.Calls known
  covers : m.Covers own locals
  zero : ∀ name, own name = true → m.isLocal name = false → locals.get? name = some 0
  store : w.store = page

namespace Holds

variable {page : Page} {known : String → Option Signature} {f : String → List Word → Eval Page Word}
  {a : Site Page} {s₀ m : Scopes} {own : String → Bool} {locals locals' : Table Word}
  {w w' : World Page} {result : Ty} {fuel : Nat}

theorem setting (h : Holds page known s₀ own m locals w) (hs : Surrounds page known f a s₀) :
    Setting (At page) m (some result) own a a := by
  refine h.inside.setting ?_ fun _ => rfl
  rintro name type hn _ _ ⟨rfl, rfl⟩
  exact ⟨rfl, hs.reads hn⟩

theorem together (h : Holds page known s₀ own m locals w) : Together (At page) w w :=
  ⟨rfl, h.store, h.store⟩

theorem value (h : Holds page known s₀ own m locals w) (hs : Surrounds page known f a s₀)
    {e : Expr} {type : Ty} (he : e.typeIn m = .ok type) {v : Word}
    (hv : e.eval .parity f a locals w = some (.ok v, w')) :
    Holds page known s₀ own m locals w' ∧ type.Admits v := by
  have hsetting : Setting (At page) m (some type) own a a := h.setting hs
  have halike := Expr.alike Truth.parity_agrees hsetting.toView (KnownAlike.calls hs.calls h.calls)
    h.covers e he h.together
  rw [hv] at halike
  cases halike with
  | done worlds =>
    exact ⟨⟨h.inside, h.calls, h.covers, h.zero, worlds.2.store.1⟩, worlds.1⟩

theorem tests (h : Holds page known s₀ own m locals w) (hs : Surrounds page known f a s₀)
    {es : List Expr} (he : ∀ e ∈ es, ∃ type, e.typeIn m = .ok type) {vs : List Word}
    (hv : Expr.evalAll .parity f a locals es w = some (.ok vs, w')) :
    Holds page known s₀ own m locals w' := by
  induction es generalizing w vs with
  | nil =>
    cases hv
    exact h
  | cons e es ih =>
    obtain ⟨v, w₁, hfirst, hv⟩ := Eval.bind_ok.mp hv
    obtain ⟨vs', w₂, hrest, hv⟩ := Eval.bind_ok.mp hv
    cases hv
    obtain ⟨type, htype⟩ := he e List.mem_cons_self
    exact ih (h.value hs htype hfirst).1 (fun e hm => he e (List.mem_cons_of_mem _ hm)) hrest

/-- A variable that is declared holds a word of its type, and is pending no more. -/
theorem declare (h : Holds page known s₀ own m locals w) (hs : Surrounds page known f a s₀)
    {span : Span} {name : String} {type : Ty} {value : Expr} (htyped : value.typeIn m = .ok type)
    (hown : own name = true)
    (hrun : (Stmt.init span name type value).eval .parity f a fuel locals w =
      some (.ok (.next locals'), w')) :
    Holds page known s₀ own (m.withVariable name type) locals' w' := by
  obtain ⟨v, w₁, hv, hrun⟩ := Eval.bind_ok.mp hrun
  obtain ⟨hafter, hadmits⟩ := h.value hs htyped hv
  rw [Stmt.assignTo, h.covers.own name, if_pos hown] at hrun
  cases hrun
  refine ⟨h.inside.withVariable hown type, h.calls.withVariable name type,
    h.covers.declare hown hadmits, ?_, hafter.store⟩
  intro other ho hl
  simp only [Scopes.isLocal, Scopes.withVariable, Table.contains_insert, Bool.or_eq_false_iff,
    beq_eq_false_iff_ne] at hl
  rw [Table.get?_insert, if_neg hl.1]
  exact h.zero other ho hl.2

/-- Behind the declarations of a function nothing is pending. -/
theorem next (h : Holds page known s₀ own m locals w)
    (hall : ∀ name, own name = true → m.isLocal name = true)
    {r : Option (Except Stop Flow × World Page)}
    (halike : Alike (Together (At page)) (FlowPost (At page) m own (some result)) r r)
    (hr : r = some (.ok (.next locals'), w')) : Holds page known s₀ own m locals' w' := by
  rw [hr] at halike
  cases halike with
  | done worlds =>
    refine ⟨h.inside, h.calls, worlds.2, ?_, worlds.1.store.1⟩
    intro name ho hl
    rw [hall name ho] at hl
    cases hl

theorem statement (h : Holds page known s₀ own m locals w) (hs : Surrounds page known f a s₀)
    (hall : ∀ name, own name = true → m.isLocal name = true) {stmt : Stmt} {type : Ty}
    (hstmt : stmt.typeIn m (some result) = .ok type)
    (hrun : stmt.eval .parity f a fuel locals w = some (.ok (.next locals'), w')) :
    Holds page known s₀ own m locals' w' :=
  h.next hall (Stmt.alike Truth.parity_agrees (h.setting hs) (KnownAlike.calls hs.calls h.calls)
    fuel stmt hstmt h.covers h.together) hrun

theorem statements (h : Holds page known s₀ own m locals w) (hs : Surrounds page known f a s₀)
    (hall : ∀ name, own name = true → m.isLocal name = true) {stmts : List Stmt}
    (hstmts : Stmt.checkAll m (some result) stmts = .ok ())
    (hrun : Stmt.evalAll .parity f a fuel stmts locals w = some (.ok (.next locals'), w')) :
    Holds page known s₀ own m locals' w' :=
  h.next hall (Stmt.alikeAll Truth.parity_agrees (h.setting hs) (KnownAlike.calls hs.calls h.calls)
    fuel stmts hstmts h.covers h.together) hrun

/-- What is read under a name. -/
theorem read (h : Holds page known s₀ own m locals w) (hs : Surrounds page known f a s₀)
    {name : String} {type : Ty} (ht : m.lookup name = some (.variable type)) :
    ∃ v, (∀ span host, (Expr.var span name).eval .parity f a locals ⟨page, host⟩ =
        some (.ok v, ⟨page, host⟩)) ∧
      type.Admits v ∧ (own name = true → m.isLocal name = false → v = 0) ∧
      (own name = false → v = a.read name page) := by
  have htype := Scopes.typeOf?_eq_some.mpr ht
  simp only [Expr.eval]
  cases hl : locals.get? name with
  | some v =>
    refine ⟨v, fun _ _ => rfl, h.covers.typed hl htype, ?_, ?_⟩
    · intro ho hm
      rw [h.zero name ho hm] at hl
      cases hl
      rfl
    · intro ho
      rw [← h.covers.own name, Table.contains, hl] at ho
      cases ho
  | none =>
    have hown := h.covers.not_own hl
    refine ⟨a.read name page, fun _ _ => rfl, ?_, ?_, fun _ => rfl⟩
    · rw [h.inside.outside hown, ← Scopes.typeOf?_eq_some] at ht
      exact hs.reads ht
    · intro ho
      rw [hown] at ho
      cases ho

end Holds

/-- A run keeps what a function holds wherever it comes to. -/
theorem Stmt.Comes.holds {page : Page} {known : String → Option Signature}
    {f : String → List Word → Eval Page Word} {a : Site Page} {fuel : Nat} {s₀ s m : Scopes}
    {own : String → Bool} {result : Ty} {stmt : Stmt} {stmts : List Stmt}
    {locals found : Table Word} {w v : World Page}
    (h : Comes .parity f a fuel m stmt found v s stmts locals w)
    (hs : Surrounds page known f a s₀) (hb : Block own result s stmts)
    (hw : Holds page known s₀ own s locals w) : Holds page known s₀ own m found v := by
  induction h with
  | here => exact hw
  | declared taken run _ ih =>
    obtain ⟨typed, named, _, more⟩ := hb.init
    obtain ⟨_, _, rfl⟩ := declareVariable_ok taken
    exact ih more (hw.declare hs typed named run)
  | after other run _ ih =>
    obtain ⟨all, ⟨_, hstmt⟩, more⟩ := hb.other other
    exact ih more (hw.statement hs all hstmt run)
  | within part begun tested _ ih =>
    exact ih (hb.within part) (hw.tests hs (fun e he => hb.values e (begun.subset he)) tested)
  | again tested round _ ih =>
    obtain ⟨all, ⟨_, hstmt⟩, _⟩ := hb.other (by simp)
    obtain ⟨hcond, hbody⟩ := typeIn_whileDo hstmt
    exact ih hb ((hw.value hs hcond tested).1.statements hs all hbody round)

namespace Definition

variable {d : Definition} {s : Scopes} {layer : Layer}

/-- A function that passes the check, with the layer of its parameters. -/
theorem block_of_checkFunction (h : Stmt.checkFunction s d.params d.result d.body = .ok ()) :
    ∃ layer, Stmt.paramLayer .empty d.params = .ok layer ∧
      Stmt.Block d.inner.isLocal d.result (s.push layer) d.body := by
  obtain ⟨layer, head, rest, s', hl, hbody, hd, hrest⟩ := Stmt.checkFunction_ok h
  obtain ⟨_, hlocals⟩ := Stmt.not_declared_of_checkAll hrest
  have hnames : FunctionCode.localsOf d.body = FunctionCode.localsOf head := by
    rw [hbody, FunctionCode.localsOf_append, hlocals, List.append_nil]
  have hlocal {name : String} {type : Ty} (hn : s'.inner.get? name = some (.variable type)) :
      s'.isLocal name = true := by
    simp [Scopes.isLocal, Table.contains, Layer.get?_variable.mp hn]
  refine ⟨layer, hl, ?_⟩
  rw [hbody]
  refine hd.block ?_ ?_ hrest
  · intro l hm
    rw [isLocal_inner, hnames]
    exact .inr (List.mem_map_of_mem hm)
  · intro name hn
    rw [isLocal_inner, hnames] at hn
    rcases hn with ⟨p, hp, rfl⟩ | hn
    · have hparam := (Stmt.paramLayer_ok hl).2.1 p hp
      exact hlocal (hd.keeps_inner (Layer.get?_variable.mpr hparam))
    · obtain ⟨l, hm, rfl⟩ := List.mem_map.mp hn
      exact hlocal (hd.declared_inner l hm)

/-- A call starts with its arguments, and with zeros. -/
theorem holds_start {known : String → Option Signature} (hk : s.Calls known)
    (hl : Stmt.paramLayer .empty d.params = .ok layer) {args : List Word}
    (hargs : List.Forall₂ (fun p v => Ty.Admits p.type v) d.params args) (w : World Page) :
    Holds w.store known s d.inner.isLocal (s.push layer) (d.routine.frame args) w := by
  have hown : (d.routine.frame args).contains = d.inner.isLocal :=
    funext (Routine.owns_frame rfl hargs.length_eq)
  have hcovers := d.routine.frame_covers hl hargs s
  rw [hown] at hcovers
  obtain ⟨hfuncs, hparams, _⟩ := Stmt.paramLayer_ok hl
  refine ⟨Scopes.inside_push hl fun p hp => isLocal_inner.mpr (.inl ⟨p, hp, rfl⟩), hk.push hfuncs,
    hcovers, ?_, rfl⟩
  intro name ho hn
  rw [← hown, Table.contains] at ho
  obtain ⟨value, hv⟩ := Option.isSome_iff_exists.mp ho
  rw [hv]
  rcases Table.mem_of_get?_foldl hv with hm | hg
  · rcases List.mem_append.mp hm with hm | hm
    · obtain ⟨p, hp, rfl, _⟩ := Param.admits_of_mem_zip hargs hm
      simp [Scopes.isLocal, Scopes.push, Table.contains, hparams p hp] at hn
    · obtain ⟨_, _, he⟩ := List.mem_map.mp hm
      cases he
      rfl
  · cases hg

/-- What a function reads under a name at a place that its run comes to from `page`. -/
structure Finds (d : Definition) (call : String → List Word → Eval Page Word) (page : Page)
    (m : Scopes) (locals : Table Word) (name : String) (type : Ty) (value : Word) : Prop where
  read : ∀ span host, (Expr.var span name).eval .parity call d.inner.site locals ⟨page, host⟩ =
    some (.ok value, ⟨page, host⟩)
  typed : type.Admits value
  pending : d.Pending m name → value = 0
  outer : m.inner.get? name = none → ¬ d.Pending m name → value = d.inner.site.read name page

theorem surrounds {g : Globals} {lib : Library} {types own : List Ty} (hg : g.Made lib types)
    (hslots : d.inner.layout.Types own s.lookup) {page : Page} (ht : page.memory.Typed types)
    (hown : page.memory.Typed own) (limit fuel depth : Nat) :
    Surrounds page lib.signature? (callAt .parity lib.routine? limit fuel depth) d.inner.site s := by
  have hpaired : Paired (At page) lib.signature? lib.routine? lib.routine? := by
    refine Paired.mono hg.paired_typed ?_
    rintro _ _ ⟨rfl, rfl⟩
    exact ⟨rfl, ht⟩
  refine ⟨callAt_alike Truth.parity_agrees hpaired limit fuel depth, ?_⟩
  intro name type hn
  obtain ⟨slot, hslot, htype⟩ := hslots.typed (Scopes.typeOf?_eq_some.mp hn)
  rw [Context.site, Layout.read_site d.inner.scopes hslot]
  exact hown htype

/-- What is read under a pending name is zero, which is a word of every type. -/
theorem finds {page : Page} {known : String → Option Signature}
    {call : String → List Word → Eval Page Word} {m : Scopes} {locals : Table Word} {w : World Page}
    (h : Holds page known s d.inner.isLocal m locals w)
    (hs : Surrounds page known call d.inner.site s)
    (hparams : ∀ p ∈ d.params, m.inner.get? p.name ≠ none) {name : String} {type : Ty}
    (ht : m.lookup name = some (.variable type)) :
    ∃ value, d.Finds call page m locals name type value := by
  obtain ⟨value, hread, hadmits, hzero, houter⟩ := h.read hs ht
  have hiff := isLocal_iff h.inside hparams ht
  refine ⟨value, hread, hadmits, ?_, ?_⟩
  · intro hpending
    refine hzero (hiff.mpr (.inr hpending)) ?_
    simp [Scopes.isLocal, Table.contains, (Layer.get?_none hpending.1).1]
  · intro hnone hnot
    apply houter
    rw [← Bool.not_eq_true, hiff]
    rintro (hsome | hpending)
    · rw [hnone] at hsome
      cases hsome
    · exact hnot hpending

end Definition

/-- Where the declarations of a unit end. -/
theorem Program.Checked.declareAll {s₀ s : Scopes} {p : Program} {head rest : List Stmt}
    {typing : Typing} (h : p.Checked s₀ head rest s typing) :
    Stmt.declareAll s₀ false p.body = .ok (s, rest) := by
  have hrest : ∀ stmt ∈ rest, stmt.WellTyped s.lookup none :=
    (Stmt.checkAll_iff ⟨rfl, by simp⟩).mp (Stmt.checkAll_of_lastType h.last)
  rw [h.body]
  exact Stmt.declareAll_of_declares h.declares fun stmt hm => (hrest stmt hm).not_declaration

theorem FunctionCode.plain_mem_plainAll {c : Context} {stmts : List Stmt} {span : Span} {name : String}
    {params : List Param} {result : Ty} {body : List Stmt}
    (h : .define span name params result body ∈ stmts) :
    plain c name params body ∈ plainAll c stmts := by
  fun_induction plainAll c stmts with
  | case1 => cases h
  | case2 _ _ _ _ _ stmts ih =>
    rcases List.mem_cons.mp h with he | h
    · cases he
      exact List.mem_cons_self
    · exact List.mem_cons_of_mem _ (ih h)
  | case3 stmt stmts hs ih =>
    rcases List.mem_cons.mp h with rfl | h
    · exact absurd rfl (hs _ _ _ _ _)
    · exact ih h

namespace Globals

/-- Every name that a function of an accepted unit reads is a variable to checking, of some type. The
code reads a variable of the function exactly if checking has found one or the name is pending, and
else from a slot of that type. At run time, in this unit or a later one, what it reads is of that
type if memory is; under a pending name it is zero. -/
theorem functions_read_checked_names {g : Globals} (hg : g.Reachable) {source file : String}
    {p : Program} {typing : Typing} {code : UnitCode}
    (ha : g.accept source file = .ok (p, typing, code)) {span : Span} {f : String}
    {params : List Param} {result : Ty} {body : List Stmt}
    (hf : .define span f params result body ∈ p.body) :
    let d : Definition := ⟨UnitCode.topContext typing.declared g.layout p, f, params, result, body⟩
    d.code ∈ code.functions ∧
    ∃ lib types s rest layer, g.Made lib types ∧
      Stmt.declareAll (.seeded g.declared) false p.body = .ok (s, rest) ∧
      Stmt.paramLayer .empty params = .ok layer ∧
      ∀ {m stmt}, Stmt.Place m stmt (s.push layer) body →
        ∀ e ∈ stmt.values, ∀ name ∈ e.names, ∃ type,
          d.Resolves (p.typesAfter types) m name type ∧
          ∀ {g' lib' types'}, Globals.Made g' lib' types' →
            lib.after g typing.declared p <+: lib' → p.typesAfter types <+: types' →
          ∀ {limit fuel depth args found w v}, w.store.memory.Typed types' →
            List.Forall₂ (fun q x => Ty.Admits q.type x) params args →
            Stmt.Comes .parity (callAt .parity lib'.routine? limit fuel depth) d.inner.site fuel
              m stmt found v (s.push layer) body (d.routine.frame args) w →
            v.store = w.store ∧ ∃ value,
              d.Finds (callAt .parity lib'.routine? limit fuel depth) w.store m found name type
                value := by
  intro d
  obtain ⟨lib, types, hmade, _⟩ := hg.made
  obtain ⟨_, htyped, hcode⟩ := accept_ok ha
  obtain ⟨head, rest, s, hc⟩ := Program.typeOn_ok hmade.sound htyped
  obtain ⟨layer, hl, hblock⟩ :=
    d.block_of_checkFunction (hc.functions span f params result body hf)
  obtain ⟨rfl, _, _⟩ := UnitCode.ofProgram_ok hcode
  refine ⟨FunctionCode.plain_mem_plainAll hf, lib, types, s, rest, layer, hmade, hc.declareAll, hl, ?_⟩
  intro m stmt hplace e he name hname
  obtain ⟨hinside, hvalues, hkept⟩ := hplace.checked hblock
    (Scopes.inside_push hl fun q hq => Definition.isLocal_inner.mpr (.inl ⟨q, hq, rfl⟩))
  have hparams : ∀ q ∈ d.params, m.inner.get? q.name ≠ none := by
    intro q hq
    have hlayer := Layer.get?_variable.mpr ((Stmt.paramLayer_ok hl).2.1 q hq)
    simp [hkept q.name _ hlayer]
  obtain ⟨_, htype⟩ := hvalues e he
  obtain ⟨type, ht⟩ := e.lookup_of_mem_names htype hname
  have hslots : d.inner.layout.Types (p.typesAfter types) s.lookup := hc.slot_types hmade
  refine ⟨type, Definition.resolves hinside hparams hslots ht, ?_⟩
  rintro g' _ _ hg' ⟨more, rfl⟩ ⟨moreTypes, rfl⟩ limit fuel depth args found w v hmemory hargs hcomes
  have hsurrounds := d.surrounds hg' hslots hmemory hmemory.before limit fuel depth
  have hknown : s.Calls (lib.after g typing.declared p ++ more).signature? := by
    intro callee sig hsig
    exact Library.signature?_append ((hc.lists hmade).calls callee sig hsig) more
  have hholds := hcomes.holds hsurrounds hblock (d.holds_start hknown hl hargs w)
  exact ⟨hholds.store, Definition.finds hholds hsurrounds hparams ht⟩

def readsAhead (g : Globals) (source f x : String) : Bool :=
  match g.accept source shellName with
  | .ok (p, _, _) => p.body.any fun
    | .define _ name [] _ (.init _ _ _ (.var _ y) :: rest) =>
      name = f ∧ y = x ∧ x ∈ (FunctionCode.localsOf rest).map (·.1)
    | _ => false
  | .error _ => false

theorem exists_of_readsAhead {g : Globals} {source f x : String}
    (h : g.readsAhead source f x = true) :
    ∃ p typing code span result at_ y type at_' rest,
      g.accept source shellName = .ok (p, typing, code) ∧
      .define span f [] result (.init at_ y type (.var at_' x) :: rest) ∈ p.body ∧
      x ∈ (FunctionCode.localsOf rest).map (·.1) := by
  unfold readsAhead at h
  split at h
  · rename_i p typing code ha
    obtain ⟨stmt, hmem, hstmt⟩ := List.any_eq_true.mp h
    split at hstmt
    · rename_i span name result at_ y type at_' x rest
      obtain ⟨rfl, rfl, hlater⟩ := of_decide_eq_true hstmt
      exact ⟨p, typing, code, span, result, at_, y, type, at_', rest, ha, hmem, hlater⟩
    · cases hstmt
  · cases h

/-- A value that reads a name ahead of its declaration. To checking it is an integer of the top
level; the function finds zero in the truth value of that name. -/
theorem functions_read_checked_names_ahead :
    ∃ p typing code span result at_ y t at_' rest,
      empty.accept "x: int = 5\ndef f() -> int:\n  y: int = x\n  x: bool = True\n  return y\nf()"
        shellName = .ok (p, typing, code) ∧
      let body := Stmt.init at_ y t (.var at_' "x") :: rest
      .define span "f" [] result body ∈ p.body ∧
      let d : Definition :=
        ⟨UnitCode.topContext typing.declared empty.layout p, "f", [], result, body⟩
      let page : Page := ⟨.ofPages 1, rfl⟩
      ∃ lib types m type value, empty.Made lib types ∧ m.lookup "x" = some (.variable type) ∧
        m.inner.get? "x" = none ∧ (Expr.var at_' "x").instrs d.inner = [.localGet "x"] ∧
        d.Finds (callAt .parity (lib.after empty typing.declared p).routine? 20 5 1) page m
          (d.routine.frame []) "x" type value ∧ value = 0 := by
  have htest : empty.readsAhead
      "x: int = 5\ndef f() -> int:\n  y: int = x\n  x: bool = True\n  return y\nf()" "f" "x" =
      true := by
    decide +kernel
  obtain ⟨p, typing, code, span, result, at_, y, t, at_', rest, ha, hf, hlater⟩ :=
    exists_of_readsAhead htest
  refine ⟨p, typing, code, span, result, at_, y, t, at_', rest, ha, hf, ?_⟩
  obtain ⟨_, lib, types, s, _, layer, hmade, _, hlayer, hreads⟩ :=
    functions_read_checked_names .empty ha hf
  obtain ⟨type, hresolves, hfinds⟩ := hreads .here _ List.mem_cons_self "x" (by simp [Expr.names])
  have hinner : (s.push layer).inner.get? "x" = none := by
    cases hlayer
    rfl
  have hpending : Definition.Pending ⟨UnitCode.topContext typing.declared empty.layout p, "f", [],
      result, .init at_ y t (.var at_' "x") :: rest⟩ (s.push layer) "x" :=
    ⟨hinner, List.mem_cons_of_mem y hlater⟩
  have hafter := (hmade.accepted ha).made
  have hnone : (Memory.ofPages 1).Typed [] := by simp [Memory.Typed]
  have hzero : (Memory.ofPages 1).Typed (p.typesAfter types) :=
    hnone.append ((Memory.zeroFrom_ofPages 1).between _)
  obtain ⟨_, value, hvalue⟩ := @hfinds _ _ _ hafter (List.prefix_refl _) (List.prefix_refl _) 20 5 1
    [] _ ⟨⟨.ofPages 1, rfl⟩, .reliable⟩ _ hzero .nil .here
  exact ⟨lib, types, s.push layer, type, value, hmade, hresolves.typed, hinner,
    (hresolves.own at_').mpr (.inr hpending), hvalue, hvalue.pending hpending⟩

end Globals

/-- The function gives back what it has read under the name of the variable that holds 5. -/
theorem Session.name_read_ahead_gives_zero :
    ∃ s, Later Turn.Fits (start .reliable 20) s ∧ s.globals.layout.slots.get? "x" = some 0 ∧
      s.memory.word 0 = 5 ∧ s.globals.layout.slots.get? "z" = some 1 ∧ s.memory.word 1 = 0 := by
  obtain ⟨t, hr, ht⟩ := Trace.exists_later .reliable 20 5
    ["x: int = 5\ndef f() -> int:\n  y: int = x\n  x: bool = True\n  return y\nz: int = f()"]
    (fun t => t.globals.layout.slots.get? "x" = some 0 ∧ t.world.store.memory.word 0 = 5 ∧
      t.globals.layout.slots.get? "z" = some 1 ∧ t.world.store.memory.word 1 = 0)
    (by decide +kernel)
  exact ⟨t.session, hr, of_decide_eq_true ht⟩

end StackScript
