import StackScript.Proofs.Capacity
import StackScript.Proofs.Coherence
import StackScript.Proofs.Concatenation
import StackScript.Proofs.Locality

namespace StackScript

/-- The expression holds no print, unless it is one. -/
def Expr.PrintsAlone : Expr → Prop
  | .print _ arg => arg.Silent
  | e => e.Silent

theorem Expr.Emitted.alone {c : Context} {e : Expr} (h : e.Emitted c) : e.PrintsAlone := by
  rcases h with h | ⟨_, _, rfl, h⟩
  · cases e with
    | print _ arg => exact absurd h.silent (by simp [Silent, prints])
    | _ => exact h.silent
  · exact h.silent

namespace Stmt

mutual

/-- Every print is all of an expression statement. -/
def PrintsAlone : Stmt → Prop
  | .pass _ => True
  | .init _ _ _ value | .assign _ _ value | .ret _ value => value.Silent
  | .expr _ value => value.PrintsAlone
  | .define _ _ _ _ body => PrintsAloneAll body
  | .ifElse _ cond yes no => cond.Silent ∧ PrintsAloneAll yes ∧ PrintsAloneAll no
  | .ifElif _ cond yes cond' yes' no =>
    cond.Silent ∧ PrintsAloneAll yes ∧ cond'.Silent ∧ PrintsAloneAll yes' ∧ PrintsAloneAll no
  | .whileDo _ cond body => cond.Silent ∧ PrintsAloneAll body

def PrintsAloneAll : List Stmt → Prop
  | [] => True
  | s :: ss => PrintsAlone s ∧ PrintsAloneAll ss

end

instance (e : Expr) : Decidable e.Silent := inferInstanceAs (Decidable (e.prints = 0))

instance : (e : Expr) → Decidable e.PrintsAlone
  | .print _ arg => inferInstanceAs (Decidable arg.Silent)
  | .noneLit _ | .boolLit .. | .intLit .. | .var .. | .unary .. | .binary .. | .call .. =>
    inferInstanceAs (Decidable (Expr.Silent _))

mutual

def decidePrintsAlone : (s : Stmt) → Decidable s.PrintsAlone
  | .pass _ => .isTrue trivial
  | .init _ _ _ value | .assign _ _ value | .ret _ value => inferInstanceAs (Decidable value.Silent)
  | .expr _ value => inferInstanceAs (Decidable value.PrintsAlone)
  | .define _ _ _ _ body => decidePrintsAloneAll body
  | .ifElse _ cond yes no =>
    have := decidePrintsAloneAll yes
    have := decidePrintsAloneAll no
    inferInstanceAs (Decidable (cond.Silent ∧ PrintsAloneAll yes ∧ PrintsAloneAll no))
  | .ifElif _ cond yes cond' yes' no =>
    have := decidePrintsAloneAll yes
    have := decidePrintsAloneAll yes'
    have := decidePrintsAloneAll no
    inferInstanceAs (Decidable (cond.Silent ∧ PrintsAloneAll yes ∧ cond'.Silent ∧
      PrintsAloneAll yes' ∧ PrintsAloneAll no))
  | .whileDo _ cond body =>
    have := decidePrintsAloneAll body
    inferInstanceAs (Decidable (cond.Silent ∧ PrintsAloneAll body))

def decidePrintsAloneAll : (ss : List Stmt) → Decidable (PrintsAloneAll ss)
  | [] => .isTrue trivial
  | s :: ss =>
    have := decidePrintsAlone s
    have := decidePrintsAloneAll ss
    inferInstanceAs (Decidable (PrintsAlone s ∧ PrintsAloneAll ss))

end

instance (ss : List Stmt) : Decidable (PrintsAloneAll ss) := decidePrintsAloneAll ss

theorem printsAloneAll_append {a b : List Stmt} :
    PrintsAloneAll (a ++ b) ↔ PrintsAloneAll a ∧ PrintsAloneAll b := by
  induction a with
  | nil => simp [PrintsAloneAll]
  | cons stmt a ih => simp [PrintsAloneAll, ih, and_assoc]

theorem printsAlone_of_mem {ss : List Stmt} (h : PrintsAloneAll ss) {stmt : Stmt}
    (hm : stmt ∈ ss) : stmt.PrintsAlone := by
  induction ss with
  | nil => cases hm
  | cons first ss ih =>
    rcases List.mem_cons.mp hm with rfl | hm
    · exact h.1
    · exact ih h.2 hm

end Stmt

section Alone

variable {c : Context} {s : Scopes} {result : Option Ty}

mutual

/-- Statements that have code print alone. No function is defined among them. -/
theorem Stmt.alone_of_placed (stmt : Stmt) {type : Ty} (ht : stmt.typeIn s result = .ok type)
    (hp : stmt.Placed c) : stmt.PrintsAlone := by
  match stmt with
  | .pass _ => trivial
  | .init .. => exact absurd ht typeIn_init
  | .define .. => exact absurd ht typeIn_define
  | .assign .. => exact hp.2.silent
  | .ret .. => exact hp.silent
  | .expr .. => exact hp.alone
  | .ifElse _ _ yes no =>
    obtain ⟨_, hy, hn⟩ := typeIn_ifElse ht
    exact ⟨hp.1.silent, Stmt.alone_of_placedAll yes hy hp.2.1, Stmt.alone_of_placedAll no hn hp.2.2⟩
  | .ifElif _ _ yes _ yes' no =>
    obtain ⟨_, hy, _, hy', hn⟩ := typeIn_ifElif ht
    obtain ⟨hc, hpy, hc', hpy', hpn⟩ := hp
    exact ⟨hc.silent, Stmt.alone_of_placedAll yes hy hpy, hc'.silent,
      Stmt.alone_of_placedAll yes' hy' hpy', Stmt.alone_of_placedAll no hn hpn⟩
  | .whileDo _ _ body =>
    exact ⟨hp.1.silent, Stmt.alone_of_placedAll body (typeIn_whileDo ht).2 hp.2⟩

theorem Stmt.alone_of_placedAll (stmts : List Stmt) (ht : checkAll s result stmts = .ok ())
    (hp : PlacedAll c stmts) : PrintsAloneAll stmts := by
  match stmts with
  | [] => trivial
  | stmt :: stmts =>
    obtain ⟨⟨_, hstmt⟩, hrest⟩ := checkAll_cons ht
    exact ⟨Stmt.alone_of_placed stmt hstmt hp.1, Stmt.alone_of_placedAll stmts hrest hp.2⟩

end

/-- Prints stand alone in declarations that have code, if they do in the functions that these define. -/
theorem Stmt.Declares.alone_of_placed {inFunction : Bool} {s s' : Scopes} {head : List Stmt}
    (h : Declares inFunction s head s') (hp : PlacedAll c head)
    (hf : ∀ span name params result body, .define span name params result body ∈ head →
      PrintsAloneAll body) : PrintsAloneAll head := by
  induction h with
  | nil => trivial
  | init _ _ _ _ ih =>
    exact ⟨hp.1.2.silent, ih hp.2 fun span name params result body hm =>
      hf span name params result body (List.mem_cons_of_mem _ hm)⟩
  | define _ _ _ _ ih =>
    exact ⟨hf _ _ _ _ _ List.mem_cons_self, ih hp.2 fun span name params result body hm =>
      hf span name params result body (List.mem_cons_of_mem _ hm)⟩

theorem Stmt.alone_of_checkFunction {params : List Param} {returned : Ty} {body : List Stmt}
    (h : checkFunction s params returned body = .ok ()) (hp : PlacedAll c body) :
    PrintsAloneAll body := by
  obtain ⟨_, head, rest, _, _, rfl, hd, hrest⟩ := checkFunction_ok h
  refine printsAloneAll_append.mpr ⟨hd.alone_of_placed (placedAll_left hp) ?_,
    alone_of_placedAll rest hrest (placedAll_right hp)⟩
  intro span name params result body hm
  obtain ⟨_, _, _, _, he⟩ := hd.only_variables _ hm
  cases he

end Alone

/-- A unit that has code prints alone. -/
theorem Program.Checked.alone_of_code {p : Program} {s₀ s : Scopes} {head rest : List Stmt}
    {typing : Typing} (h : p.Checked s₀ head rest s typing) {declared : Layer} {layout : Layout}
    {u : UnitCode} (hu : UnitCode.ofProgram declared layout p = .ok u) :
    Stmt.PrintsAloneAll p.body := by
  obtain ⟨_, hplaced, hfunctions⟩ := UnitCode.ofProgram_ok hu
  have hbody := h.body
  rw [hbody] at hplaced ⊢
  refine Stmt.printsAloneAll_append.mpr ⟨h.declares.alone_of_placed (Stmt.placedAll_left hplaced) ?_,
    Stmt.alone_of_placedAll rest (Stmt.checkAll_of_lastType h.last) (Stmt.placedAll_right hplaced)⟩
  intro span name params result body hm
  have hm' : .define span name params result body ∈ p.body := by
    rw [hbody]
    exact List.mem_append_left rest hm
  exact Stmt.alone_of_checkFunction (h.functions span name params result body hm')
    (hfunctions span name params result body hm')

open Gen

section Code

variable {c : Context}

theorem unaryCode_of (at_ : Position) (op : UnaryOp) (d : Nat) :
    unaryCode at_ op (d + 1) = .ok (op.instrs, d + 1) := by
  cases op with
  | neg =>
    simp only [unaryCode, bind_ok, emit_ok, pure_ok, Instr.pops, Instr.pushes]
    exact ⟨_, _, ⟨Nat.zero_le _, rfl⟩, _, _, ⟨Nat.le_add_left _ _, rfl⟩, rfl⟩
  | not =>
    simp only [unaryCode, bind_ok, emit_ok, pure_ok, Instr.pops, Instr.pushes]
    exact ⟨_, _, ⟨Nat.zero_le _, rfl⟩, _, _, ⟨Nat.le_add_left _ _, rfl⟩, _, _,
      ⟨Nat.zero_le _, rfl⟩, _, _, ⟨Nat.le_add_left _ _, rfl⟩, rfl⟩

theorem addressCode_of {name : String} {slot : Nat} (h : c.layout.slots.get? name = some slot)
    (at_ : Position) (d : Nat) :
    addressCode c name at_ d = .ok ([c.addressInstr name], d + 1) := by
  have ha : c.layout.address? name = some (Int32.ofNat (slot * Layout.slotSize)) := by
    simp [Layout.address?, h]
  simp only [addressCode, Context.addressInstr, ha, Option.getD_some, emit_ok]
  exact ⟨Nat.zero_le _, rfl⟩

namespace Expr

mutual

/-- A silent expression has code at every depth, and leaves its value. -/
theorem code_of_silent (e : Expr) (hs : e.Silent) (hp : e.Placed c) (d : Nat) :
    e.code c d = .ok (e.instrs c, d + 1) := by
  match e with
  | .noneLit _ | .boolLit .. | .intLit .. => exact emit_ok.mpr ⟨Nat.zero_le _, rfl⟩
  | .var _ name =>
    cases hl : c.isLocal name with
    | true =>
      simp only [code, instrs, hl, ↓reduceIte]
      exact emit_ok.mpr ⟨Nat.zero_le _, rfl⟩
    | false =>
      obtain ⟨slot, hslot⟩ := hp hl
      simp only [code, instrs, hl, Bool.false_eq_true, ↓reduceIte, bind_ok, emit_ok, pure_ok]
      exact ⟨_, _, addressCode_of hslot _ d, _, _, ⟨Nat.le_add_left _ _, rfl⟩, rfl⟩
  | .unary _ op operand =>
    simp only [code, instrs, bind_ok, pure_ok]
    exact ⟨_, _, code_of_silent operand hs hp d, _, _, unaryCode_of _ op d, rfl⟩
  | .binary _ op left right =>
    obtain ⟨hl, hr⟩ := Nat.add_eq_zero_iff.mp hs
    simp only [code, instrs, bind_ok, emit_ok, pure_ok]
    exact ⟨_, _, code_of_silent left hl hp.1 d, _, _, code_of_silent right hr hp.2 (d + 1), _, _,
      ⟨Nat.le_add_left _ _, rfl⟩, rfl⟩
  | .call _ callee args =>
    simp only [code, instrs, bind_ok, emit_ok, pure_ok, Instr.pops, Instr.pushes]
    exact ⟨_, _, codeAll_of_silent args hs hp d, _, _,
      ⟨Nat.le_add_left _ _, rfl⟩, by rw [Nat.add_sub_cancel]⟩
  | .print .. => exact absurd hs (by simp [Silent, prints])

theorem codeAll_of_silent (es : List Expr) (hs : printsAll es = 0) (hp : PlacedAll c es) (d : Nat) :
    codeAll c es d = .ok (instrsAll c es, d + es.length) := by
  match es with
  | [] => rfl
  | e :: es =>
    obtain ⟨he, hes⟩ := Nat.add_eq_zero_iff.mp hs
    simp only [codeAll, instrsAll, bind_ok, pure_ok]
    refine ⟨_, _, code_of_silent e he hp.1 d, _, _, codeAll_of_silent es hes hp.2 (d + 1), ?_⟩
    rw [List.length_cons, Nat.add_assoc, Nat.add_comm 1]

end

/-- An expression that stands alone has code on an empty stack. Of a print, the type of its value has
to be known. -/
theorem exists_code_of_alone {e : Expr} {type : Ty} (ht : e.typeIn c.scopes = .ok type)
    (hp : e.Placed c) (h : e.PrintsAlone) : ∃ r, e.code c 0 = .ok r := by
  cases e with
  | print span arg =>
    simp only [code, bind_ok, emit_ok, pure_ok, lift_ok, Instr.pops]
    exact ⟨_, _, _, code_of_silent arg h hp 0, _, _, ⟨_, ht, rfl⟩, _, _, ⟨Nat.le_refl 1, rfl⟩, rfl⟩
  | _ => exact ⟨_, code_of_silent _ h hp 0⟩

end Expr

theorem storeCode_of {name : String} {value : Expr} (hn : c.Knows name) (hs : value.Silent)
    (hp : value.Placed c) (at_ : Position) : ∃ is, storeCode c name value at_ 0 = .ok (is, 0) := by
  unfold storeCode
  cases hl : c.isLocal name with
  | true =>
    simp only [↓reduceIte, bind_ok, emit_ok, pure_ok]
    exact ⟨_, _, _, value.code_of_silent hs hp 0, _, _, ⟨Nat.le_refl 1, rfl⟩, rfl⟩
  | false =>
    obtain ⟨slot, hslot⟩ := hn hl
    simp only [Bool.false_eq_true, ↓reduceIte, bind_ok, emit_ok, pure_ok]
    exact ⟨_, _, _, addressCode_of hslot at_ 0, _, _, value.code_of_silent hs hp 1, _, _,
      ⟨Nat.le_refl 2, rfl⟩, rfl⟩

mutual

/-- A variable is placed if code knows it. -/
theorem Expr.placed_of_uses {F : String → Prop} (e : Expr) (h : e.Uses c.Knows F) : e.Placed c := by
  match e with
  | .noneLit _ | .boolLit .. | .intLit .. => trivial
  | .var .. => exact h
  | .unary _ _ operand => exact Expr.placed_of_uses operand h
  | .binary _ _ left right =>
    exact ⟨Expr.placed_of_uses left h.1, Expr.placed_of_uses right h.2⟩
  | .call _ _ args => exact Expr.placedAll_of_uses args h.2
  | .print _ arg => exact Expr.placed_of_uses arg h

theorem Expr.placedAll_of_uses {F : String → Prop} (es : List Expr) (h : UsesAll c.Knows F es) :
    PlacedAll c es := by
  match es with
  | [] => trivial
  | e :: es => exact ⟨Expr.placed_of_uses e h.1, Expr.placedAll_of_uses es h.2⟩

end

abbrev Scopes.Coded (c : Context) (s : Scopes) : Prop := s.Only c.Knows (fun _ => True)

theorem Scopes.Coded.placed {s : Scopes} (h : s.Coded c) {e : Expr} {type : Ty}
    (ht : e.typeIn s = .ok type) : e.Placed c := e.placed_of_uses (e.uses_of_typeIn h ht)

theorem Stmt.codeAll_cons_of {stmt : Stmt} {stmts : List Stmt}
    (h : ∃ is, stmt.code c 0 = .ok (is, 0)) (hs : ∃ is, codeAll c stmts 0 = .ok (is, 0)) :
    ∃ is, codeAll c (stmt :: stmts) 0 = .ok (is, 0) := by
  obtain ⟨is, h⟩ := h
  obtain ⟨js, hs⟩ := hs
  simp only [codeAll, bind_ok, pure_ok]
  exact ⟨_, is, 0, h, js, 0, hs, rfl⟩

variable {s : Scopes} {result : Option Ty}

mutual

/-- A checked statement that prints alone has code. -/
theorem Stmt.code_of_alone (hs : s.Coded c) (halike : s.Alike c.scopes) (stmt : Stmt) {type : Ty}
    (ht : stmt.typeIn s result = .ok type) (ha : stmt.PrintsAlone) :
    ∃ is, stmt.code c 0 = .ok (is, 0) := by
  match stmt with
  | .pass _ =>
    simp only [code, emit_ok]
    exact ⟨_, Nat.zero_le _, rfl⟩
  | .init .. => exact absurd ht typeIn_init
  | .define .. => exact absurd ht typeIn_define
  | .assign span name value =>
    obtain ⟨_, hn, hv, _⟩ := typeIn_assign ht
    exact storeCode_of (hs.vars (Scopes.typeOf?_eq_some.mp hn)) ha (hs.placed hv) span.first
  | .expr span value =>
    have htype : value.typeIn c.scopes = .ok type := (value.typeIn_congr halike).symm.trans ht
    obtain ⟨⟨is, d⟩, hcode⟩ := Expr.exists_code_of_alone htype (hs.placed ht) ha
    exact UnitCode.valueCode_of_code hcode span.first
  | .ret _ value =>
    obtain ⟨_, _, hv⟩ := typeIn_ret ht
    simp only [code, bind_ok, emit_ok, pure_ok]
    exact ⟨_, _, _, value.code_of_silent ha (hs.placed hv) 0, _, _, ⟨Nat.le_refl 1, rfl⟩, rfl⟩
  | .ifElse _ cond yes no =>
    obtain ⟨hc, hy, hn⟩ := typeIn_ifElse ht
    obtain ⟨hsc, hay, han⟩ := ha
    obtain ⟨ys, hys⟩ := Stmt.codeAll_of_alone hs halike yes hy hay
    obtain ⟨ns, hns⟩ := Stmt.codeAll_of_alone hs halike no hn han
    simp only [code, bind_ok, emit_ok]
    exact ⟨_, _, _, cond.code_of_silent hsc (hs.placed hc) 0, _, _, ⟨Nat.le_refl 1, rfl⟩,
      ns, 0, hns, _, _, ⟨Nat.zero_le _, rfl⟩, ys, 0, hys, Nat.zero_le _, rfl⟩
  | .ifElif _ cond yes cond' yes' no =>
    obtain ⟨hc, hy, hc', hy', hn⟩ := typeIn_ifElif ht
    obtain ⟨hsc, hay, hsc', hay', han⟩ := ha
    obtain ⟨ys, hys⟩ := Stmt.codeAll_of_alone hs halike yes hy hay
    obtain ⟨ys', hys'⟩ := Stmt.codeAll_of_alone hs halike yes' hy' hay'
    obtain ⟨ns, hns⟩ := Stmt.codeAll_of_alone hs halike no hn han
    simp only [code, bind_ok, emit_ok]
    exact ⟨_, _, _, cond.code_of_silent hsc (hs.placed hc) 0, _, _, ⟨Nat.le_refl 1, rfl⟩,
      _, _, cond'.code_of_silent hsc' (hs.placed hc') 0, _, _, ⟨Nat.le_refl 1, rfl⟩,
      ns, 0, hns, _, _, ⟨Nat.zero_le _, rfl⟩, ys, 0, hys, _, _, ⟨Nat.zero_le _, rfl⟩,
      ys', 0, hys', Nat.zero_le _, rfl⟩
  | .whileDo _ cond body =>
    obtain ⟨hc, hb⟩ := typeIn_whileDo ht
    obtain ⟨bs, hbs⟩ := Stmt.codeAll_of_alone hs halike body hb ha.2
    have hcond := cond.code_of_silent ha.1 (hs.placed hc) 0
    simp only [code, Expr.code, bind_ok, emit_ok, pure_ok]
    exact ⟨_, _, _, ⟨_, _, hcond, _, _, unaryCode_of _ .not 0, rfl⟩, _, _, ⟨Nat.le_refl 1, rfl⟩,
      bs, 0, hbs, _, _, hcond, _, _, ⟨Nat.le_refl 1, rfl⟩, _, _, ⟨Nat.zero_le _, rfl⟩,
      _, _, ⟨Nat.zero_le _, rfl⟩, Nat.zero_le _, rfl⟩

/-- Checked statements that print alone have code one after the other. -/
theorem Stmt.codeAll_of_alone (hs : s.Coded c) (halike : s.Alike c.scopes) (stmts : List Stmt)
    (ht : checkAll s result stmts = .ok ()) (ha : PrintsAloneAll stmts) :
    ∃ is, codeAll c stmts 0 = .ok (is, 0) := by
  match stmts with
  | [] => exact ⟨[], rfl⟩
  | stmt :: stmts =>
    obtain ⟨⟨_, hstmt⟩, hrest⟩ := checkAll_cons ht
    exact codeAll_cons_of (Stmt.code_of_alone hs halike stmt hstmt ha.1)
      (Stmt.codeAll_of_alone hs halike stmts hrest ha.2)

end

/-- A block: declarations whose variables code knows, then checked statements. -/
theorem Stmt.Declares.code_of_alone {inFunction : Bool} {s s' : Scopes} {head rest : List Stmt}
    (h : Declares inFunction s head s') (hs : s.Coded c)
    (hlocals : ∀ d ∈ FunctionCode.localsOf head, c.Knows d.1) (halike : s'.Alike c.scopes)
    (hrest : checkAll s' result rest = .ok ()) (ha : PrintsAloneAll (head ++ rest)) :
    ∃ is, codeAll c (head ++ rest) 0 = .ok (is, 0) := by
  induction h with
  | nil => exact codeAll_of_alone hs halike rest hrest ha
  | @init _ _ span name type _ _ typed _ _ _ ih =>
    have hknown : c.Knows name := hlocals (name, type) List.mem_cons_self
    exact codeAll_cons_of (storeCode_of hknown ha.1 (hs.placed typed) span.first)
      (ih (hs.withVariable hknown type) (fun d hd => hlocals d (List.mem_cons_of_mem _ hd)) halike
        hrest ha.2)
  | define _ _ free _ ih =>
    exact codeAll_cons_of ⟨[], rfl⟩ (ih (hs.withFunction trivial free _) hlocals halike hrest ha.2)

end Code

/-- The names of a layer of variables mean these, all others what they mean around it. -/
theorem Scopes.lookup_push_variables (s : Scopes) (entries : List (String × Ty)) (t : Table Ty) :
    (s.push ⟨entries.foldl (fun t e => t.insert e.1 e.2) t, .empty⟩).lookup =
      Meaning.extendAll (s.push ⟨t, .empty⟩).lookup
        (entries.map fun e => (e.1, .variable e.2)) := by
  induction entries generalizing t with
  | nil => rfl
  | cons e entries ih =>
    rw [List.foldl_cons, ih]
    exact congrArg (Meaning.extendAll · _) (Stmt.lookup_withVariable_eq (s.push ⟨t, .empty⟩) e.1 e.2)

theorem Stmt.bindings_variables {head : List Stmt}
    (h : ∀ stmt ∈ head, ∃ span name type value, stmt = .init span name type value) :
    bindings head = (FunctionCode.localsOf head).map fun d => (d.1, .variable d.2) := by
  induction head with
  | nil => rfl
  | cons stmt head ih =>
    obtain ⟨span, name, type, value, rfl⟩ := h stmt List.mem_cons_self
    rw [FunctionCode.localsOf, List.map_cons, ← ih fun stmt hm => h stmt (List.mem_cons_of_mem _ hm)]
    rfl

/-- Behind its declarations, a function is checked with the meaning of names that its code is
generated with. -/
theorem Stmt.Declares.alike_inside_context {c : Context} {s s' : Scopes} (halike : s.Alike c.scopes)
    {params : List Param} {layer : Layer} (hl : paramLayer .empty params = .ok layer)
    {head rest : List Stmt} (h : Declares true (s.push layer) head s')
    (hrest : FunctionCode.localsOf rest = []) :
    s'.Alike (c.inside params (head ++ rest)).scopes := by
  have hlocals : FunctionCode.localsOf (head ++ rest) = FunctionCode.localsOf head := by
    rw [FunctionCode.localsOf_append, hrest, List.append_nil]
  have hempty : (c.scopes.push ⟨.empty, .empty⟩).lookup = c.scopes.lookup :=
    funext fun name => c.scopes.lookup_push .empty name
  have hcode : (c.inside params (head ++ rest)).scopes.lookup =
      Meaning.extendAll c.scopes.lookup (paramBindings params ++ bindings head) := by
    change (c.scopes.push (FunctionCode.layerOf params (FunctionCode.localsOf (head ++ rest)))).lookup
      = _
    rw [FunctionCode.layerOf, Table.ofList, Scopes.lookup_push_variables, hempty, hlocals,
      bindings_variables h.only_variables, paramBindings, List.map_append, List.map_map]
    rfl
  intro name
  rw [h.lookup_eq, lookup_params hl, hcode, Meaning.extendAll_append, funext halike]

/-- A checked function that prints alone has code. -/
theorem FunctionCode.ofDefinition_of_alone {c : Context} {s : Scopes}
    (hs : s.Coded { c with locals := none }) (halike : s.Alike c.scopes) {params : List Param}
    {returned : Ty} {body : List Stmt} (h : Stmt.checkFunction s params returned body = .ok ())
    (ha : Stmt.PrintsAloneAll body) (name : String) (at_ : Position) :
    ∃ f, ofDefinition c name params body at_ = .ok f := by
  obtain ⟨layer, head, rest, s', hl, rfl, hd, hrest⟩ := Stmt.checkFunction_ok h
  have hnone := (Stmt.not_declared_of_checkAll hrest).2
  -- a name of the function is known because it is one of its own, any other because it has a slot
  have hown {name : String} (hm : name ∈ params.map (·.name) ++ (localsOf (head ++ rest)).map (·.1)) :
      (c.inside params (head ++ rest)).Knows name := by
    intro hlocal
    simp [Context.isLocal, Context.inside, hm] at hlocal
  have hknown : s.Coded (c.inside params (head ++ rest)) :=
    ⟨fun hn _ => hs.vars hn rfl, fun _ => trivial⟩
  have hlocals : ∀ d ∈ localsOf head, (c.inside params (head ++ rest)).Knows d.1 := by
    intro d hm
    apply hown
    rw [localsOf_append]
    exact List.mem_append_right _ (List.mem_map_of_mem (List.mem_append_left _ hm))
  obtain ⟨is, hcode⟩ := hd.code_of_alone
    (hknown.push hl fun p hp => hown (List.mem_append_left _ (List.mem_map_of_mem hp))) hlocals
    (hd.alike_inside_context halike hl hnone) hrest ha
  have hbody : bodyCode (c.inside params (head ++ rest)) name (head ++ rest) at_ 0 =
      .ok (is ++ [.const 0], 1) := by
    simp only [bodyCode, bind_ok, emit_ok, depth_ok]
    exact ⟨is, 0, hcode, _, _, ⟨Nat.zero_le _, rfl⟩, _, _, rfl, rfl⟩
  unfold Context.inside at hbody
  simp only [ofDefinition, hbody]
  exact ⟨_, rfl⟩

theorem FunctionCode.ofStmts_of {c : Context} {stmts : List Stmt}
    (h : ∀ span name params result body, .define span name params result body ∈ stmts →
      ∃ f, ofDefinition c name params body span.first = .ok f) :
    ∃ fs, ofStmts c stmts = .ok fs := by
  fun_induction ofStmts c stmts with
  | case1 => exact ⟨[], rfl⟩
  | case2 span name params result body stmts ih =>
    obtain ⟨f, hf⟩ := h span name params result body List.mem_cons_self
    obtain ⟨fs, hfs⟩ := ih fun span name params result body hm =>
      h span name params result body (List.mem_cons_of_mem _ hm)
    simp only [bind_eq_ok, pure_eq_ok]
    exact ⟨f :: fs, f, hf, fs, hfs, rfl⟩
  | case3 stmt stmts _ ih =>
    exact ih fun span name params result body hm =>
      h span name params result body (List.mem_cons_of_mem _ hm)

/-- Statements that have code have code as the entry, where a last value stays. -/
theorem UnitCode.topCode_of_codeAll {c : Context} {stmts : List Stmt} {r : List Instr × Nat}
    (h : Stmt.codeAll c stmts 0 = .ok r) : ∃ r, topCode c stmts 0 = .ok r := by
  fun_induction topCode c stmts generalizing r with
  | case1 => exact ⟨_, rfl⟩
  | case2 span value =>
    simp only [Stmt.codeAll, Stmt.code, Stmt.valueCode, bind_ok, depth_ok] at h
    obtain ⟨_, _, ⟨_, _, hdepth, is, d, hcode, _⟩, _⟩ := h
    cases hdepth
    exact ⟨_, hcode⟩
  | case3 stmt stmts hlast ih =>
    simp only [Stmt.codeAll, bind_ok] at h
    obtain ⟨is, d, hcode, _, _, hrest, _⟩ := h
    obtain ⟨_, _, rfl⟩ := Stmt.code_ok stmt hcode
    obtain ⟨⟨js, e⟩, hjs⟩ := ih hrest
    simp only [bind_ok, pure_ok]
    exact ⟨_, is, 0, hcode, js, e, hjs, rfl⟩

namespace Globals

variable {g : Globals} {lib : Library} {types : List Ty} {p : Program} {typing : Typing}

/-- A checked unit that prints alone has code on top of earlier ones. -/
theorem Made.code_of_alone (hg : g.Made lib types) (ht : p.typeOn g.declared = .ok typing)
    (ha : Stmt.PrintsAloneAll p.body) :
    ∃ u, UnitCode.ofProgram typing.declared g.layout p = .ok u := by
  obtain ⟨head, rest, s, hc⟩ := Program.typeOn_ok hg.sound ht
  let c := UnitCode.topContext typing.declared g.layout p
  have halike : s.Alike c.scopes := by
    intro name
    rw [← hc.get?_declared name]
    have hsound := Program.typeOn_sound hg.sound ht
    change _ = Scopes.lookup ⟨Layer.empty.overlay typing.declared, []⟩ name
    rw [Scopes.lookup_eq, Layer.get?_overlay hsound]
    cases typing.declared.get? name <;> rfl
  -- every variable, of this unit or an earlier one, has a slot
  have hslots {name : String} {type : Ty} (hn : s.lookup name = some (.variable type)) :
      c.Knows name := by
    obtain ⟨slot, hslot, _⟩ := (hc.slot_types hg).typed hn
    exact fun _ => ⟨slot, hslot⟩
  have hknown : Scopes.Coded c (.seeded g.declared) := by
    refine ⟨fun {name type} hn _ => ?_, fun _ => trivial⟩
    by_cases hm : name ∈ (FunctionCode.localsOf p.body).map (·.1)
    · obtain ⟨slot, hslot, _⟩ := g.layout.slot_of_declared hm
      exact ⟨slot, hslot⟩
    · obtain ⟨slot, hslot, _⟩ := hg.typed.typed ((hc.seeded name).symm.trans hn)
      exact ⟨slot, (g.layout.slot_of_not_declared hm).trans hslot⟩
  have hlocals : ∀ d ∈ FunctionCode.localsOf head, c.Knows d.1 := fun d hd =>
    hslots (hc.declares.declared d hd)
  have hbody := hc.body
  obtain ⟨is, hcode⟩ : ∃ is, Stmt.codeAll c p.body 0 = .ok (is, 0) := by
    rw [hbody] at ha ⊢
    exact hc.declares.code_of_alone hknown hlocals halike (Stmt.checkAll_of_lastType hc.last) ha
  obtain ⟨main, hmain⟩ := UnitCode.mainCode_iff.mpr (UnitCode.topCode_of_codeAll hcode)
  obtain ⟨fs, hfs⟩ := FunctionCode.ofStmts_of (c := c) fun span name params result body hm =>
    FunctionCode.ofDefinition_of_alone ⟨hslots, fun _ => trivial⟩ halike
      (hc.functions span name params result body hm) (Stmt.printsAlone_of_mem ha hm) name span.first
  exact ⟨_, UnitCode.ofProgram_eq_ok.mpr ⟨fs, main, hfs, hmain, rfl⟩⟩

/-- A checked unit compiles on top of earlier ones exactly if its prints stand alone. Its entry gives
a word exactly if its last statement is an expression, and gives as many once its text is loaded. -/
theorem compiles_iff_prints_alone (hr : g.Reachable) (ht : p.typeOn g.declared = .ok typing) :
    ((∃ u, UnitCode.ofProgram typing.declared g.layout p = .ok u) ↔
      Stmt.PrintsAloneAll p.body) ∧
    ∀ u, UnitCode.ofProgram typing.declared g.layout p = .ok u →
      (u.returnsValue = true ↔ ∃ before span value, p.body = before ++ [.expr span value]) ∧
      (p.Named Bare → ∃ m entry,
        Module.prepare (ModuleText.ofUnit g.definitions u) = .ok (m, entry) ∧
        entry.results = if u.returnsValue then 1 else 0) := by
  obtain ⟨lib, types, hg, _⟩ := hr.made
  obtain ⟨head, rest, s, hc⟩ := Program.typeOn_ok hg.sound ht
  refine ⟨⟨fun ⟨u, hu⟩ => hc.alone_of_code hu, hg.code_of_alone ht⟩, fun u hu => ⟨?ends, ?loads⟩⟩
  case ends =>
    obtain ⟨_, _, _, _, rfl⟩ := UnitCode.ofProgram_eq_ok.mp hu
    exact Program.endsInExpr_iff
  case loads =>
    intro hn
    refine ⟨_, _, hg.loads hn ht hu, ?_⟩
    obtain ⟨_, _, _, _, rfl⟩ := UnitCode.ofProgram_eq_ok.mp hu
    rfl

def checked? (g : Globals) (source : String) : Option Program :=
  match Program.parse source shellName with
  | .error _ => none
  | .ok p =>
    match p.typeOn g.declared with
    | .error _ => none
    | .ok _ => some p

theorem exists_of_checked? {source : String} {test : Program → Bool}
    (h : (g.checked? source).any test = true) : ∃ p typing,
      Program.parse source shellName = .ok p ∧ p.typeOn g.declared = .ok typing ∧ test p = true := by
  unfold checked? at h
  split at h
  · cases h
  · split at h
    · cases h
    · rename_i p hp _ typing ht
      exact ⟨p, typing, hp, ht, h⟩

/-- A print that ends a unit is no obstacle, one inside a sum is. -/
theorem compiles_iff_prints_alone_in_sum :
    ∃ g : Globals, g.Reachable ∧
      (∃ p typing u, Program.parse "while x > 0:\n  x = f(x)\nprint(x)" shellName = .ok p ∧
        p.typeOn g.declared = .ok typing ∧
        UnitCode.ofProgram typing.declared g.layout p = .ok u ∧ u.returnsValue = true) ∧
      ∃ p typing, Program.parse "while x > 0:\n  x = f(1 + print(x))" shellName = .ok p ∧
        p.typeOn g.declared = .ok typing ∧
        ∀ u, UnitCode.ofProgram typing.declared g.layout p ≠ .ok u := by
  obtain ⟨t, hr, ht⟩ := Trace.exists_later .reliable 20 9
    ["x: int = 3\ndef f(n: int) -> int:\n  print(n)\n  return n - 1"]
    (fun t =>
      (t.globals.checked? "while x > 0:\n  x = f(x)\nprint(x)").any
        (fun p => Stmt.PrintsAloneAll p.body && p.endsInExpr) &&
      (t.globals.checked? "while x > 0:\n  x = f(1 + print(x))").any
        fun p => ¬ Stmt.PrintsAloneAll p.body)
    (by decide +kernel)
  rw [Bool.and_eq_true] at ht
  obtain ⟨p, typing, hp, htyping, halone⟩ := exists_of_checked? ht.1
  obtain ⟨q, typing', hq, htyping', hinside⟩ := exists_of_checked? ht.2
  rw [Bool.and_eq_true, decide_eq_true_eq] at halone
  have hreach : t.globals.Reachable := hr.reachable
  obtain ⟨hiff, hresult⟩ := compiles_iff_prints_alone hreach htyping
  obtain ⟨u, hu⟩ := hiff.mpr halone.1
  refine ⟨t.globals, hreach, ⟨p, typing, u, hp, htyping, hu, ?_⟩, q, typing', hq, htyping', ?_⟩
  · exact (hresult u hu).1.mpr (Program.endsInExpr_iff.mp halone.2)
  · intro u hu
    exact of_decide_eq_true hinside ((compiles_iff_prints_alone hreach htyping').1.mp ⟨u, hu⟩)

end Globals

end StackScript
