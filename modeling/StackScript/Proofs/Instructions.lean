import StackScript.Proofs.Evaluation

namespace StackScript

namespace Gen

variable {α β : Type}

theorem bind_ok {g : Gen α} {f : α → Gen β} {d : Nat} {r : β × Nat} :
    (g >>= f) d = .ok r ↔ ∃ a d', g d = .ok (a, d') ∧ f a d' = .ok r := by
  change Gen.bind g f d = .ok r ↔ _
  unfold Gen.bind
  cases hg : g d with
  | error e => simp
  | ok p =>
    obtain ⟨a, d'⟩ := p
    constructor
    · intro h
      exact ⟨a, d', rfl, h⟩
    · rintro ⟨_, _, he, h⟩
      cases he
      exact h

theorem pure_ok {a : α} {d : Nat} {r : α × Nat} : (pure a : Gen α) d = .ok r ↔ (a, d) = r := by
  change Except.ok (a, d) = .ok r ↔ _
  simp

theorem emit_ok {at_ : Position} {i : Instr} {d : Nat} {r : List Instr × Nat} :
    emit at_ i d = .ok r ↔ i.pops ≤ d ∧ ([i], d - i.pops + i.pushes) = r := by
  unfold emit Instr.depthAfter
  by_cases h : d < i.pops
  · simp [h, Nat.not_le_of_lt h]
  · simp [h, Nat.le_of_not_lt h]

theorem lift_ok {x : Except Diagnostic α} {d : Nat} {r : α × Nat} :
    lift x d = .ok r ↔ ∃ a, x = .ok a ∧ (a, d) = r := by
  unfold lift
  cases x <;> simp

theorem depth_ok {d : Nat} {r : Nat × Nat} : depth d = .ok r ↔ (d, d) = r := by
  simp [depth]

end Gen

def UnaryOp.instrs : UnaryOp → List Instr
  | .not => [.const 1, .num .add, .const 2, .num .rem]
  | .neg => [.const (-1), .num .mul]

def Context.addressInstr (c : Context) (name : String) : Instr :=
  .address ((c.layout.address? name).getD 0) name

/-- A name of the function around, or a top-level variable with a slot. -/
def Context.Knows (c : Context) (name : String) : Prop :=
  c.isLocal name = false → ∃ slot, c.layout.slots.get? name = some slot

def Context.storeInstrs (c : Context) (name : String) (value : List Instr) : List Instr :=
  if c.isLocal name then value ++ [.localSet name] else c.addressInstr name :: value ++ [.store]

namespace Expr

mutual

def prints : Expr → Nat
  | .noneLit _ | .boolLit .. | .intLit .. | .var .. => 0
  | .unary _ _ operand => prints operand
  | .binary _ _ left right => prints left + prints right
  | .call _ _ args => printsAll args
  | .print _ arg => prints arg + 1

def printsAll : List Expr → Nat
  | [] => 0
  | e :: es => prints e + printsAll es

end

/-- An expression without a print leaves a value. -/
def Silent (e : Expr) : Prop := e.prints = 0

mutual

def instrs (c : Context) : Expr → List Instr
  | .noneLit _ => [.const 0]
  | .boolLit _ value => [.const (truthWord value)]
  | .intLit _ value => [.const value]
  | .var _ name => if c.isLocal name then [.localGet name] else [c.addressInstr name, .load]
  | .unary _ op operand => instrs c operand ++ op.instrs
  | .binary _ op left right => instrs c left ++ instrs c right ++ [.num (.ofBinary op)]
  | .call _ callee args => instrsAll c args ++ [.call callee args.length 1]
  | .print _ arg => instrs c arg ++ [.call (arg.printType c.scopes).printer 1 0]

def instrsAll (c : Context) : List Expr → List Instr
  | [] => []
  | e :: es => instrs c e ++ instrsAll c es

end

mutual

def Placed (c : Context) : Expr → Prop
  | .noneLit _ | .boolLit .. | .intLit .. => True
  | .var _ name => c.Knows name
  | .unary _ _ operand => Placed c operand
  | .binary _ _ left right => Placed c left ∧ Placed c right
  | .call _ _ args => PlacedAll c args
  | .print _ arg => Placed c arg

def PlacedAll (c : Context) : List Expr → Prop
  | [] => True
  | e :: es => Placed c e ∧ PlacedAll c es

end

/-- Whether nothing but a print of a silent value is left, so that no value is. -/
def isPrint : Expr → Bool
  | .print .. => true
  | _ => false

end Expr

open Gen

theorem unaryCode_ok {at_ : Position} {op : UnaryOp} {d d' : Nat} {is : List Instr}
    (h : unaryCode at_ op d = .ok (is, d')) : 1 ≤ d ∧ is = op.instrs ∧ d' = d := by
  cases op with
  | neg =>
    simp only [unaryCode, bind_ok, emit_ok, pure_ok, Instr.pops, Instr.pushes] at h
    obtain ⟨_, _, ⟨_, h₁⟩, _, _, ⟨hd, h₂⟩, h₃⟩ := h
    cases h₁; cases h₂; cases h₃
    exact ⟨by omega, rfl, by omega⟩
  | not =>
    simp only [unaryCode, bind_ok, emit_ok, pure_ok, Instr.pops, Instr.pushes] at h
    obtain ⟨_, _, ⟨_, h₁⟩, _, _, ⟨hd, h₂⟩, _, _, ⟨_, h₃⟩, _, _, ⟨_, h₄⟩, h₅⟩ := h
    cases h₁; cases h₂; cases h₃; cases h₄; cases h₅
    exact ⟨by omega, rfl, by omega⟩

theorem addressCode_ok {c : Context} {name : String} {at_ : Position} {d d' : Nat}
    {is : List Instr} (h : addressCode c name at_ d = .ok (is, d')) :
    (∃ slot, c.layout.slots.get? name = some slot) ∧ is = [c.addressInstr name] ∧ d' = d + 1 := by
  unfold addressCode at h
  cases ha : c.layout.address? name with
  | none => simp [ha, Gen.fail] at h
  | some offset =>
    simp only [ha, emit_ok, Instr.pops, Instr.pushes] at h
    obtain ⟨_, h⟩ := h
    cases h
    obtain ⟨slot, hs, _⟩ := Option.map_eq_some_iff.mp ha
    exact ⟨⟨slot, hs⟩, by simp [Context.addressInstr, ha], rfl⟩

namespace Expr

mutual

/-- The code of an expression is `instrs`. Each print in it leaves one word less than its operators
count on. -/
theorem code_ok {c : Context} {d d' : Nat} {is : List Instr} (e : Expr)
    (h : e.code c d = .ok (is, d')) :
    is = e.instrs c ∧ e.Placed c ∧ d' + e.prints = d + 1 := by
  match e with
  | .noneLit _ | .boolLit .. | .intLit .. =>
    simp only [code, emit_ok, Instr.pops, Instr.pushes] at h
    obtain ⟨_, h⟩ := h
    cases h
    exact ⟨rfl, trivial, rfl⟩
  | .var _ name =>
    unfold code at h
    by_cases hl : c.isLocal name = true
    · simp only [hl, ↓reduceIte, emit_ok, Instr.pops, Instr.pushes] at h
      obtain ⟨_, h⟩ := h
      cases h
      exact ⟨by simp [instrs, hl], by simp [Placed, Context.Knows, hl], rfl⟩
    · rw [if_neg hl] at h
      simp only [bind_ok, emit_ok, pure_ok, Instr.pops, Instr.pushes] at h
      obtain ⟨a, d₁, ha, l, d₂, ⟨_, hl₂⟩, h⟩ := h
      obtain ⟨hs, rfl, rfl⟩ := addressCode_ok ha
      cases hl₂; cases h
      exact ⟨by simp [instrs, hl], fun _ => hs, by simp [prints]⟩
  | .unary _ op operand =>
    simp only [code, bind_ok, pure_ok] at h
    obtain ⟨a, d₁, ha, o, d₂, ho, h⟩ := h
    obtain ⟨rfl, hp, hd⟩ := code_ok operand ha
    obtain ⟨_, rfl, rfl⟩ := unaryCode_ok ho
    cases h
    exact ⟨by simp [instrs], hp, hd⟩
  | .binary _ op left right =>
    simp only [code, bind_ok, emit_ok, pure_ok, Instr.pops, Instr.pushes] at h
    obtain ⟨a, d₁, ha, b, d₂, hb, o, d₃, ⟨h₂, ho⟩, h⟩ := h
    obtain ⟨rfl, hp, hd⟩ := code_ok left ha
    obtain ⟨rfl, hp', hd'⟩ := code_ok right hb
    cases ho; cases h
    exact ⟨by simp [instrs], ⟨hp, hp'⟩, by simp only [prints]; omega⟩
  | .call _ callee args =>
    simp only [code, bind_ok, emit_ok, pure_ok, Instr.pops, Instr.pushes] at h
    obtain ⟨a, d₁, ha, o, d₂, ⟨h₂, ho⟩, h⟩ := h
    obtain ⟨rfl, hp, hd⟩ := codeAll_ok args ha
    cases ho; cases h
    exact ⟨by simp [instrs], hp, by simp only [prints]; omega⟩
  | .print _ arg =>
    simp only [code, bind_ok, emit_ok, pure_ok, lift_ok, Instr.pops, Instr.pushes] at h
    obtain ⟨a, d₁, ha, type, d₂, ⟨t, ht, h₁⟩, o, d₃, ⟨h₂, ho⟩, h⟩ := h
    obtain ⟨rfl, hp, hd⟩ := code_ok arg ha
    cases h₁; cases ho; cases h
    exact ⟨by simp [instrs, printType, ht], hp, by simp only [prints]; omega⟩

theorem codeAll_ok {c : Context} {d d' : Nat} {is : List Instr} (es : List Expr)
    (h : codeAll c es d = .ok (is, d')) :
    is = instrsAll c es ∧ PlacedAll c es ∧ d' + printsAll es = d + es.length := by
  match es with
  | [] =>
    simp only [codeAll, pure_ok] at h
    cases h
    exact ⟨rfl, trivial, rfl⟩
  | e :: es =>
    simp only [codeAll, bind_ok, pure_ok] at h
    obtain ⟨a, d₁, ha, b, d₂, hb, h⟩ := h
    obtain ⟨rfl, hp, hd⟩ := code_ok e ha
    obtain ⟨rfl, hp', hd'⟩ := codeAll_ok es hb
    cases h
    exact ⟨by simp [instrsAll], ⟨hp, hp'⟩, by simp only [printsAll, List.length_cons]; omega⟩

end

/-- From an empty stack, an operand that leaves no value would be missed by the operator. -/
theorem silent_or_print {c : Context} {d : Nat} {is : List Instr} {e : Expr}
    (h : e.code c 0 = .ok (is, d)) : e.Silent ∨ ∃ span arg, e = .print span arg ∧ arg.Silent := by
  cases e with
  | noneLit | boolLit | intLit | var => exact .inl rfl
  | unary span op operand =>
    left
    simp only [code, bind_ok, pure_ok] at h
    obtain ⟨a, d₁, ha, o, d₂, ho, _⟩ := h
    obtain ⟨_, _, hd⟩ := code_ok operand ha
    obtain ⟨h₁, _, _⟩ := unaryCode_ok ho
    change operand.prints = 0
    omega
  | binary span op left right =>
    left
    simp only [code, bind_ok, emit_ok, pure_ok, Instr.pops, Instr.pushes] at h
    obtain ⟨a, d₁, ha, b, d₂, hb, o, d₃, ⟨h₂, _⟩, _⟩ := h
    obtain ⟨_, _, hd⟩ := code_ok left ha
    obtain ⟨_, _, hd'⟩ := code_ok right hb
    change left.prints + right.prints = 0
    omega
  | call span callee args =>
    left
    simp only [code, bind_ok, emit_ok, pure_ok, Instr.pops, Instr.pushes] at h
    obtain ⟨a, d₁, ha, o, d₂, ⟨h₂, _⟩, _⟩ := h
    obtain ⟨_, _, hd⟩ := codeAll_ok args ha
    change printsAll args = 0
    omega
  | print span arg =>
    right
    simp only [code, bind_ok, emit_ok, pure_ok, lift_ok, Instr.pops, Instr.pushes] at h
    obtain ⟨a, d₁, ha, type, d₂, ⟨t, ht, h₁⟩, o, d₃, ⟨h₂, _⟩, _⟩ := h
    obtain ⟨_, _, hd⟩ := code_ok arg ha
    cases h₁
    refine ⟨span, arg, rfl, ?_⟩
    change arg.prints = 0
    omega

end Expr

namespace Stmt

def fillerInstrs (value : Expr) : List Instr := if value.isPrint then [.const 0] else []

mutual

def instrs (c : Context) : Stmt → List Instr
  | .pass _ => [.nop]
  | .init _ name _ value | .assign _ name value => c.storeInstrs name (value.instrs c)
  | .expr _ value => value.instrs c ++ if value.isPrint then [] else [.drop]
  | .ret _ value => value.instrs c ++ [.ret]
  | .ifElse _ cond yes no =>
    [.block (.block (cond.instrs c ++ [.brIf 0] ++ instrsAll c no ++ [.br 1]) :: instrsAll c yes)]
  | .ifElif _ cond yes cond' yes' no =>
    [.block (.block
      (.block (cond.instrs c ++ [.brIf 0] ++ cond'.instrs c ++ [.brIf 1] ++ instrsAll c no
        ++ [.br 2]) :: instrsAll c yes ++ [.br 1]) :: instrsAll c yes')]
  | .whileDo _ cond body =>
    [.block (cond.instrs c ++ UnaryOp.not.instrs ++ [.brIf 0] ++
      [.loop (instrsAll c body ++ cond.instrs c ++ [.brIf 0] ++ [.br 1])])]
  | .define .. => []

def instrsAll (c : Context) : List Stmt → List Instr
  | [] => []
  | s :: ss => instrs c s ++ instrsAll c ss

end

/-- The code of top-level statements: the value of a last expression stays. -/
def topInstrs (c : Context) : List Stmt → List Instr
  | [] => []
  | [.expr _ value] => value.instrs c ++ fillerInstrs value
  | s :: ss => instrs c s ++ topInstrs c ss

end Stmt

structure Expr.Usable (c : Context) (e : Expr) : Prop where
  silent : e.Silent
  placed : e.Placed c

/-- A value that is given up may be printed. -/
def Expr.Emitted (c : Context) (e : Expr) : Prop :=
  e.Usable c ∨ ∃ span arg, e = .print span arg ∧ arg.Usable c

namespace Stmt

def blocks : Stmt → List (List Stmt)
  | .ifElse _ _ yes no => [yes, no]
  | .ifElif _ _ yes _ yes' no => [yes, yes', no]
  | .whileDo _ _ body => [body]
  | _ => []

mutual

def Placed (c : Context) : Stmt → Prop
  | .pass _ | .define .. => True
  | .init _ name _ value | .assign _ name value => c.Knows name ∧ value.Usable c
  | .expr _ value => value.Emitted c
  | .ret _ value => value.Usable c
  | .ifElse _ cond yes no => cond.Usable c ∧ PlacedAll c yes ∧ PlacedAll c no
  | .ifElif _ cond yes cond' yes' no =>
    cond.Usable c ∧ PlacedAll c yes ∧ cond'.Usable c ∧ PlacedAll c yes' ∧ PlacedAll c no
  | .whileDo _ cond body => cond.Usable c ∧ PlacedAll c body

def PlacedAll (c : Context) : List Stmt → Prop
  | [] => True
  | s :: ss => Placed c s ∧ PlacedAll c ss

end

end Stmt

/-- A value that something takes off an otherwise empty stack. -/
theorem Expr.usable_of_code {c : Context} {d : Nat} {is : List Instr} {e : Expr}
    (h : e.code c 0 = .ok (is, d)) (hd : 1 ≤ d) : e.Usable c ∧ is = e.instrs c ∧ d = 1 := by
  obtain ⟨his, hp, hdepth⟩ := code_ok e h
  have hs : e.prints = 0 := by omega
  exact ⟨⟨hs, hp⟩, his, by omega⟩

/-- No address below makes up for a value that is missing. -/
theorem storeCode_ok {c : Context} {name : String} {value : Expr} {at_ : Position} {d : Nat}
    {is : List Instr} (h : storeCode c name value at_ 0 = .ok (is, d)) :
    is = c.storeInstrs name (value.instrs c) ∧ (c.Knows name ∧ value.Usable c) ∧ d = 0 := by
  unfold storeCode at h
  by_cases hl : c.isLocal name = true
  · simp only [hl, ↓reduceIte, bind_ok, emit_ok, pure_ok, Instr.pops, Instr.pushes] at h
    obtain ⟨v, d₁, hv, s, d₂, ⟨h₁, hs⟩, h⟩ := h
    obtain ⟨hu, rfl, rfl⟩ := Expr.usable_of_code hv h₁
    cases hs; cases h
    exact ⟨by simp [Context.storeInstrs, hl], ⟨by simp [Context.Knows, hl], hu⟩, rfl⟩
  · rw [if_neg hl] at h
    simp only [bind_ok, emit_ok, pure_ok, Instr.pops, Instr.pushes] at h
    obtain ⟨a, d₁, ha, v, d₂, hv, s, d₃, ⟨h₂, hs⟩, h⟩ := h
    obtain ⟨hslot, rfl, rfl⟩ := addressCode_ok ha
    obtain ⟨rfl, hp, hd⟩ := Expr.code_ok value hv
    have hsilent : value.prints = 0 := by omega
    cases hs; cases h
    exact ⟨by simp [Context.storeInstrs, hl], ⟨fun _ => hslot, hsilent, hp⟩, by omega⟩

theorem Expr.isPrint_of_silent {e : Expr} (h : e.Silent) : e.isPrint = false := by
  cases e with
  | print => simp [Silent, prints] at h
  | _ => rfl

/-- What an expression leaves on an empty stack. -/
theorem Expr.emitted_of_code {c : Context} {d : Nat} {is : List Instr} {e : Expr}
    (h : e.code c 0 = .ok (is, d)) :
    e.Emitted c ∧ is = e.instrs c ∧ d = if e.isPrint then 0 else 1 := by
  obtain ⟨his, hp, hd⟩ := code_ok e h
  rcases silent_or_print h with hs | ⟨span, arg, rfl, hs⟩
  · refine ⟨.inl ⟨hs, hp⟩, his, ?_⟩
    have hz : e.prints = 0 := hs
    rw [isPrint_of_silent hs]
    simp only [Bool.false_eq_true, ↓reduceIte]
    omega
  · refine ⟨.inr ⟨span, arg, rfl, hs, hp⟩, his, ?_⟩
    have hz : arg.prints = 0 := hs
    simp only [prints] at hd
    simp only [isPrint, ↓reduceIte]
    omega

namespace Stmt

theorem valueCode_ok {c : Context} {value : Expr} {at_ : Position} {d : Nat} {is : List Instr}
    (h : valueCode c value at_ 0 = .ok (is, d)) :
    is = value.instrs c ++ (if value.isPrint then [] else [.drop]) ∧ value.Emitted c ∧ d = 0 := by
  simp only [valueCode, bind_ok, depth_ok] at h
  obtain ⟨before, d₀, h₀, v, d₁, hv, after, d₂, h₂, h⟩ := h
  cases h₀; cases h₂
  obtain ⟨he, rfl, rfl⟩ := Expr.emitted_of_code hv
  cases hp : value.isPrint with
  | true =>
    simp only [hp, ↓reduceIte, Nat.lt_irrefl, pure_ok] at h
    cases h
    exact ⟨by simp, he, rfl⟩
  | false =>
    simp only [hp, Bool.false_eq_true, ↓reduceIte, Nat.zero_lt_one, bind_ok, emit_ok, pure_ok,
      Instr.pops, Instr.pushes] at h
    obtain ⟨o, d₃, ⟨_, ho⟩, h⟩ := h
    cases ho; cases h
    exact ⟨by simp, he, rfl⟩

mutual

/-- A statement that has code on an empty stack leaves it empty. -/
theorem code_ok {c : Context} {d : Nat} {is : List Instr} (s : Stmt)
    (h : s.code c 0 = .ok (is, d)) : is = s.instrs c ∧ s.Placed c ∧ d = 0 := by
  match s with
  | .pass _ =>
    simp only [code, emit_ok, Instr.pops, Instr.pushes] at h
    obtain ⟨_, h⟩ := h
    cases h
    exact ⟨rfl, trivial, rfl⟩
  | .init .. | .assign .. =>
    simp only [code] at h
    exact storeCode_ok h
  | .expr _ value =>
    simp only [code] at h
    exact valueCode_ok h
  | .ret _ value =>
    simp only [code, bind_ok, emit_ok, pure_ok, Instr.pops, Instr.pushes] at h
    obtain ⟨v, d₁, hv, r, d₂, ⟨h₁, hr⟩, h⟩ := h
    obtain ⟨hu, rfl, rfl⟩ := Expr.usable_of_code hv h₁
    cases hr; cases h
    exact ⟨by simp [instrs], hu, rfl⟩
  | .ifElse _ cond yes no =>
    simp only [code, bind_ok, emit_ok, Instr.pops, Instr.pushes] at h
    obtain ⟨t, d₁, ht, b, d₂, ⟨h₁, hb⟩, n, d₃, hn, l, d₄, ⟨_, hl⟩, y, d₅, hy, _, h⟩ := h
    obtain ⟨hu, rfl, rfl⟩ := Expr.usable_of_code ht h₁
    cases hb
    obtain ⟨rfl, hpn, rfl⟩ := codeAll_ok no hn
    cases hl
    obtain ⟨rfl, hpy, rfl⟩ := codeAll_ok yes hy
    cases h
    exact ⟨by simp [instrs], ⟨hu, hpy, hpn⟩, rfl⟩
  | .ifElif _ cond yes cond' yes' no =>
    simp only [code, bind_ok, emit_ok, Instr.pops, Instr.pushes] at h
    obtain ⟨t, d₁, ht, b, d₂, ⟨h₁, hb⟩, t', d₃, ht', b', d₄, ⟨h₁', hb'⟩, n, d₅, hn, l, d₆,
      ⟨_, hl⟩, y, d₇, hy, l', d₈, ⟨_, hl'⟩, y', d₉, hy', _, h⟩ := h
    obtain ⟨hu, rfl, rfl⟩ := Expr.usable_of_code ht h₁
    cases hb
    obtain ⟨hu', rfl, rfl⟩ := Expr.usable_of_code ht' h₁'
    cases hb'
    obtain ⟨rfl, hpn, rfl⟩ := codeAll_ok no hn
    cases hl
    obtain ⟨rfl, hpy, rfl⟩ := codeAll_ok yes hy
    cases hl'
    obtain ⟨rfl, hpy', rfl⟩ := codeAll_ok yes' hy'
    cases h
    exact ⟨by simp [instrs], ⟨hu, hpy, hu', hpy', hpn⟩, rfl⟩
  | .whileDo _ cond body =>
    simp only [code, Expr.code, bind_ok, emit_ok, pure_ok, Instr.pops, Instr.pushes] at h
    obtain ⟨g, d₁, ⟨a, d₂, ha, o, d₃, ho, hg⟩, k, d₄, ⟨h₁, hk⟩, b, d₅, hb, a', d₆, ha', t, d₇,
      ⟨h₁', ht⟩, l, d₈, ⟨_, hl⟩, lo, d₉, ⟨_, hlo⟩, _, h⟩ := h
    obtain ⟨h₂, rfl, rfl⟩ := unaryCode_ok ho
    obtain ⟨hu, rfl, rfl⟩ := Expr.usable_of_code ha h₂
    cases hg; cases hk
    obtain ⟨rfl, hpb, rfl⟩ := codeAll_ok body hb
    obtain ⟨_, rfl, rfl⟩ := Expr.usable_of_code ha' h₁'
    cases ht; cases hl; cases hlo; cases h
    exact ⟨by simp [instrs], ⟨hu, hpb⟩, rfl⟩
  | .define .. =>
    simp only [code, pure_ok] at h
    cases h
    exact ⟨rfl, trivial, rfl⟩

theorem codeAll_ok {c : Context} {d : Nat} {is : List Instr} (ss : List Stmt)
    (h : codeAll c ss 0 = .ok (is, d)) : is = instrsAll c ss ∧ PlacedAll c ss ∧ d = 0 := by
  match ss with
  | [] =>
    simp only [codeAll, pure_ok] at h
    cases h
    exact ⟨rfl, trivial, rfl⟩
  | s :: ss =>
    simp only [codeAll, bind_ok, pure_ok] at h
    obtain ⟨a, d₁, ha, b, d₂, hb, h⟩ := h
    obtain ⟨rfl, hp, rfl⟩ := code_ok s ha
    obtain ⟨rfl, hp', rfl⟩ := codeAll_ok ss hb
    cases h
    exact ⟨by simp [instrsAll], ⟨hp, hp'⟩, rfl⟩

end

end Stmt

theorem Stmt.topInstrs_cons (c : Context) (s t : Stmt) (ss : List Stmt) :
    topInstrs c (s :: t :: ss) = instrs c s ++ topInstrs c (t :: ss) := by
  cases s <;> rfl

def Context.inside (c : Context) (params : List Param) (body : List Stmt) : Context :=
  { c with
    scopes := c.scopes.push (FunctionCode.layerOf params (FunctionCode.localsOf body))
    locals := some (params.map (·.name) ++ (FunctionCode.localsOf body).map (·.1)) }

namespace FunctionCode

def plain (c : Context) (name : String) (params : List Param) (body : List Stmt) : FunctionCode :=
  ⟨name, params.map (·.name), (localsOf body).map (·.1),
    Stmt.instrsAll (c.inside params body) body ++ [.const 0]⟩

theorem bodyCode_ok {c : Context} {name : String} {body : List Stmt} {at_ : Position} {d : Nat}
    {is : List Instr} (h : bodyCode c name body at_ 0 = .ok (is, d)) :
    is = Stmt.instrsAll c body ++ [.const 0] ∧ Stmt.PlacedAll c body := by
  simp only [bodyCode, bind_ok, emit_ok, depth_ok, Instr.pops, Instr.pushes] at h
  obtain ⟨b, d₁, hb, z, d₂, ⟨_, hz⟩, n, d₃, hn, h⟩ := h
  obtain ⟨rfl, hp, rfl⟩ := Stmt.codeAll_ok body hb
  cases hz; cases hn
  simp only [Nat.sub_zero, Nat.zero_add, ↓reduceIte, pure_ok] at h
  cases h
  exact ⟨rfl, hp⟩

/-- A function that has code has the plain one, and all its variables are placed. -/
theorem ofDefinition_ok {c : Context} {name : String} {params : List Param} {body : List Stmt}
    {at_ : Position} {f : FunctionCode} (h : ofDefinition c name params body at_ = .ok f) :
    f = plain c name params body ∧ Stmt.PlacedAll (c.inside params body) body := by
  unfold ofDefinition at h
  dsimp only at h
  split at h
  · rename_i is d hb
    cases h
    change bodyCode (c.inside params body) name body at_ 0 = .ok (is, d) at hb
    obtain ⟨rfl, hp⟩ := bodyCode_ok hb
    exact ⟨rfl, hp⟩
  · cases h

def plainAll (c : Context) : List Stmt → List FunctionCode
  | [] => []
  | .define _ name params _ body :: stmts => plain c name params body :: plainAll c stmts
  | _ :: stmts => plainAll c stmts

theorem ofStmts_ok {c : Context} {ss : List Stmt} {fs : List FunctionCode}
    (h : ofStmts c ss = .ok fs) :
    fs = plainAll c ss ∧ ∀ span name params result body,
      .define span name params result body ∈ ss → Stmt.PlacedAll (c.inside params body) body := by
  fun_induction ofStmts c ss generalizing fs with
  | case1 =>
    cases h
    exact ⟨rfl, by simp⟩
  | case2 span name params result body stmts ih =>
    cases hf : ofDefinition c name params body span.first with
    | error d => simp [hf, bind, Except.bind] at h
    | ok f =>
      cases hr : ofStmts c stmts with
      | error d => simp [hf, hr, bind, Except.bind] at h
      | ok gs =>
        simp only [hf, hr, bind, Except.bind, pure, Except.pure, Except.ok.injEq] at h
        obtain ⟨rfl, hp⟩ := ofDefinition_ok hf
        obtain ⟨rfl, hps⟩ := ih hr
        refine ⟨h.symm, ?_⟩
        intro span' name' params' result' body' hm
        rcases List.mem_cons.mp hm with he | hm
        · cases he
          exact hp
        · exact hps _ _ _ _ _ hm
  | case3 s stmts hs ih =>
    obtain ⟨rfl, hps⟩ := ih h
    refine ⟨?_, ?_⟩
    · cases s with
      | define span name params result body => exact absurd rfl (hs span name params result body)
      | _ => rfl
    · intro span name params result body hm
      rcases List.mem_cons.mp hm with he | hm
      · exact absurd he.symm (hs span name params result body)
      · exact hps _ _ _ _ _ hm

end FunctionCode

namespace UnitCode

theorem endsInExpr_cons (s t : Stmt) (ss : List Stmt) :
    Program.endsInExpr ⟨s :: t :: ss⟩ = Program.endsInExpr ⟨t :: ss⟩ := by
  simp [Program.endsInExpr]

/-- A unit that does not end in an expression leaves nothing, one that does leaves what the
expression leaves. -/
theorem topCode_ok {c : Context} {ss : List Stmt} {d : Nat} {is : List Instr}
    (h : topCode c ss 0 = .ok (is, d)) :
    Stmt.topInstrs c ss =
        is ++ (if Program.endsInExpr ⟨ss⟩ && d == 0 then [.const 0] else []) ∧
      Stmt.PlacedAll c ss := by
  fun_induction topCode c ss generalizing is d with
  | case1 =>
    rw [pure_ok] at h
    cases h
    exact ⟨rfl, trivial⟩
  | case2 span value =>
    obtain ⟨he, rfl, rfl⟩ := Expr.emitted_of_code h
    refine ⟨?_, he, trivial⟩
    cases hp : value.isPrint <;> simp [Stmt.topInstrs, Stmt.fillerInstrs, Program.endsInExpr, hp]
  | case3 s ss hs ih =>
    simp only [bind_ok, pure_ok] at h
    obtain ⟨a, d₁, ha, b, d₂, hb, h⟩ := h
    obtain ⟨rfl, hp, rfl⟩ := Stmt.code_ok s ha
    obtain ⟨htop, hps⟩ := ih hb
    cases h
    refine ⟨?_, hp, hps⟩
    cases ss with
    | nil =>
      cases s with
      | expr span value => exact absurd rfl (hs span value rfl)
      | _ => simp_all [Stmt.topInstrs, Program.endsInExpr]
    | cons t ts =>
      rw [endsInExpr_cons, Stmt.topInstrs_cons, htop, List.append_assoc]

/-- A last expression may leave a word, and nothing else does. -/
theorem topCode_depth {c : Context} {ss : List Stmt} {is : List Instr} {d : Nat}
    (h : topCode c ss 0 = .ok (is, d)) : d = 0 ∨ Program.endsInExpr ⟨ss⟩ = true ∧ d = 1 := by
  fun_induction topCode c ss generalizing is d with
  | case1 =>
    rw [pure_ok] at h
    cases h
    exact .inl rfl
  | case2 span value =>
    obtain ⟨_, _, rfl⟩ := Expr.emitted_of_code h
    cases value.isPrint with
    | true => exact .inl rfl
    | false => exact .inr ⟨rfl, rfl⟩
  | case3 s ss hs ih =>
    simp only [bind_ok, pure_ok] at h
    obtain ⟨_, d₁, ha, _, d₂, hb, h⟩ := h
    obtain ⟨_, _, rfl⟩ := Stmt.code_ok s ha
    cases h
    rcases ih hb with hd | ⟨hends, hd⟩
    · exact .inl hd
    · refine .inr ⟨?_, hd⟩
      cases ss with
      | nil => cases hends
      | cons t ts => rwa [endsInExpr_cons]

theorem balanced {b : Prop} [Decidable b] {code : List Instr} {why : Diagnostic} {d : Nat}
    {r : List Instr × Nat} (h : (if b then pure code else fail why : Gen (List Instr)) d = .ok r) :
    r.1 = code := by
  split at h
  · rw [pure_ok] at h
    cases h
    rfl
  · cases h

theorem mainCode_ok {c : Context} {p : Program} {d : Nat} {is : List Instr}
    (h : mainCode c p 0 = .ok (is, d)) :
    is = Stmt.topInstrs c p.body ∧ Stmt.PlacedAll c p.body := by
  simp only [mainCode, bind_ok, depth_ok] at h
  obtain ⟨a, d₁, ha, d₂, _, h₂, h⟩ := h
  cases h₂
  obtain ⟨htop, hp⟩ := topCode_ok ha
  refine ⟨?_, hp⟩
  rw [htop]
  cases hb : (p.endsInExpr && d₁ == 0) with
  | true =>
    simp only [hb, ↓reduceIte, bind_ok, emit_ok, depth_ok] at h
    obtain ⟨z, d₂, ⟨_, hz⟩, n, _, hn, h⟩ := h
    cases hz; cases hn
    exact balanced h
  | false =>
    simp only [hb, Bool.false_eq_true, ↓reduceIte, bind_ok, pure_ok, depth_ok] at h
    obtain ⟨z, d₂, hz, n, _, hn, h⟩ := h
    cases hz; cases hn
    exact balanced h

def topContext (declared : Layer) (layout : Layout) (p : Program) : Context :=
  ⟨layout.extend p.body, ⟨Layer.empty.overlay declared, []⟩, none⟩

def plain (declared : Layer) (layout : Layout) (p : Program) : UnitCode :=
  let c := topContext declared layout p
  ⟨FunctionCode.plainAll c p.body, Stmt.topInstrs c p.body, p.endsInExpr, c.layout⟩

/-- Where generation succeeds, its code is a plain function of the program. All that follows about
code is about that. -/
theorem ofProgram_ok {declared : Layer} {layout : Layout} {p : Program} {u : UnitCode}
    (h : ofProgram declared layout p = .ok u) :
    u = plain declared layout p ∧ Stmt.PlacedAll (topContext declared layout p) p.body ∧
      ∀ span name params result body, .define span name params result body ∈ p.body →
        Stmt.PlacedAll ((topContext declared layout p).inside params body) body := by
  unfold ofProgram at h
  change (do
    let functions ← FunctionCode.ofStmts (topContext declared layout p) p.body
    let main ← mainCode (topContext declared layout p) p 0
    pure (⟨functions, main.1, p.endsInExpr, layout.extend p.body⟩ : UnitCode)) = .ok u at h
  cases hf : FunctionCode.ofStmts (topContext declared layout p) p.body with
  | error d => simp [hf, bind, Except.bind] at h
  | ok fs =>
    cases hm : mainCode (topContext declared layout p) p 0 with
    | error d => simp [hf, hm, bind, Except.bind] at h
    | ok r =>
      obtain ⟨main, d⟩ := r
      simp only [hf, hm, bind, Except.bind, pure, Except.pure, Except.ok.injEq] at h
      obtain ⟨rfl, hps⟩ := FunctionCode.ofStmts_ok hf
      obtain ⟨rfl, hp⟩ := mainCode_ok hm
      exact ⟨h.symm, hp, hps⟩

end UnitCode

end StackScript
