import StackScript.Proofs.Blame
import StackScript.Proofs.Generation

namespace StackScript

open Gen

def Gen.Neutral {α : Type} (g : Gen α) : Prop := ∀ a d, g 0 = .ok (a, d) → d = 0

theorem Gen.Neutral.bind {α β : Type} {g : Gen α} {f : α → Gen β} (hg : g.Neutral)
    (hf : ∀ a, (f a).Neutral) : (g >>= f).Neutral := by
  intro b d h
  obtain ⟨a, d', ha, h⟩ := bind_ok.mp h
  obtain rfl := hg a d' ha
  exact hf a b d h

theorem Gen.then_ok {α β : Type} {g : Gen α} {f : Gen β} {a : α} {d d' : Nat} {r : β × Nat}
    (hg : g d = .ok (a, d')) (hf : f d' = .ok r) : (g >>= fun _ => f) d = .ok r :=
  bind_ok.mpr ⟨a, d', hg, hf⟩

namespace Stmt

variable {c : Context}

/-- A statement leaves the stack as it finds it, whether it is checked or not. -/
theorem code_neutral (s : Stmt) : (s.code c).Neutral := fun _ _ h => (code_ok s h).2.2

theorem codeAll_neutral (ss : List Stmt) : (codeAll c ss).Neutral :=
  fun _ _ h => (codeAll_ok ss h).2.2

def testCode (c : Context) (cond : Expr) (at_ : Position) (label : Nat) : Gen (List Instr) := do
  let _ ← cond.code c
  emit at_ (.brIf label)

def passCode (c : Context) (block : List Stmt) (at_ : Position) (label : Nat) :
    Gen (List Instr) := do
  let _ ← codeAll c block
  emit at_ (.br label)

/-- The blocks of a statement that code is written for, each with the part of the statement that is
written before it. A definition has no code where it stands. -/
def arms (c : Context) : Stmt → List (Gen (List Instr) × List Stmt)
  | .ifElse span cond yes no =>
    let test := testCode c cond span.first 0
    [(test, no), (do let _ ← test; passCode c no span.first 1, yes)]
  | .ifElif span cond yes cond' yes' no =>
    let tests := do let _ ← testCode c cond span.first 0; testCode c cond' span.first 1
    let pass := do let _ ← tests; passCode c no span.first 2
    [(tests, no), (pass, yes), (do let _ ← pass; passCode c yes span.first 1, yes')]
  | .whileDo span cond body => [(testCode c (.unary cond.span .not cond) span.first 0, body)]
  | .pass _ | .init .. | .assign .. | .expr .. | .ret .. | .define .. => []

/-- The statement is one of these, or stands in a block of one of them. -/
inductive Among (t : Stmt) : List Stmt → Prop
  | here {ss : List Stmt} : Among t (t :: ss)
  | later {s : Stmt} {ss : List Stmt} : Among t ss → Among t (s :: ss)
  | inside {s : Stmt} {ss block : List Stmt} : block ∈ s.blocks → Among t block → Among t (s :: ss)

/-- Generation of these statements from depth `d` on comes to the statement `t`, at depth `e`.
All that is written before it has been written, what comes behind it may have no code. -/
inductive Visits (c : Context) (t : Stmt) (e : Nat) : List Stmt → Nat → Prop
  | here {ss : List Stmt} : Visits c t e (t :: ss) e
  | later {s : Stmt} {ss : List Stmt} {d d' : Nat} {is : List Instr} :
    s.code c d = .ok (is, d') → Visits c t e ss d' → Visits c t e (s :: ss) d
  | inside {s : Stmt} {ss block : List Stmt} {before : Gen (List Instr)} {d d' : Nat}
    {is : List Instr} :
    (before, block) ∈ s.arms c → before d = .ok (is, d') → Visits c t e block d' →
      Visits c t e (s :: ss) d

/-- The branch takes the word of the condition. A condition that prints leaves none. -/
theorem testCode_neutral {cond : Expr} {at_ : Position} {label : Nat} :
    (testCode c cond at_ label).Neutral := by
  intro is d h
  obtain ⟨_, d', hcond, h⟩ := bind_ok.mp h
  obtain ⟨hpops, h⟩ := emit_ok.mp h
  obtain ⟨-, -, rfl⟩ := Expr.usable_of_code hcond hpops
  cases h
  rfl

theorem passCode_neutral {block : List Stmt} {at_ : Position} {label : Nat} :
    (passCode c block at_ label).Neutral := by
  refine (codeAll_neutral block).bind fun _ is d h => ?_
  obtain ⟨-, h⟩ := emit_ok.mp h
  cases h
  rfl

/-- A condition has to leave its word for the branch, so the count is zero again before each
block. -/
theorem arms_neutral {s : Stmt} {before : Gen (List Instr)} {block : List Stmt}
    (h : (before, block) ∈ s.arms c) : before.Neutral := by
  cases s with
  | ifElse span cond yes no =>
    simp only [arms, List.mem_cons, Prod.mk.injEq, List.not_mem_nil, or_false] at h
    rcases h with ⟨rfl, -⟩ | ⟨rfl, -⟩
    · exact testCode_neutral
    · exact testCode_neutral.bind fun _ => passCode_neutral
  | ifElif span cond yes cond' yes' no =>
    simp only [arms, List.mem_cons, Prod.mk.injEq, List.not_mem_nil, or_false] at h
    have htests : (do let _ ← testCode c cond span.first 0; testCode c cond' span.first 1).Neutral :=
      testCode_neutral.bind fun _ => testCode_neutral
    rcases h with ⟨rfl, -⟩ | ⟨rfl, -⟩ | ⟨rfl, -⟩
    · exact htests
    · exact htests.bind fun _ => passCode_neutral
    · exact (htests.bind fun _ => passCode_neutral).bind fun _ => passCode_neutral
  | whileDo span cond body =>
    simp only [arms, List.mem_cons, Prod.mk.injEq, List.not_mem_nil, or_false] at h
    rw [h.1]
    exact testCode_neutral
  | pass | init | assign | expr | ret | define => cases h

/-- Every statement that generation comes to is met with an empty stack. -/
theorem Visits.depth_eq_zero {t : Stmt} {ss : List Stmt} {d e : Nat} (h : Visits c t e ss d)
    (hd : d = 0) : e = 0 := by
  induction h with
  | here => exact hd
  | later hs _ ih =>
    subst hd
    exact ih (code_neutral _ _ _ hs)
  | inside harm hbefore _ ih =>
    subst hd
    exact ih (arms_neutral harm _ _ hbefore)

/-- The code of a statement goes through each of its blocks. -/
theorem exists_arm_of_code {s : Stmt} {block : List Stmt} {d : Nat} {r : List Instr × Nat}
    (hb : block ∈ s.blocks) (h : s.code c d = .ok r) :
    ∃ before is d', (before, block) ∈ s.arms c ∧ before d = .ok (is, d') ∧
      ∃ r', codeAll c block d' = .ok r' := by
  cases s with
  | ifElse span cond yes no =>
    simp only [code, bind_ok] at h
    obtain ⟨_, d₁, hcond, _, d₂, hbr, _, d₃, hno, _, d₄, hleave, _, d₅, hyes, -⟩ := h
    have htest : testCode c cond span.first 0 d = .ok (_, d₂) := then_ok hcond hbr
    have hpass : passCode c no span.first 1 d₂ = .ok (_, d₄) := then_ok hno hleave
    simp only [blocks, List.mem_cons, List.not_mem_nil, or_false] at hb
    rcases hb with rfl | rfl
    · exact ⟨_, _, _, .tail _ (.head _), then_ok htest hpass, _, hyes⟩
    · exact ⟨_, _, _, .head _, htest, _, hno⟩
  | ifElif span cond yes cond' yes' no =>
    simp only [code, bind_ok] at h
    obtain ⟨_, d₁, hcond, _, d₂, hbr, _, d₃, hcond', _, d₄, hbr', _, d₅, hno, _, d₆, hleave, _, d₇,
      hyes, _, d₈, hleave', _, d₉, hyes', -⟩ := h
    have htest : testCode c cond span.first 0 d = .ok (_, d₂) := then_ok hcond hbr
    have htest' : testCode c cond' span.first 1 d₂ = .ok (_, d₄) := then_ok hcond' hbr'
    have hpass : passCode c no span.first 2 d₄ = .ok (_, d₆) := then_ok hno hleave
    have hpass' : passCode c yes span.first 1 d₆ = .ok (_, d₈) := then_ok hyes hleave'
    have htests := then_ok htest htest'
    have hskip := then_ok htests hpass
    simp only [blocks, List.mem_cons, List.not_mem_nil, or_false] at hb
    rcases hb with rfl | rfl | rfl
    · exact ⟨_, _, _, .tail _ (.head _), hskip, _, hyes⟩
    · exact ⟨_, _, _, .tail _ (.tail _ (.head _)), then_ok hskip hpass', _, hyes'⟩
    · exact ⟨_, _, _, .head _, htests, _, hno⟩
  | whileDo span cond body =>
    simp only [code, bind_ok] at h
    obtain ⟨_, d₁, hguard, _, d₂, hskip, _, d₃, hbody, -⟩ := h
    simp only [blocks, List.mem_cons, List.not_mem_nil, or_false] at hb
    subst hb
    exact ⟨_, _, _, .head _, then_ok hguard hskip, _, hbody⟩
  | pass | init | assign | expr | ret | define => cases hb

/-- Statements that have code have been gone through to the last of their blocks. -/
theorem Among.visits {t : Stmt} {ss : List Stmt} (h : Among t ss) {d : Nat}
    {r : List Instr × Nat} (hc : codeAll c ss d = .ok r) :
    ∃ e, Visits c t e ss d ∧ ∃ r', t.code c e = .ok r' := by
  induction h generalizing d r with
  | here =>
    obtain ⟨_, _, hfirst, _⟩ := bind_ok.mp hc
    exact ⟨d, .here, _, hfirst⟩
  | later _ ih =>
    obtain ⟨_, _, hfirst, hrest⟩ := bind_ok.mp hc
    obtain ⟨_, _, hrest, _⟩ := bind_ok.mp hrest
    obtain ⟨e, hvisits, hcode⟩ := ih hrest
    exact ⟨e, .later hfirst hvisits, hcode⟩
  | inside hb _ ih =>
    obtain ⟨_, _, hfirst, _⟩ := bind_ok.mp hc
    obtain ⟨_, _, _, harm, hbefore, _, hblock⟩ := exists_arm_of_code hb hfirst
    obtain ⟨e, hvisits, hcode⟩ := ih hblock
    exact ⟨e, .inside harm hbefore hvisits, hcode⟩

theorem Placed.block {s : Stmt} (h : s.Placed c) {block : List Stmt} (hb : block ∈ s.blocks) :
    PlacedAll c block := by
  cases s with
  | ifElse span cond yes no =>
    simp only [blocks, List.mem_cons, List.not_mem_nil, or_false] at hb
    obtain ⟨-, hyes, hno⟩ := h
    rcases hb with rfl | rfl
    · exact hyes
    · exact hno
  | ifElif span cond yes cond' yes' no =>
    simp only [blocks, List.mem_cons, List.not_mem_nil, or_false] at hb
    obtain ⟨-, hyes, -, hyes', hno⟩ := h
    rcases hb with rfl | rfl | rfl
    · exact hyes
    · exact hyes'
    · exact hno
  | whileDo span cond body =>
    obtain rfl := List.mem_singleton.mp hb
    exact h.2
  | pass | init | assign | expr | ret | define => cases hb

theorem Among.placed {t : Stmt} {ss : List Stmt} (h : Among t ss) (hp : PlacedAll c ss) :
    t.Placed c := by
  induction h with
  | here => exact hp.1
  | later _ ih => exact ih hp.2
  | inside hb _ ih => exact ih (hp.1.block hb)

end Stmt

mutual

theorem Expr.spanned_any (e : Expr) : e.Spanned fun _ => True := by
  cases e with
  | noneLit | boolLit | intLit | var => trivial
  | unary _ _ operand => exact ⟨trivial, operand.spanned_any⟩
  | binary _ _ left right => exact ⟨trivial, left.spanned_any, right.spanned_any⟩
  | call _ _ args => exact ⟨trivial, Expr.spannedAll_any args⟩
  | print _ arg => exact ⟨trivial, arg.spanned_any⟩
termination_by structural e

theorem Expr.spannedAll_any (es : List Expr) : Expr.SpannedAll (fun _ => True) es := by
  cases es with
  | nil => trivial
  | cons e es => exact ⟨e.spanned_any, Expr.spannedAll_any es⟩
termination_by structural es

end

mutual

theorem Stmt.spanned_any (s : Stmt) : s.Spanned fun _ => True := by
  cases s with
  | pass => trivial
  | init _ _ _ value | assign _ _ value | expr _ value | ret _ value =>
    exact ⟨trivial, value.spanned_any⟩
  | define _ _ _ _ body => exact ⟨trivial, fun _ _ => trivial, Stmt.spannedAll_any body⟩
  | ifElse _ cond yes no =>
    exact ⟨trivial, cond.spanned_any, Stmt.spannedAll_any yes, Stmt.spannedAll_any no⟩
  | ifElif _ cond yes cond' yes' no =>
    exact ⟨trivial, cond.spanned_any, Stmt.spannedAll_any yes, cond'.spanned_any,
      Stmt.spannedAll_any yes', Stmt.spannedAll_any no⟩
  | whileDo _ cond body => exact ⟨trivial, cond.spanned_any, Stmt.spannedAll_any body⟩
termination_by structural s

theorem Stmt.spannedAll_any (ss : List Stmt) : Stmt.SpannedAll (fun _ => True) ss := by
  cases ss with
  | nil => trivial
  | cons s ss => exact ⟨s.spanned_any, Stmt.spannedAll_any ss⟩
termination_by structural ss

end

/-- Generation keeps the count of words on the stack, for every program and whatever is declared.

It never fails because the count at the end of a function or of the entry is off. From an empty
stack on, each statement that it comes to, at whatever depth of blocks, is met with an empty stack
and leaves one if it has code; and where all of the statements have code, it has come to each of
them. An expression leaves one word, less one for each print in it. A print below the root of an
expression statement has no code: generation of the statement fails, and so does that of a program
that has it at the top level, in a function, or in blocks there. (A definition in a block has no
code where it stands, so nothing is generated of its body.) -/
theorem UnitCode.generation_keeps_stack_neutral (declared : Layer) (layout : Layout) (p : Program) :
    (∀ context depth expected at_,
      ofProgram declared layout p ≠ .error ⟨.unbalancedStack context depth expected, at_⟩) ∧
    (∀ c stmts,
      (∀ t e, Stmt.Visits c t e stmts 0 → e = 0 ∧ ∀ is d, t.code c e = .ok (is, d) → d = 0) ∧
      (∀ r t, Stmt.codeAll c stmts 0 = .ok r → t.Among stmts →
        Stmt.Visits c t 0 stmts 0 ∧ ∃ is, t.code c 0 = .ok (is, 0))) ∧
    (∀ c (e : Expr) d is d', e.code c d = .ok (is, d') →
      e.prints ≤ d + 1 ∧ d' = d + 1 - e.prints) ∧
    ∀ span value, ¬ value.PrintsAlone →
      (∀ c r, (Stmt.expr span value).code c 0 ≠ .ok r) ∧
      ((Stmt.expr span value).Among p.body ∨
          (∃ at_ name params result body, .define at_ name params result body ∈ p.body ∧
            (Stmt.expr span value).Among body) →
        ∀ u, ofProgram declared layout p ≠ .ok u) := by
  refine ⟨fun context depth expected at_ h => ?_, fun c stmts => ⟨fun t e h => ?_, ?_⟩,
    fun c e d is d' h => ?_, fun span value hprints => ⟨fun c r h => ?_, ?_⟩⟩
  · have hblames := ofProgram_blames (Stmt.spannedAll_any p.body) declared layout _ h
    exact absurd hblames.balanced (by simp [Cause.isUnbalanced])
  · obtain rfl := h.depth_eq_zero rfl
    exact ⟨rfl, t.code_neutral⟩
  · rintro r t hcode ht
    obtain ⟨e, hvisits, ⟨is, d⟩, hstmt⟩ := ht.visits hcode
    obtain rfl := hvisits.depth_eq_zero rfl
    obtain rfl := t.code_neutral is d hstmt
    exact ⟨hvisits, is, hstmt⟩
  · obtain ⟨-, -, hd⟩ := e.code_ok h
    omega
  · obtain ⟨-, hp, -⟩ := Stmt.code_ok _ h
    exact hprints hp.alone
  · intro hwhere u h
    obtain ⟨-, htop, hfunctions⟩ := ofProgram_ok h
    rcases hwhere with ht | ⟨_, _, _, _, _, hm, ht⟩
    · exact hprints (ht.placed htop).alone
    · exact hprints (ht.placed (hfunctions _ _ _ _ _ hm)).alone

def Expr.printTwo : Expr := .print .nowhere (.intLit .nowhere 2)

def Expr.addPrinted : Expr := .binary .nowhere .add (.intLit .nowhere 1) .printTwo

def Stmt.forever (value : Expr) : Stmt :=
  .whileDo .nowhere (.boolLit .nowhere true) [.expr .nowhere value]

/-- Above another word the sum has code, as the addition takes that word instead. As a statement in
a loop of a function it has none, while the print alone is met and left with an empty stack. -/
theorem UnitCode.generation_keeps_stack_neutral_in_loop :
    (∃ is d, Expr.addPrinted.code (topContext .empty .empty ⟨[]⟩) 1 = .ok (is, d) ∧
      d = 1 + 1 - Expr.addPrinted.prints) ∧
    (∀ u, ofProgram .empty .empty
      ⟨[.define .nowhere "f" [] .int [.forever .addPrinted]]⟩ ≠ .ok u) ∧
    Stmt.Visits (topContext .empty .empty ⟨[]⟩) (.expr .nowhere .printTwo) 0
      [.forever .printTwo] 0 := by
  obtain ⟨-, hstmts, hexprs, hprints⟩ := generation_keeps_stack_neutral .empty .empty
    ⟨[.define .nowhere "f" [] .int [.forever .addPrinted]]⟩
  refine ⟨?_, ?_, ?_⟩
  · obtain ⟨is, hcode⟩ : ∃ is, Expr.addPrinted.code (topContext .empty .empty ⟨[]⟩) 1 =
        .ok (is, 1) := ⟨_, rfl⟩
    exact ⟨is, 1, hcode, (hexprs _ _ _ _ _ hcode).2⟩
  · refine (hprints .nowhere .addPrinted (by decide)).2 (.inr ⟨_, _, _, _, _, .head _, ?_⟩)
    exact .inside (.head _) .here
  · exact ((hstmts _ _).2 _ _ rfl (.inside (.head _) .here)).1

end StackScript
