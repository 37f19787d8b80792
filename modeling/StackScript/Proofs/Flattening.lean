import StackScript.Machine.Run
import StackScript.Proofs.RoundTrip
import StackScript.Proofs.Running
import StackScript.Proofs.Validation

namespace StackScript.Machine

variable {m : Module} {limit : Nat}

namespace Progress

def after (m : Module) (limit n : Nat) : Progress → Progress
  | running s => advance m limit n s
  | done o => done o

theorem after_add (a b : Nat) (p : Progress) :
    p.after m limit (a + b) = (p.after m limit a).after m limit b := by
  cases p with
  | running s =>
    change advance m limit (a + b) s = _
    rw [advance_add]
    change _ = (advance m limit a s).after m limit b
    cases advance m limit a s <;> rfl
  | done o => rfl

@[simp]
theorem after_zero (p : Progress) : p.after m limit 0 = p := by cases p <;> rfl

theorem after_succ (n : Nat) (s : State) :
    (running s).after m limit (n + 1) = (step m limit s).after m limit n := by
  change advance m limit (n + 1) s = _
  simp only [advance]
  cases step m limit s <;> rfl

end Progress

def Leads (m : Module) (limit : Nat) (p q : Progress) : Prop := ∃ n, p.after m limit n = q

namespace Leads

theorem refl (p : Progress) : Leads m limit p p := ⟨0, p.after_zero⟩

theorem of_eq {p q : Progress} (h : p = q) : Leads m limit p q := h ▸ refl p

theorem trans {p q r : Progress} (h : Leads m limit p q) (h' : Leads m limit q r) :
    Leads m limit p r := by
  obtain ⟨a, rfl⟩ := h
  obtain ⟨b, rfl⟩ := h'
  exact ⟨a + b, p.after_add a b⟩

theorem of_step {s : State} {p : Progress} (h : step m limit s = p) :
    Leads m limit (.running s) p :=
  ⟨1, by rw [Progress.after_succ, Progress.after_zero, h]⟩

/-- A run that ends still ends from where it leads, and not later. -/
theorem ends {p q : Progress} (h : Leads m limit p q) {n : Nat} {o : Outcome}
    (hn : p.after m limit n = .done o) : ∃ k ≤ n, q.after m limit k = .done o := by
  obtain ⟨d, rfl⟩ := h
  obtain hd | hd := Nat.le_total d n
  · obtain ⟨k, rfl⟩ := Nat.exists_eq_add_of_le hd
    exact ⟨k, Nat.le_add_left k d, by rw [← Progress.after_add, hn]⟩
  · obtain ⟨k, rfl⟩ := Nat.exists_eq_add_of_le hd
    refine ⟨0, Nat.zero_le n, ?_⟩
    rw [Progress.after_zero, Progress.after_add, hn]
    rfl

end Leads

namespace Config

def state (c : Config) (results : Nat) (labels : List Label) (callers : List Frame) : State :=
  ⟨c.memory, c.host, ⟨results, c.locals, c.stack, labels⟩, callers⟩

/-- Where the machine is when code inside of these labels has ended so. -/
def leaves (c : Config) (results : Nat) (labels : List Label) (callers : List Frame) :
    Exit → Progress
  | .through => .running (c.state results labels callers)
  | .branch depth =>
    jump c.memory c.host ⟨results, c.locals, c.stack, labels⟩ callers depth
  | .returned => leave c.memory c.host ⟨results, c.locals, c.stack, labels⟩ callers
  | .trapped t => .done ⟨.error t, c.memory, c.host⟩

def proceeds (c : Config) (results : Nat) (labels : List Label) (callers : List Frame) :
    Except Trap Config → Progress
  | .ok c' => c'.leaves results labels callers .through
  | .error t => c.leaves results labels callers (.trapped t)

/-- Where the machine is when a call has ended with a result. -/
def settle (c : Config) (callers : List Frame) : Except Trap (Option Word) → Progress
  | .error t => .done ⟨.error t, c.memory, c.host⟩
  | .ok r =>
    match callers with
    | [] => .done ⟨.ok r, c.memory, c.host⟩
    | caller :: callers =>
      .running ⟨c.memory, c.host, { caller with stack := r.toList ++ caller.stack }, callers⟩

theorem leave_eq_settle (c : Config) (results : Nat) (labels : List Label)
    (callers : List Frame) :
    leave c.memory c.host ⟨results, c.locals, c.stack, labels⟩ callers =
      c.settle callers (resultOf results c.stack) := by
  obtain ⟨memory, host, locals, stack⟩ := c
  cases results with
  | zero => cases callers <;> rfl
  | succ results =>
    cases stack with
    | nil => rfl
    | cons top stack => cases callers <;> rfl

/-- A branch over a label goes where the branch inside it goes. -/
theorem leaves_branch_succ (c : Config) {results depth : Nat} {l : Label} {labels : List Label}
    {callers : List Frame} (h : depth < labels.length) :
    c.leaves results (l :: labels) callers (.branch (depth + 1)) =
      c.leaves results labels callers (.branch depth) := by
  simp only [leaves, jump, Frame.branch, List.drop_succ_cons]
  rw [List.drop_eq_getElem_cons h]
  cases labels[depth].kind <;> simp only [leave_eq_settle]

/-- The code that was left behind in the innermost label does not matter, unless it comes next. -/
theorem leaves_code (c : Config) {results : Nat} {l : Label} (code : List Instr)
    {outer : List Label} {callers : List Frame} {e : Exit} (he : e ≠ .through) :
    c.leaves results ({ l with code } :: outer) callers e =
      c.leaves results (l :: outer) callers e := by
  obtain ⟨kind, left, height⟩ := l
  match e with
  | .through => exact absurd rfl he
  | .branch 0 =>
    cases kind with
    | body => exact (leave_eq_settle ..).trans (leave_eq_settle ..).symm
    | block | loop => rfl
  | .branch (depth + 1) =>
    simp only [leaves, jump, Frame.branch, List.drop_succ_cons, leave_eq_settle]
  | .returned => exact (leave_eq_settle ..).trans (leave_eq_settle ..).symm
  | .trapped t => rfl

/-- The end of the body of a block or a loop, unless it is a branch there. -/
theorem leaves_outward (c : Config) {results height : Nat} {kind : LabelKind}
    {labels : List Label} {callers : List Frame} {e : Exit} (hk : kind ≠ .body)
    (hne : e ≠ .branch 0) (he : ∀ depth, e = .branch depth → depth < labels.length + 1) :
    Leads m limit (c.leaves results (⟨kind, [], height⟩ :: labels) callers e)
      (c.leaves results labels callers e.outward) := by
  match e with
  | .through =>
    refine .of_step ?_
    cases kind with
    | body => exact absurd rfl hk
    | block | loop => rfl
  | .branch 0 => exact absurd rfl hne
  | .branch (depth + 1) =>
    exact .of_eq (c.leaves_branch_succ (Nat.lt_of_succ_lt_succ (he _ rfl)))
  | .returned => exact .of_eq ((leave_eq_settle ..).trans (leave_eq_settle ..).symm)
  | .trapped t => exact .refl _

theorem leaves_block (c : Config) (results height : Nat) (labels : List Label)
    (callers : List Frame) :
    c.leaves results (⟨.block, [], height⟩ :: labels) callers (.branch 0) =
      .running ((c.cut height).state results labels callers) := rfl

theorem leaves_loop (c : Config) (results height : Nat) (body : List Instr) (labels : List Label)
    (callers : List Frame) :
    c.leaves results (⟨.loop body, [], height⟩ :: labels) callers (.branch 0) =
      .running ((c.cut height).state results (⟨.loop body, body, height⟩ :: labels) callers) := rfl

/-- The end of the body of a function. -/
theorem leaves_body (c : Config) {results height : Nat} {callers : List Frame} {e : Exit}
    {r : Except Trap (Option Word)} (he : e.result? results c.stack = some r) :
    Leads m limit (c.leaves results [⟨.body, [], height⟩] callers e) (c.settle callers r) := by
  match e with
  | .through =>
    cases he
    exact .of_step (c.leave_eq_settle ..)
  | .branch 0 | .returned =>
    cases he
    exact .of_eq (c.leave_eq_settle ..)
  | .branch (_ + 1) => cases he
  | .trapped t =>
    cases he
    exact .refl _

end Config

/-- An instruction that computes does nothing but that. -/
theorem exec_computed {c : Config} {i : Instr} {r : Except Trap Config}
    (h : c.compute? i = some r) (results : Nat) (l : Label) (outer : List Label)
    (callers : List Frame) :
    exec m limit c.memory c.host ⟨results, c.locals, c.stack, l :: outer⟩ callers i =
      c.proceeds results (l :: outer) callers r := by
  obtain ⟨memory, host, locals, stack⟩ := c
  cases i with
  | const value | address offset name | nop =>
    cases h
    rfl
  | num op =>
    cases h
    match stack with
    | [] | [_] => rfl
    | right :: left :: stack =>
      simp only [exec]
      cases op.apply left right <;> rfl
  | load =>
    cases h
    cases stack with
    | nil => rfl
    | cons address stack =>
      simp only [exec]
      cases memory.load? address <;> rfl
  | store =>
    cases h
    match stack with
    | [] | [_] => rfl
    | value :: address :: stack =>
      simp only [exec]
      cases memory.store? address value <;> rfl
  | localGet name =>
    cases h
    simp only [exec]
    cases locals.get? name <;> rfl
  | localSet name | drop =>
    cases h
    cases stack <;> rfl
  | call | ret | br | brIf | block | loop => cases h

/-- Where the machine is when it comes to a task, inside of a label that holds what comes behind. -/
def Task.start (m : Module) (limit : Nat) (c : Config) (results : Nat) (l : Label)
    (outer : List Label) (callers : List Frame) : Task → Progress
  | .one i => exec m limit c.memory c.host ⟨results, c.locals, c.stack, l :: outer⟩ callers i
  | .all code => .running (c.state results ({ l with code := code ++ l.code } :: outer) callers)
  | .rounds body height =>
    .running (c.state results (⟨.loop body, body, height⟩ :: l :: outer) callers)
  | .invoke f args =>
    Machine.invoke limit c.memory c.host ⟨results, c.locals, c.stack, l :: outer⟩ callers f args

section

variable {c c' : Config} {results : Nat} {l : Label} {outer : List Label} {callers : List Frame}

/-- A body starts as the whole code of its label. -/
theorem start_body (kind : LabelKind) (body : List Instr) (height : Nat) :
    Task.start m limit c results ⟨kind, [], height⟩ outer callers (.all body) =
      .running (c.state results (⟨kind, body, height⟩ :: outer) callers) := by
  simp only [Task.start, List.append_nil]

theorem step_cons (i : Instr) (code : List Instr) :
    step m limit (c.state results ({ l with code := i :: code ++ l.code } :: outer) callers) =
      Task.start m limit c results { l with code := code ++ l.code } outer callers (.one i) :=
  rfl

theorem start_call {name : String} {params arity : Nat} {f : Function}
    (hf : m.function? name = some f) (hs : params ≤ c.stack.length) :
    Task.start m limit c results l outer callers (.one (.call name params arity)) =
      Task.start m limit { c with stack := c.stack.drop params } results l outer callers
        (.invoke f (c.stack.take params).reverse) := by
  simp only [Task.start, exec, hf, if_neg (Nat.not_lt.mpr hs)]

theorem start_invoke {f : Function} {args : List Word} (hf : f.imported = none)
    (hl : callers.length + 1 < limit) :
    Task.start m limit c results l outer callers (.invoke f args) =
      Task.start m limit (c.callee f args) f.results ⟨.body, [], 0⟩ []
        (⟨results, c.locals, c.stack, l :: outer⟩ :: callers) (.all f.body) := by
  rw [start_body]
  simp only [Task.start, invoke, hf, if_pos hl]
  rfl

end

/-- What a task does the machine does, by induction on the derivation. Each kind of label turns the
exit of its body into the exit that the body around it sees. -/
theorem Runs.leads (hm : m.Within) {live : Nat} {task : Task} {c c' : Config} {e : Exit}
    (h : Runs m limit live task c e c') {results : Nat} {l : Label} {outer : List Label}
    {callers : List Frame} (ht : task.Within (outer.length + 1)) (hl : callers.length + 1 = live) :
    Leads m limit (task.start m limit c results l outer callers)
      (c'.leaves results (l :: outer) callers e) := by
  induction h generalizing results l outer callers with
  | computed hc => exact .of_eq (exec_computed hc ..)
  | failed hc => exact .of_eq (exec_computed hc ..)
  | ret | br => exact .refl _
  | brIf hs hv =>
    refine .of_eq ?_
    simp only [Task.start, exec, hs, if_neg hv]
    rfl
  | brIfNot hs =>
    refine .of_eq ?_
    simp only [Task.start, exec, hs, if_pos]
    rfl
  | brIfShort hs =>
    refine .of_eq ?_
    simp only [Task.start, exec, hs]
    rfl
  | @block live body c c' e h hne ih =>
    have hb := @ih results ⟨.block, [], c.stack.length⟩ (l :: outer) callers ht hl
    rw [start_body] at hb
    exact hb.trans (c'.leaves_outward LabelKind.noConfusion hne
      fun depth hd => h.branch_lt hm ht hd)
  | @blockLeft live body c c' h ih =>
    have hb := @ih results ⟨.block, [], c.stack.length⟩ (l :: outer) callers ht hl
    rw [start_body, Config.leaves_block] at hb
    exact hb
  | loop h ih => exact ih ht hl
  | @round live height body c c' e h hne ih =>
    have hb := @ih results ⟨.loop body, [], height⟩ (l :: outer) callers ht hl
    rw [start_body] at hb
    exact hb.trans (c'.leaves_outward LabelKind.noConfusion hne
      fun depth hd => h.branch_lt hm ht hd)
  | @again live height body c c' c'' e h h' ih ih' =>
    have hb := @ih results ⟨.loop body, [], height⟩ (l :: outer) callers ht hl
    rw [start_body, Config.leaves_loop] at hb
    exact hb.trans (ih' ht hl)
  | nil => exact .refl _
  | next h h' ih ih' =>
    exact (Leads.of_step (step_cons ..)).trans ((ih ht.1 hl).trans (ih' ht.2 hl))
  | @stop live i code c c' e h hne ih =>
    have hi := @ih results { l with code := code ++ l.code } outer callers ht.1 hl
    rw [c'.leaves_code _ hne] at hi
    exact (Leads.of_step (step_cons ..)).trans hi
  | unknown hf =>
    refine .of_eq ?_
    simp only [Task.start, exec, hf]
    rfl
  | short hf hs =>
    refine .of_eq ?_
    simp only [Task.start, exec, hf, if_pos hs]
    rfl
  | call hf hs h ih =>
    rw [start_call hf hs]
    exact ih (hm.of_function? hf) hl
  | unlinked hf hr =>
    refine .of_eq ?_
    simp only [Task.start, invoke, hf, hr]
    rfl
  | served hf hr hc | refused hf hr hc =>
    refine .of_eq ?_
    simp only [Task.start, invoke, hf, hr, hc]
    rfl
  | exhausted hf hlim =>
    refine .of_eq ?_
    simp only [Task.start, invoke, hf, hl, if_neg (Nat.not_lt.mpr hlim)]
    rfl
  | returns hf hlim h hr ih | traps hf hlim h hr ih =>
    rw [start_invoke hf (hl ▸ hlim)]
    exact (ih ht (congrArg _ hl)).trans (Config.leaves_body _ hr)

/-- Code that is not empty gets to its end from behind its first step. -/
theorem Runs.leads_cons (hm : m.Within) {live : Nat} {i : Instr} {code : List Instr}
    {c c' : Config} {e : Exit} (h : Runs m limit live (.all (i :: code)) c e c') {results : Nat}
    {l : Label} {outer : List Label} {callers : List Frame}
    (ht : Instr.WithinAll (outer.length + 1) (i :: code)) (hl : callers.length + 1 = live) :
    Leads m limit
      (Task.start m limit c results { l with code := code ++ l.code } outer callers (.one i))
      (c'.leaves results (l :: outer) callers e) := by
  cases h with
  | next h h' => exact (h.leads hm ht.1 hl).trans (h'.leads hm ht.2 hl)
  | stop h hne =>
    rw [← c'.leaves_code (code ++ l.code) hne]
    exact h.leads hm ht.1 hl

def Finishes (m : Module) (limit n : Nat) (task : Task) : Prop :=
  ∀ (c : Config) (results : Nat) (l : Label) (outer : List Label) (callers : List Frame)
    (o : Outcome), task.Within (outer.length + 1) →
    (task.start m limit c results l outer callers).after m limit n = .done o →
    ∃ e c', Runs m limit (callers.length + 1) task c e c'

/-- The body of a function has a result, since no branch leaves it further. -/
theorem Runs.exists_result {live : Nat} {code : List Instr} {c c' : Config} {e : Exit}
    (hm : m.Within) (h : Runs m limit live (.all code) c e c') (hc : Instr.WithinAll 1 code)
    (results : Nat) : ∃ r, e.result? results c'.stack = some r := by
  match e with
  | .through | .branch 0 | .returned | .trapped _ => exact ⟨_, rfl⟩
  | .branch (depth + 1) =>
    have hd := h.branch_lt hm (show Task.Within 1 (.all code) from hc) rfl
    omega

/-- A call does something if the body it may come to does. -/
theorem exists_runs_invoke (hm : m.Within) {live : Nat} {f : Function} {args : List Word}
    {c : Config} (hw : Instr.WithinAll 1 f.body)
    (hbody : f.imported = none → live < limit →
      ∃ e c', Runs m limit (live + 1) (.all f.body) (c.callee f args) e c') :
    ∃ e c', Runs m limit live (.invoke f args) c e c' := by
  cases hf : f.imported with
  | some names =>
    obtain ⟨module, field⟩ := names
    cases hr : HostFunction.resolve? module field with
    | none => exact ⟨_, _, .unlinked hf hr⟩
    | some function =>
      cases hc : c.host.call function args with
      | ok host => exact ⟨_, _, .served hf hr hc⟩
      | error t => exact ⟨_, _, .refused hf hr hc⟩
  | none =>
    by_cases hl : live < limit
    · obtain ⟨e, c', h⟩ := hbody hf hl
      obtain ⟨r | r, hr⟩ := h.exists_result hm hw f.results
      · exact ⟨_, _, .traps hf hl h hr⟩
      · exact ⟨_, _, .returns hf hl h hr⟩
    · exact ⟨_, _, .exhausted hf (Nat.le_of_not_lt hl)⟩

theorem finishes_invoke (hm : m.Within) {n : Nat} (hall : ∀ code, Finishes m limit n (.all code))
    (f : Function) (args : List Word) : Finishes m limit n (.invoke f args) := by
  intro c results l outer callers o ht hn
  refine exists_runs_invoke hm ht fun hf hl => ?_
  rw [start_invoke hf hl] at hn
  exact hall _ _ _ _ _ _ _ ht hn

/-- Each round of a loop whose body is not empty takes a step, so that the run gets shorter. -/
theorem finishes_rounds (hm : m.Within) {n : Nat}
    (hall : ∀ k ≤ n, ∀ code, Finishes m limit k (.all code)) (body : List Instr) (height : Nat) :
    Finishes m limit n (.rounds body height) := by
  induction n using Nat.strongRecOn with
  | ind n ih =>
    intro c results l outer callers o ht hn
    match body, n with
    | _, 0 => cases hn
    | [], _ => exact ⟨_, _, .round .nil Exit.noConfusion⟩
    | i :: body, n + 1 =>
      have hb : (Task.start m limit c results ⟨.loop (i :: body), [], height⟩ (l :: outer) callers
          (.all (i :: body))).after m limit (n + 1) = .done o := by
        rw [start_body]
        exact hn
      obtain ⟨e, c', h⟩ := hall (n + 1) (Nat.le_refl _) _ _ _ _ _ _ _ ht hb
      by_cases he : e = .branch 0
      · subst he
        change (Progress.running _).after m limit (n + 1) = _ at hb
        rw [Progress.after_succ, step_cons] at hb
        have hw : Instr.WithinAll ((l :: outer).length + 1) (i :: body) := ht
        obtain ⟨k, hk, hend⟩ := (h.leads_cons hm hw rfl).ends hb
        have hlt := Nat.lt_succ_of_le hk
        rw [Config.leaves_loop] at hend
        obtain ⟨e, c'', h'⟩ := ih k hlt (fun j hj => hall j (Nat.le_trans hj (Nat.le_of_lt hlt)))
          (c'.cut height) results l outer callers o ht hend
        exact ⟨_, _, .again h h'⟩
      · exact ⟨_, _, .round h he⟩

theorem finishes_one (hm : m.Within) {n : Nat}
    (hall : ∀ k ≤ n, ∀ code, Finishes m limit k (.all code)) (i : Instr) :
    Finishes m limit n (.one i) := by
  intro c results l outer callers o ht hn
  cases hc : c.compute? i with
  | some r =>
    cases r with
    | ok c' => exact ⟨_, _, .computed hc⟩
    | error t => exact ⟨_, _, .failed hc⟩
  | none =>
    cases i with
    | call name params arity =>
      cases hf : m.function? name with
      | none => exact ⟨_, _, .unknown hf⟩
      | some f =>
        by_cases hs : c.stack.length < params
        · exact ⟨_, _, .short hf hs⟩
        · have hs := Nat.le_of_not_lt hs
          rw [start_call hf hs] at hn
          obtain ⟨e, c', h⟩ := finishes_invoke hm (hall n (Nat.le_refl n)) f _ _ _ _ _ _ _
            (hm.of_function? hf) hn
          exact ⟨_, _, .call hf hs h⟩
    | ret => exact ⟨_, _, .ret⟩
    | br depth => exact ⟨_, _, .br⟩
    | brIf depth =>
      cases hs : c.stack with
      | nil => exact ⟨_, _, .brIfShort hs⟩
      | cons value stack =>
        by_cases hv : value = 0
        · subst hv
          exact ⟨_, _, .brIfNot hs⟩
        · exact ⟨_, _, .brIf hs hv⟩
    | block body =>
      have hb : (Task.start m limit c results ⟨.block, [], c.stack.length⟩ (l :: outer) callers
          (.all body)).after m limit n = .done o := by
        rw [start_body]
        exact hn
      obtain ⟨e, c', h⟩ := hall n (Nat.le_refl n) _ _ _ _ _ _ _ ht hb
      by_cases he : e = .branch 0
      · subst he
        exact ⟨_, _, .blockLeft h⟩
      · exact ⟨_, _, .block h he⟩
    | loop body =>
      obtain ⟨e, c', h⟩ := finishes_rounds hm hall body c.stack.length _ _ _ _ _ _ ht hn
      exact ⟨_, _, .loop h⟩
    | _ => cases hc

/-- A run that ends has done what a tree does, by induction on its number of steps. -/
theorem finishes_all (hm : m.Within) (n : Nat) (code : List Instr) :
    Finishes m limit n (.all code) := by
  induction n using Nat.strongRecOn generalizing code with
  | ind n ih =>
    intro c results l outer callers o ht hn
    match code, n with
    | [], _ => exact ⟨_, _, .nil⟩
    | i :: code, 0 => cases hn
    | i :: code, n + 1 =>
      change (Progress.running _).after m limit (n + 1) = _ at hn
      rw [Progress.after_succ, step_cons] at hn
      obtain ⟨e, c', h⟩ := finishes_one hm (fun k hk => ih k (Nat.lt_succ_of_le hk)) i
        _ _ _ _ _ _ ht.1 hn
      by_cases he : e = .through
      · subst he
        obtain ⟨k, hk, hend⟩ := (h.leads hm ht.1 rfl).ends hn
        obtain ⟨e, c'', h'⟩ := ih k (Nat.lt_succ_of_le hk) code _ _ _ _ _ _ ht.2 hend
        exact ⟨_, _, .next h h'⟩
      · exact ⟨_, _, .stop h he⟩

section

variable {memory : Memory} {host : Host} {entry : Function}

theorem enter_eq_start (hf : entry.imported = none) (hl : 0 < limit) :
    enter limit memory host entry =
      Task.start m limit (Config.callee ⟨memory, host, .empty, []⟩ entry []) entry.results
        ⟨.body, [], 0⟩ [] [] (.all entry.body) := by
  rw [start_body]
  simp only [enter, hf, if_pos hl]
  rfl

/-- What the entry does as a tree the machine does. -/
theorem Runs.enter_leads (hm : m.Within) (hw : Instr.WithinAll 1 entry.body) {e : Exit}
    {c : Config} (h : Runs m limit 0 (.invoke entry []) ⟨memory, host, .empty, []⟩ e c) :
    Leads m limit (enter limit memory host entry) (.done (c.outcome e)) := by
  have ht : Task.Within (([] : List Label).length + 1) (.all entry.body) := hw
  cases h with
  | unlinked hf hr =>
    refine .of_eq ?_
    simp only [enter, hf, hr]
    rfl
  | served hf hr hc | refused hf hr hc =>
    refine .of_eq ?_
    simp only [enter, hf, hr, hc]
    rfl
  | exhausted hf hl =>
    refine .of_eq ?_
    simp only [enter, hf, if_neg (Nat.not_lt.mpr hl)]
    rfl
  | @returns _ _ _ _ _ _ result hf hl h hr =>
    rw [enter_eq_start hf hl]
    refine (h.leads hm ht rfl).trans ((Config.leaves_body _ hr).trans (.of_eq ?_))
    cases result <;> rfl
  | traps hf hl h hr =>
    rw [enter_eq_start hf hl]
    exact (h.leads hm ht rfl).trans (Config.leaves_body _ hr)

theorem exists_runs_of_enter (hm : m.Within) (hw : Instr.WithinAll 1 entry.body) {n : Nat}
    {o : Outcome} (hn : (enter limit memory host entry).after m limit n = .done o) :
    ∃ e c, Runs m limit 0 (.invoke entry []) ⟨memory, host, .empty, []⟩ e c := by
  refine exists_runs_invoke hm hw fun hf hl => ?_
  rw [enter_eq_start hf hl] at hn
  exact finishes_all hm n entry.body _ _ _ [] [] o hw hn

/-- A module whose branches stay inside ends as its trees do. -/
theorem enter_ends_iff (hm : m.Within) (hw : Instr.WithinAll 1 entry.body) (o : Outcome) :
    (∃ n, (enter limit memory host entry).after m limit n = .done o) ↔
      Evaluates m limit memory host entry o := by
  constructor
  · rintro ⟨n, hn⟩
    obtain ⟨e, c, h⟩ := exists_runs_of_enter hm hw hn
    obtain ⟨k, -, hk⟩ := (h.enter_leads hm hw).ends hn
    exact ⟨e, c, h, Progress.done.inj hk⟩
  · rintro ⟨e, c, h, rfl⟩
    exact h.enter_leads hm hw

end

theorem entry_mem_of_prepare {text : String} {m : Module} {entry : Function}
    (h : Module.prepare text = .ok (m, entry)) : entry ∈ m.functions := by
  obtain ⟨m', -, h⟩ := bind_eq_ok.mp h
  obtain ⟨-, -, h⟩ := bind_eq_ok.mp h
  split at h
  · rename_i hf
    cases h
    exact List.mem_of_find?_eq_some hf
  · cases h

theorem execute_ended_iff {text : String} {m : Module} {entry : Function}
    (h : Module.prepare text = .ok (m, entry)) {steps limit : Nat} {memory : Memory} {host : Host}
    {o : Outcome} :
    execute steps limit memory host text = .ended o ↔
      (enter limit memory host entry).after m limit steps = .done o := by
  simp only [execute, h]
  cases enter limit memory host entry with
  | done o' => simp [Progress.after]
  | running s =>
    simp only [Progress.after]
    cases advance m limit steps s <;> simp

/-- A module that loads runs on the machine as its trees say: from each of its functions it ends with
an outcome if and only if the trees do, and so does its text from the entry. The labels, the frames
and the places in the code add nothing. -/
theorem ends_iff_evaluates {text : String} {m : Module} (hm : Module.load text = .ok m)
    (limit : Nat) (memory : Memory) (host : Host) (o : Outcome) :
    (∀ f ∈ m.functions, (∃ n, (enter limit memory host f).after m limit n = .done o) ↔
      Evaluates m limit memory host f o) ∧
    ∀ entry, Module.prepare text = .ok (m, entry) →
      ((∃ steps, execute steps limit memory host text = .ended o) ↔
        Evaluates m limit memory host entry o) := by
  have hw := Module.load_within hm
  refine ⟨fun f hf => enter_ends_iff hw (hw f hf) o, fun entry he => ?_⟩
  rw [← enter_ends_iff hw (hw entry (entry_mem_of_prepare he)) o]
  exact exists_congr fun steps => execute_ended_iff he

def countdown : FunctionCode :=
  ⟨"f", ["n"], [], [.block [.loop [.const 7, .localGet "n", .const 1, .num .sub, .localSet "n",
    .localGet "n", .brIf 0, .br 1]], .const 1, .call "f" 1 1]⟩

/-- Each round of the loop leaves a word that the branch back cuts off, and the call behind it uses up the
three frames. -/
theorem ends_iff_evaluates_countdown :
    ∃ text m entry, Module.load text = .ok m ∧ Module.prepare text = .ok (m, entry) ∧
      (m.function? "f").map (·.body) = some [.block [.loop [.const 7, .localGet "n", .const 1,
        .num .sub, .localSet "n", .localGet "n", .brIf 0, .br 1]], .const 1, .call "f" 1 1] ∧
      entry.body = [.const 2, .call "f" 1 1] ∧
      Evaluates m 3 (.ofPages 1) .reliable entry ⟨.error .exhausted, .ofPages 1, .reliable⟩ := by
  have hspell : ∀ f ∈ [countdown], f.Spelled := by
    simp only [List.mem_singleton, forall_eq]
    exact FunctionCode.spelled_of_names fun name hn =>
      Token.bare_of_isIdentifier (by revert name; decide)
  have hmain : Instr.SpelledAll [.const 2, .call "f" 1 1] :=
    Instr.spelledAll_of_names _ fun name hn =>
      Token.bare_of_isIdentifier (by revert name; decide)
  have hnames : (hostNames ++ [countdown].map (·.name)).Nodup := by decide
  have hfits : ∀ f ∈ [countdown], Instr.FitsAll
      (Module.signatureIn (Module.functionsOf [countdown]
        (Module.entryOf false [.const 2, .call "f" 1 1]))) (f.params ++ f.locals) 1 f.body := by
    rw [ModuleText.signatureIn_functionsOf]
    simp [Instr.FitsAll, Instr.Fits, ModuleText.signature?, ModuleText.imports, countdown]
  have hmainFits : Instr.FitsAll
      (Module.signatureIn (Module.functionsOf [countdown]
        (Module.entryOf false [.const 2, .call "f" 1 1]))) [] 1 [.const 2, .call "f" 1 1] := by
    rw [ModuleText.signatureIn_functionsOf]
    simp [Instr.FitsAll, Instr.Fits, ModuleText.signature?, ModuleText.imports, countdown]
  have hload := Module.load_wrap false 2 hspell hmain hnames hfits hmainFits
  have hprepare := Module.prepare_wrap false hspell hmain hnames hfits hmainFits
  refine ⟨_, _, _, hload, hprepare, rfl, rfl, ?_⟩
  exact ((ends_iff_evaluates hload 3 _ _ _).2 _ hprepare).mp
    ⟨60, (execute_ended_iff hprepare).mpr rfl⟩

end StackScript.Machine
