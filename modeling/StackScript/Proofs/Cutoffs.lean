import StackScript.Proofs.Flattening

namespace StackScript

namespace Host

def calls (h : Host) : List HostCall := h.served.reverse

def capped (n : Nat) (reason : String) (h : Host) : Host :=
  { h with refuses := (failingAfter n reason).refuses }

structure Willing (h : Host) : Prop where
  all : h.asked = h.served
  never : h.refuses = reliable.refuses

theorem calls_of_served {h h' : Host} (hs : h.served <:+ h'.served) :
    ∃ made, h'.calls = h.calls ++ made := by
  obtain ⟨made, hmade⟩ := List.reverse_prefix.mpr hs
  exact ⟨made, hmade.symm⟩

/-- A host whose calls come first in those of another has served as many of the other's first. -/
theorem served_eq_take {h h' : Host} {n : Nat} (hs : h.served <:+ h'.served)
    (hn : h.calls.length = n) : h.served = (h'.calls.take n).reverse := by
  have hcalls : h.calls = h'.calls.take n := by
    rw [← hn]
    exact List.prefix_iff_eq_take.mp (List.reverse_prefix.mpr hs)
  rw [← hcalls, calls, List.reverse_reverse]

theorem Willing.serve {h : Host} (hw : h.Willing) (c : HostCall) : h.serve c = .ok (h.serving c) := by
  simp only [Host.serve, hw.never]
  rfl

theorem Willing.serving {h : Host} (hw : h.Willing) (c : HostCall) : (h.serving c).Willing :=
  ⟨congrArg (c :: ·) hw.all, hw.never⟩

/-- A capped host serves a call if it is among the first `n`. -/
theorem serve_capped {h : Host} {n : Nat} (hn : h.asked.length < n) (reason : String)
    (c : HostCall) : (h.capped n reason).serve c = .ok ((h.serving c).capped n reason) := by
  simp only [serve, capped, failingAfter, if_pos hn]
  rfl

theorem serve_full {h : Host} {n : Nat} (hn : n ≤ h.asked.length) (reason : String)
    (c : HostCall) : (h.capped n reason).serve c = .error reason := by
  simp only [serve, capped, failingAfter, if_neg (Nat.not_lt.mpr hn)]

end Host

namespace Machine

namespace Progress

def host : Progress → Host
  | running s => s.host
  | done o => o.host

def withHost (host : Host) : Progress → Progress
  | running s => running { s with host }
  | done o => done { o with host }

@[simp] theorem host_withHost (host : Host) (p : Progress) : (p.withHost host).host = host := by
  cases p <;> rfl

end Progress

def State.Silent (m : Module) (limit : Nat) (s : State) : Prop :=
  ∀ host, step m limit { s with host } = (step m limit s).withHost host

/-- What a step is that asks a host to serve a call and does nothing else; `f` is the frame behind
the call. -/
def asking (memory : Memory) (host : Host) (f : Frame) (callers : List Frame) (c : HostCall) :
    Progress :=
  match host.serve c with
  | .ok host => .running ⟨memory, host, f, callers⟩
  | .error reason => .done ⟨.error (.hostFailed reason), memory, host.noting c⟩

/-- The next step asks the host to serve a call. -/
def State.Asks (m : Module) (limit : Nat) (s : State) (c : HostCall) : Prop :=
  ∃ f, ∀ host, step m limit { s with host } = asking s.memory host f s.callers c

section Hosts

variable (m : Module) (limit : Nat) (memory : Memory) (host host' : Host) (f : Frame)
  (callers : List Frame)

theorem leave_withHost :
    leave memory host' f callers = (leave memory host f callers).withHost host' := by
  unfold leave
  by_cases hr : f.results = 0
  · simp only [hr, ↓reduceIte]
    cases callers <;> rfl
  · simp only [hr, ↓reduceIte]
    cases f.stack with
    | nil => rfl
    | cons => cases callers <;> rfl

theorem jump_withHost (depth : Nat) :
    jump memory host' f callers depth = (jump memory host f callers depth).withHost host' := by
  unfold jump
  cases f.branch depth with
  | error t => rfl
  | ok g =>
    cases g with
    | none => exact leave_withHost memory host host' f callers
    | some g => rfl

/-- A call of a function asks the host, or does the same with any host. -/
theorem invoke_silent_or_asks (callee : Function) (args : List Word) :
    (∀ host host', invoke limit memory host' f callers callee args =
      (invoke limit memory host f callers callee args).withHost host') ∨
    ∃ c, ∀ host, invoke limit memory host f callers callee args =
      asking memory host f callers c := by
  unfold invoke
  cases callee.imported with
  | none =>
    refine .inl fun host host' => ?_
    by_cases hroom : callers.length + 1 < limit
    · simp only [hroom, ↓reduceIte]
      rfl
    · simp only [hroom, ↓reduceIte]
      rfl
  | some names =>
    obtain ⟨module, field⟩ := names
    dsimp only
    cases HostFunction.resolve? module field with
    | none => exact .inl fun host host' => rfl
    | some function =>
      simp only [Host.call, Host.failing]
      cases HostCall.of? function args with
      | none => exact .inl fun host host' => rfl
      | some c =>
        refine .inr ⟨c, fun host => ?_⟩
        unfold asking
        dsimp only
        cases host.serve c <;> rfl

theorem exec_withHost {i : Instr} (h : ∀ name params results, i ≠ .call name params results) :
    exec m limit memory host' f callers i =
      (exec m limit memory host f callers i).withHost host' := by
  cases i with
  | call name params results => exact absurd rfl (h name params results)
  | const | address | nop | block | loop => rfl
  | num op =>
    simp only [exec]
    rcases f.stack with _ | ⟨right, _ | ⟨left, stack⟩⟩
    · rfl
    · rfl
    · dsimp only
      cases op.apply left right <;> rfl
  | load =>
    simp only [exec]
    rcases f.stack with _ | ⟨address, stack⟩
    · rfl
    · dsimp only
      cases memory.load? address <;> rfl
  | store =>
    simp only [exec]
    rcases f.stack with _ | ⟨value, _ | ⟨address, stack⟩⟩
    · rfl
    · rfl
    · dsimp only
      cases memory.store? address value <;> rfl
  | localGet name =>
    simp only [exec]
    cases f.locals.get? name <;> rfl
  | localSet | drop =>
    simp only [exec]
    cases f.stack <;> rfl
  | ret => exact leave_withHost memory host host' f callers
  | br depth => exact jump_withHost memory host host' f callers depth
  | brIf depth =>
    simp only [exec]
    rcases f.stack with _ | ⟨value, stack⟩
    · rfl
    · dsimp only
      by_cases hzero : value = 0
      · simp only [hzero, ↓reduceIte]
        rfl
      · simp only [hzero, ↓reduceIte]
        exact jump_withHost memory host host' { f with stack } callers depth

end Hosts

/-- A step asks the host to serve a call, or does the same with any host. -/
theorem State.silent_or_asks (m : Module) (limit : Nat) (s : State) :
    s.Silent m limit ∨ ∃ c, s.Asks m limit c := by
  obtain ⟨memory, own, ⟨results, locals, stack, labels⟩, callers⟩ := s
  cases labels with
  | nil => exact .inl fun host => leave_withHost memory own host _ callers
  | cons l outer =>
    obtain ⟨kind, code, height⟩ := l
    cases code with
    | nil =>
      refine .inl fun host => ?_
      cases kind with
      | body => exact leave_withHost memory own host _ callers
      | block | loop => rfl
    | cons i code =>
      by_cases hcall : ∃ name params arity, i = .call name params arity
      · obtain ⟨name, params, arity, rfl⟩ := hcall
        simp only [Silent, Asks, step, exec]
        cases m.function? name with
        | none => exact .inl fun host => rfl
        | some callee =>
          by_cases hshort : stack.length < params
          · simp only [hshort, ↓reduceIte]
            exact .inl fun host => rfl
          · simp only [hshort, ↓reduceIte]
            rcases invoke_silent_or_asks limit memory
              ⟨results, locals, stack.drop params, ⟨kind, code, height⟩ :: outer⟩ callers callee
              (stack.take params).reverse with hsilent | ⟨c, hasks⟩
            · exact .inl (hsilent own)
            · exact .inr ⟨c, _, hasks⟩
      · refine .inl fun host => exec_withHost m limit memory own host _ callers ?_
        rintro name params arity rfl
        exact hcall ⟨name, params, arity, rfl⟩

theorem State.Silent.host {m : Module} {limit : Nat} {s : State} (h : s.Silent m limit) :
    (step m limit s).host = s.host := by
  have hhost := congrArg Progress.host (h s.host)
  rwa [Progress.host_withHost] at hhost

/-- No step takes back a call that was served. -/
theorem step_served (m : Module) (limit : Nat) (s : State) :
    s.host.served <:+ (step m limit s).host.served := by
  rcases s.silent_or_asks m limit with hsilent | ⟨c, f, hasks⟩
  · simp only [hsilent.host, List.suffix_refl]
  · have hstep : step m limit s = asking s.memory s.host f s.callers c := hasks s.host
    rw [hstep, asking]
    cases hserve : s.host.serve c with
    | error t => exact List.suffix_refl _
    | ok host =>
      change s.host.served <:+ host.served
      rw [Host.serve_served hserve]
      exact List.suffix_cons c s.host.served

/-- An entry gets no arguments, so it is no function of the host that could be served. -/
theorem enter_withHost (limit : Nat) (memory : Memory) (host host' : Host) (entry : Function) :
    enter limit memory host' entry = (enter limit memory host entry).withHost host' := by
  unfold enter
  cases entry.imported with
  | none =>
    dsimp only
    split <;> rfl
  | some names =>
    obtain ⟨module, field⟩ := names
    dsimp only
    cases HostFunction.resolve? module field with
    | none => rfl
    | some function => cases function <;> rfl

theorem enter_host (limit : Nat) (memory : Memory) (host : Host) (entry : Function) :
    (enter limit memory host entry).host = host := by
  have hhost := congrArg Progress.host (enter_withHost limit memory host host entry)
  rwa [Progress.host_withHost] at hhost

theorem after_served (m : Module) (limit n : Nat) (p : Progress) :
    p.host.served <:+ (p.after m limit n).host.served := by
  induction n generalizing p with
  | zero => simp only [Progress.after_zero, List.suffix_refl]
  | succ n ih =>
    cases p with
    | done o => exact List.suffix_refl _
    | running s =>
      rw [Progress.after_succ]
      exact (step_served m limit s).trans (ih (step m limit s))

section Limits

variable {m : Module} {limit limit' : Nat}

theorem invoke_raised (hl : limit ≤ limit') (memory : Memory) (host : Host) (f : Frame)
    (callers : List Frame) (callee : Function) (args : List Word) :
    invoke limit' memory host f callers callee args =
        invoke limit memory host f callers callee args ∨
      invoke limit memory host f callers callee args = .done ⟨.error .exhausted, memory, host⟩ := by
  unfold invoke
  cases callee.imported with
  | some names => exact .inl rfl
  | none =>
    by_cases hroom : callers.length + 1 < limit
    · left
      simp only [hroom, Nat.lt_of_lt_of_le hroom hl, ↓reduceIte]
    · right
      simp only [hroom, ↓reduceIte]

/-- Nothing but a call looks at the limit. -/
theorem exec_raised (hl : limit ≤ limit') (memory : Memory) (host : Host) (f : Frame)
    (callers : List Frame) (i : Instr) :
    exec m limit' memory host f callers i = exec m limit memory host f callers i ∨
      exec m limit memory host f callers i = .done ⟨.error .exhausted, memory, host⟩ := by
  cases i with
  | call name params results =>
    simp only [exec]
    cases m.function? name with
    | none => exact .inl rfl
    | some callee =>
      by_cases hshort : f.stack.length < params
      · simp only [hshort, ↓reduceIte]
        exact .inl trivial
      · simp only [hshort, ↓reduceIte]
        exact invoke_raised hl memory host _ callers callee _
  | _ => exact .inl rfl

/-- A step below a higher limit is the same, unless it finds no room for a frame. -/
theorem step_raised (hl : limit ≤ limit') (s : State) :
    step m limit' s = step m limit s ∨
      step m limit s = .done ⟨.error .exhausted, s.memory, s.host⟩ := by
  obtain ⟨memory, host, ⟨results, locals, stack, labels⟩, callers⟩ := s
  cases labels with
  | nil => exact .inl rfl
  | cons l outer =>
    obtain ⟨kind, code, height⟩ := l
    cases code with
    | nil => exact .inl rfl
    | cons i code => exact exec_raised hl memory host _ callers i

def CutOff (m : Module) (limit' n : Nat) (p' p : Progress) : Prop :=
  ∃ k ≤ n, ∃ s, p'.after m limit' k = .running s ∧
    p = .done ⟨.error .exhausted, s.memory, s.host⟩

/-- A run below a higher limit is the same, unless it is cut off. -/
theorem after_raised (hl : limit ≤ limit') (n : Nat) (p : Progress) :
    p.after m limit' n = p.after m limit n ∨ CutOff m limit' n p (p.after m limit n) := by
  induction n generalizing p with
  | zero => exact .inl (by simp)
  | succ n ih =>
    cases p with
    | done o => exact .inl rfl
    | running s =>
      rw [Progress.after_succ, Progress.after_succ]
      rcases step_raised hl s with hstep | hstep
      · rw [hstep]
        refine (ih (step m limit s)).imp_right ?_
        rintro ⟨k, hk, t, ht, hcut⟩
        exact ⟨k + 1, Nat.succ_le_succ hk, t, by rw [Progress.after_succ, hstep, ht], hcut⟩
      -- only the lower limit is reached here, and the run below it is over
      · right
        rw [hstep]
        exact ⟨0, Nat.zero_le _, s, rfl, rfl⟩

/-- With a higher limit a run from its start, where the entry needs a frame, goes the same way or is
what the lower limit cuts off. -/
theorem enter_raised (hl : limit ≤ limit') (memory : Memory) (host : Host) (entry : Function)
    (n : Nat) :
    (enter limit' memory host entry).after m limit' n =
        (enter limit memory host entry).after m limit n ∨
      CutOff m limit' n (enter limit' memory host entry)
        ((enter limit memory host entry).after m limit n) := by
  unfold enter
  cases entry.imported with
  | some names => exact after_raised hl n _
  | none =>
    by_cases hroom : 0 < limit
    · simp only [hroom, Nat.lt_of_lt_of_le hroom hl, ↓reduceIte]
      exact after_raised hl n _
    · simp only [hroom, ↓reduceIte]
      by_cases hroom' : 0 < limit'
      · simp only [hroom', ↓reduceIte]
        exact .inr ⟨0, Nat.zero_le n, _, rfl, rfl⟩
      · simp only [hroom', ↓reduceIte]
        exact .inl rfl

end Limits

def Ending.Exhausted : Ending → Prop
  | ended o => o.result = .error .exhausted
  | refused _ | unfinished => False

theorem execute_refused {text : String} {e : LoadError} (h : Module.prepare text = .error e)
    (steps limit : Nat) (memory : Memory) (host : Host) :
    execute steps limit memory host text = .refused e := by
  simp only [execute, h]

def Progress.ending : Progress → Ending
  | running _ => .unfinished
  | done o => .ended o

theorem Progress.ending_eq_ended {p : Progress} {o : Outcome} (h : p.ending = .ended o) :
    p = .done o := by
  cases p with
  | running s => cases h
  | done o' =>
    cases h
    rfl

theorem execute_eq_ending {text : String} {m : Module} {entry : Function}
    (h : Module.prepare text = .ok (m, entry)) (steps limit : Nat) (memory : Memory) (host : Host) :
    execute steps limit memory host text =
      ((enter limit memory host entry).after m limit steps).ending := by
  simp only [execute, h]
  cases enter limit memory host entry with
  | done o => rfl
  | running s =>
    simp only [Progress.after]
    cases advance m limit steps s <;> rfl

/-- A run ends once. -/
theorem after_unique {m : Module} {limit a b : Nat} {p : Progress} {o o' : Outcome}
    (ha : p.after m limit a = .done o) (hb : p.after m limit b = .done o') : o = o' := by
  obtain ⟨k, -, hk⟩ := Leads.ends ⟨a, ha⟩ hb
  exact Progress.done.inj hk

/-- Where the limit has cut a run off, the run below the higher limit has made the same calls. -/
theorem CutOff.served {m : Module} {limit' n k : Nat} {p' : Progress} {o o' : Outcome}
    (h : CutOff m limit' n p' (.done o)) (ho' : p'.after m limit' k = .done o') :
    o.host.served <:+ o'.host.served := by
  obtain ⟨d, -, s, hs, hcut⟩ := h
  cases hcut
  obtain ⟨j, -, hj⟩ := Leads.ends ⟨d, hs⟩ ho'
  have hserved := after_served m limit' j (.running s)
  rw [hj] at hserved
  exact hserved

/-- A higher limit lets a run go on and changes nothing else: a text that ends, but not for want of
a frame, ends in the same way, and one that ends for want of a frame has until then made the calls
to the host that the longer run makes first. -/
theorem raised_limit_extends_run {limit limit' : Nat} (hl : limit ≤ limit') (steps : Nat)
    (memory : Memory) (host : Host) (text : String) :
    (execute steps limit memory host text ≠ .unfinished →
      ¬(execute steps limit memory host text).Exhausted →
      execute steps limit' memory host text = execute steps limit memory host text) ∧
    ∀ o, execute steps limit memory host text = .ended o → o.result = .error .exhausted →
      ∀ steps' o', execute steps' limit' memory host text = .ended o' →
        ∃ made later, o.host.calls = host.calls ++ made ∧
          o'.host.calls = host.calls ++ made ++ later := by
  cases hprepare : Module.prepare text with
  | error e =>
    rw [execute_refused hprepare, execute_refused hprepare]
    exact ⟨fun _ _ => rfl, fun o ho => by cases ho⟩
  | ok prepared =>
    obtain ⟨m, entry⟩ := prepared
    have hraised := enter_raised (m := m) hl memory host entry steps
    rw [execute_eq_ending hprepare, execute_eq_ending hprepare]
    constructor
    · intro _ hexhausted
      rcases hraised with hsame | ⟨_, _, s, _, hcut⟩
      · rw [hsame]
      · rw [hcut] at hexhausted
        exact absurd rfl hexhausted
    · intro o ho _ steps' o' ho'
      rw [execute_eq_ending hprepare] at ho'
      have ho := Progress.ending_eq_ended ho
      have ho' := Progress.ending_eq_ended ho'
      have hmade : host.served <:+ o.host.served := by
        have hserved := after_served m limit steps (enter limit memory host entry)
        rwa [ho, enter_host] at hserved
      have hlater : o.host.served <:+ o'.host.served := by
        rw [ho] at hraised
        rcases hraised with hsame | hcut
        · simp only [after_unique hsame ho', List.suffix_refl]
        · exact hcut.served ho'
      obtain ⟨made, hmade⟩ := Host.calls_of_served hmade
      obtain ⟨later, hlater⟩ := Host.calls_of_served hlater
      exact ⟨made, later, hmade, by rw [hlater, hmade]⟩

/-- A function that stores and prints its argument and then calls itself with one less, until that
is zero. -/
def printsDown : FunctionCode :=
  ⟨"f", ["n"], [], [.const 4, .localGet "n", .store, .localGet "n", .call "print_int" 1 0,
    .block [.localGet "n", .brIf 0, .const 0, .ret], .localGet "n", .const 1, .num .sub,
    .call "f" 1 1]⟩

theorem printsDown_closed : ModuleText.Closed [printsDown] [.const 1, .call "f" 1 1, .drop] := by
  refine ⟨by decide, by decide, ?_, ?_⟩
  · simp [Instr.FitsAll, Instr.Fits, ModuleText.signature?, ModuleText.imports, printsDown]
  · simp [Instr.FitsAll, Instr.Fits, ModuleText.signature?, ModuleText.imports, printsDown]

/-- With two frames the run makes the first of two calls to the host, with three both. -/
theorem raised_limit_extends_run_printing :
    ∃ text o o', execute 40 2 (.ofPages 1) .reliable text = .ended o ∧
      o.result = .error .exhausted ∧ o.host.calls = [.printInt 1] ∧
      execute 40 3 (.ofPages 1) .reliable text = .ended o' ∧
      o'.result = .ok none ∧ o'.host.calls = [.printInt 1, .printInt 0] ∧
      execute 40 5 (.ofPages 1) .reliable text = .ended o' ∧
      ∃ made later, o.host.calls = Host.reliable.calls ++ made ∧
        o'.host.calls = Host.reliable.calls ++ made ++ later := by
  have hprepare := Module.prepare_closed printsDown_closed false
  generalize ModuleText.wrap _ _ _ = text at hprepare
  let short : Outcome :=
    ⟨.error .exhausted, (Memory.ofPages 1).setWord 4 1, Host.reliable.serving (.printInt 1)⟩
  let long : Outcome := ⟨.ok none, ((Memory.ofPages 1).setWord 4 1).setWord 4 0,
    (Host.reliable.serving (.printInt 1)).serving (.printInt 0)⟩
  have hshort : execute 40 2 (.ofPages 1) .reliable text = .ended short :=
    (execute_ended_iff hprepare).mpr rfl
  have hlong : execute 40 3 (.ofPages 1) .reliable text = .ended long :=
    (execute_ended_iff hprepare).mpr rfl
  refine ⟨text, short, long, hshort, rfl, rfl, hlong, rfl, rfl, ?_, ?_⟩
  · rw [← hlong]
    refine (raised_limit_extends_run (by decide) 40 (.ofPages 1) .reliable text).1 ?_ ?_
    · rw [hlong]
      simp
    · rw [hlong]
      simp [Ending.Exhausted, long]
  · exact (raised_limit_extends_run (by decide) 40 (.ofPages 1) .reliable text).2 short hshort rfl
      40 long hlong

section Failing

variable {m : Module} {limit n : Nat} {reason : String}

def State.capped (n : Nat) (reason : String) (s : State) : State :=
  { s with host := s.host.capped n reason }

def Progress.capped (n : Nat) (reason : String) (p : Progress) : Progress :=
  p.withHost (p.host.capped n reason)

/-- A willing host serves what it is asked for. -/
theorem State.Asks.step {s : State} {c : HostCall} (h : s.Asks m limit c)
    (hw : s.host.Willing) : ∃ f, step m limit s =
      .running ⟨s.memory, s.host.serving c, f, s.callers⟩ ∧
      ∀ host, Machine.step m limit { s with host } = asking s.memory host f s.callers c := by
  obtain ⟨f, hf⟩ := h
  refine ⟨f, ?_, hf⟩
  have hstep : Machine.step m limit s = asking s.memory s.host f s.callers c := hf s.host
  rw [hstep, asking, hw.serve]

theorem step_willing {s : State} (hw : s.host.Willing) : (step m limit s).host.Willing := by
  rcases s.silent_or_asks m limit with hsilent | ⟨c, hasks⟩
  · rwa [hsilent.host]
  · obtain ⟨f, hf, -⟩ := hasks.step hw
    rw [hf]
    exact hw.serving c

/-- A step that stays within the first `n` calls is the same with the capped host. -/
theorem step_capped {s : State} (hw : s.host.Willing)
    (hn : (step m limit s).host.served.length ≤ n) :
    step m limit (s.capped n reason) = (step m limit s).capped n reason := by
  rcases s.silent_or_asks m limit with hsilent | ⟨c, hasks⟩
  · rw [Progress.capped, hsilent.host]
    exact hsilent (s.host.capped n reason)
  · obtain ⟨f, hf, hasks⟩ := hasks.step hw
    have hroom : s.host.asked.length < n := by
      rw [hf] at hn
      rw [hw.all]
      exact hn
    rw [hf, State.capped, hasks, asking, Host.serve_capped hroom]
    rfl

/-- The step that asks for one call more ends the run, and the host takes note of that call. -/
theorem step_cut {s t : State} (hw : s.host.Willing) (ht : step m limit s = .running t)
    (hs : s.host.served.length = n) (hn : t.host.served.length = n + 1) :
    step m limit (s.capped n reason) = .done ⟨.error (.hostFailed reason), s.memory,
      ⟨t.host.served, s.host.served, (Host.failingAfter n reason).refuses⟩⟩ := by
  rcases s.silent_or_asks m limit with hsilent | ⟨c, hasks⟩
  · have hhost := hsilent.host
    rw [ht] at hhost
    change t.host = s.host at hhost
    rw [hhost, hs] at hn
    exact absurd hn (Nat.succ_ne_self n).symm
  · obtain ⟨f, hf, hasks⟩ := hasks.step hw
    rw [ht] at hf
    cases hf
    have hfull : n ≤ s.host.asked.length := by
      rw [hw.all]
      exact Nat.le_of_eq hs.symm
    rw [State.capped, hasks, asking, Host.serve_full hfull]
    simp only [Host.noting, Host.capped, Host.serving, hw.all]

theorem after_willing (m : Module) (limit : Nat) {p : Progress} (hw : p.host.Willing) (k : Nat) :
    (p.after m limit k).host.Willing := by
  induction k generalizing p with
  | zero => rwa [Progress.after_zero]
  | succ k ih =>
    cases p with
    | done o => exact hw
    | running s =>
      rw [Progress.after_succ]
      exact ih (step_willing hw)

/-- A run that stays within the first `n` calls is the same with the capped host. -/
theorem after_capped {p : Progress} (hw : p.host.Willing) {k : Nat}
    (hn : (p.after m limit k).host.served.length ≤ n) :
    (p.capped n reason).after m limit k = (p.after m limit k).capped n reason := by
  induction k generalizing p with
  | zero => rw [Progress.after_zero, Progress.after_zero]
  | succ k ih =>
    cases p with
    | done o => rfl
    | running s =>
      -- no call is taken back later, so this step too stays within the first `n`
      have hstep : step m limit (s.capped n reason) = (step m limit s).capped n reason := by
        refine step_capped hw (Nat.le_trans ?_ hn)
        rw [Progress.after_succ]
        exact (after_served m limit k (step m limit s)).length_le
      change (Progress.running (s.capped n reason)).after m limit (k + 1) = _
      rw [Progress.after_succ] at hn ⊢
      rw [Progress.after_succ, hstep]
      exact ih (step_willing hw) hn

/-- In this state the run is about to make its call number `n + 1`. -/
def AtCall (m : Module) (limit : Nat) (p : Progress) (n : Nat) (s : State) : Prop :=
  ∃ k t, p.after m limit k = .running s ∧ step m limit s = .running t ∧
    s.host.calls.length = n ∧ t.host.calls.length = n + 1

/-- Calls are made one at a time, so a run that has made more than `n` was about to make the one
behind the first `n`. -/
theorem exists_atCall {p : Progress} (hw : p.host.Willing) (hp : p.host.served.length ≤ n)
    {k : Nat} (hn : n < (p.after m limit k).host.served.length) :
    ∃ s, AtCall m limit p n s := by
  induction k generalizing p with
  | zero =>
    rw [Progress.after_zero] at hn
    exact absurd hn (Nat.not_lt.mpr hp)
  | succ k ih =>
    cases p with
    | done o => exact absurd hn (Nat.not_lt.mpr hp)
    | running s =>
      rw [Progress.after_succ] at hn
      by_cases hstep : (step m limit s).host.served.length ≤ n
      · obtain ⟨t, j, u, ht, hu⟩ := ih (step_willing hw) hstep hn
        exact ⟨t, j + 1, u, by rw [Progress.after_succ, ht], hu⟩
      -- the step goes past the first `n` calls, so it makes one
      · rcases s.silent_or_asks m limit with hsilent | ⟨c, hasks⟩
        · rw [hsilent.host] at hstep
          exact absurd hp hstep
        · obtain ⟨f, hf, -⟩ := hasks.step hw
          have hserved : s.host.served.length = n := by
            rw [hf] at hstep
            have : ¬s.host.served.length + 1 ≤ n := hstep
            have : s.host.served.length ≤ n := hp
            omega
          refine ⟨s, 0, _, rfl, hf, ?_, ?_⟩
          · simpa [Host.calls] using hserved
          · simpa [Host.calls, Host.serving] using hserved

/-- A run that ends is done after it was still running. -/
theorem exists_steps_left {p : Progress} {a b : Nat} {s : State} {o : Outcome}
    (hs : p.after m limit a = .running s) (ho : p.after m limit b = .done o) :
    ∃ d, b = a + (d + 1) ∧ (step m limit s).after m limit d = .done o := by
  obtain hab | hba := Nat.lt_or_ge a b
  · obtain ⟨d, rfl⟩ := Nat.exists_eq_add_of_lt hab
    refine ⟨d, rfl, ?_⟩
    rwa [Nat.add_assoc, Progress.after_add, hs, Progress.after_succ] at ho
  · obtain ⟨d, rfl⟩ := Nat.exists_eq_add_of_le hba
    rw [Progress.after_add, ho] at hs
    cases hs

/-- With the capped host the run ends where it is about to make one call more. -/
theorem AtCall.cut {p : Progress} {s : State} (h : AtCall m limit p n s) (reason : String)
    (hw : p.host.Willing) {k : Nat} {o : Outcome} (ho : p.after m limit k = .done o) :
    (p.capped n reason).after m limit k = .done ⟨.error (.hostFailed reason), s.memory,
      ⟨(o.host.calls.take (n + 1)).reverse, (o.host.calls.take n).reverse,
        (Host.failingAfter n reason).refuses⟩⟩ := by
  obtain ⟨j, t, hs, ht, hcalls, hmore⟩ := h
  obtain ⟨d, rfl, hdone⟩ := exists_steps_left hs ho
  have hlater : t.host.served <:+ o.host.served := by
    have hsuffix := after_served m limit d (step m limit s)
    rwa [hdone, ht] at hsuffix
  have hearlier : s.host.served <:+ o.host.served := by
    have hsuffix := step_served m limit s
    rw [ht] at hsuffix
    exact hsuffix.trans hlater
  rw [← Host.served_eq_take hearlier hcalls, ← Host.served_eq_take hlater hmore]
  rw [Host.calls, List.length_reverse] at hcalls hmore
  have hws : s.host.Willing := by
    have hwilling := after_willing m limit hw j
    rwa [hs] at hwilling
  have hcapped : (p.capped n reason).after m limit j = .running (s.capped n reason) := by
    rw [after_capped hw (by rw [hs]; exact Nat.le_of_eq hcalls), hs]
    rfl
  rw [Progress.after_add, hcapped, Progress.after_succ, step_cut hws ht hcalls hmore]
  rfl

theorem enter_capped (memory : Memory) (host : Host) (entry : Function) :
    enter limit memory (host.capped n reason) entry =
      (enter limit memory host entry).capped n reason := by
  rw [Progress.capped, enter_host]
  exact enter_withHost limit memory host (host.capped n reason) entry

end Failing

/-- A host that fails cuts a run at the call it does not serve and nowhere else. A text that ends
with a host that never fails ends in the same way with one that serves the first `n` calls, if it
makes no more. If it makes more, it traps at the call behind them, with the memory it has there and
with these calls served. -/
theorem failing_host_cuts_run {text : String} {steps limit : Nat} {memory : Memory} {o : Outcome}
    (ho : execute steps limit memory .reliable text = .ended o) (n : Nat) (reason : String) :
    (o.host.calls.length ≤ n →
      execute steps limit memory (.failingAfter n reason) text =
        .ended { o with host := { o.host with refuses := (Host.failingAfter n reason).refuses } }) ∧
    (n < o.host.calls.length →
      ∃ m entry, Module.prepare text = .ok (m, entry) ∧
        (∃ s, AtCall m limit (enter limit memory .reliable entry) n s) ∧
        ∀ s, AtCall m limit (enter limit memory .reliable entry) n s →
          execute steps limit memory (.failingAfter n reason) text =
              .ended ⟨.error (.hostFailed reason), s.memory,
                ⟨(o.host.calls.take (n + 1)).reverse, (o.host.calls.take n).reverse,
                  (Host.failingAfter n reason).refuses⟩⟩ ∧
            (Trap.hostFailed reason).message = "host output failed: " ++ reason) := by
  cases hprepare : Module.prepare text with
  | error e =>
    rw [execute_refused hprepare] at ho
    cases ho
  | ok prepared =>
    obtain ⟨m, entry⟩ := prepared
    rw [execute_eq_ending hprepare] at ho ⊢
    have ho := Progress.ending_eq_ended ho
    have hstart : enter limit memory (.failingAfter n reason) entry =
        (enter limit memory .reliable entry).capped n reason :=
      enter_capped memory .reliable entry
    have hw : (enter limit memory .reliable entry).host.Willing := by
      rw [enter_host]
      exact ⟨rfl, rfl⟩
    have hlength : o.host.calls.length = o.host.served.length := List.length_reverse
    rw [hstart]
    constructor
    · intro hn
      rw [after_capped hw (by rw [ho]; exact hlength ▸ hn), ho]
      rfl
    · intro hn
      refine ⟨m, entry, rfl, ?_, ?_⟩
      · have hnone : (enter limit memory .reliable entry).host.served.length ≤ n := by
          rw [enter_host]
          exact Nat.zero_le n
        have hmore :
            n < ((enter limit memory .reliable entry).after m limit steps).host.served.length := by
          rw [ho]
          exact hlength ▸ hn
        exact exists_atCall hw hnone hmore
      · intro s hs
        refine ⟨?_, rfl⟩
        rw [hs.cut reason hw ho]
        rfl

/-- The second of two calls fails, behind a second store. -/
theorem failing_host_cuts_run_second_call :
    ∃ text o, execute 40 3 (.ofPages 1) .reliable text = .ended o ∧
      o.host.calls = [.printInt 1, .printInt 0] ∧
      execute 40 3 (.ofPages 1) (.failingAfter 2 "closed") text =
        .ended { o with host := { o.host with refuses := (Host.failingAfter 2 "closed").refuses } } ∧
      ∃ m entry s, Module.prepare text = .ok (m, entry) ∧
        AtCall m 3 (enter 3 (.ofPages 1) .reliable entry) 1 s ∧
        execute 40 3 (.ofPages 1) (.failingAfter 1 "closed") text =
          .ended ⟨.error (.hostFailed "closed"), s.memory,
            ⟨[.printInt 0, .printInt 1], [.printInt 1], (Host.failingAfter 1 "closed").refuses⟩⟩ := by
  have hprepare := Module.prepare_closed printsDown_closed false
  generalize ModuleText.wrap _ _ _ = text at hprepare
  let o : Outcome := ⟨.ok none, ((Memory.ofPages 1).setWord 4 1).setWord 4 0,
    (Host.reliable.serving (.printInt 1)).serving (.printInt 0)⟩
  have ho : execute 40 3 (.ofPages 1) .reliable text = .ended o :=
    (execute_ended_iff hprepare).mpr rfl
  refine ⟨text, o, ho, rfl, ?_, ?_⟩
  · exact (failing_host_cuts_run ho 2 "closed").1 (by decide)
  · obtain ⟨m, entry, hp, ⟨s, hs⟩, hcut⟩ :=
      (failing_host_cuts_run ho 1 "closed").2 (by decide)
    exact ⟨m, entry, s, hp, hs, (hcut s hs).1⟩

end Machine

end StackScript
