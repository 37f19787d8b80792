import StackScript.Code.Depth
import StackScript.Proofs.Capacity

namespace StackScript

/-- The next instruction follows: no block, loop, branch or return. -/
def Instr.isStraight : Instr → Bool
  | .ret | .br _ | .brIf _ | .block _ | .loop _ => false
  | .const _ | .address .. | .num _ | .load | .store | .localGet _ | .localSet _ | .call .. | .drop
  | .nop => true

def Function.gives (f : Function) : Nat :=
  if f.imported = none ∧ f.results ≠ 0 then 1 else 0

def Instr.Honest (m : Module) (i : Instr) : Prop :=
  ∀ name params results, i = .call name params results →
    ∀ callee, m.function? name = some callee → callee.gives = results

theorem Instr.count_short {depth : Nat} {i : Instr} (h : depth < i.pops) (code : List Instr) :
    (i :: code).foldlM depthAfter depth = .error (.stackUnderflow i.mnemonic i.pops depth) := by
  rw [List.foldlM_cons, depthAfter, if_pos h]
  rfl

theorem NumOp.apply_ne_underflow {op : NumOp} {left right : Word} {t : Trap}
    (h : op.apply left right = .error t) : t ≠ .underflow := by
  rintro rfl
  cases op with
  | div =>
    simp only [NumOp.apply] at h
    split at h
    · cases h
    · split at h <;> cases h
  | rem =>
    simp only [NumOp.apply] at h
    split at h <;> cases h
  | add | sub | mul | lt | le | gt | ge | eq | ne => cases h

theorem Host.call_ne_underflow {host : Host} {function : HostFunction} {args : List Word} {t : Trap}
    (h : host.call function args = .error t) : t ≠ .underflow := by
  rcases Host.call_eq_error h with ⟨reason, rfl⟩ | ⟨_, rfl⟩ <;> simp

namespace Machine

variable {m : Module} {limit : Nat}

/-- Goes on until no more than `base` callers wait, or the run is over. -/
inductive ComesBack (m : Module) (limit base : Nat) : Progress → Progress → Prop where
  | ended (o : Outcome) : ComesBack m limit base (.done o) (.done o)
  | back {s : State} : s.callers.length ≤ base → ComesBack m limit base (.running s) (.running s)
  | inside {s : State} {p : Progress} : base < s.callers.length →
    ComesBack m limit base (step m limit s) p → ComesBack m limit base (.running s) p

def Executes (m : Module) (limit : Nat) (s : State) (p : Progress) : Prop :=
  ComesBack m limit s.callers.length (step m limit s) p

theorem Executes.of_step {s t : State} (h : step m limit s = .running t)
    (hcallers : t.callers.length ≤ s.callers.length) : Executes m limit s (.running t) := by
  unfold Executes
  rw [h]
  exact .back hcallers

def State.height (s : State) : Nat := s.frame.stack.length

/-- The machine executes these instructions, one after another. -/
inductive Through (m : Module) (limit : Nat) : List Instr → State → State → Prop where
  | nil {s : State} : Through m limit [] s s
  | cons {i : Instr} {code : List Instr} {s t u : State} : s.next? = some i →
    Executes m limit s (.running t) → Through m limit code t u → Through m limit (i :: code) s u

/-- Of these instructions, the machine executes some, and finds too few words on the stack for the
next one. -/
def Underflows (m : Module) (limit : Nat) (code : List Instr) (s : State) (i : Instr) (u : State) :
    Prop :=
  ∃ before after, code = before ++ i :: after ∧ Through m limit before s u ∧
    step m limit u = .done ⟨.error .underflow, u.memory, u.host⟩

def Interrupted (m : Module) (limit : Nat) (code : List Instr) (s : State) : Prop :=
  ∃ before i after u, code = before ++ i :: after ∧ Through m limit before s u ∧
    ((∃ t memory host, t ≠ .underflow ∧ step m limit u = .done ⟨.error t, memory, host⟩) ∨
      ∃ v, step m limit u = .running v ∧ ∀ w, ¬ Executes m limit u (.running w))

inductive Mirrors (m : Module) (limit : Nat) (code : List Instr) (s : State) :
    Except Cause Nat → Prop where
  | through {u : State} : Through m limit code s u → Mirrors m limit code s (.ok u.height)
  | short {i : Instr} {u : State} : Underflows m limit code s i u →
    Mirrors m limit code s (.error (.stackUnderflow i.mnemonic i.pops u.height))

section First

variable {i : Instr} {code : List Instr} {s t : State}

theorem Interrupted.cons (hnext : s.next? = some i) (hexec : Executes m limit s (.running t))
    (h : Interrupted m limit code t) : Interrupted m limit (i :: code) s := by
  obtain ⟨before, j, after, u, rfl, hu, hstops⟩ := h
  exact ⟨i :: before, j, after, u, rfl, .cons hnext hexec hu, hstops⟩

theorem Mirrors.cons (hnext : s.next? = some i) (hexec : Executes m limit s (.running t))
    {count : Except Cause Nat} (h : Mirrors m limit code t count) :
    Mirrors m limit (i :: code) s count := by
  cases h with
  | through hu => exact .through (.cons hnext hexec hu)
  | short hshort =>
    obtain ⟨before, after, rfl, hu, hstep⟩ := hshort
    exact .short ⟨i :: before, after, rfl, .cons hnext hexec hu, hstep⟩

end First

/-- What a straight instruction can do to a frame that is already past it. -/
inductive Effect (m : Module) (memory : Memory) (host : Host) (f : Frame) (callers : List Frame)
    (i : Instr) : Progress → Prop where
  | short : f.stack.length < i.pops →
    Effect m memory host f callers i (.done ⟨.error .underflow, memory, host⟩)
  | trap {t : Trap} {host' : Host} : t ≠ .underflow →
    Effect m memory host f callers i (.done ⟨.error t, memory, host'⟩)
  | next {memory' : Memory} {host' : Host} {g : Frame} : i.pops ≤ f.stack.length →
    g.labels = f.labels → g.stack.length = f.stack.length - i.pops + i.pushes →
    Effect m memory host f callers i (.running ⟨memory', host', g, callers⟩)
  | call {name : String} {params results : Nat} {callee : Function} {args : List Word} :
    i = .call name params results → callee.gives = results → callee.imported = none →
    params ≤ f.stack.length →
    Effect m memory host f callers i (.running ⟨memory, host, .ofCall callee args,
      { f with stack := f.stack.drop params } :: callers⟩)

section Effect

variable (memory : Memory) (host : Host) (f : Frame) (callers : List Frame)

theorem invoke_effect {name : String} {params results : Nat} {callee : Function} {args : List Word}
    (hgives : callee.gives = results) (hparams : params ≤ f.stack.length) :
    Effect m memory host f callers (.call name params results)
      (invoke limit memory host { f with stack := f.stack.drop params } callers callee args) := by
  unfold invoke
  split
  · rename_i module field himported
    split
    · exact .trap (by simp)
    · split
      · refine .next hparams rfl ?_
        have hnone : callee.gives = 0 := by simp [Function.gives, himported]
        simp [Instr.pops, Instr.pushes, ← hgives, hnone]
      · rename_i hcall
        exact .trap (Host.call_ne_underflow hcall)
  · rename_i himported
    split
    · exact .call rfl hgives himported hparams
    · exact .trap (by simp)

variable {memory host f callers}

/-- An instruction that has its words takes them and leaves its own. -/
theorem Effect.leaves {i : Instr} (taken left : List Word) {stack : List Word} {memory' : Memory}
    {locals : Table Word} (hstack : f.stack = taken ++ stack) (htaken : taken.length = i.pops)
    (hleft : left.length = i.pushes) :
    Effect m memory host f callers i
      (.running ⟨memory', host, { f with stack := left ++ stack, locals }, callers⟩) := by
  refine .next ?_ rfl ?_
  · rw [hstack, List.length_append, htaken]
    exact Nat.le_add_right _ _
  · rw [hstack, List.length_append, List.length_append, htaken, hleft, Nat.add_sub_cancel_left,
      Nat.add_comm]

/-- The words that a straight instruction takes and leaves are those that are counted for it. A call
works on a stack of its own, so only the number of words it gives matters. -/
theorem Acts.effect {i : Instr} {p : Progress} (hi : i.isStraight = true) (hhonest : i.Honest m)
    (h : Acts m limit memory host f callers i p) : Effect m memory host f callers i p := by
  cases h with
  | short hshort => exact .short hshort
  | undefined herror => exact .trap (NumOp.apply_ne_underflow herror)
  | outside | noLocal | noFunction => exact .trap (by simp)
  | computes taken left hstack htaken hleft => exact .leaves taken left hstack htaken hleft
  | @stores value address _ _ he hstack =>
    subst he
    exact .leaves [value, address] [] hstack rfl rfl
  | @sets _ value _ he hstack =>
    subst he
    exact .leaves [value] [] hstack rfl rfl
  | calls he hcallee hparams =>
    subst he
    exact invoke_effect memory host f callers (hhonest _ _ _ rfl _ hcallee) hparams
  | returns he =>
    subst he
    cases hi
  | branches he => rcases he with rfl | rfl <;> cases hi
  | enters he => rcases he with ⟨rfl, _⟩ | ⟨rfl, _⟩ <;> cases hi

end Effect

theorem Above.length_lt {f : Frame} {callers : List Frame} {results : Nat} {s : State}
    (h : Above f callers results s) : callers.length < s.callers.length := by
  cases h with
  | direct _ calls => simp [calls]
  | nested pre g _ calls =>
    simp only [calls, List.length_append, List.length_cons]
    omega

/-- A call that returns leaves its caller as it was, with a word on its stack unless the call has no
results. -/
theorem ComesBack.returned {f : Frame} {callers : List Frame} {results : Nat} {s w : State}
    (hs : Above f callers results s)
    (h : ComesBack m limit callers.length (.running s) (.running w)) :
    ∃ r : Option Word, (r = none ↔ results = 0) ∧
      w.frame = { f with stack := r.toList ++ f.stack } := by
  generalize hp : Progress.running s = p at h
  generalize hq : Progress.running w = q at h
  induction h generalizing s with
  | ended => cases hp
  | back hle =>
    cases hp
    exact absurd hs.length_lt (Nat.not_lt.mpr hle)
  | @inside v _ hlt h ih =>
    cases hp
    rcases hs.step_cases (@step_moves m limit v) with ⟨why, memory, host, hstep⟩ | ⟨u, hstep, -, hu⟩
    · rw [hstep] at h
      cases h
      cases hq
    · rcases hu with habove | ⟨r, hr, rfl⟩
      · exact ih habove hstep.symm hq
      · rw [hstep] at h
        cases h with
        | back _ =>
          cases hq
          exact ⟨r, hr, rfl⟩
        | inside hlt _ => exact absurd hlt (Nat.lt_irrefl _)

section Straight

variable {kind : LabelKind} {base : Nat} {outer : List Label} {s : State}

theorem step_effect {i : Instr} {code : List Instr}
    (hlabels : s.frame.labels = ⟨kind, i :: code, base⟩ :: outer) (hi : i.isStraight = true)
    (hhonest : i.Honest m) :
    Effect m s.memory s.host { s.frame with labels := ⟨kind, code, base⟩ :: outer } s.callers i
      (step m limit s) := by
  have hstep : step m limit s = exec m limit s.memory s.host
      { s.frame with labels := ⟨kind, code, base⟩ :: outer } s.callers i := by
    simp only [step, hlabels]
  rw [hstep]
  exact (exec_acts m limit s.memory s.host _ s.callers i).effect hi hhonest

/-- An instruction that is executed has the words it takes, and leaves as many as it is counted to
leave. -/
theorem Executes.counted {i : Instr} {code : List Instr} {t : State}
    (hlabels : s.frame.labels = ⟨kind, i :: code, base⟩ :: outer) (hi : i.isStraight = true)
    (hhonest : i.Honest m) (h : Executes m limit s (.running t)) :
    i.depthAfter s.height = .ok t.height ∧ t.frame.labels = ⟨kind, code, base⟩ :: outer := by
  have hcount {depth : Nat} (hpops : i.pops ≤ s.height)
      (hdepth : depth = s.height - i.pops + i.pushes) : i.depthAfter s.height = .ok depth := by
    rw [Instr.depthAfter, if_neg (Nat.not_lt.mpr hpops), hdepth]
  have heffect : Effect m _ _ _ _ i (step m limit s) := step_effect hlabels hi hhonest
  unfold Executes at h
  generalize step m limit s = p at h heffect
  cases heffect with
  | short | trap => cases h
  | next hpops hsame hdepth =>
    cases h with
    | back _ => exact ⟨hcount hpops hdepth, hsame⟩
    | inside hlt _ => exact absurd hlt (Nat.lt_irrefl _)
  | @call name params results callee args he hgives himported hparams =>
    have hresults : (Frame.ofCall callee args).results = callee.results := rfl
    obtain ⟨r, hr, hframe⟩ := h.returned (.direct hresults rfl)
    subst he
    refine ⟨hcount hparams ?_, by rw [hframe]⟩
    have hresult : r.toList.length = results := by
      rw [← hgives, Function.gives]
      cases r with
      | none => simp [hr.mp rfl]
      | some v => simp [himported, mt hr.mpr]
    rw [State.height, hframe, List.length_append, hresult, List.length_drop, Nat.add_comm]
    rfl

/-- Code that is executed leaves as many words as it is counted to leave. -/
theorem Through.counted {before after : List Instr} {u : State}
    (hlabels : s.frame.labels = ⟨kind, before ++ after, base⟩ :: outer)
    (hstraight : ∀ i ∈ before, i.isStraight = true) (hhonest : ∀ i ∈ before, i.Honest m)
    (h : Through m limit before s u) :
    before.foldlM Instr.depthAfter s.height = .ok u.height ∧
      u.frame.labels = ⟨kind, after, base⟩ :: outer := by
  induction h with
  | nil => exact ⟨rfl, hlabels⟩
  | @cons i code s t u _ hexec _ ih =>
    rw [List.forall_mem_cons] at hstraight hhonest
    obtain ⟨hcount, hlabels⟩ := hexec.counted hlabels hstraight.1 hhonest.1
    obtain ⟨hrest, hlabels⟩ := ih hlabels hstraight.2 hhonest.2
    refine ⟨?_, hlabels⟩
    rw [List.foldlM_cons, hcount]
    exact hrest

/-- Unless straight code is interrupted, the count ends as its execution does. -/
theorem interrupted_or_mirrors {code rest : List Instr}
    (hlabels : s.frame.labels = ⟨kind, code ++ rest, base⟩ :: outer)
    (hstraight : ∀ i ∈ code, i.isStraight = true) (hhonest : ∀ i ∈ code, i.Honest m) :
    Interrupted m limit code s ∨
      Mirrors m limit code s (code.foldlM Instr.depthAfter s.height) := by
  induction code generalizing s with
  | nil => exact .inr (.through .nil)
  | cons i code ih =>
    rw [List.forall_mem_cons] at hstraight hhonest
    have hnext : s.next? = some i := by simp [State.next?, hlabels]
    have hgo {t : State} (hexec : Executes m limit s (.running t)) :
        Interrupted m limit (i :: code) s ∨
          Mirrors m limit (i :: code) s ((i :: code).foldlM Instr.depthAfter s.height) := by
      obtain ⟨hcount, hlabels⟩ := hexec.counted hlabels hstraight.1 hhonest.1
      rw [List.foldlM_cons, hcount]
      exact (ih hlabels hstraight.2 hhonest.2).imp (.cons hnext hexec) (.cons hnext hexec)
    have heffect : Effect m _ _ _ _ i (step m limit s) :=
      step_effect hlabels hstraight.1 hhonest.1
    generalize hp : step m limit s = p at heffect
    cases heffect with
    | short hshort =>
      have hlt : s.height < i.pops := hshort
      rw [Instr.count_short hlt code]
      exact .inr (.short ⟨[], code, rfl, .nil, hp⟩)
    | trap ht => exact .inl ⟨[], i, code, s, rfl, .nil, .inl ⟨_, _, _, ht, hp⟩⟩
    | next => exact hgo (Executes.of_step hp (Nat.le_refl _))
    | call =>
      by_cases hback : ∃ w, Executes m limit s (.running w)
      · obtain ⟨w, hw⟩ := hback
        exact hgo hw
      · exact .inl ⟨[], i, code, s, rfl, .nil, .inr ⟨_, hp, not_exists.mp hback⟩⟩

/-- An instruction that finds too few words is counted to need more. -/
theorem Underflows.counted {code rest : List Instr} {i : Instr} {u : State}
    (hlabels : s.frame.labels = ⟨kind, code ++ rest, base⟩ :: outer)
    (hstraight : ∀ i ∈ code, i.isStraight = true) (hhonest : ∀ i ∈ code, i.Honest m)
    (h : Underflows m limit code s i u) :
    code.foldlM Instr.depthAfter s.height =
      .error (.stackUnderflow i.mnemonic i.pops u.height) := by
  obtain ⟨before, after, rfl, hthrough, hshort⟩ := h
  rw [List.append_assoc] at hlabels
  rw [List.forall_mem_append, List.forall_mem_cons] at hstraight hhonest
  obtain ⟨hfold, hlabels⟩ := hthrough.counted hlabels hstraight.1 hhonest.1
  have heffect : Effect m _ _ _ _ i (step m limit u) :=
    step_effect hlabels hstraight.2.1 hhonest.2.1
  rw [hshort] at heffect
  rw [List.foldlM_append, hfold]
  cases heffect with
  | short hlt => exact Instr.count_short hlt after
  | trap ht => exact absurd rfl ht

end Straight

section Unique

variable {code : List Instr} {s u v : State}

theorem ComesBack.unique {base : Nat} {p q q' : Progress} (h : ComesBack m limit base p q)
    (h' : ComesBack m limit base p q') : q = q' := by
  induction h with
  | ended =>
    cases h'
    rfl
  | back hle =>
    cases h' with
    | back => rfl
    | inside hlt => exact absurd hlt (Nat.not_lt.mpr hle)
  | inside hlt _ ih =>
    cases h' with
    | back hle => exact absurd hlt (Nat.not_lt.mpr hle)
    | inside _ h' => exact ih h'

theorem Through.unique (h : Through m limit code s u) (h' : Through m limit code s v) : u = v := by
  induction h with
  | nil =>
    cases h'
    rfl
  | cons _ hexec _ ih =>
    cases h' with
    | cons _ hexec' h' =>
      cases ComesBack.unique hexec hexec'
      exact ih h'

/-- On its way, code executes each of its instructions. -/
theorem Through.executes {before after : List Instr} {i : Instr}
    (h : Through m limit (before ++ i :: after) s u) (hv : Through m limit before s v) :
    ∃ t, Executes m limit v (.running t) := by
  induction hv with
  | nil =>
    cases h with
    | cons _ hexec _ => exact ⟨_, hexec⟩
  | cons _ hexec _ ih =>
    cases h with
    | cons _ hexec' h =>
      cases ComesBack.unique hexec hexec'
      exact ih h

theorem Executes.not_done {t : State} (h : Executes m limit s (.running t)) {o : Outcome} :
    step m limit s ≠ .done o := by
  intro hstep
  rw [Executes, hstep] at h
  cases h

/-- The machine has no choice, so code that finds too few words is not interrupted. -/
theorem Underflows.not_interrupted {i : Instr} (h : Underflows m limit code s i u) :
    ¬ Interrupted m limit code s := by
  obtain ⟨before, after, rfl, hu, hshort⟩ := h
  rintro ⟨before', j, after', v, hcode, hv, hstops⟩
  have hsame : v ≠ u := by
    rintro rfl
    rw [hshort] at hstops
    rcases hstops with ⟨t, memory, host, ht, hstep⟩ | ⟨w, hstep, -⟩
    · cases hstep
      exact ht rfl
    · cases hstep
  have hpast (t : State) : ¬ Executes m limit v (.running t) := by
    intro hexec
    rcases hstops with ⟨_, _, _, _, hstep⟩ | ⟨_, _, hnever⟩
    · exact hexec.not_done hstep
    · exact hnever t hexec
  -- one of the two instructions stands before the other, and has been executed
  rcases List.append_eq_append_iff.mp hcode with ⟨more, rfl, -⟩ | ⟨more, rfl, -⟩
  · cases more with
    | nil => exact hsame (hv.unique (by simpa using hu))
    | cons k more =>
      obtain ⟨t, hexec⟩ := hv.executes hu
      exact hexec.not_done hshort
  · cases more with
    | nil => exact hsame (hv.unique (by simpa using hu))
    | cons k more =>
      obtain ⟨t, hexec⟩ := hu.executes hv
      exact hpast t hexec

end Unique

/-- Straight code in the innermost body of any frame, whose calls state how many words their functions
give: after every instruction that the machine executes the stack is as high as counted. Unless
another trap comes first or a call does not return, the count fails exactly at an instruction for
which the machine finds too few words, and where it succeeds the code is executed to its end. -/
theorem counted_depth_is_height {code rest : List Instr} {kind : LabelKind} {base : Nat}
    {outer : List Label} {s : State}
    (hlabels : s.frame.labels = ⟨kind, code ++ rest, base⟩ :: outer)
    (hstraight : ∀ i ∈ code, i.isStraight = true) (hhonest : ∀ i ∈ code, i.Honest m) :
    (∀ before after u, code = before ++ after → Through m limit before s u →
      before.foldlM Instr.depthAfter s.height = .ok u.height) ∧
    (¬ Interrupted m limit code s →
      (∀ cause, code.foldlM Instr.depthAfter s.height = .error cause ↔
        ∃ i u, Underflows m limit code s i u ∧
          cause = .stackUnderflow i.mnemonic i.pops u.height) ∧
      ∀ depth, code.foldlM Instr.depthAfter s.height = .ok depth →
        ∃ u, Through m limit code s u ∧ u.height = depth) := by
  refine ⟨?every, fun hfree => ⟨fun cause => ⟨?stops, ?counts⟩, ?succeeds⟩⟩
  case every =>
    rintro before after u rfl hthrough
    rw [List.append_assoc] at hlabels
    exact (hthrough.counted hlabels (List.forall_mem_append.mp hstraight).1
      (List.forall_mem_append.mp hhonest).1).1
  case stops =>
    intro hfold
    have hmirrors := (interrupted_or_mirrors hlabels hstraight hhonest).resolve_left hfree
    rw [hfold] at hmirrors
    cases hmirrors with
    | short hshort => exact ⟨_, _, hshort, rfl⟩
  case counts =>
    rintro ⟨i, u, hshort, rfl⟩
    exact hshort.counted hlabels hstraight hhonest
  case succeeds =>
    intro depth hfold
    have hmirrors := (interrupted_or_mirrors hlabels hstraight hhonest).resolve_left hfree
    rw [hfold] at hmirrors
    cases hmirrors with
    | through hu => exact ⟨_, hu, rfl⟩

/-- A call with two arguments leaves one word, and a product needs two. -/
theorem counted_depth_is_height_product :
    let sum : Function :=
      ⟨some "sum", ["x", "y"], 1, [], [.localGet "x", .localGet "y", .num .add], none, none⟩
    let m : Module := ⟨[sum], none⟩
    let code : List Instr := [.const 1, .const 2, .call "sum" 2 1, .num .mul]
    let s : State := ⟨.ofPages 1, .reliable, ⟨0, .empty, [], [⟨.body, code, 0⟩]⟩, []⟩
    (∀ i ∈ code, i.isStraight = true ∧ i.Honest m) ∧ ¬ Interrupted m 9 code s ∧
      (code.take 3).foldlM Instr.depthAfter 0 = .ok 1 ∧
      code.foldlM Instr.depthAfter 0 = .error (.stackUnderflow "i32.mul" 2 1) ∧
      ∃ i u, Underflows m 9 code s i u ∧ i.mnemonic = "i32.mul" ∧ u.height = 1 := by
  intro sum m code s
  have hcall : m.function? "sum" = some sum := rfl
  have hhonest : ∀ i ∈ code, i.Honest m := by
    rintro i hi name params results rfl callee hcallee
    simp only [code, List.mem_cons, List.not_mem_nil, Instr.call.injEq, reduceCtorEq, or_false,
      false_or] at hi
    obtain ⟨rfl, rfl, rfl⟩ := hi
    rw [hcall] at hcallee
    cases hcallee
    rfl
  have hstraight : ∀ i ∈ code, i.isStraight = true := by
    simp [code, Instr.isStraight]
  have hthrough : Through m 9 [.const 1, .const 2, .call "sum" 2 1] s
      ⟨.ofPages 1, .reliable, ⟨0, .empty, [3], [⟨.body, [.num .mul], 0⟩]⟩, []⟩ := by
    refine .cons rfl (.of_step rfl (Nat.le_refl 0)) ?_
    refine .cons rfl (.of_step rfl (Nat.le_refl 0)) ?_
    refine .cons rfl ?_ .nil
    refine .inside Nat.zero_lt_one (.inside Nat.zero_lt_one ?_)
    exact .inside Nat.zero_lt_one (.inside Nat.zero_lt_one (.back (Nat.le_refl 0)))
  have hshort : Underflows m 9 code s (.num .mul) _ := ⟨_, [], rfl, hthrough, rfl⟩
  have hfree := hshort.not_interrupted
  have hlabels : s.frame.labels = ⟨.body, code ++ [], 0⟩ :: [] := rfl
  obtain ⟨hevery, hcounted⟩ := counted_depth_is_height hlabels hstraight hhonest
  have hcause := ((hcounted hfree).1 _).mpr ⟨_, _, hshort, rfl⟩
  exact ⟨fun i hi => ⟨hstraight i hi, hhonest i hi⟩, hfree, hevery _ _ _ rfl hthrough,
    hcause, _, _, hshort, rfl, rfl⟩

end Machine

end StackScript
