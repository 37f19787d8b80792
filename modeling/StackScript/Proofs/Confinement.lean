import StackScript.Proofs.Actions
import StackScript.Proofs.Simulation

namespace StackScript

def Memory.InPage (address : Word) : Prop := (ofPages 1).Holds address

theorem Memory.inPage_of_holds {memory : Memory} (hsize : memory.size = pageSize) {address : Word}
    (h : memory.Holds address) : InPage address := by
  unfold Holds at h
  rw [hsize] at h
  exact h

namespace Machine

def Progress.memory : Progress → Memory
  | .running s => s.memory
  | .done o => o.memory

/-- Where the next step writes a word. -/
def State.writes? (s : State) : Option Nat :=
  match s.frame.labels, s.frame.stack with
  | ⟨_, .store :: _, _⟩ :: _, _ :: address :: _ =>
    if s.memory.Holds address then some address.toInt.toNat else none
  | _, _ => none

section Writes

variable (m : Module) (limit : Nat) (memory : Memory) (host : Host) (f : Frame)
  (callers : List Frame)

theorem leave_memory : (leave memory host f callers).memory = memory := by
  unfold leave
  by_cases hr : f.results = 0
  · simp only [hr, ↓reduceIte]
    cases callers <;> rfl
  · simp only [hr, ↓reduceIte]
    cases f.stack with
    | nil => rfl
    | cons => cases callers <;> rfl

theorem jump_memory (depth : Nat) : (jump memory host f callers depth).memory = memory := by
  unfold jump
  split
  · rfl
  · exact leave_memory memory host f callers
  · rfl

theorem invoke_memory (callee : Function) (args : List Word) :
    (invoke limit memory host f callers callee args).memory = memory := by
  unfold invoke
  split
  · split
    · rfl
    · split <;> rfl
  · split <;> rfl

/-- Nothing but a store changes memory. -/
theorem Acts.memory_eq {m : Module} {limit : Nat} {memory : Memory} {host : Host} {f : Frame}
    {callers : List Frame} {i : Instr} {p : Progress}
    (h : Acts m limit memory host f callers i p) (hi : i ≠ .store) : p.memory = memory := by
  cases h with
  | short | undefined | outside | noLocal | noFunction | computes | sets | enters => rfl
  | stores hstore => exact absurd hstore hi
  | calls => exact invoke_memory limit memory host { f with stack := _ } callers _ _
  | returns => exact leave_memory memory host f callers
  | branches => exact jump_memory memory host { f with stack := _ } callers _

/-- A step writes the word that `writes?` tells of, and no other. -/
theorem step_memory (s : State) : (step m limit s).memory = s.memory ∧ s.writes? = none ∨
    ∃ i v, s.writes? = some i ∧ (step m limit s).memory = s.memory.setWord i v := by
  obtain ⟨memory, host, ⟨results, locals, stack, labels⟩, callers⟩ := s
  cases labels with
  | nil => exact .inl ⟨leave_memory memory host _ callers, rfl⟩
  | cons l outer =>
    obtain ⟨kind, code, height⟩ := l
    cases code with
    | nil =>
      refine .inl ⟨?_, rfl⟩
      cases kind with
      | body => exact leave_memory memory host _ callers
      | block | loop => rfl
    | cons i code =>
      by_cases hi : i = .store
      · subst hi
        rcases stack with _ | ⟨value, _ | ⟨address, stack⟩⟩
        · exact .inl ⟨rfl, rfl⟩
        · exact .inl ⟨rfl, rfl⟩
        · by_cases hholds : memory.Holds address
          · refine .inr ⟨address.toInt.toNat, value, ?_, ?_⟩
            · simp [State.writes?, hholds]
            · simp [step, exec, Memory.store?_of_holds hholds, Progress.memory]
          · refine .inl ⟨?_, ?_⟩
            · simp [step, exec, Memory.store?_of_not_holds hholds, Progress.memory]
            · simp [State.writes?, hholds]
      · refine .inl ⟨(exec_acts m limit memory host _ callers i).memory_eq hi, ?_⟩
        cases i with
        | store => exact absurd rfl hi
        | _ => rfl

/-- A run never changes the size of memory. -/
theorem advance_size (n : Nat) (s : State) : (advance m limit n s).memory.size = s.memory.size := by
  induction n generalizing s with
  | zero => rfl
  | succ n ih =>
    have hstep : (step m limit s).memory.size = s.memory.size := by
      rcases step_memory m limit s with ⟨hmemory, _⟩ | ⟨i, v, _, hmemory⟩
      · rw [hmemory]
      · rw [hmemory, Memory.size_setWord]
    rw [advance]
    split
    · rename_i t ht
      rw [ht] at hstep
      exact (ih t).trans hstep
    · rename_i o ho
      rw [ho] at hstep
      exact hstep

end Writes

end Machine

section Confined

variable (m : Module) (W : Word → Prop)

namespace Instr

mutual

/-- On this stack, the instruction stores to addresses in `W` only and leaves a stack as `post`
says, whatever words it loads and its calls give. Where a branch goes is left to the labels. -/
def Confined : Instr → (List Word → Prop) → List Word → Prop
  | .const value, post, vs | .address value _, post, vs => post (value :: vs)
  | .num _, post, vs =>
    match vs with
    | _ :: _ :: vs => ∀ v, post (v :: vs)
    | _ => True
  | .load, post, vs =>
    match vs with
    | _ :: vs => ∀ v, post (v :: vs)
    | [] => True
  -- a store beyond the page is the end of the run
  | .store, post, vs =>
    match vs with
    | _ :: at_ :: vs => W at_ ∧ (Memory.InPage at_ → post vs)
    | _ => True
  | .localGet _, post, vs => ∀ v, post (v :: vs)
  | .localSet _, post, vs | .drop, post, vs | .brIf _, post, vs =>
    match vs with
    | _ :: vs => post vs
    | [] => True
  | .call name params _, post, vs =>
    ∀ f, m.function? name = some f →
      match f.imported with
      | some _ => post (vs.drop params)
      | none => ∀ v, post (v :: vs.drop params)
  | .nop, post, vs => post vs
  | .ret, _, _ | .br _, _, _ => True
  | .block body, post, vs | .loop body, post, vs =>
    vs = [] ∧ ConfinedAll body (fun vs => vs = []) [] ∧ post []

def ConfinedAll : List Instr → (List Word → Prop) → List Word → Prop
  | [], post, vs => post vs
  | i :: is, post, vs => Confined i (fun vs => ConfinedAll is post vs) vs

end

variable {m W}

theorem confinedAll_append {a b : List Instr} {post : List Word → Prop} {vs : List Word} :
    ConfinedAll m W (a ++ b) post vs ↔
      ConfinedAll m W a (fun vs => ConfinedAll m W b post vs) vs := by
  induction a generalizing vs with
  | nil => rfl
  | cons i a ih =>
    have hpost : (fun vs => ConfinedAll m W (a ++ b) post vs) =
        fun vs => ConfinedAll m W a (fun vs => ConfinedAll m W b post vs) vs :=
      funext fun vs => propext ih
    rw [List.cons_append, ConfinedAll, ConfinedAll, hpost]

mutual

/-- Loading an instruction does not change what it writes. -/
theorem confined_loaded (i : Instr) (post : List Word → Prop) (vs : List Word) :
    Confined m W i.loaded post vs = Confined m W i post vs := by
  match i with
  | .block body | .loop body =>
    simp only [loaded, Confined, confinedAll_loaded body]
  | .const _ | .address .. | .num _ | .load | .store | .localGet _ | .localSet _ | .call .. | .drop
  | .nop | .ret | .br _ | .brIf _ => rfl

theorem confinedAll_loaded (is : List Instr) (post : List Word → Prop) (vs : List Word) :
    ConfinedAll m W (loadedAll is) post vs = ConfinedAll m W is post vs := by
  match is with
  | [] => rfl
  | i :: is =>
    simp only [loadedAll, ConfinedAll, confined_loaded i, confinedAll_loaded is]

end

end Instr

namespace Machine

def LabelKind.Ends : LabelKind → List Word → Prop
  | .body, _ => True
  | .block, vs | .loop _, vs => vs = []

def Next : List Label → List Word → Prop
  | [], _ => True
  | l :: _, vs => Instr.ConfinedAll m W l.code l.kind.Ends vs

/-- A branch to any of the labels cuts the stack down to nothing and comes to confined code. -/
def Branches : List Label → Prop
  | [] => True
  | l :: outer =>
    l.height = 0 ∧ (∀ code, l.kind = .loop code → Instr.ConfinedAll m W code (fun vs => vs = []) []) ∧
      Next m W outer [] ∧ Branches outer

structure Frame.Confined (f : Frame) : Prop where
  next : Next m W f.labels f.stack
  branches : Branches m W f.labels

end Machine

def Module.Quiet : Prop :=
  ∀ name f, m.function? name = some f → f.imported = none →
    f.results = 1 ∧ Instr.ConfinedAll m (fun _ => False) f.body (fun _ => True) []

namespace Machine

inductive Goes (results : Nat) (callers : List Frame) : Progress → Prop
  | stop {o : Outcome} : Goes results callers (.done o)
  | stay {memory : Memory} {host : Host} {f : Frame} (same : f.results = results)
      (confined : f.Confined m W) : Goes results callers (.running ⟨memory, host, f, callers⟩)
  | call {memory : Memory} {host : Host} {f callee : Frame} (same : f.results = results)
      (waits : ∀ v, Frame.Confined m W { f with stack := v :: f.stack })
      (gives : callee.results = 1) (quiet : callee.Confined m fun _ => False) :
      Goes results callers (.running ⟨memory, host, callee, f :: callers⟩)
  | back {memory : Memory} {host : Host} {f : Frame} {outer : List Frame} {r : Option Word}
      (calls : callers = f :: outer) (value : results = 1 → ∃ v, r = some v) :
      Goes results callers (.running ⟨memory, host, { f with stack := r.toList ++ f.stack }, outer⟩)

/-- The frames of a state. The entry, at the bottom, is confined to `W`. Each call above it gives a
word, for which the frame below waits, and writes nothing. -/
def Calls : Frame → List Frame → Prop
  | f, [] => f.Confined m W
  | f, caller :: callers =>
    f.results = 1 ∧ f.Confined m (fun _ => False) ∧
      ∀ v, Calls { caller with stack := v :: caller.stack } callers

structure State.Confined (s : State) : Prop where
  size : s.memory.size = Memory.pageSize
  calls : Calls m W s.frame s.callers

variable {m W} {limit : Nat}

theorem Branches.drop {labels : List Label} (h : Branches m W labels) (n : Nat) :
    Branches m W (labels.drop n) := by
  induction n generalizing labels with
  | zero => exact h
  | succ n ih =>
    cases labels with
    | nil => trivial
    | cons l outer => exact ih h.2.2.2

/-- A branch leads to confined code. -/
theorem Branches.branch {f g : Frame} {depth : Nat} (h : Branches m W f.labels)
    (hb : f.branch depth = .ok (some g)) : g.results = f.results ∧ g.Confined m W := by
  unfold Frame.branch at hb
  split at hb
  · cases hb
  · rename_i l outer hdrop
    have hcut : cutTo 0 f.stack = [] := by simp [cutTo]
    have ht := h.drop depth
    rw [hdrop] at ht
    obtain ⟨hheight, hagain, hnext, houter⟩ := ht
    split at hb
    · cases hb
    · cases hb
      rw [hheight, hcut]
      exact ⟨rfl, hnext, houter⟩
    · rename_i code hkind
      cases hb
      rw [hheight, hcut]
      refine ⟨rfl, ?_, rfl, hagain, hnext, houter⟩
      rw [Next, hkind]
      exact hagain code hkind

theorem Frame.ofCall_confined {f : Function}
    (h : Instr.ConfinedAll m W f.body (fun _ => True) []) (args : List Word) :
    (Frame.ofCall f args).Confined m W := by
  refine ⟨h, rfl, ?_, trivial, trivial⟩
  intro code hcode
  cases hcode

theorem leave_goes (memory : Memory) (host : Host) (f : Frame) (callers : List Frame) :
    Goes m W f.results callers (leave memory host f callers) := by
  unfold leave
  by_cases hr : f.results = 0
  · simp only [hr, ↓reduceIte]
    cases callers with
    | nil => exact .stop
    | cons caller callers => exact .back rfl (by simp)
  · simp only [hr, ↓reduceIte]
    cases f.stack with
    | nil => exact .stop
    | cons top stack =>
      cases callers with
      | nil => exact .stop
      | cons caller callers => exact .back rfl fun _ => ⟨top, rfl⟩

theorem jump_goes (memory : Memory) (host : Host) {f : Frame} (h : Branches m W f.labels)
    (callers : List Frame) (depth : Nat) :
    Goes m W f.results callers (jump memory host f callers depth) := by
  unfold jump
  split
  · exact .stop
  · exact leave_goes memory host f callers
  · rename_i g hb
    obtain ⟨hsame, hg⟩ := h.branch hb
    exact .stay hsame hg

/-- A call of a quiet function starts confined to no address at all, and its caller waits for a
word. -/
theorem invoke_goes (hm : m.Quiet) (memory : Memory) (host : Host) {f : Frame}
    (callers : List Frame) {name : String} {callee : Function}
    (hname : m.function? name = some callee) (args : List Word)
    (h : match callee.imported with
      | some _ => f.Confined m W
      | none => ∀ v, Frame.Confined m W { f with stack := v :: f.stack }) :
    Goes m W f.results callers (invoke limit memory host f callers callee args) := by
  unfold invoke
  cases hi : callee.imported with
  | some place =>
    obtain ⟨module, field⟩ := place
    rw [hi] at h
    dsimp only
    split
    · exact .stop
    · split
      · exact .stay rfl h
      · exact .stop
  | none =>
    rw [hi] at h
    obtain ⟨hresults, hbody⟩ := hm name callee hname hi
    dsimp only
    split
    · exact .call rfl h hresults (Frame.ofCall_confined hbody args)
    · exact .stop

/-- One case for each instruction. The frame is already past it. -/
theorem exec_goes (hm : m.Quiet) {memory : Memory} (hsize : memory.size = Memory.pageSize)
    (host : Host) {results : Nat} {locals : Table Word} {stack : List Word} {kind : LabelKind}
    {code : List Instr} {height : Nat} {outer : List Label} (callers : List Frame) {i : Instr}
    (ht : Branches m W (⟨kind, code, height⟩ :: outer))
    (h : i.Confined m W (fun vs => Instr.ConfinedAll m W code kind.Ends vs) stack) :
    Goes m W results callers (exec m limit memory host
      ⟨results, locals, stack, ⟨kind, code, height⟩ :: outer⟩ callers i) := by
  cases i with
  | const | address | nop => exact .stay rfl ⟨h, ht⟩
  | num op =>
    rcases stack with _ | ⟨right, _ | ⟨left, stack⟩⟩
    · exact .stop
    · exact .stop
    · simp only [exec]
      split
      · exact .stay rfl ⟨h _, ht⟩
      · exact .stop
  | load =>
    cases stack with
    | nil => exact .stop
    | cons address stack =>
      simp only [exec]
      split
      · exact .stay rfl ⟨h _, ht⟩
      · exact .stop
  | store =>
    rcases stack with _ | ⟨value, _ | ⟨address, stack⟩⟩
    · exact .stop
    · exact .stop
    · simp only [exec]
      split
      · rename_i hstored
        obtain ⟨hholds, rfl⟩ := Memory.store?_eq_some.mp hstored
        exact .stay rfl ⟨h.2 (Memory.inPage_of_holds hsize hholds), ht⟩
      · exact .stop
  | localGet name =>
    simp only [exec]
    split
    · exact .stay rfl ⟨h _, ht⟩
    · exact .stop
  | localSet | drop =>
    cases stack with
    | nil => exact .stop
    | cons value stack => exact .stay rfl ⟨h, ht⟩
  | call name params =>
    simp only [exec]
    split
    · exact .stop
    · rename_i callee hname
      split
      · exact .stop
      · refine invoke_goes (f := ⟨results, locals, stack.drop params, _⟩) hm memory host callers
          hname _ ?_
        have hcall := h callee hname
        split
        · rename_i place hplace
          rw [hplace] at hcall
          exact ⟨hcall, ht⟩
        · rename_i hplace
          rw [hplace] at hcall
          exact fun v => ⟨hcall v, ht⟩
  | ret => exact leave_goes memory host ⟨results, locals, stack, _⟩ callers
  | br depth => exact jump_goes (f := ⟨results, locals, stack, _⟩) memory host ht callers depth
  | brIf depth =>
    cases stack with
    | nil => exact .stop
    | cons value stack =>
      simp only [exec]
      split
      · exact .stay rfl ⟨h, ht⟩
      · exact jump_goes (f := ⟨results, locals, stack, _⟩) memory host ht callers depth
  | block body =>
    obtain ⟨rfl, hbody, hpost⟩ := h
    refine .stay rfl ⟨hbody, rfl, ?_, hpost, ht⟩
    intro code hcode
    cases hcode
  | loop body =>
    obtain ⟨rfl, hbody, hpost⟩ := h
    refine .stay rfl ⟨hbody, rfl, ?_, hpost, ht⟩
    intro code hcode
    cases hcode
    exact hbody

theorem step_goes (hm : m.Quiet) {s : State} (hsize : s.memory.size = Memory.pageSize)
    (h : s.frame.Confined m W) :
    Goes m W s.frame.results s.callers (step m limit s) := by
  obtain ⟨memory, host, ⟨results, locals, stack, labels⟩, callers⟩ := s
  obtain ⟨hnext, ht⟩ := h
  cases labels with
  | nil => exact leave_goes memory host _ callers
  | cons l outer =>
    obtain ⟨kind, code, height⟩ := l
    cases code with
    | cons i code => exact exec_goes hm hsize host callers ht hnext
    | nil =>
      obtain ⟨_, _, hafter, houter⟩ := ht
      cases kind with
      | body => exact leave_goes memory host _ callers
      | block | loop =>
        -- the body around goes on with the empty stack that this one has left
        have hempty : stack = [] := hnext
        subst hempty
        exact .stay rfl ⟨hafter, houter⟩

/-- What a frame is confined to: a call may write nothing. -/
theorem Calls.frame {f : Frame} {callers : List Frame} (h : Calls m W f callers) :
    ∃ V, f.Confined m V ∧ (∀ g : Frame, g.results = f.results → g.Confined m V →
      Calls m W g callers) ∧ ∀ address, V address → callers = [] ∧ W address := by
  cases callers with
  | nil => exact ⟨W, h, fun g _ hg => hg, fun _ ha => ⟨rfl, ha⟩⟩
  | cons caller callers =>
    obtain ⟨hresults, hf, hwaits⟩ := h
    exact ⟨fun _ => False, hf, fun g hsame hg => ⟨hsame.trans hresults, hg, hwaits⟩,
      fun _ ha => ha.elim⟩

namespace State.Confined

variable {s t : State}

/-- A step keeps a state confined: blocks are entered on an empty stack, and a branch to them leaves
one. -/
theorem step (hm : m.Quiet) (h : s.Confined m W) (hs : Machine.step m limit s = .running t) :
    t.Confined m W := by
  obtain ⟨V, hf, hkeep, _⟩ := h.calls.frame
  have hgoes := @step_goes m V limit hm s h.size hf
  have hsize := advance_size m limit 1 s
  rw [advance_one, hs] at hsize
  rw [hs] at hgoes
  constructor
  · exact hsize.trans h.size
  · cases hgoes with
    | stay same confined => exact hkeep _ same confined
    | call same waits gives quiet => exact ⟨gives, quiet, fun v => hkeep _ same (waits v)⟩
    | back calls value =>
      -- a frame that is left is one of a call, so it has a word for the frame below
      have hcalls := h.calls
      rw [calls] at hcalls
      obtain ⟨hresults, _, hwaits⟩ := hcalls
      obtain ⟨v, rfl⟩ := value hresults
      exact hwaits v

/-- Only the entry itself writes, and only to its own addresses. -/
theorem writes {i : Nat} (h : s.Confined m W) (hw : s.writes? = some i) :
    s.callers = [] ∧ ∃ address, W address ∧ Memory.InPage address ∧ i = address.toInt.toNat := by
  obtain ⟨V, hf, _, hV⟩ := h.calls.frame
  obtain ⟨memory, host, ⟨results, locals, stack, labels⟩, callers⟩ := s
  unfold State.writes? at hw
  split at hw
  · rename_i kind code height outer value address stack hlabels hstack
    split at hw
    · rename_i hholds
      cases hw
      obtain ⟨hnext, _⟩ := hf
      dsimp only at hlabels hstack
      subst hlabels hstack
      obtain ⟨hcallers, hallowed⟩ := hV address hnext.1
      exact ⟨hcallers, address, hallowed, Memory.inPage_of_holds h.size hholds, rfl⟩
    · cases hw
  · cases hw

/-- Every state of a run is confined if the first one is. -/
theorem advance (hm : m.Quiet) (h : s.Confined m W) {n : Nat}
    (hs : Machine.advance m limit n s = .running t) : t.Confined m W := by
  induction n generalizing s with
  | zero =>
    cases hs
    exact h
  | succ n ih =>
    rw [Machine.advance] at hs
    split at hs
    · rename_i u hu
      exact ih (h.step hm hu) hs
    · cases hs

/-- Bytes that belong to no word at these addresses stay as they are, however far the run goes. -/
theorem byte_advance (hm : m.Quiet) (h : s.Confined m W) {j : Nat}
    (hj : ∀ address, W address → Memory.InPage address →
      j < address.toInt.toNat ∨ address.toInt.toNat + 4 ≤ j) (n : Nat) :
    (Machine.advance m limit n s).memory.byte j = s.memory.byte j := by
  induction n generalizing s with
  | zero => rfl
  | succ n ih =>
    have hstep : (Machine.step m limit s).memory.byte j = s.memory.byte j := by
      rcases step_memory m limit s with ⟨hmemory, _⟩ | ⟨i, v, hw, hmemory⟩
      · rw [hmemory]
      · obtain ⟨_, address, hallowed, hpage, rfl⟩ := h.writes hw
        have hout := hj address hallowed hpage
        rw [hmemory, Memory.byte_setWord, if_neg, if_neg, if_neg, if_neg] <;> omega
    rw [Machine.advance]
    split
    · rename_i u hu
      rw [hu] at hstep
      exact (ih (h.step hm hu)).trans hstep
    · rename_i o ho
      rw [ho] at hstep
      exact hstep

end State.Confined

end Machine

end Confined

end StackScript
