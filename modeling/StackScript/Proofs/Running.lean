import StackScript.Machine
import StackScript.Proofs.Evaluation

namespace StackScript

structure Page where
  memory : Memory
  sized : memory.size = Memory.pageSize

namespace Page

def set (p : Page) (i : Nat) (v : Word) : Page :=
  ⟨p.memory.setWord i v, by rw [Memory.size_setWord, p.sized]⟩

end Page

def Layout.site (l : Layout) (scopes : Scopes) : Site Page where
  read name page :=
    match l.slots.get? name with
    | some slot => page.memory.wordAt (slot * Layout.slotSize)
    | none => 0
  write name value page :=
    match l.slots.get? name with
    | some slot => page.set (slot * Layout.slotSize) value
    | none => page
  scopes := scopes

namespace Machine

variable {m : Module} {limit : Nat}

theorem advance_add (a b : Nat) (s : State) :
    advance m limit (a + b) s =
      match advance m limit a s with
      | .running t => advance m limit b t
      | .done o => .done o := by
  induction a generalizing s with
  | zero => simp [advance]
  | succ a ih =>
    rw [Nat.succ_add]
    simp only [advance]
    cases step m limit s with
    | running t => exact ih t
    | done o => rfl

theorem advance_one (s : State) : advance m limit 1 s = step m limit s := by
  simp only [advance]
  cases step m limit s <;> rfl

def State.next? (s : State) : Option Instr :=
  s.frame.labels.head?.bind fun l => l.code.head?

/-- Gets to `p` after some number of steps. -/
def Reaches (m : Module) (limit : Nat) (s : State) (p : Progress) : Prop :=
  ∃ n, advance m limit n s = p

def Lasts (m : Module) (limit n : Nat) (s : State) : Prop := ∃ t, advance m limit n s = .running t

theorem Reaches.refl (s : State) : Reaches m limit s (.running s) := ⟨0, rfl⟩

theorem Reaches.trans {s t : State} {p : Progress} (h : Reaches m limit s (.running t))
    (h' : Reaches m limit t p) : Reaches m limit s p := by
  obtain ⟨a, ha⟩ := h
  obtain ⟨b, hb⟩ := h'
  refine ⟨a + b, ?_⟩
  rw [advance_add, ha]
  exact hb

theorem Reaches.one {s : State} {p : Progress} (h : step m limit s = p) : Reaches m limit s p :=
  ⟨1, (advance_one s).trans h⟩

theorem Lasts.mono {n k : Nat} {s : State} (h : Lasts m limit n s) (hk : k ≤ n) :
    Lasts m limit k s := by
  obtain ⟨t, ht⟩ := h
  obtain ⟨d, rfl⟩ := Nat.exists_eq_add_of_le hk
  rw [advance_add] at ht
  cases hs : advance m limit k s with
  | running u => exact ⟨u, hs⟩
  | done o => simp [hs] at ht

theorem Lasts.after {n k : Nat} {s t : State} (hs : advance m limit k s = .running t)
    (h : Lasts m limit n t) : Lasts m limit (k + n) s := by
  obtain ⟨u, hu⟩ := h
  refine ⟨u, ?_⟩
  rw [advance_add, hs]
  exact hu

/-- A run that has ended has no more steps to last for. -/
theorem not_lasts_of_done {n k : Nat} {s : State} {o : Outcome} (h : advance m limit k s = .done o)
    (hk : k ≤ n) : ¬Lasts m limit n s := by
  rintro ⟨t, ht⟩
  obtain ⟨d, rfl⟩ := Nat.exists_eq_add_of_le hk
  rw [advance_add, h] at ht
  cases ht

/-- A run ends in one way only. -/
theorem done_unique {a b : Nat} {s : State} {o o' : Outcome} (h : advance m limit a s = .done o)
    (h' : advance m limit b s = .done o') : o = o' := by
  have hab := @advance_add m limit a b s
  have hba := @advance_add m limit b a s
  rw [h] at hab
  rw [h', Nat.add_comm b a, hab] at hba
  cases hba
  rfl

/-- The run from `s` does what the evaluation with the answer `r` does: it gets to the `target` of a
value, of which `post` holds, or to the trap of a stop, or lasts for `n` steps. -/
def Follows {α : Type} (m : Module) (limit n : Nat) (s : State)
    (r : Option (Except Stop α × World Page)) (target : α → World Page → Progress)
    (post : α → Prop) : Prop :=
  match r with
  | none => Lasts m limit n s
  | some (.error stop, w) =>
    Reaches m limit s (.done ⟨.error stop.trap, w.store.memory, w.host⟩)
  | some (.ok a, w) => Reaches m limit s (target a w) ∧ post a

namespace Follows

variable {α β : Type} {n : Nat} {s t : State} {r : Option (Except Stop α × World Page)}
  {target : α → World Page → Progress} {post : α → Prop}

theorem reached {a : α} {w : World Page} (h : Reaches m limit s (target a w)) (hp : post a) :
    Follows m limit n s (some (.ok a, w)) target post := ⟨h, hp⟩

theorem mono {k : Nat} (h : Follows m limit n s r target post) (hk : k ≤ n) :
    Follows m limit k s r target post := by
  match r with
  | none => exact Lasts.mono h hk
  | some (.error stop, w) => exact h
  | some (.ok a, w) => exact h

/-- Steps before the state that is followed lengthen what the run lasts for. -/
theorem after {k : Nat} (hs : advance m limit k s = .running t)
    (h : Follows m limit n t r target post) : Follows m limit (k + n) s r target post := by
  match r with
  | none => exact Lasts.after hs h
  | some (.error stop, w) => exact Reaches.trans ⟨k, hs⟩ h
  | some (.ok a, w) => exact ⟨Reaches.trans ⟨k, hs⟩ h.1, h.2⟩

/-- A first step costs nothing. -/
theorem step (hs : Machine.step m limit s = .running t)
    (h : Follows m limit n t r target post) : Follows m limit n s r target post :=
  (after ((advance_one s).trans hs) h).mono (Nat.le_add_left n 1)

/-- A first step pays for one unit of fuel. -/
theorem step_succ (hs : Machine.step m limit s = .running t)
    (h : Follows m limit n t r target post) : Follows m limit (n + 1) s r target post := by
  have h' := after ((advance_one s).trans hs) h
  rwa [Nat.add_comm] at h'

theorem from_reached (hs : Reaches m limit s (.running t))
    (h : Follows m limit n t r target post) : Follows m limit n s r target post := by
  obtain ⟨k, hk⟩ := hs
  exact (after hk h).mono (Nat.le_add_left n k)

/-- One evaluation after another is followed by one run after another. -/
theorem bind {g : Eval Page α} {f : α → Eval Page β} {w : World Page}
    {mid : α → World Page → State} {target' : β → World Page → Progress} {post' : β → Prop}
    (h : Follows m limit n s (g w) (fun a w => .running (mid a w)) post)
    (hf : ∀ a w', post a → Follows m limit n (mid a w') (f a w') target' post') :
    Follows m limit n s ((g >>= f) w) target' post' := by
  change Follows m limit n s (Eval.bind g f w) target' post'
  unfold Eval.bind
  cases hg : g w with
  | none =>
    rw [hg] at h
    exact h
  | some p =>
    rw [hg] at h
    obtain ⟨a | a, w'⟩ := p
    · exact h
    · exact from_reached h.1 (hf a w' h.2)

end Follows

end Machine

end StackScript
