import StackScript.Proofs.Chaining
import StackScript.Proofs.Footprint

namespace StackScript

namespace Layout

structure Dead (l : Layout) (slot : Nat) : Prop where
  taken : slot < l.next
  nameless : ∀ name, l.slots.get? name ≠ some slot

theorem Dead.add {l : Layout} {slot : Nat} (h : l.Dead slot) (name : String) :
    (l.add name).Dead slot := by
  refine ⟨Nat.lt_succ_of_lt h.taken, fun other => ?_⟩
  rw [get?_add]
  split
  · exact fun he => absurd h.taken (by simp [Option.some.inj he])
  · exact h.nameless other

theorem Dead.extend {l : Layout} {slot : Nat} (h : l.Dead slot) (ss : List Stmt) :
    (l.extend ss).Dead slot := by
  rw [extend_eq]
  generalize (FunctionCode.localsOf ss).map (·.1) = names
  induction names generalizing l with
  | nil => exact h
  | cons name names ih => exact ih (h.add name)

/-- A name that is declared again leaves its slot behind. -/
theorem Sound.dead_of_declared {l : Layout} (h : l.Sound) {name : String} {slot : Nat}
    (hslot : l.slots.get? name = some slot) {ss : List Stmt}
    (hd : name ∈ (FunctionCode.localsOf ss).map (·.1)) : (l.extend ss).Dead slot := by
  have hlt := h.below hslot
  constructor
  · obtain ⟨moved, hmoved, hle⟩ := l.slot_of_declared hd
    have hbelow := (h.extend ss).below hmoved
    omega
  · intro other ho
    by_cases hother : other ∈ (FunctionCode.localsOf ss).map (·.1)
    · obtain ⟨moved, hmoved, hle⟩ := l.slot_of_declared hother
      rw [hmoved, Option.some.injEq] at ho
      omega
    · rw [l.slot_of_not_declared hother] at ho
      exact hother (h.apart ho hslot ▸ hd)

end Layout

namespace Session

theorem Started.advance_succ {u : Started} {limit n : Nat} {t : Machine.State}
    (h : (u.advance limit n).progress = .running t) :
    (u.advance limit (n + 1)).progress = Machine.step u.module limit t := by
  cases hu : u.progress with
  | done o =>
    simp only [advance, hu] at h
    cases h
  | running s =>
    simp only [advance, hu] at h ⊢
    rw [Machine.advance_add, h]
    exact Machine.advance_one t

theorem outcome_unique {u : Started} {limit n k : Nat} {o o' : Machine.Outcome}
    (h : (u.advance limit n).progress = .done o) (h' : (u.advance limit k).progress = .done o') :
    o = o' := by
  cases hu : u.progress with
  | done p =>
    simp only [Started.advance, hu, Machine.Progress.done.injEq] at h h'
    exact h.symm.trans h'
  | running s =>
    simp only [Started.advance, hu] at h h'
    exact Machine.done_unique h h'

structure Started.Confined (u : Started) (names : List String) : Prop where
  quiet : u.module.Quiet
  running : ∀ t, u.progress = .running t →
    t.Confined u.module (u.compiled.globals.layout.Writable names)

namespace Started.Confined

variable {u : Started} {names : List String} {limit n : Nat}

/-- The next step writes the slot of one of the variables, if it writes, and no call is under way. -/
theorem writes (h : u.Confined names) {t : Machine.State}
    (ht : (u.advance limit n).progress = .running t) {i : Nat} (hw : t.writes? = some i) :
    t.callers = [] ∧ ∃ name ∈ names, ∃ slot,
      u.compiled.globals.layout.slots.get? name = some slot ∧ i = slot * Layout.slotSize := by
  unfold advance at ht
  split at ht
  · rename_i o ho
    rw [ho] at ht
    cases ht
  · rename_i s hs
    obtain ⟨hcallers, address, hallowed, hpage, rfl⟩ :=
      ((h.running s hs).advance h.quiet ht).writes hw
    exact ⟨hcallers, hallowed.slot hpage⟩

/-- A call leaves memory as it is. -/
theorem memory_of_call (h : u.Confined names) {t : Machine.State}
    (ht : (u.advance limit n).progress = .running t) (hcallers : t.callers ≠ []) :
    (u.advance limit (n + 1)).progress.memory = t.memory := by
  rw [advance_succ ht]
  rcases Machine.step_memory u.module limit t with ⟨hmemory, _⟩ | ⟨i, _, hw, _⟩
  · exact hmemory
  · exact absurd (h.writes ht hw).1 hcallers

theorem byte_eq (h : u.Confined names) {j : Nat}
    (hj : ∀ name ∈ names, ∀ slot, u.compiled.globals.layout.slots.get? name = some slot →
      j < slot * Layout.slotSize ∨ slot * Layout.slotSize + 4 ≤ j) :
    (u.advance limit n).progress.memory.byte j = u.progress.memory.byte j := by
  unfold advance
  split
  · rfl
  · rename_i s hs
    rw [hs]
    refine (h.running s hs).byte_advance h.quiet ?_ n
    intro address hallowed hpage
    obtain ⟨name, hn, slot, hslot, haddress⟩ := hallowed.slot hpage
    rw [haddress]
    exact hj name hn slot hslot

end Started.Confined

theorem Started.advance_size (u : Started) (limit n : Nat) :
    (u.advance limit n).progress.memory.size = u.progress.memory.size := by
  unfold advance
  split
  · rfl
  · rename_i s hs
    rw [hs]
    exact Machine.advance_size u.module limit n s

theorem begin_eq_ok {s : Session} {source file : String} {u : Started} :
    s.begin source file = .ok u ↔ ∃ c m entry, s.globals.compile source file = .ok c ∧
      Module.prepare c.text = .ok (m, entry) ∧
      u = ⟨c, m, Machine.enter s.limit s.memory s.host entry⟩ := by
  unfold Session.begin
  cases s.globals.compile source file with
  | error d => simp [bind, Except.bind]
  | ok c =>
    simp only [bind, Except.bind]
    cases hp : Module.prepare c.text with
    | error e => simp [hp]
    | ok loaded =>
      obtain ⟨m, entry⟩ := loaded
      simp [hp, pure, Except.pure, eq_comm]

/-- What is known about a session whatever units it has run: its variables lie in its memory. -/
def Housed (s : Session) : Prop :=
  ∃ lib types, s.Kept lib types ∧ s.globals.layout.next ≤ Page.slots

theorem housed_start (host : Host) (limit : Nat) : (start host limit).Housed :=
  ⟨[], [], ⟨Globals.made_empty, rfl⟩, Nat.zero_le _⟩

/-- A unit that compiles starts, and stays within the variables that it sets. -/
theorem Housed.begin {s : Session} (h : s.Housed) {source file : String} {c : Compiled}
    (hc : s.globals.compile source file = .ok c) :
    ∃ p u, Program.parse source file = .ok p ∧ s.begin source file = .ok u ∧ u.compiled = c ∧
      c.globals.layout = s.globals.layout.extend p.body ∧ u.progress.memory = s.memory ∧
      u.Confined (Stmt.targetsAll p.body) := by
  obtain ⟨lib, types, hk, hfit⟩ := h
  obtain ⟨p, typing, code, ha, rfl⟩ := Globals.compile_ok hc
  obtain ⟨hn, ht, hu⟩ := Globals.accept_ok ha
  have hof := hk.made.unit hn ht hu
  obtain ⟨hquiet, hconfined⟩ := hk.made.entry_confined hfit hn ht hu
  have hloads := hk.made.loads hn ht hu
  let entry := entryFunction (UnitCode.topContext typing.declared s.globals.layout p) p.body
  refine ⟨p, ⟨s.globals.compiled p typing code, (lib.after s.globals typing.declared p).module entry,
    Machine.enter s.limit s.memory s.host entry⟩, Globals.accept_parse ha,
    begin_eq_ok.mpr ⟨_, _, _, hc, hloads, rfl⟩, rfl, hof.layout, ?_, hquiet, ?_⟩
  · change (Machine.enter s.limit s.memory s.host entry).memory = s.memory
    simp only [Machine.enter, entry, entryFunction]
    split <;> rfl
  · intro t hrunning
    simp only [Machine.enter, entry, entryFunction] at hrunning
    split at hrunning
    · cases hrunning
      refine ⟨hk.sized, Machine.Frame.ofCall_confined ?_ []⟩
      rw [hof.layout]
      exact hconfined
    · cases hrunning

theorem Housed.started {s : Session} (h : s.Housed) {source file : String} {u : Started}
    (hu : s.begin source file = .ok u) :
    ∃ p, Program.parse source file = .ok p ∧
      s.globals.compile source file = .ok u.compiled ∧
      u.compiled.globals.layout = s.globals.layout.extend p.body ∧ u.progress.memory = s.memory ∧
      u.Confined (Stmt.targetsAll p.body) := by
  obtain ⟨c, _, _, hc, _⟩ := begin_eq_ok.mp hu
  obtain ⟨p, u', hp, hb, rfl, hlayout, hmemory, hconfined⟩ := h.begin hc
  rw [hu, Except.ok.injEq] at hb
  subst hb
  exact ⟨p, hp, hc, hlayout, hmemory, hconfined⟩

/-- The cases of a unit: it does not start, or it ends and is taken up. -/
theorem run_cases {s s' : Session} {n : Nat} {source : String} {answer : Except Diagnostic Value}
    (h : s.run n source = some (answer, s')) :
    (∃ d, s.begin source shellName = .error d ∧ answer = .error d ∧ s' = s) ∨
      ∃ u o, s.begin source shellName = .ok u ∧ (u.advance s.limit n).progress = .done o ∧
        s.finish u.compiled o = (answer, s') := by
  unfold run at h
  split at h
  · rename_i d hd
    cases h
    exact .inl ⟨d, hd, rfl, rfl⟩
  · rename_i u hu
    split at h
    · cases h
    · rename_i o ho
      exact .inr ⟨u, o, hu, ho, Option.some.inj h⟩

/-- The globals of a unit are taken up exactly if it succeeds. -/
theorem run_globals {s s' : Session} {n : Nat} {source : String}
    {answer : Except Diagnostic Value} (h : s.run n source = some (answer, s')) :
    (∃ d, answer = .error d) ∧ s'.globals = s.globals ∨
      ∃ u value, s.begin source shellName = .ok u ∧ answer = .ok value ∧
        s'.globals = u.compiled.globals := by
  rcases run_cases h with ⟨d, _, rfl, rfl⟩ | ⟨u, o, hu, _, hs⟩
  · exact .inl ⟨⟨d, rfl⟩, rfl⟩
  · unfold finish at hs
    split at hs
    · cases hs
      exact .inr ⟨u, _, hu, rfl, rfl⟩
    · cases hs
      exact .inl ⟨⟨_, rfl⟩, rfl⟩

theorem run_memory {s s' : Session} {n : Nat} {source : String}
    {answer : Except Diagnostic Value} (h : s.run n source = some (answer, s')) :
    s'.memory = s.memory ∨ ∃ u, s.begin source shellName = .ok u ∧
      s'.memory = (u.advance s.limit n).progress.memory := by
  rcases run_cases h with ⟨_, _, _, rfl⟩ | ⟨u, o, hu, ho, hs⟩
  · exact .inl rfl
  · refine .inr ⟨u, hu, ?_⟩
    rw [ho]
    unfold finish at hs
    split at hs <;> cases hs <;> rfl

/-- The variables of a session lie in its memory, as a unit that declares too many stops before it is
taken up. -/
theorem Housed.run {s s' : Session} (h : s.Housed) {n : Nat} {source : String}
    {answer : Except Diagnostic Value} (hrun : s.run n source = some (answer, s')) : s'.Housed := by
  obtain ⟨lib, types, hk, hfit⟩ := id h
  cases answer with
  | ok value =>
    obtain ⟨hfits, hnext⟩ := hk.fits_of_success hfit hrun
    obtain ⟨lib', types', hk'⟩ := hk.unit hfits hrun
    exact ⟨lib', types', hk', hnext⟩
  | error d =>
    have hglobals : s'.globals = s.globals := by
      rcases run_globals hrun with ⟨_, hsame⟩ | ⟨_, _, _, hanswer, _⟩
      · exact hsame
      · cases hanswer
    have hsize : s'.memory.size = s.memory.size := by
      rcases run_memory hrun with hsame | ⟨u, hu, hmemory⟩
      · rw [hsame]
      · obtain ⟨_, _, _, _, hstart, _⟩ := h.started hu
        rw [hmemory, u.advance_size, hstart]
    exact ⟨lib, types, ⟨hglobals ▸ hk.made, hsize.trans hk.sized⟩, hglobals ▸ hfit⟩

def Turn.Any (_ : Turn) : Prop := True

theorem Later.housed {P : Turn → Prop} {s t : Session} (h : Later P s t) (hs : s.Housed) : t.Housed :=
  h.keeps hs fun ht _ hrun => ht.run hrun

/-- A slot that has no name in the layout of a unit is not touched by it, however far it runs. -/
theorem Housed.dead_untouched {s : Session} (h : s.Housed) {source file : String} {u : Started}
    (hu : s.begin source file = .ok u) {slot : Nat} (hd : u.compiled.globals.layout.Dead slot)
    (n : Nat) :
    (∀ k < 4, (u.advance s.limit n).progress.memory.byte (slot * Layout.slotSize + k) =
      s.memory.byte (slot * Layout.slotSize + k)) ∧
    ∀ t i, (u.advance s.limit n).progress = .running t → t.writes? = some i →
      i + 4 ≤ slot * Layout.slotSize ∨ slot * Layout.slotSize + 4 ≤ i := by
  obtain ⟨p, _, _, _, hmemory, hconfined⟩ := h.started hu
  have hother {name : String} {other : Nat}
      (ho : u.compiled.globals.layout.slots.get? name = some other) : other ≠ slot := by
    rintro rfl
    exact hd.nameless name ho
  refine ⟨fun k hk => ?_, fun t i ht hw => ?_⟩
  · rw [← hmemory]
    refine hconfined.byte_eq fun name _ other ho => ?_
    have hne := hother ho
    simp only [Layout.slotSize]
    omega
  · obtain ⟨_, name, _, other, ho, rfl⟩ := hconfined.writes ht hw
    have hne := hother ho
    simp only [Layout.slotSize]
    omega

theorem Housed.dead_after {s : Session} (h : s.Housed) {source file : String} {u : Started}
    (hu : s.begin source file = .ok u) {slot : Nat} (hd : s.globals.layout.Dead slot) :
    u.compiled.globals.layout.Dead slot := by
  obtain ⟨p, _, _, hlayout, _⟩ := h.started hu
  rw [hlayout]
  exact hd.extend p.body

/-- A slot that has no name in the layout of a unit keeps its bytes through the unit. -/
theorem Housed.dead_kept {s s' : Session} (h : s.Housed) {n : Nat} {source : String}
    {answer : Except Diagnostic Value} (hrun : s.run n source = some (answer, s')) {slot : Nat}
    (hd : ∀ u, s.begin source shellName = .ok u → u.compiled.globals.layout.Dead slot) :
    ∀ k < 4, s'.memory.byte (slot * Layout.slotSize + k) =
      s.memory.byte (slot * Layout.slotSize + k) := by
  intro k hk
  rcases run_memory hrun with hmemory | ⟨u, hu, hmemory⟩
  · rw [hmemory]
  · rw [hmemory]
    exact (h.dead_untouched hu (hd u hu) n).1 k hk

/-- What no name stands for stays so, and keeps its bytes. -/
theorem Later.dead {P : Turn → Prop} {s t : Session} (h : Later P s t) (hs : s.Housed) {slot : Nat}
    (hd : s.globals.layout.Dead slot) :
    t.globals.layout.Dead slot ∧ ∀ k < 4,
      t.memory.byte (slot * Layout.slotSize + k) = s.memory.byte (slot * Layout.slotSize + k) := by
  induction h with
  | refl => exact ⟨hd, fun _ _ => rfl⟩
  | @unit t t' source n answer before _ run ih =>
    obtain ⟨hdead, hbytes⟩ := ih
    have ht := before.housed hs
    have hkept := ht.dead_kept run fun u hu => ht.dead_after hu hdead
    refine ⟨?_, fun k hk => (hkept k hk).trans (hbytes k hk)⟩
    rcases run_globals run with ⟨_, hglobals⟩ | ⟨u, _, hu, _, hglobals⟩
    · rw [hglobals]
      exact hdead
    · rw [hglobals]
      exact ht.dead_after hu hdead

/-- A unit that compiles after any others starts. However far it runs, the bytes that differ are those
of the variables that its top level sets, where its own layout has them. No step of a call changes
memory: every write is one of the entry itself, to one of these variables. Once the unit has ended
well, no unit writes the slot that a variable had before this one declared it again. -/
theorem unit_writes_its_targets {host : Host} {limit : Nat} {s : Session}
    (hs : Later Turn.Any (start host limit) s) {source : String} {c : Compiled}
    (hc : s.globals.compile source shellName = .ok c) :
    ∃ p u, Program.parse source shellName = .ok p ∧ s.begin source shellName = .ok u ∧
      u.compiled = c ∧
      (∀ n i, (u.advance s.limit n).progress.memory.byte i ≠ s.memory.byte i →
        ∃ name ∈ Stmt.targetsAll p.body, ∃ slot, c.globals.layout.slots.get? name = some slot ∧
          slot * 4 ≤ i ∧ i < slot * 4 + 4) ∧
      (∀ n t, (u.advance s.limit n).progress = .running t → t.callers ≠ [] →
        (u.advance s.limit (n + 1)).progress.memory = t.memory) ∧
      (∀ n t i, (u.advance s.limit n).progress = .running t → t.writes? = some i →
        t.callers = [] ∧ ∃ name ∈ Stmt.targetsAll p.body, ∃ slot,
          c.globals.layout.slots.get? name = some slot ∧ i = slot * 4) ∧
      ∀ name old, s.globals.layout.slots.get? name = some old →
        name ∈ (FunctionCode.localsOf p.body).map (·.1) →
        ∀ n value s', s.run n source = some (.ok value, s') → ∀ s'', Later Turn.Any s' s'' →
          (∀ k < 4, s''.memory.byte (old * 4 + k) = s.memory.byte (old * 4 + k)) ∧
          ∀ source' u', s''.begin source' shellName = .ok u' → ∀ n t i,
            (u'.advance s''.limit n).progress = .running t → t.writes? = some i →
            i + 4 ≤ old * 4 ∨ old * 4 + 4 ≤ i := by
  have hhoused := hs.housed (housed_start host limit)
  obtain ⟨p, u, hp, hu, hcompiled, hlayout, hmemory, hconfined⟩ := hhoused.begin hc
  refine ⟨p, u, hp, hu, hcompiled, ?bytes, ?calls, ?writes, ?redeclared⟩
  case bytes =>
    intro n i hne
    by_contra hnone
    refine hne ?_
    rw [← hmemory]
    refine hconfined.byte_eq fun name hn slot hslot => ?_
    rw [hcompiled] at hslot
    by_contra hin
    simp only [Layout.slotSize, not_or, Nat.not_lt, Nat.not_le] at hin
    exact hnone ⟨name, hn, slot, hslot, hin⟩
  case calls =>
    intro n t ht hcallers
    exact hconfined.memory_of_call ht hcallers
  case writes =>
    intro n t i ht hw
    rw [← hcompiled]
    exact hconfined.writes ht hw
  case redeclared =>
    intro name old hold hdeclared n value s' hrun s'' hlater
    have hdead : u.compiled.globals.layout.Dead old := by
      obtain ⟨lib, types, hk, _⟩ := hhoused
      rw [hcompiled, hlayout]
      exact hk.made.layout.dead_of_declared hold hdeclared
    have hdead' : s'.globals.layout.Dead old := by
      rcases run_globals hrun with ⟨⟨_, hanswer⟩, _⟩ | ⟨u', _, hu', _, hglobals⟩
      · cases hanswer
      · rw [hu, Except.ok.injEq] at hu'
        rw [hglobals, ← hu']
        exact hdead
    have hown := hhoused.dead_kept hrun fun u' hu' => by
      rw [hu, Except.ok.injEq] at hu'
      exact hu' ▸ hdead
    have hs' : s'.Housed := hhoused.run hrun
    obtain ⟨hdead'', hbytes⟩ := hlater.dead hs' hdead'
    have hs'' : s''.Housed := hlater.housed hs'
    refine ⟨fun k hk => (hbytes k hk).trans (hown k hk), fun source' u' hu' n t i => ?_⟩
    exact (hs''.dead_untouched hu' (hs''.dead_after hu' hdead'') n).2 t i

/-- What a variable held before it was declared again stays where it was for good. -/
theorem unit_writes_its_targets_redeclared :
    ∃ s s' n value, Later Turn.Any (start .reliable 20) s ∧
      s.globals.layout.slots.get? "x" = some 0 ∧ s.memory.byte 0 = 7 ∧
      s.run n "x: int = f(2)\nif x > 2:\n  x = f(x)" = some (.ok value, s') ∧
      ∀ s'', Later Turn.Any s' s'' → s''.memory.byte 0 = 7 := by
  have htest : ((Trace.start .reliable 20).succeed 5
      "x: int = 7\ndef f(n: int) -> int:\n  y: int = n\n  y = y + 1\n  return y").any (fun a =>
      a.trace.globals.layout.slots.get? "x" = some 0 ∧ a.trace.world.store.memory.byte 0 = 7 ∧
      (a.trace.succeed 5 "x: int = f(2)\nif x > 2:\n  x = f(x)").any fun b =>
        "x" ∈ (FunctionCode.localsOf b.program.body).map (·.1)) = true := by
    decide +kernel
  obtain ⟨a, ha, htest⟩ := (Option.any_eq_true _ _).mp htest
  obtain ⟨hslot, hbyte, htest⟩ := of_decide_eq_true htest
  obtain ⟨b, hb, hdeclared⟩ := (Option.any_eq_true _ _).mp htest
  obtain ⟨hpa, hea, _, hka⟩ := Trace.succeed_executes (Trace.start_kept .reliable 20) ha
  obtain ⟨hpb, heb, _⟩ := Trace.succeed_executes hka hb
  obtain ⟨steps, hrun⟩ := run_iff_executes.mpr ⟨_, _, _, hpa, hea, rfl⟩
  obtain ⟨steps', hrun'⟩ := run_iff_executes.mpr ⟨_, _, _, hpb, heb, rfl⟩
  have hs : Later Turn.Any (start .reliable 20) a.trace.session := Later.refl.unit trivial hrun
  rcases run_cases hrun' with ⟨_, _, hanswer, _⟩ | ⟨u, o, hu, _⟩
  · cases hanswer
  · obtain ⟨c, _, _, hc, _⟩ := begin_eq_ok.mp hu
    obtain ⟨p, _, hp, _, _, _, _, _, hmoved⟩ := unit_writes_its_targets hs hc
    rw [hpb] at hp
    cases hp
    refine ⟨_, _, steps', _, hs, hslot, hbyte, hrun', fun s'' hlater => ?_⟩
    have hkept := hmoved "x" 0 hslot (of_decide_eq_true hdeclared) steps' _ _ hrun' s'' hlater
    exact (hkept.1 0 (by decide)).trans hbyte

inductive History : Session → List Turn → Prop
  | nil (s : Session) : History s []
  | unit {s s' : Session} {n : Nat} {source : String} {answer : Except Diagnostic Value}
      {turns : List Turn} (run : s.run n source = some (answer, s')) (rest : History s' turns) :
      History s (⟨source, s, answer, s'⟩ :: turns)

/-- The unit failed at one of the stages that come before it runs. -/
def Turn.Refused (turn : Turn) : Prop :=
  ∃ d, turn.answer = .error d ∧ d.cause.stage ∈ [.syntactic, .scoping, .typing, .generation]

/-- Any of the units that were refused are left out. -/
inductive Pruned : List Turn → List Turn → Prop
  | nil : Pruned [] []
  | keep {turn : Turn} {turns kept : List Turn} (rest : Pruned turns kept) :
      Pruned (turn :: turns) (turn :: kept)
  | drop {turn : Turn} {turns kept : List Turn} (refused : turn.Refused)
      (rest : Pruned turns kept) : Pruned (turn :: turns) kept

section Failures

variable {s s' : Session} {n : Nat} {source : String} {d : Diagnostic}

theorem globals_of_failed (h : s.run n source = some (.error d, s')) : s'.globals = s.globals := by
  rcases run_globals h with ⟨_, hglobals⟩ | ⟨_, _, _, hanswer, _⟩
  · exact hglobals
  · cases hanswer

/-- Whatever stops a unit that has started is reported as a failure of its run. -/
theorem eq_of_refused (h : s.run n source = some (.error d, s'))
    (hd : d.cause.stage ∈ [.syntactic, .scoping, .typing, .generation]) : s' = s := by
  rcases run_cases h with ⟨_, _, _, rfl⟩ | ⟨u, o, _, _, hs⟩
  · rfl
  · unfold finish at hs
    split at hs
    · cases hs
    · cases hs
      simp [Trap.diagnostic, Cause.stage] at hd

/-- How long a unit may run makes no difference to how it ends. -/
theorem run_unique {k : Nat} {r r' : Except Diagnostic Value × Session}
    (h : s.run n source = some r) (h' : s.run k source = some r') : r = r' := by
  obtain ⟨answer, after⟩ := r
  obtain ⟨answer', after'⟩ := r'
  rcases run_cases h with ⟨e, he, rfl, rfl⟩ | ⟨u, o, hu, ho, hs⟩
  · rcases run_cases h' with ⟨e', he', rfl, rfl⟩ | ⟨u', o', hu', _⟩
    · rw [he, Except.error.injEq] at he'
      rw [he']
    · rw [he] at hu'
      cases hu'
  · rcases run_cases h' with ⟨e', he', _⟩ | ⟨u', o', hu', ho', hs'⟩
    · rw [hu] at he'
      cases he'
    · rw [hu, Except.ok.injEq] at hu'
      subst hu'
      rw [← hs, ← hs', outcome_unique ho ho']

theorem History.unique {turns turns' : List Turn} (h : History s turns) (h' : History s turns')
    (hsources : turns.map Turn.source = turns'.map Turn.source) : turns = turns' := by
  induction h generalizing turns' with
  | nil =>
    cases h' with
    | nil => rfl
    | unit => cases hsources
  | unit run rest ih =>
    cases h' with
    | nil => cases hsources
    | unit run' rest' =>
      obtain ⟨rfl, hrest⟩ := List.cons.inj hsources
      cases run_unique run run'
      rw [ih rest' hrest]

/-- Leaving out refused units changes nothing for the others. -/
theorem History.pruned {turns kept : List Turn} (h : History s turns) (hp : Pruned turns kept) :
    History s kept := by
  induction hp generalizing s with
  | nil => exact .nil s
  | keep _ ih =>
    cases h with
    | unit run rest => exact .unit run (ih rest)
  | drop refused _ ih =>
    cases h with
    | unit run rest =>
      obtain ⟨d, rfl, hd⟩ := refused
      rw [eq_of_refused run hd] at rest
      exact ih rest

theorem History.run_of_mem {turns : List Turn} (h : History s turns) {turn : Turn}
    (hm : turn ∈ turns) : ∃ n, turn.before.run n turn.source = some (turn.answer, turn.after) := by
  induction h with
  | nil => cases hm
  | unit run _ ih =>
    rcases List.mem_cons.mp hm with rfl | hm
    · exact ⟨_, run⟩
    · exact ih hm

/-- Without any of the units that were refused, the other ones of a session run as before: each finds
the same session, gives the same answer and leaves the same globals, memory and output, and that is
the only way in which they can run. No unit that fails, for whatever reason, changes the globals. -/
theorem refused_units_leave_no_trace {turns : List Turn} (h : History s turns) :
    (∀ kept, Pruned turns kept → History s kept ∧ ∀ other, History s other →
      other.map Turn.source = kept.map Turn.source → other = kept) ∧
    (∀ turn ∈ turns, turn.Refused → turn.after = turn.before) ∧
    ∀ turn ∈ turns, ∀ d, turn.answer = .error d → turn.after.globals = turn.before.globals := by
  refine ⟨fun kept hp => ?_, fun turn hm hrefused => ?_, fun turn hm d hd => ?_⟩
  · have hkept := h.pruned hp
    exact ⟨hkept, fun other ho hsources => ho.unique hkept hsources⟩
  · obtain ⟨n, hrun⟩ := h.run_of_mem hm
    obtain ⟨d, hanswer, hd⟩ := hrefused
    rw [hanswer] at hrun
    exact eq_of_refused hrun hd
  · obtain ⟨n, hrun⟩ := h.run_of_mem hm
    rw [hd] at hrun
    exact globals_of_failed hrun

end Failures

def refusal? (s : Session) (source : String) : Option Stage :=
  match s.globals.compile source shellName with
  | .error d => some d.cause.stage
  | .ok _ => none

theorem run_of_refusal? {s : Session} {source : String} {stage : Stage}
    (h : s.refusal? source = some stage) (n : Nat) :
    ∃ d, d.cause.stage = stage ∧ s.run n source = some (.error d, s) := by
  unfold refusal? at h
  split at h
  · rename_i d hd
    refine ⟨d, Option.some.inj h, ?_⟩
    rw [run_eq, hd]
  · cases h

/-- The second of three units is checked halfway, with a variable that the third then declares. -/
theorem refused_units_leave_no_trace_halfway :
    ∃ a b c : Turn, History (start .reliable 20) [a, b, c] ∧ b.Refused ∧
      b.source = "y: int = x\ny + True" ∧ c.source = "y: int = x\nprint(y)" ∧
      History (start .reliable 20) [a, c] ∧ b.after = b.before ∧ c.after.host.output = "7\n" := by
  have htest : ((Trace.start .reliable 20).succeed 5 "x: int = 7").any (fun a =>
      a.trace.session.refusal? "y: int = x\ny + True" = some .typing ∧
      (a.trace.succeed 5 "y: int = x\nprint(y)").any fun c =>
        c.trace.world.host.output = "7\n") = true := by
    decide +kernel
  obtain ⟨a, ha, htest⟩ := (Option.any_eq_true _ _).mp htest
  obtain ⟨hrefusal, htest⟩ := of_decide_eq_true htest
  obtain ⟨c, hc, hout⟩ := (Option.any_eq_true _ _).mp htest
  obtain ⟨hpa, hea, _, hka⟩ := Trace.succeed_executes (Trace.start_kept .reliable 20) ha
  obtain ⟨hpc, hec, _⟩ := Trace.succeed_executes hka hc
  obtain ⟨steps, hrun⟩ := run_iff_executes.mpr ⟨_, _, _, hpa, hea, rfl⟩
  obtain ⟨steps', hrun'⟩ := run_iff_executes.mpr ⟨_, _, _, hpc, hec, rfl⟩
  obtain ⟨d, hstage, hfails⟩ := run_of_refusal? hrefusal 0
  have hhistory := History.unit hrun (.unit hfails (.unit hrun' (.nil _)))
  have hrefused : Turn.Refused ⟨"y: int = x\ny + True", a.trace.session, .error d,
      a.trace.session⟩ := ⟨d, rfl, by simp [hstage]⟩
  obtain ⟨hpruned, hsame, _⟩ := refused_units_leave_no_trace hhistory
  refine ⟨_, _, _, hhistory, hrefused, rfl, rfl, ?_, hsame _ (by simp) hrefused,
    of_decide_eq_true hout⟩
  exact (hpruned _ (.keep (.drop hrefused (.keep .nil)))).1

end Session

end StackScript
