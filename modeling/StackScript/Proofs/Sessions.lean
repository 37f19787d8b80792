import StackScript.Proofs.Units

namespace StackScript

namespace Globals

def accept (g : Globals) (source file : String) : Except Diagnostic (Program × Typing × UnitCode) := do
  let p ← Program.parse source file
  let typing ← p.typeOn g.declared
  let code ← UnitCode.ofProgram typing.declared g.layout p
  return (p, typing, code)

def compiled (g : Globals) (p : Program) (typing : Typing) (code : UnitCode) : Compiled where
  text := ModuleText.ofUnit g.definitions code
  type := p.valueType typing
  returnsValue := code.returnsValue
  globals := ⟨code.layout, typing.declared, g.definitions ++ code.definitions⟩

theorem compile_eq (g : Globals) (source file : String) :
    g.compile source file =
      (g.accept source file).map fun (p, typing, code) => g.compiled p typing code := by
  unfold compile accept
  cases Program.parse source file with
  | error d => rfl
  | ok p =>
    simp only [bind, Except.bind]
    cases p.typeOn g.declared with
    | error d => rfl
    | ok typing =>
      dsimp only
      cases UnitCode.ofProgram typing.declared g.layout p <;> rfl

theorem accept_eq_ok {g : Globals} {source file : String} {p : Program} {typing : Typing}
    {code : UnitCode} : g.accept source file = .ok (p, typing, code) ↔
      Program.parse source file = .ok p ∧ p.typeOn g.declared = .ok typing ∧
        UnitCode.ofProgram typing.declared g.layout p = .ok code := by
  simp only [accept, bind_eq_ok, pure_eq_ok, Prod.mk.injEq]
  constructor
  · rintro ⟨p, hp, typing, ht, code, hc, rfl, rfl, rfl⟩
    exact ⟨hp, ht, hc⟩
  · rintro ⟨hp, ht, hc⟩
    exact ⟨p, hp, typing, ht, code, hc, rfl, rfl, rfl⟩

theorem accept_ok {g : Globals} {source file : String} {p : Program} {typing : Typing}
    {code : UnitCode} (h : g.accept source file = .ok (p, typing, code)) :
    p.Named Bare ∧ p.typeOn g.declared = .ok typing ∧
      UnitCode.ofProgram typing.declared g.layout p = .ok code :=
  (accept_eq_ok.mp h).imp_left Program.parse_named

theorem accept_parse {g : Globals} {source file : String} {p : Program} {typing : Typing}
    {code : UnitCode} (h : g.accept source file = .ok (p, typing, code)) :
    Program.parse source file = .ok p := (accept_eq_ok.mp h).1

/-- A unit that compiles has been read, checked and coded. -/
theorem compile_ok {g : Globals} {source file : String} {c : Compiled}
    (h : g.compile source file = .ok c) :
    ∃ p typing code, g.accept source file = .ok (p, typing, code) ∧
      c = g.compiled p typing code := by
  rw [compile_eq] at h
  cases ha : g.accept source file with
  | error d =>
    rw [ha] at h
    cases h
  | ok accepted =>
    obtain ⟨p, typing, code⟩ := accepted
    rw [ha] at h
    cases h
    exact ⟨p, typing, code, rfl, rfl⟩

def compilesIn (g : Globals) (source : String) : Bool :=
  match g.compile source shellName with
  | .error _ => false
  | .ok c => c.globals.layout.next ≤ Page.slots

theorem exists_of_compilesIn {g : Globals} {source : String} (h : g.compilesIn source = true) :
    ∃ c, g.compile source shellName = .ok c ∧ c.globals.layout.next ≤ Page.slots := by
  unfold compilesIn at h
  split at h
  · cases h
  · rename_i c hc
    exact ⟨c, hc, of_decide_eq_true h⟩

end Globals

namespace Session

/-- A run of a unit is the execution of its text. -/
theorem run_eq (s : Session) (steps : Nat) (source : String) :
    s.run steps source =
      match s.globals.compile source shellName with
      | .error d => some (.error d, s)
      | .ok c =>
        match Machine.execute steps s.limit s.memory s.host c.text with
        | .refused e => some (.error e.diagnostic, s)
        | .unfinished => none
        | .ended o => some (s.finish c o) := by
  simp only [run, begin, Machine.execute]
  cases s.globals.compile source shellName with
  | error d => rfl
  | ok c =>
    simp only [bind, Except.bind]
    cases Module.prepare c.text with
    | error e => rfl
    | ok prepared =>
      obtain ⟨m, entry⟩ := prepared
      simp only [pure, Except.pure, Started.advance]
      cases Machine.enter s.limit s.memory s.host entry with
      | done o => rfl
      | running t =>
        dsimp only
        cases Machine.advance m s.limit steps t <;> rfl

/-- A program is checked, coded and run in a session, with this word and type as its result. -/
inductive Executes (s : Session) (p : Program) (raw : Option Word) : Ty → Session → Prop
  | intro {typing : Typing} {code : UnitCode} {steps : Nat} {o : Machine.Outcome}
      (typed : p.typeOn s.globals.declared = .ok typing)
      (coded : UnitCode.ofProgram typing.declared s.globals.layout p = .ok code)
      (ended : Machine.execute steps s.limit s.memory s.host
        (s.globals.compiled p typing code).text = .ended o)
      (result : o.result = .ok raw) :
      Executes s p raw (s.globals.compiled p typing code).type
        ⟨(s.globals.compiled p typing code).globals, o.memory, o.host, s.limit⟩

/-- A unit succeeds exactly if its program does. -/
theorem run_iff_executes {s s' : Session} {source : String} {value : Value} :
    (∃ steps, s.run steps source = some (.ok value, s')) ↔
      ∃ p raw type, Program.parse source shellName = .ok p ∧ s.Executes p raw type s' ∧
        value = .ofWord raw type := by
  constructor
  · rintro ⟨steps, h⟩
    rw [run_eq] at h
    cases hc : s.globals.compile source shellName with
    | error d => simp [hc] at h
    | ok c =>
      obtain ⟨p, typing, code, ha, rfl⟩ := Globals.compile_ok hc
      obtain ⟨hp, ht, hu⟩ := Globals.accept_eq_ok.mp ha
      simp only [hc] at h
      cases he : Machine.execute steps s.limit s.memory s.host
          (s.globals.compiled p typing code).text with
      | refused e => simp [he] at h
      | unfinished => simp [he] at h
      | ended o =>
        simp only [he, finish, Option.some.injEq] at h
        cases hr : o.result with
        | error t => simp [hr] at h
        | ok raw =>
          simp only [hr, Prod.mk.injEq, Except.ok.injEq] at h
          obtain ⟨rfl, rfl⟩ := h
          exact ⟨p, raw, _, hp, .intro ht hu he hr, rfl⟩
  · rintro ⟨p, raw, type, hp, he, rfl⟩
    cases he with
    | @intro typing code steps o ht hu he hr =>
      refine ⟨steps, ?_⟩
      rw [run_eq, Globals.compile_eq, Globals.accept_eq_ok.mpr ⟨hp, ht, hu⟩]
      simp only [Except.map, he, finish, hr]

theorem Executes.compiled {s s' : Session} {p : Program} {raw : Option Word} {type : Ty}
    (h : s.Executes p raw type s') {source file : String}
    (hp : Program.parse source file = .ok p) :
    ∃ c steps o, s.globals.compile source file = .ok c ∧
      Machine.execute steps s.limit s.memory s.host c.text = .ended o ∧ o.result = .ok raw ∧
      c.globals = s'.globals := by
  obtain ⟨ht, hu, he, hr⟩ := h
  refine ⟨_, _, _, ?_, he, hr, rfl⟩
  rw [Globals.compile_eq, Globals.accept_eq_ok.mpr ⟨hp, ht, hu⟩]
  rfl

structure Turn where
  source : String
  before : Session
  answer : Except Diagnostic Value
  after : Session

/-- The variables of the unit, if it compiles, fit in the page. -/
def Turn.Fits (t : Turn) : Prop :=
  ∀ c, t.before.globals.compile t.source shellName = .ok c → c.globals.layout.next ≤ Page.slots

def Turn.Succeeds (t : Turn) : Prop := ∃ value, t.answer = .ok value

/-- Units lead from one session to another, each of them such that `P`. -/
inductive Later (P : Turn → Prop) (s : Session) : Session → Prop
  | refl : Later P s s
  | unit {t t' : Session} {source : String} {steps : Nat} {answer : Except Diagnostic Value}
      (before : Later P s t) (premise : P ⟨source, t, answer, t'⟩)
      (run : t.run steps source = some (answer, t')) : Later P s t'

/-- What each of the units keeps, all of them keep. -/
theorem Later.keeps {P : Turn → Prop} {I : Session → Prop} {s t : Session} (h : Later P s t)
    (hs : I s)
    (hstep : ∀ {t t' source steps answer}, I t → P ⟨source, t, answer, t'⟩ →
      t.run steps source = some (answer, t') → I t') : I t := by
  induction h with
  | refl => exact hs
  | unit _ premise run ih => exact hstep ih premise run

end Session

/-- A unit on top of globals: what its program is, and what its text comes from. -/
structure Compiled.Of (c : Compiled) (g : Globals) (lib : Library) (types : List Ty) (p : Program)
    (typing : Typing) : Prop where
  typed : p.typeOn g.declared = .ok typing
  type : c.type = p.valueType typing
  text : c.text = (lib.after g typing.declared p).unitText
    (UnitCode.topContext typing.declared g.layout p) p.body
  made : c.globals.Made (lib.after g typing.declared p) (p.typesAfter types)
  declared : c.globals.declared = typing.declared
  layout : c.globals.layout = g.layout.extend p.body
  sound : c.globals.layout.next ≤ Page.slots → (lib.after g typing.declared p).Sound
  runs : c.globals.layout.next ≤ Page.slots → Library.Runs (lib.after g typing.declared p).arity
    (UnitCode.topContext typing.declared g.layout p) p.body

/-- A unit that is checked and coded on top of globals extends them by its own functions and
variables. -/
theorem Globals.Made.unit {g : Globals} {lib : Library} {types : List Ty} (hg : g.Made lib types)
    {p : Program} {typing : Typing} {code : UnitCode} (hn : p.Named Bare)
    (ht : p.typeOn g.declared = .ok typing)
    (hu : UnitCode.ofProgram typing.declared g.layout p = .ok code) :
    (g.compiled p typing code).Of g lib types p typing := by
  obtain ⟨head, rest, s, hc⟩ := Program.typeOn_ok hg.sound ht
  have hcode := (UnitCode.ofProgram_ok hu).1
  exact ⟨ht, rfl, Program.CheckedOn.text_eq hg hu, hc.globals_made hg hn hu, rfl,
    congrArg UnitCode.layout hcode, fun hf => hc.library_sound hg hn hu hf,
    fun hf => hc.runs hg hn hu hf⟩

theorem Globals.Made.accepted {g : Globals} {lib : Library} {types : List Ty}
    (hg : g.Made lib types) {source file : String} {p : Program} {typing : Typing}
    {code : UnitCode} (h : g.accept source file = .ok (p, typing, code)) :
    (g.compiled p typing code).Of g lib types p typing := by
  obtain ⟨hn, ht, hu⟩ := accept_ok h
  exact hg.unit hn ht hu

theorem Globals.Made.compiled {g : Globals} {lib : Library} {types : List Ty}
    (hg : g.Made lib types) {source file : String} {c : Compiled}
    (h : g.compile source file = .ok c) : ∃ p typing, c.Of g lib types p typing := by
  obtain ⟨p, typing, code, ha, rfl⟩ := compile_ok h
  exact ⟨p, typing, hg.accepted ha⟩

namespace Compiled.Of

variable {c : Compiled} {g : Globals} {lib : Library} {types : List Ty} {p : Program}
  {typing : Typing}

/-- The text of a unit ends as the evaluation of its program does. -/
theorem execute_iff (h : c.Of g lib types p typing) (hfit : c.globals.layout.next ≤ Page.slots)
    (limit : Nat) (w : World Page) (o : Machine.Outcome) :
    (∃ steps, Machine.execute steps limit w.store.memory w.host c.text = .ended o) ↔
      ∃ fuel r w', evalUnit .parity (lib.after g typing.declared p).routine? limit
        (UnitCode.topContext typing.declared g.layout p).site fuel p.body w = some (r, w') ∧
        o = outcomeOf r w' := by
  rw [h.text]
  exact (h.sound hfit).execute_iff_eval (h.runs hfit) limit w o

theorem next_le (h : c.Of g lib types p typing) (hg : g.Made lib types) :
    g.layout.next ≤ c.globals.layout.next := by
  rw [h.made.typed.next, hg.typed.next, Program.typesAfter, List.length_append]
  omega

theorem prepare (h : c.Of g lib types p typing) (hfit : c.globals.layout.next ≤ Page.slots) :
    ∃ m entry, Module.prepare c.text = .ok (m, entry) := by
  have hr := h.runs hfit
  rw [h.text]
  exact ⟨_, _, (h.sound hfit).written.prepare hr.top hr.named hr.calls⟩

end Compiled.Of

theorem Machine.execute_ne_refused {steps limit : Nat} {memory : Memory} {host : Host}
    {text : String} {e : LoadError} (h : ∃ m entry, Module.prepare text = .ok (m, entry)) :
    execute steps limit memory host text ≠ .refused e := by
  obtain ⟨m, entry, h⟩ := h
  intro he
  simp only [execute, h] at he
  split at he
  · cases he
  · split at he <;> cases he

/-- Evaluation knows four reasons to stop. -/
theorem Stop.message_cases (stop : Stop) :
    stop.trap.message = "integer divide by zero" ∨ stop.trap.message = "integer overflow" ∨
      stop.trap.message = "call stack exhausted" ∨
      ∃ reason, stop.trap.message = "host output failed: " ++ reason := by
  unfold trap Trap.message
  cases stop with
  | divideByZero => exact .inl rfl
  | overflow => exact .inr (.inl rfl)
  | exhausted => exact .inr (.inr (.inl rfl))
  | hostFailed reason => exact .inr (.inr (.inr ⟨reason, rfl⟩))

namespace Session

/-- What is known about a session whatever units it has run. -/
structure Kept (s : Session) (lib : Library) (types : List Ty) : Prop where
  made : s.globals.Made lib types
  sized : s.memory.size = Memory.pageSize

def Kept.world {s : Session} {lib : Library} {types : List Ty} (h : s.Kept lib types) :
    World Page := ⟨⟨s.memory, h.sized⟩, s.host⟩

/-- The cases of a unit: it does not compile, or it ends and is taken up. -/
theorem Kept.run_cases {s s' : Session} {lib : Library} {types : List Ty} (h : s.Kept lib types)
    {source : String} {steps : Nat} {answer : Except Diagnostic Value}
    (hfit : ∀ c, s.globals.compile source shellName = .ok c → c.globals.layout.next ≤ Page.slots)
    (hrun : s.run steps source = some (answer, s')) :
    s' = s ∨ ∃ c o, s.globals.compile source shellName = .ok c ∧
      Machine.execute steps s.limit s.memory s.host c.text = .ended o ∧
      (answer, s') = s.finish c o := by
  rw [run_eq] at hrun
  cases hc : s.globals.compile source shellName with
  | error d =>
    simp only [hc, Option.some.injEq, Prod.mk.injEq] at hrun
    exact .inl hrun.2.symm
  | ok c =>
    obtain ⟨p, typing, hof⟩ := h.made.compiled hc
    simp only [hc] at hrun
    cases he : Machine.execute steps s.limit s.memory s.host c.text with
    | refused e => exact absurd he (Machine.execute_ne_refused (hof.prepare (hfit c hc)))
    | unfinished => simp [he] at hrun
    | ended o =>
      simp only [he, Option.some.injEq] at hrun
      exact .inr ⟨c, o, rfl, he, hrun.symm⟩

/-- A unit leaves the globals as they were or takes up its own, and memory stays a page. -/
theorem Kept.unit {s s' : Session} {lib : Library} {types : List Ty} (h : s.Kept lib types)
    {source : String} {steps : Nat} {answer : Except Diagnostic Value}
    (hfit : ∀ c, s.globals.compile source shellName = .ok c → c.globals.layout.next ≤ Page.slots)
    (hrun : s.run steps source = some (answer, s')) : ∃ lib' types', s'.Kept lib' types' := by
  rcases h.run_cases hfit hrun with rfl | ⟨c, o, hc, he, hs⟩
  · exact ⟨lib, types, h⟩
  · obtain ⟨p, typing, hof⟩ := h.made.compiled hc
    obtain ⟨fuel, r, w', _, rfl⟩ := (hof.execute_iff (hfit c hc) s.limit h.world o).mp ⟨steps, he⟩
    cases r with
    | error stop =>
      cases hs
      exact ⟨lib, types, h.made, w'.store.sized⟩
    | ok raw =>
      cases hs
      exact ⟨_, _, hof.made, w'.store.sized⟩

theorem start_kept (host : Host) (limit : Nat) : (start host limit).Kept [] [] :=
  ⟨Globals.made_empty, rfl⟩

/-- Whatever has been run before, the globals of a session are made of units that succeeded. -/
theorem Later.kept {host : Host} {limit : Nat} {s : Session}
    (h : Later Turn.Fits (start host limit) s) : ∃ lib types, s.Kept lib types := by
  refine h.keeps (I := fun s => ∃ lib types, s.Kept lib types) ⟨[], [], start_kept host limit⟩ ?_
  rintro t t' source steps answer ⟨lib, types, hk⟩ hfits hrun
  exact hk.unit hfits hrun

end Session

/-- A session with the functions behind its texts, its memory a page. -/
structure Trace where
  globals : Globals
  library : Library
  world : World Page
  limit : Nat

namespace Trace

def session (t : Trace) : Session := ⟨t.globals, t.world.store.memory, t.world.host, t.limit⟩

theorem session_globals (t : Trace) : t.session.globals = t.globals := rfl

def start (host : Host) (limit : Nat) : Trace := ⟨.empty, [], ⟨⟨.ofPages 1, rfl⟩, host⟩, limit⟩

structure Success where
  program : Program
  raw : Option Word
  type : Ty
  trace : Trace

/-- Takes up a unit by evaluation, without its text: with success, or else with what it leaves. -/
def take (fuel : Nat) (t : Trace) (source : String) : Option (Except Trace Success) :=
  match t.globals.accept source shellName with
  | .error _ => some (.error t)
  | .ok (p, typing, code) =>
    let library := t.library.after t.globals typing.declared p
    let site := (UnitCode.topContext typing.declared t.globals.layout p).site
    if code.layout.next ≤ Page.slots then
      match evalUnit .parity library.routine? t.limit site fuel p.body t.world with
      | none => none
      | some (.error _, world) => some (.error { t with world })
      | some (.ok raw, world) =>
        let compiled := t.globals.compiled p typing code
        some (.ok ⟨p, raw, compiled.type, compiled.globals, library, world, t.limit⟩)
    else none

def next (fuel : Nat) (t : Trace) (source : String) : Option Trace :=
  (t.take fuel source).map fun
    | .error t' => t'
    | .ok u => u.trace

def succeed (fuel : Nat) (t : Trace) (source : String) : Option Success :=
  (t.take fuel source).bind Except.toOption

def follow (fuel : Nat) (t : Trace) (sources : List String) : Option Trace :=
  sources.foldlM (next fuel) t

variable {host : Host} {limit fuel : Nat} {t t' : Trace} {types : List Ty} {source : String}

theorem start_kept (host : Host) (limit : Nat) :
    (start host limit).session.Kept (start host limit).library [] := Session.start_kept host limit

theorem compile_eq_map (t : Trace) (source : String) :
    t.session.globals.compile source shellName =
      (t.globals.accept source shellName).map fun (p, typing, code) =>
        t.globals.compiled p typing code := by
  rw [session_globals, Globals.compile_eq]

/-- What evaluation finds out about a unit is what its run ends with. -/
theorem take_cases (hk : t.session.Kept t.library types) {r : Except Trace Success}
    (h : t.take fuel source = some r) :
    (∃ d, t.globals.accept source shellName = .error d ∧ r = .error t) ∨
      ∃ p typing code steps result w, t.globals.accept source shellName = .ok (p, typing, code) ∧
        code.layout.next ≤ Page.slots ∧
        Machine.execute steps t.limit t.world.store.memory t.world.host
          (t.globals.compiled p typing code).text = .ended (outcomeOf result w) ∧
        r = match result with
          | .error _ => .error { t with world := w }
          | .ok raw => .ok ⟨p, raw, (t.globals.compiled p typing code).type,
              (t.globals.compiled p typing code).globals,
              t.library.after t.globals typing.declared p, w, t.limit⟩ := by
  unfold take at h
  split at h
  · rename_i d ha
    cases h
    exact .inl ⟨d, ha, rfl⟩
  · rename_i p typing code ha
    have hof := hk.made.accepted ha
    dsimp only at h
    split at h
    · rename_i hfit
      split at h
      · cases h
      · rename_i stop w he
        cases h
        obtain ⟨steps, hsteps⟩ := (hof.execute_iff hfit t.limit t.world _).mpr ⟨fuel, _, w, he, rfl⟩
        exact .inr ⟨p, typing, code, steps, _, w, ha, hfit, hsteps, rfl⟩
      · rename_i raw w he
        cases h
        obtain ⟨steps, hsteps⟩ := (hof.execute_iff hfit t.limit t.world _).mpr ⟨fuel, _, w, he, rfl⟩
        exact .inr ⟨p, typing, code, steps, _, w, ha, hfit, hsteps, rfl⟩
    · cases h

theorem take_fits {answer : Except Diagnostic Value} {s : Session}
    (hk : t.session.Kept t.library types) {r : Except Trace Success}
    (h : t.take fuel source = some r) : Session.Turn.Fits ⟨source, t.session, answer, s⟩ := by
  intro c hc
  rw [compile_eq_map] at hc
  rcases take_cases hk h with ⟨d, ha, _⟩ | ⟨p, typing, code, _, _, _, ha, hfit, _⟩
  · rw [ha] at hc
    cases hc
  · rw [ha] at hc
    cases hc
    exact hfit

/-- A unit that is taken up with success is parsed and run with success. -/
theorem succeed_executes (hk : t.session.Kept t.library types) {u : Success}
    (h : t.succeed fuel source = some u) :
    Program.parse source shellName = .ok u.program ∧
      t.session.Executes u.program u.raw u.type u.trace.session ∧
      ∃ types', u.trace.session.Kept u.trace.library types' := by
  obtain ⟨r, hr, hu⟩ := Option.bind_eq_some_iff.mp h
  rcases take_cases hk hr with ⟨_, _, rfl⟩ | ⟨p, typing, code, steps, result, w, ha, _, he, rfl⟩
  · cases hu
  · obtain ⟨hp, ht, hcode⟩ := Globals.accept_eq_ok.mp ha
    cases result with
    | error stop => cases hu
    | ok raw =>
      cases hu
      have hexecutes : t.session.Executes p raw _ _ := .intro ht hcode he rfl
      exact ⟨hp, hexecutes, _, (hk.made.accepted ha).made, w.store.sized⟩

theorem succeed_run (hk : t.session.Kept t.library types) {u : Success}
    (h : t.succeed fuel source = some u) :
    ∃ steps value, t.session.run steps source = some (.ok value, u.trace.session) ∧
      Session.Turn.Fits ⟨source, t.session, .ok value, u.trace.session⟩ := by
  obtain ⟨r, hr, _⟩ := Option.bind_eq_some_iff.mp h
  obtain ⟨hp, he, _⟩ := succeed_executes hk h
  obtain ⟨steps, hrun⟩ := Session.run_iff_executes.mpr ⟨_, _, _, hp, he, rfl⟩
  exact ⟨steps, _, hrun, take_fits hk hr⟩

theorem succeed_later {s : Session} (hk : t.session.Kept t.library types) {u : Success}
    (h : t.succeed fuel source = some u) (hs : s.Later Session.Turn.Succeeds t.session) :
    s.Later Session.Turn.Succeeds u.trace.session := by
  obtain ⟨steps, value, hrun, _⟩ := succeed_run hk h
  exact hs.unit ⟨value, rfl⟩ hrun

/-- A unit that is taken up by evaluation can be run. -/
theorem next_run (hk : t.session.Kept t.library types) (h : t.next fuel source = some t') :
    ∃ steps answer, t.session.run steps source = some (answer, t'.session) ∧
      Session.Turn.Fits ⟨source, t.session, answer, t'.session⟩ ∧
      ∃ types', t'.session.Kept t'.library types' := by
  obtain ⟨r, hr, ht'⟩ := Option.map_eq_some_iff.mp h
  rcases take_cases hk hr with ⟨d, ha, rfl⟩ | ⟨p, typing, code, steps, result, w, ha, _, he, hresult⟩
  · cases ht'
    refine ⟨0, .error d, ?_, take_fits hk hr, types, hk⟩
    rw [Session.run_eq, compile_eq_map, ha]
    rfl
  · have hrun : t.session.run steps source =
        some (t.session.finish (t.globals.compiled p typing code) (outcomeOf result w)) := by
      rw [Session.run_eq, compile_eq_map, ha]
      dsimp only [Except.map, session]
      rw [he]
    subst hresult
    cases result with
    | error stop =>
      cases ht'
      exact ⟨steps, _, hrun, take_fits hk hr, types, hk.made, w.store.sized⟩
    | ok raw =>
      cases ht'
      exact ⟨steps, _, hrun, take_fits hk hr, _, (hk.made.accepted ha).made, w.store.sized⟩

theorem follow_later {sources : List String} (hk : t.session.Kept t.library types)
    (hr : Session.Later Session.Turn.Fits (.start host limit) t.session)
    (h : t.follow fuel sources = some t') :
    Session.Later Session.Turn.Fits (.start host limit) t'.session := by
  induction sources generalizing t types with
  | nil =>
    cases h
    exact hr
  | cons source sources ih =>
    rw [follow, List.foldlM_cons] at h
    obtain ⟨u, hu, h⟩ := Option.bind_eq_some_iff.mp h
    obtain ⟨steps, answer, hrun, hfits, types', hk'⟩ := next_run hk hu
    exact ih hk' (hr.unit hfits hrun) h

/-- Units that can be taken up one after the other lead to a session that passes a test. -/
theorem exists_later (host : Host) (limit fuel : Nat) (sources : List String)
    (test : Trace → Bool) (h : ((start host limit).follow fuel sources).any test = true) :
    ∃ t : Trace, Session.Later Session.Turn.Fits (.start host limit) t.session ∧
      test t = true := by
  cases hf : (start host limit).follow fuel sources with
  | none =>
    rw [hf] at h
    cases h
  | some t =>
    rw [hf] at h
    exact ⟨t, follow_later (start_kept host limit) .refl hf, h⟩

end Trace

namespace Session

/-- Whatever units a session has run, a unit that it compiles loads, and the only reasons for which
its run stops are these. -/
theorem compiled_never_goes_wrong {host : Host} {limit : Nat} {s : Session}
    (h : Later Turn.Fits (start host limit) s) {source file : String} {c : Compiled}
    (hc : s.globals.compile source file = .ok c) (hfit : c.globals.layout.next ≤ Page.slots) :
    (∃ m entry, Module.prepare c.text = .ok (m, entry)) ∧
      ∀ steps, (∀ e, Machine.execute steps s.limit s.memory s.host c.text ≠ .refused e) ∧
        ∀ o t, Machine.execute steps s.limit s.memory s.host c.text = .ended o →
          o.result = .error t →
          t.message = "integer divide by zero" ∨ t.message = "integer overflow" ∨
            t.message = "call stack exhausted" ∨
            ∃ reason, t.message = "host output failed: " ++ reason := by
  obtain ⟨lib, types, hk⟩ := h.kept
  obtain ⟨p, typing, hof⟩ := hk.made.compiled hc
  have hprep := hof.prepare hfit
  refine ⟨hprep, fun steps => ⟨?_, ?_⟩⟩
  · intro e
    exact Machine.execute_ne_refused hprep
  · intro o t he ht
    obtain ⟨fuel, r, w', _, rfl⟩ := (hof.execute_iff hfit s.limit hk.world o).mp ⟨steps, he⟩
    cases r with
    | ok raw => cases ht
    | error stop =>
      cases ht
      exact stop.message_cases

/-- After a unit that succeeds, one that does not compile and one that stops, a function that calls
itself without end. -/
theorem compiled_never_goes_wrong_after_failures :
    ∃ s c, Later Turn.Fits (start .reliable 20) s ∧
      s.globals.compile "def f(n: int) -> int:\n  return f(n + x)\nf(0)" shellName = .ok c ∧
      c.globals.layout.next ≤ Page.slots ∧
      ∀ steps, (∀ e, Machine.execute steps s.limit s.memory s.host c.text ≠ .refused e) ∧
        ∀ o t, Machine.execute steps s.limit s.memory s.host c.text = .ended o →
          o.result = .error t →
          t.message = "integer divide by zero" ∨ t.message = "integer overflow" ∨
            t.message = "call stack exhausted" ∨
            ∃ reason, t.message = "host output failed: " ++ reason := by
  obtain ⟨t, hr, ht⟩ := Trace.exists_later .reliable 20 5
    ["x: int = 7", "x + True", "y: int = 1\nx = 8 // (y - 1)"]
    (fun t => t.globals.compilesIn "def f(n: int) -> int:\n  return f(n + x)\nf(0)")
    (by decide +kernel)
  obtain ⟨c, hc, hfit⟩ := Globals.exists_of_compilesIn ht
  exact ⟨t.session, c, hr, hc, hfit, (compiled_never_goes_wrong hr hc hfit).2⟩

end Session

end StackScript
