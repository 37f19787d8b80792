import StackScript.Proofs.Slots

namespace StackScript

theorem Layout.site_mirrors (l : Layout) (scopes : Scopes) :
    (l.site scopes).Mirrors (fun x y => x = y) l := by
  constructor
  · rintro name slot hslot page _ rfl
    exact Layout.read_site scopes hslot page
  · rintro name slot hslot page _ rfl v
    exact Layout.write_site scopes hslot v page

namespace Memory

def SameFrom (m m' : Memory) (n : Nat) : Prop :=
  ∀ ⦃slot : Nat⦄, n ≤ slot → m'.word slot = m.word slot

theorem ZeroFrom.same {m m' : Memory} {n k : Nat} (h : m.ZeroFrom n) (hk : n ≤ k)
    (hs : m.SameFrom m' k) : m'.ZeroFrom k := by
  intro slot hslot
  rw [hs hslot]
  exact h (Nat.le_trans hk hslot)

end Memory

/-- Variables are written in slots of the layout, so that the slots behind it keep their words. -/
theorem Site.Mirrors.framed {σ : Type} {Q : σ → Page → Prop} {l : Layout} {a : Site σ}
    (h : a.Mirrors Q l) (hl : l.Sound) (m : Memory) :
    a.Mirrors (fun x y => Q x y ∧ m.SameFrom y.memory l.next) l := by
  constructor
  · intro name slot hslot x y hxy
    exact h.reads hslot hxy.1
  · rintro name slot hslot x y ⟨hq, hsame⟩ v
    refine ⟨h.writes hslot hq v, fun other ho => ?_⟩
    have hbelow := hl.below hslot
    rw [Page.word_put, if_neg (by omega)]
    exact hsame ho

/-- A value at the end of top-level statements is that of a last expression. -/
theorem Stmt.endsInExpr_of_evalTop {σ : Type} {t : Truth} {f : String → List Word → Eval σ Word}
    {a : Site σ} {fuel : Nat} {stmts : List Stmt} {value : Word} {w w' : World σ}
    (h : evalTop t f a fuel stmts w = some (.ok (some value), w')) :
    Program.endsInExpr ⟨stmts⟩ = true := by
  induction stmts generalizing w with
  | nil => cases h
  | cons stmt stmts ih =>
    by_cases hlast : ∃ span value, stmt = .expr span value ∧ stmts = []
    · obtain ⟨span, value, rfl, rfl⟩ := hlast
      rfl
    · rw [evalTop_cons fun span value he hnil => hlast ⟨span, value, he, hnil⟩] at h
      obtain ⟨_, v, _, hv⟩ := Eval.bind_ok.mp h
      have hends := ih hv
      cases stmts with
      | nil => cases hv
      | cons next stmts =>
        rw [UnitCode.endsInExpr_cons]
        exact hends

theorem Stmt.lastType_ne_void {s : Scopes} {stmts : List Stmt} {before type : Ty}
    (hb : before ≠ .void) (h : lastType s before stmts = .ok type) : type ≠ .void := by
  induction stmts generalizing before with
  | nil =>
    cases h
    exact hb
  | cons stmt stmts ih =>
    simp only [lastType, bind_eq_ok] at h
    obtain ⟨t, _, h⟩ := h
    refine ih ?_ h
    split
    · rename_i hv
      simpa [Ty.isValue] using hv
    · exact hb

section Units

variable {g : Globals} {lib : Library} {types : List Ty} {p : Program} {typing : Typing}
  {c : Compiled}

/-- Functions read words of their types from memory. -/
theorem Globals.Made.paired_typed (h : g.Made lib types) :
    Paired (fun x y => x = y ∧ y.memory.Typed types) lib.signature? lib.routine? lib.routine? := by
  intro name sig hsig
  obtain ⟨d, hd, rfl⟩ := Option.map_eq_some_iff.mp hsig
  obtain ⟨hmem, _⟩ := Library.find?_some hd
  obtain ⟨scopes, hchecked, hk, htyped⟩ := (h.each d hmem).checked
  have hroutine : lib.routine? name = some d.routine := by
    rw [Library.routine?, hd]
    rfl
  refine ⟨d.routine, d.routine, hroutine, hroutine, rfl, rfl, rfl, ⟨scopes, hchecked, hk, ?_⟩,
    fun _ => rfl⟩
  rintro name type hname page _ ⟨rfl, htypes⟩
  obtain ⟨slot, hslot, htype⟩ := htyped (Scopes.typeOf?_eq_some.mp hname)
  have hread : d.routine.site.read name page = page.memory.word slot :=
    Layout.read_site d.inner.scopes hslot page
  rw [hread]
  exact ⟨rfl, htypes htype⟩

theorem Globals.Made.paired (h : g.Made lib types) {Q : Page → Page → Prop}
    (hq : ∀ {x y}, Q x y → x = y) :
    Paired (Sharing Q types) lib.signature? lib.routine? lib.routine? :=
  Paired.mono h.paired_typed fun hs => ⟨hq hs.same, hs.typed⟩

/-- A unit that starts with zero in the slots it takes leaves words of their types in all slots, writes
none behind its own, and its value is one of the type it is read as. -/
theorem Compiled.Of.values_typed (hof : c.Of g lib types p typing) (hg : g.Made lib types)
    {limit fuel : Nat} {w w' : World Page} {r : Except Stop (Option Word)}
    (ht : w.store.memory.Typed types)
    (hz : w.store.memory.ZeroBetween g.layout.next c.globals.layout.next)
    (he : evalUnit .parity (lib.after g typing.declared p).routine? limit
      (UnitCode.topContext typing.declared g.layout p).site fuel p.body w = some (r, w')) :
    w'.store.memory.Typed (p.typesAfter types) ∧
      w.store.memory.SameFrom w'.store.memory c.globals.layout.next ∧
      ∀ value, r = .ok (some value) → c.type.Admits value := by
  obtain ⟨head, rest, s, h⟩ := Program.typeOn_ok hg.sound hof.typed
  rw [hg.typed.next, hof.made.typed.next] at hz
  rw [hof.layout]
  have hstart : Together (Midway (fun x y => x = y ∧
      w.store.memory.SameFrom y.memory (g.layout.extend p.body).next) (g.layout.extend p.body)
      (p.typesAfter types) (.seeded g.declared)) w w :=
    ⟨rfl, Midway.start hg h ⟨rfl, fun _ _ => rfl⟩ ht hz⟩
  have hmirrors := (Layout.site_mirrors (g.layout.extend p.body)
    (UnitCode.topContext typing.declared g.layout p).scopes).framed (hg.layout.extend p.body)
    w.store.memory
  have halike := h.evalUnit_alike hg Truth.parity_agrees hmirrors (fun _ => rfl)
    (hof.made.paired And.left) limit fuel hstart
  change Alike _ _ (evalUnit _ _ _ (UnitCode.topContext typing.declared g.layout p).site _ _ _) _
    at halike
  rw [he] at halike
  cases halike with
  | stopped worlds => exact ⟨worlds.store.typed, worlds.store.same.2, by simp⟩
  | done worlds =>
    obtain ⟨hvalue, hw⟩ := worlds
    refine ⟨hw.store.typed, hw.store.same.2, ?_⟩
    rintro value ⟨⟩
    have hends : p.endsInExpr = true := by
      unfold evalUnit at he
      split at he
      · exact Stmt.endsInExpr_of_evalTop he
      · cases he
    rw [hof.type, Program.valueType, hends]
    exact hvalue value rfl

end Units

theorem Memory.Typed.before {m : Memory} {types more : List Ty} (h : m.Typed (types ++ more)) :
    m.Typed types := by
  intro slot type ht
  apply h
  rw [List.getElem?_append_left (List.getElem?_eq_some_iff.mp ht).1, ht]

namespace Session

def Clean (s : Session) : Prop := s.memory.ZeroFrom s.globals.layout.next

def VariablesTyped (s : Session) : Prop :=
  ∀ {name : String} {type : Ty}, s.globals.declared.get? name = some (.variable type) →
    ∃ slot, s.globals.layout.slots.get? name = some slot ∧ type.Admits (s.memory.word slot)

/-- The slots that the unit takes, if it compiles, hold zero before. -/
def Turn.Fresh (t : Turn) : Prop :=
  ∀ c, t.before.globals.compile t.source shellName = .ok c →
    t.before.memory.ZeroBetween t.before.globals.layout.next c.globals.layout.next

structure Turn.Tidy (t : Turn) : Prop where
  fits : t.Fits
  fresh : t.Fresh

variable {s s' : Session} {lib : Library} {types : List Ty} {source : String} {steps : Nat}
  {answer : Except Diagnostic Value}

/-- A unit takes fresh slots for its variables, and may read them before it has given them values.
In a clean session every unit finds zero there. -/
theorem Clean.fresh (h : s.Clean) : Turn.Fresh ⟨source, s, answer, s'⟩ := fun _ _ => h.between _

/-- A unit that starts with zero in its slots leaves words of their types in all slots, and those that
it has not taken as they were. -/
theorem Kept.unit_typed (h : s.Kept lib types) (ht : s.memory.Typed types)
    (htidy : Turn.Tidy ⟨source, s, answer, s'⟩) (hrun : s.run steps source = some (answer, s')) :
    (∃ lib' types', s'.Kept lib' types' ∧ s'.memory.Typed types') ∧
      ∀ n, (∀ c, s.globals.compile source shellName = .ok c → c.globals.layout.next ≤ n) →
        s.memory.SameFrom s'.memory n := by
  rcases h.run_cases htidy.fits hrun with rfl | ⟨c, o, hc, he, hs⟩
  · exact ⟨⟨lib, types, h, ht⟩, fun _ _ _ _ => rfl⟩
  · obtain ⟨p, typing, hof⟩ := h.made.compiled hc
    obtain ⟨fuel, r, w', hw, rfl⟩ :=
      (hof.execute_iff (htidy.fits c hc) s.limit h.world o).mp ⟨steps, he⟩
    obtain ⟨htyped, hsame, _⟩ := hof.values_typed h.made (w := h.world) ht (htidy.fresh c hc) hw
    have hframe (n : Nat) (hn : c.globals.layout.next ≤ n) :
        s.memory.SameFrom w'.store.memory n := fun _ hslot => hsame (Nat.le_trans hn hslot)
    cases r with
    | error stop =>
      cases hs
      exact ⟨⟨lib, types, ⟨h.made, w'.store.sized⟩, htyped.before⟩, fun n hn => hframe n (hn c hc)⟩
    | ok raw =>
      cases hs
      exact ⟨⟨_, _, ⟨hof.made, w'.store.sized⟩, htyped⟩, fun n hn => hframe n (hn c hc)⟩

/-- A unit that does not stop leaves a clean session clean. One that stops may not, as its slots are
given out again with what it has written to them. -/
theorem Kept.unit_clean (h : s.Kept lib types) (ht : s.memory.Typed types) (hclean : s.Clean)
    (hfits : Turn.Fits ⟨source, s, answer, s'⟩)
    (hok : ∀ c d, s.globals.compile source shellName = .ok c → answer ≠ .error d)
    (hrun : s.run steps source = some (answer, s')) : s'.Clean := by
  have hframe := (h.unit_typed ht ⟨hfits, hclean.fresh⟩ hrun).2
  rcases h.run_cases hfits hrun with rfl | ⟨c, o, hc, _, hs⟩
  · exact hclean
  · unfold finish at hs
    split at hs
    · cases hs
      obtain ⟨p, typing, hof⟩ := h.made.compiled hc
      refine hclean.same (hof.next_le h.made) (hframe _ fun c' hc' => ?_)
      cases hc.symm.trans hc'
      exact Nat.le_refl _
    · cases hs
      exact absurd rfl (hok c _ hc)

theorem Later.typed {host : Host} {limit : Nat} (h : Later Turn.Tidy (start host limit) s) :
    ∃ lib types, s.Kept lib types ∧ s.memory.Typed types := by
  refine h.keeps (I := fun s => ∃ lib types, s.Kept lib types ∧ s.memory.Typed types)
    ⟨[], [], start_kept host limit, by simp [Memory.Typed]⟩ ?_
  rintro t t' source steps answer ⟨lib, types, hk, ht⟩ htidy hrun
  exact (hk.unit_typed ht htidy hrun).1

/-- In a session whose units all start with zero in the slots that they take, every variable holds a
word of its type, even after a unit that stops. If the slots of the next unit are zero, it has a value of
its type, which is never read as something else. Only a unit that stops can leave free slots that are
not zero, and those are slots that it had taken. -/
theorem tidy_session_values {host : Host} {limit : Nat} (h : Later Turn.Tidy (start host limit) s) :
    s.VariablesTyped ∧
      (∀ {source file c}, s.globals.compile source file = .ok c →
        c.globals.layout.next ≤ Page.slots →
        s.memory.ZeroBetween s.globals.layout.next c.globals.layout.next → c.type ≠ .void ∧
        ∀ {steps o raw}, Machine.execute steps s.limit s.memory s.host c.text = .ended o →
          o.result = .ok (some raw) → c.type.Admits raw) ∧
      (s.Clean → ∀ {source steps answer s'}, s.run steps source = some (answer, s') →
        (∀ c, s.globals.compile source shellName = .ok c →
          c.globals.layout.next ≤ Page.slots ∧ ∀ d, answer ≠ .error d) → s'.Clean) ∧
      ∀ {source steps answer s'}, s.run steps source = some (answer, s') →
        Turn.Tidy ⟨source, s, answer, s'⟩ → ∀ slot, s.globals.layout.next ≤ slot →
        (∀ c, s.globals.compile source shellName = .ok c → c.globals.layout.next ≤ slot) →
        s'.memory.word slot = s.memory.word slot := by
  obtain ⟨lib, types, hk, ht⟩ := h.typed
  refine ⟨?_, ?_, ?_, ?_⟩
  · intro name type hn
    obtain ⟨slot, hslot, htype⟩ := hk.made.typed.typed hn
    exact ⟨slot, hslot, ht htype⟩
  · intro source file c hc hfit hzero
    obtain ⟨p, typing, hof⟩ := hk.made.compiled hc
    obtain ⟨head, rest, scopes, hchecked⟩ := Program.typeOn_ok hk.made.sound hof.typed
    refine ⟨?_, ?_⟩
    · rw [hof.type, Program.valueType]
      split
      · exact Stmt.lastType_ne_void (by simp) hchecked.last
      · simp
    · intro steps o raw he hraw
      obtain ⟨fuel, r, w', hw, rfl⟩ := (hof.execute_iff hfit s.limit hk.world o).mp ⟨steps, he⟩
      obtain ⟨_, _, hvalue⟩ := hof.values_typed hk.made (w := hk.world) ht hzero hw
      apply hvalue
      cases r with
      | error stop => cases hraw
      | ok value =>
        cases hraw
        rfl
  · intro hclean source steps answer s' hrun hok
    exact hk.unit_clean ht hclean (fun c hc => (hok c hc).1) (fun c d hc => (hok c hc).2 d) hrun
  · intro source steps answer s' hrun htidy slot _ hnew
    exact (hk.unit_typed ht htidy hrun).2 slot hnew (Nat.le_refl slot)

theorem start_clean (host : Host) (limit : Nat) : (start host limit).Clean :=
  Memory.zeroFrom_ofPages 1

/-- The first unit reads its second variable before that has a value. The next one stops with 7 in a slot
that is free again then. A unit that takes no slot may follow. -/
theorem tidy_session_values_after_stop :
    ∃ s c steps o raw, Later Turn.Tidy (start .reliable 20) s ∧ s.VariablesTyped ∧
      s.globals.layout.next = 2 ∧ s.memory.word 2 = 7 ∧
      s.globals.compile "not a" shellName = .ok c ∧
      Machine.execute steps s.limit s.memory s.host c.text = .ended o ∧
      o.result = .ok (some raw) ∧ c.type.Admits raw := by
  have htest : ((Trace.start .reliable 20).succeed 5
      "def f() -> bool:\n  return b\na: bool = f()\nb: bool = True\na").any (fun a =>
      (a.trace.next 5 "p: int = 7\n1 // 0").any (fun t => t.globals.layout.next = 2 ∧
        t.world.store.memory.word 2 = 7 ∧
        (t.succeed 5 "not a").any fun u => u.raw = some 1 ∧ u.trace.globals.layout.next = 2) =
      true) = true := by
    decide +kernel
  obtain ⟨a, ha, htest⟩ := (Option.any_eq_true _ _).mp htest
  obtain ⟨t, ht, htest⟩ := (Option.any_eq_true _ _).mp (of_decide_eq_true htest)
  obtain ⟨hnext, hword, htest⟩ := of_decide_eq_true htest
  obtain ⟨u, hu, htest⟩ := (Option.any_eq_true _ _).mp htest
  obtain ⟨hraw, hsame⟩ := of_decide_eq_true htest
  obtain ⟨_, _, _, hka⟩ := Trace.succeed_executes (Trace.start_kept .reliable 20) ha
  obtain ⟨_, _, hruna, hfitsa⟩ := Trace.succeed_run (Trace.start_kept .reliable 20) ha
  have hcleana : a.trace.session.Clean :=
    (tidy_session_values .refl).2.2.1 (start_clean .reliable 20) hruna
      fun c hc => ⟨hfitsa c hc, by simp⟩
  obtain ⟨_, _, hrun, hfits, _, hk⟩ := Trace.next_run hka ht
  have hs : Later Turn.Tidy (start .reliable 20) t.session :=
    (Later.refl.unit ⟨hfitsa, (start_clean .reliable 20).fresh⟩ hruna).unit
      ⟨hfits, hcleana.fresh⟩ hrun
  obtain ⟨hpu, heu, _⟩ := Trace.succeed_executes hk hu
  obtain ⟨c, steps, o, hc, ho, hresult, hglobals⟩ := heu.compiled hpu
  have hlast : c.globals.layout.next = 2 := by
    rw [hglobals]
    exact hsame
  rw [hraw] at hresult
  obtain ⟨htyped, hvalue, _⟩ := tidy_session_values hs
  obtain ⟨_, hadmits⟩ := hvalue hc (by rw [hlast]; decide) (by
    intro slot hold hnew
    rw [Trace.session_globals] at hold
    omega)
  exact ⟨t.session, c, steps, o, 1, hs, htyped, hnext, hword, hc, ho, hresult, hadmits ho hresult⟩

/-- The free slots of a unit that stops are given out again. Here the first unit stops with 7 in both
of its slots, and the second copies what it finds there to a variable for truth values. -/
theorem stopped_unit_spoils_a_variable :
    ∃ s, Later Turn.Fits (start .reliable 20) s ∧
      s.globals.declared.get? "a" = some (.variable .bool) ∧
      s.globals.layout.slots.get? "a" = some 0 ∧ s.memory.word 0 = 7 := by
  obtain ⟨t, hr, ht⟩ := Trace.exists_later .reliable 20 5
    ["p: int = 7\nq: int = 7\n1 // 0",
      "def f() -> bool:\n  return b\na: bool = f()\nb: bool = True\na"]
    (fun t => t.globals.declared.get? "a" = some (.variable .bool) ∧
      t.globals.layout.slots.get? "a" = some 0 ∧ t.world.store.memory.word 0 = 7)
    (by decide +kernel)
  exact ⟨t.session, hr, of_decide_eq_true ht⟩

end Session

end StackScript
