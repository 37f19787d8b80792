import StackScript.Proofs.Slots

namespace StackScript

def ByName (l : Layout) (store : Table Word) (page : Page) : Prop :=
  ∀ {name : String} {slot : Nat}, l.slots.get? name = some slot →
    (store.get? name).getD 0 = page.memory.word slot

/-- What is written under a name is read under it, and under no other. -/
theorem Site.byName_mirrors {l : Layout} (hl : l.Sound) (scopes : Scopes) :
    (Site.byName scopes).Mirrors (ByName l) l := by
  constructor
  · intro name slot hslot store page hq
    exact hq hslot
  · intro name slot hslot store page hq v other slot' hslot'
    change ((store.insert name v).get? other).getD 0 = _
    rw [Table.get?_insert, Page.word_put]
    by_cases he : other = name
    · subst he
      rw [hslot] at hslot'
      cases hslot'
      simp
    · have hne : slot' ≠ slot := by
        rintro rfl
        exact he (hl.apart hslot' hslot)
      rw [if_neg he, if_neg hne]
      exact hq hslot'

/-- Copying a layer over an empty one changes no meaning. -/
theorem Layer.alike_overlay {l : Layer} (h : l.Sound) :
    Scopes.Alike ⟨l, []⟩ ⟨Layer.empty.overlay l, []⟩ := by
  intro name
  have hempty : Layer.empty.get? name = none := rfl
  simp only [Scopes.lookup, Scopes.layers, List.findSome?_cons, List.findSome?_nil,
    get?_overlay h, hempty, Option.or_none]

def Definition.byName (d : Definition) (declared : Layer) : Routine (Table Word) :=
  ⟨.byName (Scopes.push ⟨declared, []⟩
    (FunctionCode.layerOf d.params (FunctionCode.localsOf d.body))), d.params, d.result, d.body⟩

namespace Program

/-- The functions of a program, by evaluation and in its library. -/
theorem routine?_eq (p : Program) (declared : Layer) (c : Context) (name : String) :
    p.routine? declared name =
      ((Library.ofStmts c p.body).find? name).map fun d => d.byName declared := by
  unfold routine?
  fun_induction Library.ofStmts c p.body with
  | case1 => rfl
  | case2 span defined params result body ss ih =>
    rw [List.findSome?_cons, Library.find?, List.find?_cons]
    by_cases hn : defined = name
    · simp [hn, Definition.byName]
    · simp only [hn, ↓reduceIte, beq_false_of_ne hn]
      exact ih
  | case3 s ss hs ih =>
    cases s with
    | define => exact (hs _ _ _ _ _ rfl).elim
    | _ => exact ih

variable {p : Program} {typing : Typing} {code : UnitCode} {head rest : List Stmt}
  {s₀ s : Scopes}

abbrev library (p : Program) (declared : Layer) : Library :=
  Library.after [] Globals.empty declared p

/-- Every function reads what checking lets it read, on both sides. -/
theorem CheckedOn.paired (h : p.CheckedOn .empty head rest s₀ s typing) (hn : p.Named Bare)
    (hu : UnitCode.ofProgram typing.declared .empty p = .ok code) :
    Paired (Sharing (ByName (Layout.empty.extend p.body)) (p.typesAfter []))
      (p.library typing.declared).signature? (p.routine? typing.declared)
      (p.library typing.declared).routine? := by
  intro name sig hsig
  obtain ⟨d, hd, rfl⟩ := Option.map_eq_some_iff.mp hsig
  have hmade := CheckedOn.globals_made Globals.made_empty h hn hu
  obtain ⟨hmem, _⟩ := Library.find?_some hd
  have hown : d ∈ Library.ofStmts (UnitCode.topContext typing.declared .empty p) p.body := hmem
  obtain ⟨hcontext, _⟩ := Library.mem_ofStmts hown
  obtain ⟨scopes, hchecked, hk, htyped⟩ := (hmade.each d hmem).checked
  refine ⟨d.byName typing.declared, d.routine, ?_, ?_, rfl, rfl, rfl, ⟨scopes, hchecked, hk, ?_⟩, ?_⟩
  · rw [p.routine?_eq typing.declared (UnitCode.topContext typing.declared .empty p)]
    have hfind : (Library.ofStmts (UnitCode.topContext typing.declared .empty p) p.body).find? name =
        some d := hd
    rw [hfind]
    rfl
  · rw [Library.routine?, hd]
    rfl
  · intro name type hname store page hshare
    obtain ⟨slot, hslot, htype⟩ := htyped (Scopes.typeOf?_eq_some.mp hname)
    have hread : d.routine.site.read name page = page.memory.word slot :=
      Layout.read_site d.inner.scopes hslot page
    rw [hread]
    refine ⟨?_, hshare.typed htype⟩
    rw [hcontext] at hslot
    exact hshare.same hslot
  · have hscopes : d.routine.site.scopes =
        (Scopes.push ⟨Layer.empty.overlay typing.declared, []⟩
          (FunctionCode.layerOf d.params (FunctionCode.localsOf d.body))) := by
      change (d.context.inside d.params d.body).scopes = _
      rw [hcontext]
      rfl
    rw [hscopes]
    exact (Layer.alike_overlay hmade.sound).push _

/-- Evaluation by name and evaluation in slots go the same way, although the one takes every word
but zero as true and the other negates by the last bit. -/
theorem CheckedOn.evaluate_alike (h : p.CheckedOn .empty head rest s₀ s typing) (hn : p.Named Bare)
    (hu : UnitCode.ofProgram typing.declared .empty p = .ok code) (limit fuel : Nat) :
    Alike (Together (Sharing (ByName (Layout.empty.extend p.body)) (p.typesAfter [])))
      (fun _ => Together (Sharing (ByName (Layout.empty.extend p.body)) (p.typesAfter [])))
      (p.evaluate typing.declared limit fuel)
      (evalUnit .parity (p.library typing.declared).routine? limit
        (UnitCode.topContext typing.declared .empty p).site fuel p.body
        ⟨⟨.ofPages 1, rfl⟩, .reliable⟩) := by
  have hmade := CheckedOn.globals_made Globals.made_empty h hn hu
  have hzero : (Memory.ofPages 1).ZeroFrom 0 := Memory.zeroFrom_ofPages 1
  have hq : ByName (Layout.empty.extend p.body) .empty ⟨.ofPages 1, rfl⟩ := by
    intro name slot _
    exact (hzero (Nat.zero_le slot)).symm
  have hstart : Together
      (Midway (ByName (Layout.empty.extend p.body)) (Layout.empty.extend p.body) (p.typesAfter []) s₀)
      ⟨.empty, .reliable⟩ ⟨⟨.ofPages 1, rfl⟩, .reliable⟩ :=
    ⟨rfl, Midway.start Globals.made_empty h hq (by simp [Memory.Typed]) (hzero.between _)⟩
  have hmirrors := Site.byName_mirrors (Layout.sound_empty.extend p.body) ⟨typing.declared, []⟩
  refine (CheckedOn.evalUnit_alike Globals.made_empty h Truth.plain_agrees hmirrors
    (Layer.alike_overlay hmade.sound) (h.paired hn hu) limit fuel hstart).weaken
      (fun _ _ h => h) ?_
  rintro raw w v ⟨_, hw⟩
  exact ⟨hw.host, hw.store.toSharing⟩

end Program

/-- The outcome of a run is that of an evaluation: the same result, or the trap of the same stop, the
same printed text, and the same word for every variable at its address. -/
structure Machine.Outcome.Matches (o : Outcome) (l : Layout) (r : Except Stop (Option Word))
    (w : World (Table Word)) : Prop where
  result : o.result = r.mapError Stop.trap
  output : o.host.output = w.host.output
  words : ∀ name address, l.address? name = some address →
    o.memory.load? address = some ((w.store.get? name).getD 0)

theorem Machine.execute_unique {a b limit : Nat} {memory : Memory} {host : Host} {text : String}
    {o o' : Outcome} (h : execute a limit memory host text = .ended o)
    (h' : execute b limit memory host text = .ended o') : o = o' := by
  unfold execute at h h'
  cases hp : Module.prepare text with
  | error e => simp [hp] at h
  | ok prepared =>
    obtain ⟨m, entry⟩ := prepared
    simp only [hp] at h h'
    cases he : enter limit memory host entry with
    | done q =>
      simp only [he, Ending.ended.injEq] at h h'
      rw [← h, ← h']
    | running s =>
      simp only [he] at h h'
      cases ha : advance m limit a s with
      | running t => simp [ha] at h
      | done q =>
        cases hb : advance m limit b s with
        | running t => simp [hb] at h'
        | done q' =>
          simp only [ha, Ending.ended.injEq] at h
          simp only [hb, Ending.ended.injEq] at h'
          rw [← h, ← h']
          exact done_unique ha hb

theorem Sharing.matches {l : Layout} {types : List Ty} (hfit : l.Fits) {w : World (Table Word)}
    {v : World Page} (h : Together (Sharing (ByName l) types) w v)
    (r : Except Stop (Option Word)) : (outcomeOf r v).Matches l r w := by
  refine ⟨rfl, ?_, ?_⟩
  · rw [h.host]
    rfl
  · intro name address ha
    obtain ⟨slot, hslot, rfl⟩ := Option.map_eq_some_iff.mp ha
    obtain ⟨hholds, hnat⟩ := v.store.holds_slot (hfit name slot hslot)
    change v.store.memory.load? _ = _
    rw [Memory.load?, if_pos hholds, hnat, h.store.same hslot]
    rfl

namespace Program

variable {p : Program} {typing : Typing} {code : UnitCode}

/-- A program that is checked and compiled on its own, with names that can be part of an atom and
variables that fit in the page. -/
structure Standalone (p : Program) (typing : Typing) (code : UnitCode) : Prop where
  named : p.Named Bare
  typed : p.typeAlone = .ok typing
  coded : UnitCode.ofProgram typing.declared .empty p = .ok code
  fits : (FunctionCode.localsOf p.body).length ≤ Page.slots

namespace Standalone

theorem layout (h : p.Standalone typing code) : code.layout = Layout.empty.extend p.body :=
  congrArg UnitCode.layout (UnitCode.ofProgram_ok h.coded).1

theorem next_le (h : p.Standalone typing code) : code.layout.next ≤ Page.slots := by
  obtain ⟨head, rest, s, hc⟩ := typeAlone_ok h.typed
  have hlen : (p.typesAfter []).length = (Layout.empty.extend p.body).next :=
    CheckedOn.length_typesAfter Globals.made_empty hc
  rw [h.layout, ← hlen, typesAfter, List.nil_append, List.length_map]
  exact h.fits

theorem library_sound (h : p.Standalone typing code) : (p.library typing.declared).Sound := by
  obtain ⟨head, rest, s, hc⟩ := typeAlone_ok h.typed
  exact CheckedOn.library_sound Globals.made_empty hc h.named h.coded h.next_le

theorem runs (h : p.Standalone typing code) : Library.Runs (p.library typing.declared).arity
    (UnitCode.topContext typing.declared .empty p) p.body := by
  obtain ⟨head, rest, s, hc⟩ := typeAlone_ok h.typed
  exact CheckedOn.runs Globals.made_empty hc h.named h.coded h.next_le

theorem text_eq (h : p.Standalone typing code) : ModuleText.ofUnit [] code =
    (p.library typing.declared).unitText (UnitCode.topContext typing.declared .empty p) p.body := by
  have htext := CheckedOn.text_eq Globals.made_empty h.coded
  have hdefinitions : Globals.empty.definitions = [] := rfl
  have hempty : Globals.empty.layout = .empty := rfl
  rw [hdefinitions, hempty] at htext
  exact htext

theorem prepare (h : p.Standalone typing code) :
    ∃ m entry, Module.prepare (ModuleText.ofUnit [] code) = .ok (m, entry) := by
  rw [h.text_eq]
  exact ⟨_, _, h.library_sound.written.prepare h.runs.top h.runs.named h.runs.calls⟩

/-- What evaluation comes to, a run comes to. -/
theorem run_of_evaluate (h : p.Standalone typing code) {limit fuel : Nat}
    {r : Except Stop (Option Word)} {w : World (Table Word)}
    (he : p.evaluate typing.declared limit fuel = some (r, w)) :
    ∃ steps o, Machine.execute steps limit (.ofPages 1) .reliable (ModuleText.ofUnit [] code) =
      .ended o ∧ o.Matches code.layout r w := by
  obtain ⟨head, rest, s, hc⟩ := typeAlone_ok h.typed
  have halike := hc.evaluate_alike h.named h.coded limit fuel
  rw [he] at halike
  obtain ⟨v, hv, hshare⟩ := halike.answer
  obtain ⟨steps, hsteps⟩ := (h.library_sound.execute_iff_eval h.runs limit
    ⟨⟨.ofPages 1, rfl⟩, .reliable⟩ (outcomeOf r v)).mpr ⟨fuel, r, v, hv, rfl⟩
  rw [← h.layout] at hshare
  rw [← h.text_eq] at hsteps
  have hfits : code.layout.Fits := by
    rw [h.layout]
    exact h.runs.fits
  exact ⟨steps, _, hsteps, Sharing.matches hfits hshare r⟩

/-- What a run comes to, evaluation comes to. -/
theorem evaluate_of_run (h : p.Standalone typing code) {limit steps : Nat} {o : Machine.Outcome}
    (ho : Machine.execute steps limit (.ofPages 1) .reliable (ModuleText.ofUnit [] code) = .ended o) :
    ∃ fuel r w, p.evaluate typing.declared limit fuel = some (r, w) := by
  obtain ⟨head, rest, s, hc⟩ := typeAlone_ok h.typed
  rw [h.text_eq] at ho
  obtain ⟨fuel, r, v, hv, _⟩ := (h.library_sound.execute_iff_eval h.runs limit
    ⟨⟨.ofPages 1, rfl⟩, .reliable⟩ o).mp ⟨steps, ho⟩
  have halike := hc.evaluate_alike h.named h.coded limit fuel
  rw [hv] at halike
  obtain ⟨w, hw, _⟩ := halike.answer_back
  exact ⟨fuel, r, w, hw⟩

/-- Where a run and an evaluation both end, they end alike. -/
theorem matches_of_both (h : p.Standalone typing code) {limit steps fuel : Nat} {o : Machine.Outcome}
    {r : Except Stop (Option Word)} {w : World (Table Word)}
    (ho : Machine.execute steps limit (.ofPages 1) .reliable (ModuleText.ofUnit [] code) = .ended o)
    (he : p.evaluate typing.declared limit fuel = some (r, w)) : o.Matches code.layout r w := by
  obtain ⟨steps', o', ho', hmatches⟩ := h.run_of_evaluate he
  rw [Machine.execute_unique ho ho']
  exact hmatches

end Standalone

/-- A program that is checked and compiled on its own: its text loads, its run ends exactly if its
evaluation does, and both end alike. -/
theorem compiled_text_evaluates (hn : p.Named Bare) (ht : p.typeAlone = .ok typing)
    (hu : UnitCode.ofProgram typing.declared .empty p = .ok code)
    (hfit : (FunctionCode.localsOf p.body).length ≤ Page.slots) (limit : Nat) :
    (∀ steps e, Machine.execute steps limit (.ofPages 1) .reliable (ModuleText.ofUnit [] code) ≠
        .refused e) ∧
      ((∃ steps o, Machine.execute steps limit (.ofPages 1) .reliable (ModuleText.ofUnit [] code) =
          .ended o) ↔
        ∃ fuel r w, p.evaluate typing.declared limit fuel = some (r, w)) ∧
      ∀ steps o fuel r w,
        Machine.execute steps limit (.ofPages 1) .reliable (ModuleText.ofUnit [] code) = .ended o →
        p.evaluate typing.declared limit fuel = some (r, w) → o.Matches code.layout r w := by
  have h : p.Standalone typing code := ⟨hn, ht, hu, hfit⟩
  refine ⟨?_, ⟨?_, ?_⟩, ?_⟩
  · intro steps e
    exact Machine.execute_ne_refused h.prepare
  · rintro ⟨steps, o, ho⟩
    exact h.evaluate_of_run ho
  · rintro ⟨fuel, r, w, he⟩
    obtain ⟨steps, o, ho, _⟩ := h.run_of_evaluate he
    exact ⟨steps, o, ho⟩
  · intro steps o fuel r w ho he
    exact h.matches_of_both ho he

/-- The names of a parsed program are bare, so its text runs as the program evaluates. -/
theorem parsed_text_evaluates {source file : String} (hp : parse source file = .ok p)
    (ht : p.typeAlone = .ok typing) (hu : UnitCode.ofProgram typing.declared .empty p = .ok code)
    (hfit : (FunctionCode.localsOf p.body).length ≤ Page.slots) (limit : Nat) :
    (∃ m entry, Module.prepare (ModuleText.ofUnit [] code) = .ok (m, entry)) ∧
      (∀ steps o, Machine.execute steps limit (.ofPages 1) .reliable (ModuleText.ofUnit [] code) =
          .ended o →
        ∃ fuel r w, p.evaluate typing.declared limit fuel = some (r, w) ∧
          o.Matches code.layout r w) ∧
      ∀ fuel r w, p.evaluate typing.declared limit fuel = some (r, w) →
        ∃ steps o, Machine.execute steps limit (.ofPages 1) .reliable (ModuleText.ofUnit [] code) =
          .ended o ∧ o.Matches code.layout r w := by
  have h : p.Standalone typing code := ⟨parse_named hp, ht, hu, hfit⟩
  refine ⟨h.prepare, ?_, fun fuel r w he => h.run_of_evaluate he⟩
  intro steps o ho
  obtain ⟨fuel, r, w, he⟩ := h.evaluate_of_run ho
  exact ⟨fuel, r, w, he, h.matches_of_both ho he⟩

def compilesTo (source : String) (test : Program → Typing → UnitCode → Bool) : Bool :=
  match parse source shellName with
  | .error _ => false
  | .ok p =>
    match p.typeAlone with
    | .error _ => false
    | .ok typing =>
      match UnitCode.ofProgram typing.declared .empty p with
      | .error _ => false
      | .ok code => test p typing code

theorem exists_of_compilesTo (source : String) (test : Program → Typing → UnitCode → Bool)
    (h : compilesTo source test = true) :
    ∃ p typing code, p.Named Bare ∧ p.typeAlone = .ok typing ∧
      UnitCode.ofProgram typing.declared .empty p = .ok code ∧ test p typing code = true := by
  unfold compilesTo at h
  split at h
  · cases h
  · rename_i p hp
    split at h
    · cases h
    · rename_i typing ht
      split at h
      · cases h
      · rename_i code hc
        exact ⟨p, typing, code, parse_named hp, ht, hc, h⟩

def stopsWith (stop : Stop) (output : String) :
    Option (Except Stop (Option Word) × World (Table Word)) → Bool
  | some (.error why, w) => why == stop && w.host.output == output
  | _ => false

theorem eq_of_stopsWith {stop : Stop} {output : String}
    {answer : Option (Except Stop (Option Word) × World (Table Word))}
    (h : stopsWith stop output answer = true) :
    ∃ w, answer = some (.error stop, w) ∧ w.host.output = output := by
  unfold stopsWith at h
  split at h
  · rename_i why w
    rw [Bool.and_eq_true, beq_iff_eq, beq_iff_eq] at h
    exact ⟨w, by rw [h.1], h.2⟩
  · cases h

/-- A loop that negates, a call, and a trap at the end of it. -/
theorem compiled_text_evaluates_to_trap :
    ∃ p typing code, p.Named Bare ∧ p.typeAlone = .ok typing ∧
      UnitCode.ofProgram typing.declared .empty p = .ok code ∧
      (FunctionCode.localsOf p.body).length ≤ Page.slots ∧
      ∃ steps o, Machine.execute steps 10 (.ofPages 1) .reliable (ModuleText.ofUnit [] code) =
        .ended o ∧ o.result = .error .divideByZero ∧ o.host.output = "True\nFalse\n" := by
  obtain ⟨p, typing, code, hn, ht, hu, htest⟩ := exists_of_compilesTo
    ("def f(n: int) -> int:\n  return 12 // n\ni: int = 2\nodd: bool = False\n" ++
      "while i > 0:\n  i = i - 1\n  odd = not odd\n  print(odd)\nf(i)")
    (fun p typing _ => decide ((FunctionCode.localsOf p.body).length ≤ Page.slots) &&
      stopsWith .divideByZero "True\nFalse\n" (p.evaluate typing.declared 10 9))
    (by decide +kernel)
  rw [Bool.and_eq_true, decide_eq_true_iff] at htest
  obtain ⟨hfit, hstop⟩ := htest
  obtain ⟨w, he, hout⟩ := eq_of_stopsWith hstop
  obtain ⟨_, hends, hmatch⟩ := compiled_text_evaluates hn ht hu hfit 10
  obtain ⟨steps, o, ho⟩ := hends.mpr ⟨9, _, w, he⟩
  have hm := hmatch steps o 9 _ w ho he
  exact ⟨p, typing, code, hn, ht, hu, hfit, steps, o, ho, hm.result, hm.output.trans hout⟩

end Program

end StackScript
