import StackScript.Proofs.Sessions

namespace StackScript

namespace ModuleText

/-- A text is the definition of one function of this name and with these parameters: it is what a
function is written as, and it is read as one form, that of the function. -/
def Defines (text name : String) (params : List String) : Prop :=
  ∃ f : FunctionCode, f.name = name ∧ f.params = params ∧ text = f.render ∧
    ∃ form, Form.read text = .ok [form] ∧ Module.Opens form (f.function, f.body)

/-- A function with names that can be written is defined by its rendering. -/
theorem defines_render {f : FunctionCode} (h : f.Spelled) : Defines f.render f.name f.params := by
  obtain ⟨forms, hread, hforms⟩ := (FunctionCode.reads_render h).read
  obtain ⟨form, rest, rfl, hform, hrest⟩ := Form.plainAll_eq_cons hforms
  obtain rfl := Form.plainAll_eq_nil hrest
  exact ⟨f, rfl, rfl, rfl, form, hread, Module.opens_of_function hform⟩

/-- A text defines one function. -/
theorem Defines.unique {text name name' : String} {params params' : List String}
    (h : Defines text name params) (h' : Defines text name' params') :
    name = name' ∧ params = params' := by
  obtain ⟨f, rfl, rfl, _, form, hread, hopens⟩ := h
  obtain ⟨f', rfl, rfl, _, form', hread', hopens'⟩ := h'
  cases hread.symm.trans hread'
  have hheader := hopens.header_unique hopens'
  exact ⟨Option.some.inj (congrArg Function.name hheader), congrArg Function.params hheader⟩

end ModuleText

open ModuleText

namespace Globals

inductive Reachable : Globals → Prop
  | empty : Reachable .empty
  | unit {g : Globals} {source file : String} {c : Compiled} (before : Reachable g)
      (compiled : g.compile source file = .ok c) : Reachable c.globals

structure Coherent (g : Globals) : Prop where
  /-- The variables are the names that have a slot. -/
  placed : ∀ name, g.layout.slots.get? name ≠ none ↔ g.declared.vars.get? name ≠ none
  below : ∀ name slot, g.layout.slots.get? name = some slot → slot < g.layout.next
  apart : ∀ a b slot, g.layout.slots.get? a = some slot → g.layout.slots.get? b = some slot → a = b
  disjoint : ∀ name, g.declared.vars.get? name ≠ none → g.declared.funcs.get? name = none
  unreserved : ∀ name sig, g.declared.funcs.get? name = some sig → isReserved name = false
  /-- Every text defines a function that is declared. -/
  texts : ∀ text ∈ g.definitions, ∃ name params sig, Defines text name params ∧
    g.declared.funcs.get? name = some sig ∧ params.length = sig.params.length
  /-- Every function that is declared is defined by one text, and by no other. -/
  functions : ∀ name sig, g.declared.funcs.get? name = some sig →
    ∃ before text after params, g.definitions = before ++ text :: after ∧
      Defines text name params ∧ params.length = sig.params.length ∧
      ∀ other ∈ before ++ after, ∀ ps, ¬ Defines other name ps

structure ExtendedBy (g : Globals) (p : Program) (g' : Globals) : Prop where
  next : g.layout.next ≤ g'.layout.next
  texts : g.definitions <+: g'.definitions
  signatures : ∀ name sig, g.declared.funcs.get? name = some sig →
    g'.declared.funcs.get? name = some sig
  /-- A variable that is not declared again stays where it is. -/
  kept : ∀ name type, g.declared.vars.get? name = some type →
    (∀ span t value, .init span name t value ∉ p.body) →
    g'.declared.vars.get? name = some type ∧
      g'.layout.slots.get? name = g.layout.slots.get? name

end Globals

theorem Layer.get?_variable {l : Layer} {name : String} {type : Ty} :
    l.get? name = some (.variable type) ↔ l.vars.get? name = some type := by
  unfold Layer.get?
  cases l.vars.get? name <;> simp

theorem Layer.Sound.get?_function {l : Layer} (h : l.Sound) {name : String} {sig : Signature} :
    l.get? name = some (.function sig) ↔ l.funcs.get? name = some sig := by
  unfold Layer.get?
  cases hv : l.vars.get? name with
  | none => simp
  | some type => simp [h.apart name (by simp [hv])]

theorem isReserved_of_not_host {name : String} (h : name ∉ hostNames) : isReserved name = false := by
  have hprint : name ≠ "print" := by
    rintro rfl
    exact h (by decide)
  simp [isReserved, builtinArity?, hprint, h]

theorem FunctionCode.mem_localsOf {ss : List Stmt} {name : String}
    (h : name ∈ (localsOf ss).map (·.1)) : ∃ span type value, .init span name type value ∈ ss := by
  fun_induction localsOf ss with
  | case1 => cases h
  | case2 span x type value ss ih =>
    rcases List.mem_cons.mp h with rfl | h
    · exact ⟨span, type, value, List.mem_cons_self⟩
    · obtain ⟨span', type', value', hm⟩ := ih h
      exact ⟨span', type', value', List.mem_cons_of_mem _ hm⟩
  | case3 s ss hs ih =>
    obtain ⟨span, type, value, hm⟩ := ih h
    exact ⟨span, type, value, List.mem_cons_of_mem s hm⟩

def Layout.Holds (l : Layout) (meaning : String → Option Binding) : Prop :=
  ∀ name slot, l.slots.get? name = some slot → ∃ type, meaning name = some (.variable type)

namespace Stmt.Declares

variable {s s' : Scopes} {ss : List Stmt}

theorem holds (h : Declares false s ss s') {l : Layout} (hl : l.Holds s.lookup) :
    (l.extend ss).Holds s'.lookup := by
  induction h generalizing l with
  | nil => exact hl
  | @init s s' span name type value ss _ _ _ _ ih =>
    refine ih (l := l.add name) fun other slot hs => ?_
    rw [Layout.get?_add] at hs
    rw [Scopes.lookup_withVariable]
    by_cases he : other = name
    · exact ⟨type, if_pos he⟩
    · rw [if_neg he] at hs ⊢
      exact hl other slot hs
  | @define s s' span name params result body ss _ _ free _ ih =>
    refine ih (l := l) fun other slot hs => ?_
    obtain ⟨type, ht⟩ := hl other slot hs
    have hne : other ≠ name := by
      rintro rfl
      rw [free] at ht
      cases ht
    rw [Scopes.lookup_withFunction (Scopes.inner_none free), if_neg hne]
    exact ⟨type, ht⟩

/-- A variable that is not declared again keeps its type. -/
theorem keeps_variable (h : Declares false s ss s') {name : String} {type : Ty}
    (hn : s.lookup name = some (.variable type))
    (hnot : name ∉ (FunctionCode.localsOf ss).map (·.1)) :
    s'.lookup name = some (.variable type) := by
  induction h with
  | nil => exact hn
  | @init s s' span x t value ss _ _ _ _ ih =>
    obtain ⟨hne, hnot⟩ := not_or.mp (mt List.mem_cons.mpr hnot)
    refine ih ?_ hnot
    rw [Scopes.lookup_withVariable, if_neg hne]
    exact hn
  | @define s s' span x params result body ss _ _ free _ ih =>
    refine ih ?_ hnot
    rw [Scopes.lookup_withFunction (Scopes.inner_none free), if_neg]
    · exact hn
    · rintro rfl
      rw [free] at hn
      cases hn

end Stmt.Declares

namespace Globals

variable {g : Globals} {lib : Library} {types : List Ty}

theorem Made.function (hg : g.Made lib types) {name : String} {sig : Signature} :
    g.declared.funcs.get? name = some sig ↔ lib.signature? name = some sig := by
  rw [← hg.sound.get?_function]
  exact hg.lists.functions name sig

theorem Made.mem_definitions (hg : g.Made lib types) {text : String} :
    text ∈ g.definitions ↔ ∃ d ∈ lib, d.code.render = text := by
  rw [hg.texts]
  simp [Library.texts, Library.codes]

theorem Made.names (hg : g.Made lib types) : (lib.map (·.name)).Nodup :=
  (List.nodup_append.mp hg.lists.names).2.1

theorem Made.find? (hg : g.Made lib types) {d : Definition} (h : d ∈ lib) :
    lib.find? d.name = some d := by
  obtain ⟨before, after, rfl⟩ := List.append_of_mem h
  have hbefore : Library.find? before d.name = none := by
    rw [Library.find?, List.find?_eq_none]
    intro e he
    have hnames := hg.names
    rw [List.map_append, List.nodup_append] at hnames
    simpa using hnames.2.2 e.name (List.mem_map_of_mem he) d.name List.mem_cons_self
  rw [Library.find?_append, hbefore, Option.none_or]
  simp [Library.find?]

theorem Made.declares (hg : g.Made lib types) {d : Definition} (h : d ∈ lib) :
    g.declared.funcs.get? d.name = some (Stmt.signatureOf d.params d.result) := by
  rw [hg.function, Library.signature?, hg.find? h]
  rfl

/-- The text of a function defines it. -/
theorem Made.defines (hg : g.Made lib types) {d : Definition} (h : d ∈ lib) :
    Defines d.code.render d.name (d.params.map (·.name)) := by
  have hcallable : Callable lib.arity (Module.signatureIn (lib.module d.code.function).functions) :=
    hg.written.callable
  exact defines_render ((hg.written.each d h).spelled hcallable)

/-- Each function that is declared has one text. -/
theorem Made.one_text (hg : g.Made lib types) {name : String} {sig : Signature}
    (h : g.declared.funcs.get? name = some sig) :
    ∃ before text after params, g.definitions = before ++ text :: after ∧
      Defines text name params ∧ params.length = sig.params.length ∧
      ∀ other ∈ before ++ after, ∀ ps, ¬ Defines other name ps := by
  rw [hg.function] at h
  obtain ⟨d, hd, rfl⟩ := Option.map_eq_some_iff.mp h
  obtain ⟨hm, rfl⟩ := Library.find?_some hd
  have hnames := hg.names
  have htexts := hg.texts
  obtain ⟨before, after, rfl⟩ := List.append_of_mem hm
  refine ⟨Library.texts before, d.code.render, Library.texts after, d.params.map (·.name), ?_,
    hg.defines hm, by simp [Stmt.signatureOf], ?_⟩
  · rw [htexts]
    simp [Library.texts, Library.codes]
  · intro other ho ps hdef
    rw [List.map_append, List.map_cons] at hnames
    have hapart : ∀ e ∈ before ++ after, e.name ≠ d.name := by
      rw [List.nodup_append, List.nodup_cons] at hnames
      obtain ⟨_, ⟨hlater, _⟩, hearlier⟩ := hnames
      intro e he heq
      rcases List.mem_append.mp he with hb | ha
      · exact hearlier e.name (List.mem_map_of_mem hb) d.name List.mem_cons_self heq
      · exact hlater (heq ▸ List.mem_map_of_mem ha)
    have hmem : ∃ e ∈ before ++ after, e.code.render = other := by
      simpa [Library.texts, Library.codes, or_and_right, exists_or] using ho
    obtain ⟨e, he, rfl⟩ := hmem
    have hlib : e ∈ before ++ d :: after := by
      rcases List.mem_append.mp he with hb | ha
      · exact List.mem_append_left _ hb
      · exact List.mem_append_right _ (List.mem_cons_of_mem d ha)
    exact hapart e he ((hg.defines hlib).unique hdef).1

/-- What is made of units speaks of the same names throughout. -/
theorem Made.coherent (hg : g.Made lib types) (hholds : g.layout.Holds g.declared.get?) :
    g.Coherent where
  placed name := by
    constructor
    · intro h
      obtain ⟨slot, hslot⟩ := Option.ne_none_iff_exists'.mp h
      obtain ⟨type, ht⟩ := hholds name slot hslot
      simp [Layer.get?_variable.mp ht]
    · intro h
      obtain ⟨type, ht⟩ := Option.ne_none_iff_exists'.mp h
      obtain ⟨slot, hslot, _⟩ := hg.typed.typed (Layer.get?_variable.mpr ht)
      simp [hslot]
  below _ _ h := hg.layout.below h
  apart _ _ _ ha hb := hg.layout.apart ha hb
  disjoint := hg.sound.apart
  unreserved name sig h := by
    rw [hg.function] at h
    obtain ⟨d, hd, _⟩ := Option.map_eq_some_iff.mp h
    obtain ⟨hm, rfl⟩ := Library.find?_some hd
    apply isReserved_of_not_host
    intro hhost
    exact (List.nodup_append.mp hg.lists.names).2.2 d.name hhost d.name (List.mem_map_of_mem hm) rfl
  texts text h := by
    obtain ⟨d, hd, rfl⟩ := hg.mem_definitions.mp h
    exact ⟨d.name, _, _, hg.defines hd, hg.declares hd, by simp [Stmt.signatureOf]⟩
  functions _ _ h := hg.one_text h

/-- A session keeps slots, types, signatures and function texts side by side, and different passes
extend them. `Made` is what stays true of them from unit to unit. -/
theorem Reachable.made (h : Reachable g) :
    ∃ lib types, g.Made lib types ∧ g.layout.Holds g.declared.get? := by
  induction h with
  | empty => exact ⟨[], [], made_empty, by simp [Layout.Holds, Globals.empty, Layout.empty]⟩
  | unit _ compiled ih =>
    obtain ⟨lib, types, hg, hholds⟩ := ih
    obtain ⟨p, typing, hof⟩ := hg.compiled compiled
    obtain ⟨head, rest, s, hc⟩ := Program.typeOn_ok hg.sound hof.typed
    refine ⟨_, _, hof.made, ?_⟩
    have hmeaning : typing.declared.get? = s.lookup := funext hc.get?_declared
    rw [← hc.lookup_start] at hholds
    rw [hof.layout, hof.declared, hmeaning, Layout.extend_eq, hc.locals_head, ← Layout.extend_eq]
    exact hc.declares.holds hholds

/-- A unit that compiles only adds to them. -/
theorem Made.extendedBy (hg : g.Made lib types) {source file : String} {p : Program}
    {typing : Typing} {code : UnitCode} (h : g.accept source file = .ok (p, typing, code)) :
    g.ExtendedBy p (g.compiled p typing code).globals := by
  have hof := hg.accepted h
  obtain ⟨head, rest, s, hc⟩ := Program.typeOn_ok hg.sound hof.typed
  have hmeaning (name : String) : typing.declared.get? name = s.lookup name := hc.get?_declared name
  refine ⟨hof.next_le hg, List.prefix_append _ _, ?_, ?_⟩
  · intro name sig hs
    rw [← hg.sound.get?_function, ← hc.seeded] at hs
    rw [← hof.made.sound.get?_function, hof.declared, hmeaning]
    exact hc.declares.keeps_function hs
  · intro name type hv hnot
    have hundeclared : name ∉ (FunctionCode.localsOf p.body).map (·.1) := by
      intro hm
      obtain ⟨span, t, value, hi⟩ := FunctionCode.mem_localsOf hm
      exact hnot span t value hi
    refine ⟨?_, ?_⟩
    · rw [← Layer.get?_variable, hof.declared, hmeaning]
      rw [← Layer.get?_variable, ← hc.seeded] at hv
      rw [hc.locals_head] at hundeclared
      exact hc.declares.keeps_variable hv hundeclared
    · rw [hof.layout]
      exact g.layout.slot_of_not_declared hundeclared

/-- Globals that units lead to are coherent, and a unit that compiles on top of them extends them by
what it declares and leaves coherent globals again. -/
theorem units_keep_globals_coherent (h : Reachable g) :
    g.Coherent ∧ ∀ source file c, g.compile source file = .ok c →
      ∃ p, Program.parse source file = .ok p ∧ g.ExtendedBy p c.globals ∧ c.globals.Coherent := by
  obtain ⟨lib, types, hg, hholds⟩ := h.made
  refine ⟨hg.coherent hholds, fun source file c hc => ?_⟩
  obtain ⟨p, typing, code, ha, rfl⟩ := compile_ok hc
  obtain ⟨lib', types', hg', hholds'⟩ := (h.unit hc).made
  exact ⟨p, accept_parse ha, hg.extendedBy ha, hg'.coherent hholds'⟩

end Globals

/-- The globals of a session are those of units that compile. -/
theorem Session.Later.reachable {host : Host} {limit : Nat} {s : Session}
    (h : Later Turn.Fits (start host limit) s) : s.globals.Reachable := by
  refine (h.keeps (I := fun s => s.globals.Reachable ∧ ∃ lib types, s.Kept lib types)
    ⟨.empty, [], [], start_kept host limit⟩ ?_).1
  rintro t t' source steps answer ⟨hreach, lib, types, hk⟩ hfits hrun
  refine ⟨?_, hk.unit hfits hrun⟩
  rcases hk.run_cases hfits hrun with rfl | ⟨c, o, hc, _, hs⟩
  · exact hreach
  · unfold finish at hs
    split at hs
    · cases hs
      exact hreach.unit hc
    · cases hs
      exact hreach

/-- A unit that declares `x` again, with another type, and uses a function of an earlier unit. -/
theorem Globals.units_keep_globals_coherent_redeclared :
    ∃ g c, Reachable g ∧ g.declared.vars.get? "x" = some .int ∧
      g.compile "x: bool = f(1) == 2\ndef g(a: int, b: bool) -> int:\n  return f(a)" shellName =
        .ok c ∧
      g.Coherent ∧ c.globals.Coherent ∧ g.definitions <+: c.globals.definitions := by
  obtain ⟨t, hr, ht⟩ := Trace.exists_later .reliable 20 5
    ["x: int = 7\ny: int = x", "def f(n: int) -> int:\n  return n + y"]
    (fun t => t.globals.declared.vars.get? "x" = some .int && t.globals.compilesIn
      "x: bool = f(1) == 2\ndef g(a: int, b: bool) -> int:\n  return f(a)")
    (by decide +kernel)
  rw [Bool.and_eq_true, decide_eq_true_eq] at ht
  obtain ⟨c, hc, _⟩ := exists_of_compilesIn ht.2
  obtain ⟨hg, hstep⟩ := units_keep_globals_coherent hr.reachable
  obtain ⟨p, _, hext, hc'⟩ := hstep _ _ c hc
  exact ⟨t.globals, c, hr.reachable, ht.1, hc, hg, hc', hext.texts⟩

end StackScript
