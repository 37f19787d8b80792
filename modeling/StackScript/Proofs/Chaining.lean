import StackScript.Proofs.Capacity
import StackScript.Proofs.Coherence
import StackScript.Proofs.Concatenation
import StackScript.Proofs.Locality

namespace StackScript

/-- Units are coded alike if the names that are used have the same slots and the same meaning. -/
theorem UnitCode.topContext_agree {V F : String → Prop} {declared declared' : Layer}
    {layout layout' : Layout} {p p' : Program} (hd : declared.Sound) (hd' : declared'.Sound)
    (hslots : ∀ name, V name →
      (layout.extend p.body).slots.get? name = (layout'.extend p'.body).slots.get? name)
    (hmeaning : ∀ name, V name ∨ F name → declared.get? name = declared'.get? name) :
    (topContext declared layout p).Agree V F (topContext declared' layout' p') := by
  have hlookup (name : String) (hn : V name ∨ F name) :
      (topContext declared layout p).scopes.lookup name =
        (topContext declared' layout' p').scopes.lookup name := by
    rw [Scopes.lookup_eq, Scopes.lookup_eq]
    change ((Layer.empty.overlay declared).get? name).or none =
      ((Layer.empty.overlay declared').get? name).or none
    rw [Layer.get?_overlay hd, Layer.get?_overlay hd', hmeaning name hn]
  exact ⟨fun _ => rfl, fun hn _ => hslots _ hn, fun hn => hlookup _ (.inl hn),
    fun hn => hlookup _ (.inr hn)⟩

/-- Contexts that agree keep top-level variables in the same way. -/
theorem Context.Agree.site {V F : String → Prop} {c c' : Context} (h : c.Agree V F c')
    (hc : c.locals = none) : c.site.Agree V F c'.site := by
  have hslots {name : String} (hn : V name) :
      c.layout.slots.get? name = c'.layout.slots.get? name :=
    h.slots hn (by simp [Context.isLocal, hc])
  refine ⟨fun hn => ?_, fun hn => ?_, h.scopes⟩
  · funext page
    simp only [Context.site, Layout.site, hslots hn]
  · funext value page
    simp only [Context.site, Layout.site, hslots hn]

theorem Stmt.namedAll_append {P : String → Prop} {a b : List Stmt} :
    NamedAll P (a ++ b) ↔ NamedAll P a ∧ NamedAll P b := by
  induction a with
  | nil => simp [NamedAll]
  | cons stmt a ih => simp [NamedAll, ih, and_assoc]

theorem Stmt.mem_declaredNames {ss : List Stmt} {stmt : Stmt} (h : stmt ∈ ss) {name : String}
    {b : Binding} (hb : stmt.binding? = some (name, b)) : name ∈ declaredNames ss :=
  List.mem_map_of_mem (f := (·.1)) (List.mem_filterMap.mpr ⟨stmt, h, hb⟩)

/-- A checked unit uses the names that are known behind its declarations. -/
theorem Program.Checked.usesAll {p : Program} {s₀ s : Scopes} {head rest : List Stmt}
    {typing : Typing} (h : p.Checked s₀ head rest s typing) :
    Stmt.UsesAll (fun name => s.lookup name ≠ none) (fun name => s.lookup name ≠ none) p.body := by
  have hknown {name : String} (hn : s₀.lookup name ≠ none ∨ name ∈ Stmt.declaredNames p.body) :
      s.lookup name ≠ none := by
    rw [h.lookup_eq, ne_eq, Meaning.extendAll_eq_none]
    exact fun hnone => hn.elim (· hnone.1) hnone.2
  have hstart : s₀.Only (fun name => s.lookup name ≠ none) (fun name => s.lookup name ≠ none) :=
    ⟨fun hn => hknown (.inl (by simp [hn])), fun hn => hknown (.inl (by simp [hn]))⟩
  have hdefined {span name params result body} (hm : .define span name params result body ∈ head) :
      s.lookup name ≠ none := by
    refine hknown (.inr ?_)
    rw [h.body]
    exact Stmt.mem_declaredNames (List.mem_append_left rest hm) rfl
  obtain ⟨hhead, hend⟩ := h.declares.usesAll hstart
    (fun d hd => by simp [h.declares.declared d hd])
    (fun _ _ _ _ _ _ hm => hdefined hm)
  rw [h.body]
  exact Stmt.usesAll_append.mpr
    ⟨hhead, Stmt.usesAll_of_checkAll hend rest (Stmt.checkAll_of_lastType h.last)⟩

/-- The functions of a unit have the same code in contexts that agree on what they use. -/
theorem Program.Checked.ofStmts_agree {p : Program} {s₀ s : Scopes} {head rest : List Stmt}
    {typing : Typing} (h : p.Checked s₀ head rest s typing) {V F : String → Prop} {c c' : Context}
    (hagree : c.Agree V F c') (hc : c.locals = none) (hs : s.Only V F) :
    FunctionCode.ofStmts c p.body = FunctionCode.ofStmts c' p.body :=
  FunctionCode.ofStmts_agree fun span name params result body hm =>
    FunctionCode.ofDefinition_agree hagree hc hs (h.functions span name params result body hm) name
      span.first

theorem FunctionCode.mem_declaredNames {ss : List Stmt} {name : String}
    (h : name ∈ (localsOf ss).map (·.1)) : name ∈ Stmt.declaredNames ss := by
  obtain ⟨_, _, _, hm⟩ := mem_localsOf h
  exact Stmt.mem_declaredNames hm rfl

def Layer.Knows (l : Layer) (name : String) : Prop := l.get? name ≠ none

/-- Names that mean the same have the same signatures in any two libraries. -/
theorem Library.Lists.signature?_unique {lib lib' : Library} {meaning : String → Option Binding}
    (h : lib.Lists meaning) (h' : lib'.Lists meaning) : lib.signature? = lib'.signature? := by
  funext name
  refine Option.ext fun sig => ?_
  rw [← h.functions, ← h'.functions]

/-- A unit leaves the functions as they are whose names it does not declare. -/
theorem Library.routine?_after {lib : Library} {g : Globals} {declared : Layer} {p : Program}
    {name : String} (h : name ∉ Stmt.declaredNames p.body) :
    (lib.after g declared p).routine? name = lib.routine? name := by
  have hnone : (ofStmts (UnitCode.topContext declared g.layout p) p.body).find? name = none := by
    rw [find?, List.find?_eq_none]
    intro d hd he
    obtain ⟨_, span, hm⟩ := mem_ofStmts hd
    rw [beq_iff_eq] at he
    exact h (he ▸ Stmt.mem_declaredNames hm rfl)
  rw [routine?, after, find?_append, hnone, Option.or_none, routine?]

/-- Functions call functions that are known. -/
theorem Globals.Made.uses {g : Globals} {lib : Library} {types : List Ty} (hg : g.Made lib types)
    {name : String} {r : Routine Page} (h : lib.routine? name = some r) :
    Stmt.UsesAll (fun _ => True) g.declared.Knows r.body := by
  obtain ⟨d, hd, rfl⟩ := Option.map_eq_some_iff.mp h
  obtain ⟨s, hs, hcalls, _⟩ := (hg.each d (Library.find?_some hd).1).checked
  refine Stmt.usesAll_of_checkFunction hs ⟨fun _ => trivial, fun {name sig} hn => ?_⟩
    (fun _ _ => trivial) (fun _ _ => trivial)
  have hsig := hcalls name sig (Scopes.signatureOf?_eq_some.mpr hn)
  simp [Layer.Knows, (hg.lists.functions name sig).mpr hsig]

/-- Two units that are checked and coded one after the other, and can be one. -/
structure Globals.Chain (g : Globals) (p q : Program) (typing typing' : Typing)
    (code code' : UnitCode) : Prop where
  sound : g.declared.Sound
  typed : p.typeOn g.declared = .ok typing
  coded : UnitCode.ofProgram typing.declared g.layout p = .ok code
  typed' : q.typeOn typing.declared = .ok typing'
  coded' : UnitCode.ofProgram typing'.declared code.layout q = .ok code'
  joins : p.Joins g.declared.get? q
  filled : q.body ≠ []

structure Globals.Joint (g : Globals) (p q : Program) (typing' : Typing) (code code' : UnitCode)
    (both : Typing) (joint : UnitCode) : Prop where
  typed : Program.typeOn g.declared ⟨p.body ++ q.body⟩ = .ok both
  meaning : both.declared.get? = typing'.declared.get?
  coded : UnitCode.ofProgram both.declared g.layout ⟨p.body ++ q.body⟩ = .ok joint
  functions : joint.functions = code.functions ++ code'.functions
  layout : joint.layout = code'.layout

namespace Globals.Chain

open UnitCode

variable {g : Globals} {p q : Program} {typing typing' both : Typing} {code code' : UnitCode}

theorem sound' (h : g.Chain p q typing typing' code code') : typing.declared.Sound :=
  Program.typeOn_sound h.sound h.typed

theorem layout_eq (h : g.Chain p q typing typing' code code') :
    code.layout = g.layout.extend p.body :=
  congrArg UnitCode.layout (ofProgram_ok h.coded).1

/-- The second unit declares no name that is known to the first. -/
theorem not_declared (h : g.Chain p q typing typing' code code') {name : String}
    (hn : typing.declared.Knows name) : name ∉ Stmt.declaredNames q.body := by
  intro hm
  apply hn
  rw [Program.typeOn_declared h.sound h.typed]
  exact h.joins.free name hm

/-- What the first unit knows is known to both. -/
theorem agree_first (h : g.Chain p q typing typing' code code') (hs : both.declared.Sound)
    (hboth : both.declared.get? = typing'.declared.get?) :
    (topContext both.declared g.layout ⟨p.body ++ q.body⟩).Agree typing.declared.Knows
      typing.declared.Knows (topContext typing.declared g.layout p) := by
  refine topContext_agree hs h.sound' (fun name hn => ?_) (fun name hn => ?_)
  · rw [Layout.extend_append]
    exact Layout.slot_of_not_declared _ fun hm =>
      h.not_declared hn (FunctionCode.mem_declaredNames hm)
  · rw [hboth, Program.typeOn_declared h.sound' h.typed']
    exact Meaning.extendAll_of_not_mem (h.not_declared (hn.elim id id))

/-- The second unit knows all that both know. -/
theorem agree_second (h : g.Chain p q typing typing' code code') (hs : both.declared.Sound)
    (hboth : both.declared.get? = typing'.declared.get?) :
    (topContext both.declared g.layout ⟨p.body ++ q.body⟩).Agree (fun _ => True) (fun _ => True)
      (topContext typing'.declared code.layout q) := by
  refine topContext_agree hs (Program.typeOn_sound h.sound' h.typed') (fun name _ => ?_)
    (fun name _ => by rw [hboth])
  rw [Layout.extend_append, h.layout_eq]

theorem uses_first (h : g.Chain p q typing typing' code code') :
    Stmt.UsesAll typing.declared.Knows typing.declared.Knows p.body := by
  obtain ⟨_, _, s, hc, hlookup⟩ := Program.typeOn_checked h.sound h.typed
  have huses := hc.usesAll
  rwa [hlookup] at huses

/-- The units are checked and coded as one. Their functions are coded in contexts that know
different names, but code depends only on the names that it uses. -/
theorem joint (h : g.Chain p q typing typing' code code') :
    ∃ both joint, g.Joint p q typing' code code' both joint := by
  obtain ⟨both, htyped, hmeaning⟩ := h.joins.typeOn h.sound h.typed h.typed' h.sound'
  have hs := Program.typeOn_sound h.sound htyped
  obtain ⟨fs, main, hfs, hmain, rfl⟩ := ofProgram_eq_ok.mp h.coded
  obtain ⟨fs', main', hfs', hmain', rfl⟩ := ofProgram_eq_ok.mp h.coded'
  obtain ⟨⟨is, d⟩, htop⟩ := mainCode_iff.mp ⟨main, hmain⟩
  obtain ⟨⟨is', d'⟩, htop'⟩ := mainCode_iff.mp ⟨main', hmain'⟩
  have hfirst := h.agree_first hs hmeaning
  have hsecond := h.agree_second hs hmeaning
  obtain ⟨_, _, s, hc, hlookup⟩ := Program.typeOn_checked h.sound h.typed
  obtain ⟨_, _, s', hc', _⟩ := Program.typeOn_checked h.sound' h.typed'
  have honly : s.Only typing.declared.Knows typing.declared.Knows := by
    constructor <;> intro name _ hn <;> simp [Layer.Knows, ← hlookup, hn]
  rw [← hc.ofStmts_agree hfirst rfl honly] at hfs
  rw [← hc'.ofStmts_agree hsecond rfl ⟨fun _ => trivial, fun _ => trivial⟩] at hfs'
  rw [← topCode_agree hfirst h.uses_first] at htop
  rw [← topCode_agree hsecond (Stmt.usesAll_any q.body)] at htop'
  obtain ⟨ks, hks⟩ := topCode_append h.filled htop htop'
  obtain ⟨entry, hentry⟩ := mainCode_iff (p := ⟨p.body ++ q.body⟩).mpr ⟨_, hks⟩
  exact ⟨both, _, htyped, hmeaning,
    ofProgram_eq_ok.mpr ⟨_, entry, FunctionCode.ofStmts_append hfs hfs', hentry, rfl⟩, rfl,
    g.layout.extend_append p.body q.body⟩

theorem evalUnit_second (h : g.Chain p q typing typing' code code') (hs : both.declared.Sound)
    (hboth : both.declared.get? = typing'.declared.get?) (fs : String → Option (Routine Page))
    (limit fuel : Nat) :
    evalUnit .parity fs limit (topContext both.declared g.layout ⟨p.body ++ q.body⟩).site fuel q.body =
      evalUnit .parity fs limit (topContext typing'.declared code.layout q).site fuel q.body :=
  evalUnit_related Eval.related_eq ((h.agree_second hs hboth).site rfl) (fun _ _ => rfl)
    (fun _ r _ _ => Stmt.usesAll_any r.body) limit (.inl rfl) (Stmt.usesAll_any q.body)

/-- The first unit calls functions that the second leaves as they are. -/
theorem evalUnit_first (h : g.Chain p q typing typing' code code') (hs : both.declared.Sound)
    (hboth : both.declared.get? = typing'.declared.get?) {lib : Library} {types : List Ty}
    (hmade : (g.compiled p typing code).globals.Made lib types) (limit fuel : Nat) :
    evalUnit .parity (lib.after (g.compiled p typing code).globals typing'.declared q).routine? limit
        (topContext both.declared g.layout ⟨p.body ++ q.body⟩).site fuel p.body =
      evalUnit .parity lib.routine? limit (topContext typing.declared g.layout p).site fuel p.body := by
  have hsame {name : String} (hn : typing.declared.Knows name) :
      (lib.after (g.compiled p typing code).globals typing'.declared q).routine? name =
        lib.routine? name := Library.routine?_after (h.not_declared hn)
  refine evalUnit_related Eval.related_eq ((h.agree_first hs hboth).site rfl) (fun _ => hsame)
    (fun name r hn hr => ?_) limit (.inl rfl) h.uses_first
  rw [hsame hn] at hr
  exact hmade.uses hr

/-- The units run as one if they run one after the other. -/
theorem execute (h : g.Chain p q typing typing' code code') {joint : UnitCode}
    (hj : g.Joint p q typing' code code' both joint) {lib : Library} {types : List Ty}
    (hg : g.Made lib types) (hp : p.Named Bare) (hq : q.Named Bare)
    (hfit : code'.layout.next ≤ Page.slots) {limit fuel fuel' : Nat} {w v w' : World Page}
    {raw raw' : Option Word}
    (hfirst : evalUnit .parity (lib.after g typing.declared p).routine? limit
      (topContext typing.declared g.layout p).site fuel p.body w = some (.ok raw, v))
    (hsecond : evalUnit .parity ((lib.after g typing.declared p).after
        (g.compiled p typing code).globals typing'.declared q).routine? limit
      (topContext typing'.declared code.layout q).site fuel' q.body v = some (.ok raw', w')) :
    ∃ steps, Machine.execute steps limit w.store.memory w.host
      (g.compiled ⟨p.body ++ q.body⟩ both joint).text = .ended (outcomeOf (.ok raw') w') := by
  have hs : both.declared.Sound := Program.typeOn_sound h.sound hj.typed
  have hof := hg.unit hp h.typed h.coded
  have hof' := hof.made.unit hq h.typed' h.coded'
  have hboth := hg.unit (Stmt.namedAll_append.mpr ⟨hp, hq⟩) hj.typed hj.coded
  -- The one unit has its functions in its own context. They have the same texts and arities as
  -- those that the units left one after the other, which are the ones that evaluation knows.
  have htexts : (lib.after g both.declared ⟨p.body ++ q.body⟩).texts =
      ((lib.after g typing.declared p).after (g.compiled p typing code).globals
        typing'.declared q).texts := by
    rw [← hboth.made.texts, ← hof'.made.texts]
    simp only [compiled, UnitCode.definitions, hj.functions, List.map_append, List.append_assoc]
  have hlists := hboth.made.lists
  rw [hboth.declared, hj.meaning] at hlists
  have hruns := hboth.runs (hj.layout ▸ hfit :)
  rw [← Library.arityOf_signature?, hlists.signature?_unique hof'.made.lists,
    Library.arityOf_signature?] at hruns
  have heval := evalUnit_append h.filled
    ((congrFun (h.evalUnit_first hs hj.meaning hof.made limit (max fuel fuel')) w).trans
      (evalUnit_mono (Nat.le_max_left fuel fuel') hfirst))
    ((congrFun (h.evalUnit_second hs hj.meaning _ limit (max fuel fuel')) v).trans
      (evalUnit_mono (Nat.le_max_right fuel fuel') hsecond))
  rw [hboth.text, Library.unitText, htexts]
  exact ((hof'.sound hfit).execute_iff_eval hruns limit w _).mpr ⟨_, _, _, heval, rfl⟩

end Globals.Chain

/-- Globals that no later unit can tell apart. -/
structure Globals.Same (g g' : Globals) : Prop where
  layout : g.layout = g'.layout
  vars : g.declared.vars.get? = g'.declared.vars.get?
  funcs : g.declared.funcs.get? = g'.declared.funcs.get?
  definitions : g.definitions = g'.definitions

theorem Layer.Sound.same {l l' : Layer} (h : l.Sound) (h' : l'.Sound) (hget : l.get? = l'.get?) :
    l.vars.get? = l'.vars.get? ∧ l.funcs.get? = l'.funcs.get? := by
  constructor <;> funext name
  · refine Option.ext fun type => ?_
    rw [← Layer.get?_variable, ← Layer.get?_variable, hget]
  · refine Option.ext fun sig => ?_
    rw [← h.get?_function, ← h'.get?_function, hget]

/-- The globals behind the one unit cannot be told from those behind the two. -/
theorem Globals.Joint.same {g : Globals} {p q : Program} {typing typing' both : Typing}
    {code code' joint : UnitCode} (hj : g.Joint p q typing' code code' both joint)
    (h : g.Chain p q typing typing' code code') :
    (g.compiled ⟨p.body ++ q.body⟩ both joint).globals.Same
      ((g.compiled p typing code).globals.compiled q typing' code').globals := by
  obtain ⟨hvars, hfuncs⟩ := (Program.typeOn_sound h.sound hj.typed).same
    (Program.typeOn_sound h.sound' h.typed') hj.meaning
  refine ⟨hj.layout, hvars, hfuncs, ?_⟩
  simp only [compiled, UnitCode.definitions, hj.functions, List.map_append, List.append_assoc]

theorem Host.output_of_served {h h' : Host} (hs : h.served <:+ h'.served) :
    ∃ out, h'.output = h.output ++ out := by
  obtain ⟨more, hmore⟩ := hs
  refine ⟨String.join (more.reverse.map HostCall.line), ?_⟩
  rw [Host.output, ← hmore, List.reverse_append, List.map_append, String.join_append, Host.output]

namespace Session

/-- What is known of a session if all its units succeeded. -/
structure Ready (s : Session) (lib : Library) (types : List Ty) : Prop extends s.Kept lib types where
  fits : s.globals.layout.next ≤ Page.slots
  valued : Meaning.Valued s.globals.declared.get?

/-- A program that is run with success is evaluated with success, and all its slots lie in the page. -/
theorem Ready.evaluates {s s' : Session} {lib : Library} {types : List Ty} (h : s.Ready lib types)
    {p : Program} (hp : p.Proper) {raw : Option Word} {type : Ty} (he : s.Executes p raw type s') :
    ∃ typing code fuel w', p.typeOn s.globals.declared = .ok typing ∧
      UnitCode.ofProgram typing.declared s.globals.layout p = .ok code ∧
      type = p.valueType typing ∧ code.layout.next ≤ Page.slots ∧
      evalUnit .parity (lib.after s.globals typing.declared p).routine? s.limit
        (UnitCode.topContext typing.declared s.globals.layout p).site fuel p.body h.world =
          some (.ok raw, w') ∧
      s' = ⟨(s.globals.compiled p typing code).globals, w'.store.memory, w'.host, s.limit⟩ := by
  obtain ⟨ht, hu, he, hr⟩ := he
  rename_i typing code steps o
  have hfit : code.layout.next ≤ Page.slots :=
    h.made.fits_of_success h.fits hp.named ht hu (w := h.world) he hr
  have hof := h.made.unit hp.named ht hu
  obtain ⟨fuel, r, w', heval, rfl⟩ := (hof.execute_iff hfit s.limit h.world o).mp ⟨steps, he⟩
  cases r with
  | error stop => cases hr
  | ok raw' =>
    cases hr
    exact ⟨typing, code, fuel, w', ht, hu, rfl, hfit, heval, rfl⟩

/-- A session is as ready for the next unit once a proper one has been taken up. -/
theorem Ready.next {s : Session} {lib : Library} {types : List Ty} (h : s.Ready lib types)
    {p : Program} (hp : p.Proper) {typing : Typing} {code : UnitCode}
    (ht : p.typeOn s.globals.declared = .ok typing)
    (hu : UnitCode.ofProgram typing.declared s.globals.layout p = .ok code)
    (hfit : code.layout.next ≤ Page.slots) (w : World Page) :
    Ready ⟨(s.globals.compiled p typing code).globals, w.store.memory, w.host, s.limit⟩
      (lib.after s.globals typing.declared p) (p.typesAfter types) where
  made := (h.made.unit hp.named ht hu).made
  sized := w.store.sized
  fits := hfit
  valued := by
    change Meaning.Valued typing.declared.get?
    rw [Program.typeOn_declared h.made.sound ht]
    exact h.valued.extendAll (Stmt.bindings_valued hp.valued)

theorem Later.ready {host : Host} {limit : Nat} {s : Session}
    (h : Later Turn.Succeeds (start host limit) s) : ∃ lib types, s.Ready lib types := by
  refine h.keeps (I := fun s => ∃ lib types, s.Ready lib types)
    ⟨[], [], start_kept host limit, Nat.zero_le _, fun name b hb => by cases hb⟩ ?_
  rintro t t' source steps answer ⟨lib, types, ht⟩ ⟨value, rfl⟩ hrun
  obtain ⟨p, raw, type, hparse, he, _⟩ := run_iff_executes.mp ⟨steps, hrun⟩
  have hp := Program.parse_proper hparse
  obtain ⟨typing, code, _, w, htyped, hcoded, _, hfit, _, rfl⟩ := ht.evaluates hp he
  exact ⟨_, _, ht.next hp htyped hcoded hfit w⟩

section AsOne

variable {s s₁ s₂ : Session} {p₁ p₂ : Program} {raw₁ raw₂ : Option Word} {type₁ type₂ : Ty}

theorem Ready.run_as_one {lib : Library} {types : List Ty} (hs : s.Ready lib types)
    (hp₁ : p₁.Proper) (hp₂ : p₂.Proper) (h₁ : s.Executes p₁ raw₁ type₁ s₁)
    (h₂ : s₁.Executes p₂ raw₂ type₂ s₂) (hne : p₂.body ≠ [])
    (hjoins : p₁.Joins s.globals.declared.get? p₂) :
    ∃ s', s.Executes ⟨p₁.body ++ p₂.body⟩ raw₂ type₂ s' ∧ s'.memory = s₂.memory ∧
      s'.host = s₂.host ∧ s'.globals.Same s₂.globals ∧
      ∃ out₁ out₂, s₁.host.output = s.host.output ++ out₁ ∧
        s₂.host.output = s₁.host.output ++ out₂ := by
  obtain ⟨typing, code, fuel, w, ht, hu, _, hfit, heval, rfl⟩ := hs.evaluates hp₁ h₁
  have hs₁ := hs.next hp₁ ht hu hfit w
  obtain ⟨typing', code', fuel', w', ht', hu', rfl, hfit', heval', rfl⟩ := hs₁.evaluates hp₂ h₂
  have hchain : s.globals.Chain p₁ p₂ typing typing' code code' :=
    ⟨hs.made.sound, ht, hu, ht', hu', hjoins, hne⟩
  obtain ⟨both, joint, hj⟩ := hchain.joint
  obtain ⟨steps, hsteps⟩ := hchain.execute hj hs.made hp₁.named hp₂.named hfit' heval heval'
  have htype := Program.valueType_append hs.made.sound hchain.sound' hne hj.typed ht' hj.meaning
    (hs₁.next hp₂ ht' hu' hfit' w').valued
  obtain ⟨out₁, hout₁⟩ := Host.output_of_served (evalUnit_prints _ _ _ _ _ _ heval)
  obtain ⟨out₂, hout₂⟩ := Host.output_of_served (evalUnit_prints _ _ _ _ _ _ heval')
  have hexecutes : s.Executes ⟨p₁.body ++ p₂.body⟩ raw₂ (p₂.valueType typing')
      ⟨(s.globals.compiled ⟨p₁.body ++ p₂.body⟩ both joint).globals, w'.store.memory, w'.host,
        s.limit⟩ := by
    rw [← htype]
    exact .intro hj.typed hj.coded hsteps rfl
  exact ⟨_, hexecutes, rfl, rfl, hj.same hchain, out₁, out₂, hout₁, hout₂⟩

/-- Programs that succeed one after the other succeed as one, with the result of the last, what they
print one after the other, and the memory and globals that they leave. -/
theorem units_run_as_one {host : Host} {limit : Nat} (h : Later Turn.Succeeds (start host limit) s)
    (hp₁ : p₁.Proper) (hp₂ : p₂.Proper) (h₁ : s.Executes p₁ raw₁ type₁ s₁)
    (h₂ : s₁.Executes p₂ raw₂ type₂ s₂) (hne : p₂.body ≠ [])
    (hjoins : p₁.Joins s.globals.declared.get? p₂) :
    ∃ s', s.Executes ⟨p₁.body ++ p₂.body⟩ raw₂ type₂ s' ∧ s'.memory = s₂.memory ∧
      s'.host = s₂.host ∧ s'.globals.Same s₂.globals ∧
      ∃ out₁ out₂, s₁.host.output = s.host.output ++ out₁ ∧
        s₂.host.output = s₁.host.output ++ out₂ ∧
        s'.host.output = s.host.output ++ (out₁ ++ out₂) := by
  obtain ⟨lib, types, hs⟩ := h.ready
  obtain ⟨s', he, hmemory, hhost, hsame, out₁, out₂, hout₁, hout₂⟩ :=
    hs.run_as_one hp₁ hp₂ h₁ h₂ hne hjoins
  refine ⟨s', he, hmemory, hhost, hsame, out₁, out₂, hout₁, hout₂, ?_⟩
  calc s'.host.output = s₁.host.output ++ out₂ := by rw [hhost, hout₂]
    _ = s.host.output ++ (out₁ ++ out₂) := by rw [hout₁, String.append_assoc]

/-- Units that a session is given as texts succeed as one, since parsing makes proper programs. -/
theorem sources_run_as_one {host : Host} {limit : Nat}
    (h : Later Turn.Succeeds (start host limit) s) {source₁ source₂ : String} {steps₁ steps₂ : Nat}
    {value₁ value₂ : Value} (h₁ : s.run steps₁ source₁ = some (.ok value₁, s₁))
    (h₂ : s₁.run steps₂ source₂ = some (.ok value₂, s₂)) :
    ∃ p₁ p₂ raw type, Program.parse source₁ shellName = .ok p₁ ∧
      Program.parse source₂ shellName = .ok p₂ ∧ value₂ = .ofWord raw type ∧
      (p₂.body ≠ [] → p₁.Joins s.globals.declared.get? p₂ →
        ∃ s', s.Executes ⟨p₁.body ++ p₂.body⟩ raw type s' ∧ s'.memory = s₂.memory ∧
          s'.host = s₂.host ∧ s'.globals.Same s₂.globals) := by
  obtain ⟨lib, types, hs⟩ := h.ready
  obtain ⟨p₁, raw₁, type₁, hp₁, he₁, _⟩ := run_iff_executes.mp ⟨steps₁, h₁⟩
  obtain ⟨p₂, raw₂, type₂, hp₂, he₂, hvalue⟩ := run_iff_executes.mp ⟨steps₂, h₂⟩
  refine ⟨p₁, p₂, raw₂, type₂, hp₁, hp₂, hvalue, fun hne hjoins => ?_⟩
  obtain ⟨s', he, hmemory, hhost, hsame, _⟩ := hs.run_as_one (Program.parse_proper hp₁)
    (Program.parse_proper hp₂) he₁ he₂ hne hjoins
  exact ⟨s', he, hmemory, hhost, hsame⟩

end AsOne

end Session

/-- The first unit prints while it declares a function and a variable, and the second declares another
variable with their help. -/
theorem Session.units_run_as_one_declaring :
    ∃ s s₁ s₂ s' p₁ p₂ raw₁ type₁, Later Turn.Succeeds (start .reliable 20) s ∧
      Program.parse "def f(n: int) -> int:\n  print(n)\n  return n + x\ny: int = f(3)" shellName =
        .ok p₁ ∧
      Program.parse "z: int = y\nprint(z)\nf(z) + x" shellName = .ok p₂ ∧
      s.Executes p₁ raw₁ type₁ s₁ ∧ s₁.Executes p₂ (some 24) .int s₂ ∧ p₂.body ≠ [] ∧
      p₁.Joins s.globals.declared.get? p₂ ∧
      s.Executes ⟨p₁.body ++ p₂.body⟩ (some 24) .int s' ∧ s'.memory = s₂.memory ∧
      s'.globals.Same s₂.globals ∧ s'.host.output = "3\n10\n10\n" := by
  have htest : ((Trace.start .reliable 20).succeed 5 "x: int = 7").any (fun a =>
      (a.trace.succeed 5
        "def f(n: int) -> int:\n  print(n)\n  return n + x\ny: int = f(3)").any fun b =>
      (b.trace.succeed 5 "z: int = y\nprint(z)\nf(z) + x").any fun c =>
        c.raw = some 24 ∧ c.type = .int ∧ c.program.body ≠ [] ∧
        b.program.Joins a.trace.globals.declared.get? c.program ∧
        c.trace.world.host.output = "3\n10\n10\n") = true := by
    decide +kernel
  obtain ⟨a, ha, htest⟩ := (Option.any_eq_true _ _).mp htest
  obtain ⟨b, hb, htest⟩ := (Option.any_eq_true _ _).mp htest
  obtain ⟨c, hc, htest⟩ := (Option.any_eq_true _ _).mp htest
  obtain ⟨hraw, htype, hne, hjoins, hout⟩ := of_decide_eq_true htest
  obtain ⟨_, _, _, hka⟩ := Trace.succeed_executes (Trace.start_kept .reliable 20) ha
  obtain ⟨hpb, heb, _, hkb⟩ := Trace.succeed_executes hka hb
  obtain ⟨hpc, hec, _, _⟩ := Trace.succeed_executes hkb hc
  have hs := Trace.succeed_later (Trace.start_kept .reliable 20) ha .refl
  rw [hraw, htype] at hec
  obtain ⟨s', he', hmemory, hhost, hsame, _⟩ := units_run_as_one hs
    (Program.parse_proper hpb) (Program.parse_proper hpc) heb hec hne hjoins
  exact ⟨_, _, _, s', _, _, _, _, hs, hpb, hpc, heb, hec, hne, hjoins, he', hmemory, hsame,
    hhost ▸ hout⟩

end StackScript
