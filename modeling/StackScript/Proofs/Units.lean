import StackScript.Proofs.Checked
import StackScript.Session

namespace StackScript

namespace Layout

structure Sound (l : Layout) : Prop where
  below : ∀ {name : String} {slot : Nat}, l.slots.get? name = some slot → slot < l.next
  apart : ∀ {a b : String} {slot : Nat},
    l.slots.get? a = some slot → l.slots.get? b = some slot → a = b

theorem sound_empty : empty.Sound := ⟨by simp [empty], by simp [empty]⟩

theorem get?_add (l : Layout) (name other : String) :
    (l.add name).slots.get? other = if other = name then some l.next else l.slots.get? other :=
  Table.get?_insert ..

theorem Sound.add {l : Layout} (h : l.Sound) (name : String) : (l.add name).Sound := by
  constructor
  · intro other slot hs
    rw [get?_add] at hs
    split at hs
    · cases hs
      exact Nat.lt_succ_self l.next
    · exact Nat.lt_succ_of_lt (h.below hs)
  · intro a b slot ha hb
    rw [get?_add] at ha hb
    split at ha <;> split at hb
    · rename_i ha' hb'
      rw [ha', hb']
    · cases ha
      exact absurd (h.below hb) (Nat.lt_irrefl _)
    · cases hb
      exact absurd (h.below ha) (Nat.lt_irrefl _)
    · exact h.apart ha hb

/-- Only the variables that statements declare matter to a layout. -/
theorem extend_eq (l : Layout) (ss : List Stmt) :
    l.extend ss = ((FunctionCode.localsOf ss).map (·.1)).foldl add l := by
  fun_induction extend l ss with
  | case1 => rfl
  | case2 l span name type value stmts ih => exact ih
  | case3 l stmt stmts hs ih =>
    rw [ih]
    cases stmt with
    | init => exact (hs _ _ _ _ rfl).elim
    | _ => rfl

theorem Sound.extend {l : Layout} (h : l.Sound) (ss : List Stmt) : (l.extend ss).Sound := by
  rw [extend_eq]
  generalize (FunctionCode.localsOf ss).map (·.1) = names
  induction names generalizing l with
  | nil => exact h
  | cons name names ih => exact ih (h.add name)

theorem extend_append (l : Layout) (a b : List Stmt) :
    l.extend (a ++ b) = (l.extend a).extend b := by
  rw [extend_eq, extend_eq, extend_eq, FunctionCode.localsOf_append, List.map_append,
    List.foldl_append]

theorem slot_foldl_add (l : Layout) {names : List String} {name : String} (h : name ∉ names) :
    (names.foldl add l).slots.get? name = l.slots.get? name := by
  induction names generalizing l with
  | nil => rfl
  | cons first names ih =>
    simp only [List.mem_cons, not_or] at h
    rw [List.foldl_cons, ih _ h.2, get?_add, if_neg h.1]

/-- A name that is not declared keeps its slot. -/
theorem slot_of_not_declared (l : Layout) {ss : List Stmt} {name : String}
    (h : name ∉ (FunctionCode.localsOf ss).map (·.1)) :
    (l.extend ss).slots.get? name = l.slots.get? name := by
  rw [extend_eq]
  exact l.slot_foldl_add h

/-- A name that is declared moves to a new slot. -/
theorem slot_of_declared (l : Layout) {ss : List Stmt} {name : String}
    (h : name ∈ (FunctionCode.localsOf ss).map (·.1)) :
    ∃ slot, (l.extend ss).slots.get? name = some slot ∧ l.next ≤ slot := by
  rw [extend_eq]
  generalize (FunctionCode.localsOf ss).map (·.1) = names at h
  induction names generalizing l with
  | nil => cases h
  | cons first names ih =>
    rw [List.foldl_cons]
    by_cases hm : name ∈ names
    · obtain ⟨slot, hs, hn⟩ := ih (l.add first) hm
      exact ⟨slot, hs, Nat.le_of_succ_le hn⟩
    · have hfirst : name = first := by simpa [hm] using h
      refine ⟨l.next, ?_, Nat.le_refl l.next⟩
      rw [slot_foldl_add _ hm, get?_add, if_pos hfirst]

/-- The slots of a layout have these types, and every variable lies in a slot of its type. -/
structure Types (l : Layout) (types : List Ty) (meaning : String → Option Binding) : Prop where
  next : l.next = types.length
  typed : ∀ {name : String} {type : Ty}, meaning name = some (.variable type) →
    ∃ slot, l.slots.get? name = some slot ∧ types[slot]? = some type

end Layout

/-- Each declaration takes the next slot for its type. -/
theorem Stmt.Declares.types {s s' : Scopes} {ss : List Stmt} (h : Declares false s ss s')
    {l : Layout} {types : List Ty} (ht : l.Types types s.lookup) :
    (l.extend ss).Types (types ++ (FunctionCode.localsOf ss).map (·.2)) s'.lookup := by
  induction h generalizing l types with
  | nil => simpa [Layout.extend, FunctionCode.localsOf] using ht
  | @init s _ _ name type _ ss _ _ _ _ ih =>
    have hstep : (l.add name).Types (types ++ [type]) (s.withVariable name type).lookup := by
      refine ⟨by simp [Layout.add, ht.next], ?_⟩
      intro other t ho
      rw [Scopes.lookup_withVariable] at ho
      rw [Layout.get?_add]
      split at ho
      · rename_i he
        cases ho
        exact ⟨l.next, by simp [he], by simp [ht.next]⟩
      · rename_i he
        obtain ⟨slot, hs, hslot⟩ := ht.typed ho
        refine ⟨slot, by simp [he, hs], ?_⟩
        rw [List.getElem?_append_left (List.getElem?_eq_some_iff.mp hslot).1, hslot]
    have hrest := ih hstep
    rwa [List.append_assoc] at hrest
  | @define s _ _ name params result _ ss _ _ free _ ih =>
    refine ih ⟨ht.next, ?_⟩
    intro other t ho
    rw [Scopes.lookup_withFunction (Scopes.inner_none free)] at ho
    split at ho
    · cases ho
    · exact ht.typed ho

namespace Library

variable {lib : Library}

def signature? (lib : Library) (name : String) : Option Signature :=
  (lib.find? name).map fun d => Stmt.signatureOf d.params d.result

theorem arityOf_signature? (lib : Library) : arityOf lib.signature? = lib.arity := by
  funext name
  simp [arityOf, signature?, arity, Function.comp_def, Stmt.signatureOf]

def ofStmts (c : Context) : List Stmt → Library
  | [] => []
  | .define _ name params result body :: ss => ⟨c, name, params, result, body⟩ :: ofStmts c ss
  | _ :: ss => ofStmts c ss

theorem codes_ofStmts (c : Context) (ss : List Stmt) :
    (ofStmts c ss).codes = FunctionCode.plainAll c ss := by
  fun_induction ofStmts c ss with
  | case1 => rfl
  | case2 span name params result body ss ih =>
    rw [FunctionCode.plainAll, ← ih]
    rfl
  | case3 s ss hs ih =>
    rw [ih]
    cases s with
    | define => exact (hs _ _ _ _ _ rfl).elim
    | _ => rfl

theorem mem_ofStmts {c : Context} {ss : List Stmt} {d : Definition} (h : d ∈ ofStmts c ss) :
    d.context = c ∧ ∃ span, .define span d.name d.params d.result d.body ∈ ss := by
  fun_induction ofStmts c ss with
  | case1 => cases h
  | case2 span name params result body ss ih =>
    rcases List.mem_cons.mp h with rfl | h
    · exact ⟨rfl, span, List.mem_cons_self⟩
    · obtain ⟨hc, span', hm⟩ := ih h
      exact ⟨hc, span', List.mem_cons_of_mem _ hm⟩
  | case3 s ss hs ih =>
    obtain ⟨hc, span, hm⟩ := ih h
    exact ⟨hc, span, List.mem_cons_of_mem s hm⟩

theorem ofStmts_append (c : Context) (a b : List Stmt) :
    ofStmts c (a ++ b) = ofStmts c a ++ ofStmts c b := by
  fun_induction ofStmts c a with
  | case1 => rfl
  | case2 span name params result body ss ih =>
    rw [List.cons_append, ofStmts, ih]
    rfl
  | case3 s ss hs ih =>
    rw [← ih]
    cases s with
    | define => exact (hs _ _ _ _ _ rfl).elim
    | _ => rfl

theorem ofStmts_eq_nil {c : Context} {ss : List Stmt}
    (h : ∀ span name params result body, .define span name params result body ∉ ss) :
    ofStmts c ss = [] := by
  rw [List.eq_nil_iff_forall_not_mem]
  intro d hd
  obtain ⟨_, span, hm⟩ := mem_ofStmts hd
  exact h span d.name d.params d.result d.body hm

theorem find?_append (lib more : Library) (name : String) :
    (lib ++ more).find? name = (lib.find? name).or (more.find? name) := List.find?_append

theorem signature?_append {lib : Library} {name : String} {sig : Signature}
    (h : lib.signature? name = some sig) (more : Library) :
    (lib ++ more).signature? name = some sig := by
  obtain ⟨d, hd, rfl⟩ := Option.map_eq_some_iff.mp h
  rw [signature?, find?_append, hd]
  rfl

theorem not_mem_of_signature? {name : String} (h : lib.signature? name = none) :
    name ∉ lib.map (·.name) := by
  intro hm
  obtain ⟨d, hd, rfl⟩ := List.mem_map.mp hm
  have hnone : lib.find? d.name = none := by simpa [signature?] using h
  have := List.find?_eq_none.mp hnone d hd
  simp at this

/-- A library holds exactly the functions that are declared, each by a name of its own. -/
structure Lists (lib : Library) (meaning : String → Option Binding) : Prop where
  functions : ∀ name sig, meaning name = some (.function sig) ↔ lib.signature? name = some sig
  names : (hostNames ++ lib.map (·.name)).Nodup

theorem Lists.calls {s : Scopes} (h : lib.Lists s.lookup) : s.Calls lib.signature? := by
  intro name sig hs
  exact (h.functions name sig).mp (Scopes.signatureOf?_eq_some.mp hs)

/-- One more function, of a name that is free. -/
theorem Lists.concat {s : Scopes} (h : lib.Lists s.lookup) (d : Definition)
    (hfree : s.lookup d.name = none) (hown : isReserved d.name = false) :
    (lib ++ [d]).Lists (s.withFunction d.name (Stmt.signatureOf d.params d.result)).lookup := by
  have hnone : lib.signature? d.name = none := by
    cases hs : lib.signature? d.name with
    | none => rfl
    | some sig =>
      have hf := (h.functions d.name sig).mpr hs
      rw [hfree] at hf
      cases hf
  have hfind : lib.find? d.name = none := by simpa [signature?] using hnone
  constructor
  · intro name sig
    rw [Scopes.lookup_withFunction (Scopes.inner_none hfree), signature?, find?_append]
    by_cases hn : name = d.name
    · subst hn
      rw [if_pos rfl, hfind, Option.none_or]
      simp [find?]
    · have hd : Library.find? [d] name = none := by simp [find?, Ne.symm hn]
      rw [if_neg hn, hd, Option.or_none]
      exact h.functions name sig
  · have hhost : d.name ∉ hostNames := by
      simp only [isReserved, Bool.or_eq_false_iff] at hown
      simpa using hown.2
    rw [List.map_append, ← List.append_assoc, List.nodup_append]
    refine ⟨h.names, by simp, ?_⟩
    intro name hm other ho
    rw [List.map_singleton, List.mem_singleton] at ho
    rw [ho]
    rintro rfl
    rcases List.mem_append.mp hm with hm | hm
    · exact hhost hm
    · exact not_mem_of_signature? hnone hm

end Library

/-- Functions that a unit declares join those of the library. -/
theorem Stmt.Declares.lists {s s' : Scopes} {ss : List Stmt} (h : Declares false s ss s')
    {lib : Library} (hl : lib.Lists s.lookup) (c : Context) :
    (lib ++ Library.ofStmts c ss).Lists s'.lookup := by
  induction h generalizing lib with
  | nil => simpa [Library.ofStmts] using hl
  | init _ _ kept _ ih =>
    refine ih ⟨?_, hl.names⟩
    intro other sig
    rw [Scopes.lookup_withVariable, ← hl.functions other sig]
    split
    · rename_i he
      subst he
      have hk := kept rfl sig
      simp [hk]
    · rfl
  | @define _ _ _ name params result body _ _ own free _ ih =>
    have hstep := hl.concat ⟨c, name, params, result, body⟩ free own
    have hrest := ih hstep
    rwa [List.append_assoc] at hrest

theorem Stmt.named_of_mem {P : String → Prop} {ss : List Stmt} (h : NamedAll P ss) {s : Stmt}
    (hs : s ∈ ss) : s.Named P := by
  induction ss with
  | nil => cases hs
  | cons first ss ih =>
    rcases List.mem_cons.mp hs with rfl | hs
    · exact h.1
    · exact ih h.2 hs

/-- A function as its unit leaves it: it has code, and it is checked with these functions known and
with variables that lie in slots of these types. -/
structure Definition.Made (known : String → Option Signature) (types : List Ty) (d : Definition) :
    Prop where
  name : Bare d.name
  params : ∀ p ∈ d.params, Bare p.name
  body : Stmt.NamedAll Bare d.body
  placed : Stmt.PlacedAll d.inner d.body
  layout : d.context.layout.Sound
  next : d.context.layout.next ≤ types.length
  checked : ∃ s : Scopes, Stmt.checkFunction s d.params d.result d.body = .ok () ∧ s.Calls known ∧
    ∀ {name : String} {type : Ty}, s.lookup name = some (.variable type) →
      ∃ slot, d.context.layout.slots.get? name = some slot ∧ types[slot]? = some type

namespace Definition.Made

variable {known : String → Option Signature} {types : List Ty} {d : Definition}

theorem sound (h : d.Made known types) (hfit : types.length ≤ Page.slots) :
    d.Sound (arityOf known) := by
  obtain ⟨s, hs, hk, _⟩ := h.checked
  refine ⟨h.name, h.params, h.body, h.placed, Stmt.callsFit_of_checkFunction hk hs, ?_⟩
  intro name slot hslot
  have hbelow := h.layout.below hslot
  have hnext := h.next
  omega

/-- More functions and more slots do no harm. -/
theorem mono (h : d.Made known types) {known' : String → Option Signature}
    (hk : ∀ name sig, known name = some sig → known' name = some sig) (more : List Ty) :
    d.Made known' (types ++ more) := by
  obtain ⟨s, hs, hcalls, ht⟩ := h.checked
  refine ⟨h.name, h.params, h.body, h.placed, h.layout, ?_, s, hs, ?_, ?_⟩
  · have hnext := h.next
    rw [List.length_append]
    omega
  · intro name sig hn
    exact hk name sig (hcalls name sig hn)
  · intro name type hn
    obtain ⟨slot, hslot, htype⟩ := ht hn
    refine ⟨slot, hslot, ?_⟩
    rw [List.getElem?_append_left (List.getElem?_eq_some_iff.mp htype).1, htype]

end Definition.Made

/-- Globals left by units that defined these functions and filled slots of these types. -/
structure Globals.Made (g : Globals) (lib : Library) (types : List Ty) : Prop where
  texts : g.definitions = lib.texts
  sound : g.declared.Sound
  layout : g.layout.Sound
  lists : lib.Lists g.declared.get?
  typed : g.layout.Types types g.declared.get?
  each : ∀ d ∈ lib, d.Made lib.signature? types

theorem Globals.made_empty : Globals.empty.Made [] [] where
  texts := rfl
  sound := Layer.sound_empty
  layout := Layout.sound_empty
  lists := ⟨by simp [Globals.empty, Layer.empty, Layer.get?, Library.signature?, Library.find?],
    by decide⟩
  typed := ⟨rfl, by simp [Globals.empty, Layer.empty, Layer.get?]⟩
  each := by simp

/-- The functions of all units so far can be written and loaded. -/
theorem Globals.Made.written {g : Globals} {lib : Library} {types : List Ty}
    (h : g.Made lib types) : lib.Written := by
  refine ⟨h.lists.names, fun d hd => ?_⟩
  have hmade := h.each d hd
  obtain ⟨s, hs, hk, _⟩ := hmade.checked
  rw [← Library.arityOf_signature?]
  exact ⟨hmade.name, hmade.params, hmade.body, Stmt.callsFit_of_checkFunction hk hs⟩

structure Program.CheckedOn (seed : Layer) (p : Program) (head rest : List Stmt) (s₀ s : Scopes)
    (typing : Typing) : Prop extends p.Checked s₀ head rest s typing where
  sound : s₀.Sound
  seeded : ∀ name, s₀.lookup name = seed.get? name

/-- A unit that is accepted on top of others is checked on top of their declarations. -/
theorem Program.typeOn_ok {seed : Layer} (hs : seed.Sound) {p : Program} {typing : Typing}
    (h : p.typeOn seed = .ok typing) :
    ∃ head rest s, p.CheckedOn seed head rest (.seeded seed) s typing := by
  obtain ⟨head, rest, s, hc⟩ := typeFrom_ok h
  refine ⟨head, rest, s, hc, ?_, Scopes.lookup_seeded seed⟩
  intro l hl
  rcases List.mem_cons.mp hl with rfl | hl
  · exact Layer.sound_empty
  · rw [List.mem_singleton.mp hl]
    exact hs

theorem Program.typeAlone_ok {p : Program} {typing : Typing} (h : p.typeAlone = .ok typing) :
    ∃ head rest s, p.CheckedOn .empty head rest .empty s typing := by
  obtain ⟨head, rest, s, hc⟩ := typeFrom_ok h
  refine ⟨head, rest, s, hc, ?_, fun _ => rfl⟩
  intro l hl
  rw [List.mem_singleton.mp hl]
  exact Layer.sound_empty

def Library.after (lib : Library) (g : Globals) (declared : Layer) (p : Program) : Library :=
  lib ++ ofStmts (UnitCode.topContext declared g.layout p) p.body

def Program.typesAfter (p : Program) (types : List Ty) : List Ty :=
  types ++ (FunctionCode.localsOf p.body).map (·.2)

namespace Program.CheckedOn

variable {g : Globals} {lib : Library} {types : List Ty} {p : Program} {head rest : List Stmt}
  {s₀ s : Scopes} {typing : Typing} {code : UnitCode}

/-- The declarations of a unit are all at its head. -/
theorem locals_rest (h : p.CheckedOn g.declared head rest s₀ s typing) :
    FunctionCode.localsOf rest = [] :=
  (Stmt.not_declared_of_checkAll (Stmt.checkAll_of_lastType h.last)).2

theorem locals_head (h : p.CheckedOn g.declared head rest s₀ s typing) :
    FunctionCode.localsOf p.body = FunctionCode.localsOf head := by
  rw [h.body, FunctionCode.localsOf_append, h.locals_rest, List.append_nil]

theorem ofStmts_head (h : p.CheckedOn g.declared head rest s₀ s typing) (c : Context) :
    Library.ofStmts c p.body = Library.ofStmts c head := by
  rw [h.body, Library.ofStmts_append, Library.ofStmts_eq_nil
    (Stmt.not_declared_of_checkAll (Stmt.checkAll_of_lastType h.last)).1, List.append_nil]

theorem scopes_sound (h : p.CheckedOn g.declared head rest s₀ s typing) : s.Sound :=
  h.declares.sound h.sound

theorem get?_declared (h : p.CheckedOn g.declared head rest s₀ s typing) (name : String) :
    typing.declared.get? name = s.lookup name := by
  rw [h.declared]
  exact h.scopes_sound.get?_flatten name

theorem lookup_start (h : p.CheckedOn g.declared head rest s₀ s typing) :
    s₀.lookup = g.declared.get? := funext h.seeded

/-- The variables behind a unit lie in slots of their types. -/
theorem slot_types (hg : g.Made lib types) (h : p.CheckedOn g.declared head rest s₀ s typing) :
    (g.layout.extend p.body).Types (p.typesAfter types) s.lookup := by
  have hstart : g.layout.Types types s₀.lookup := by
    rw [h.lookup_start]
    exact hg.typed
  have hend := h.declares.types hstart
  rw [Layout.extend_eq] at hend ⊢
  rw [Program.typesAfter, h.locals_head]
  exact hend

/-- The functions that can be called behind a unit are the declared ones. -/
theorem lists (hg : g.Made lib types) (h : p.CheckedOn g.declared head rest s₀ s typing) :
    (lib.after g typing.declared p).Lists s.lookup := by
  have hstart : lib.Lists s₀.lookup := by
    rw [h.lookup_start]
    exact hg.lists
  rw [Library.after, h.ofStmts_head]
  exact h.declares.lists hstart _

theorem length_typesAfter (hg : g.Made lib types)
    (h : p.CheckedOn g.declared head rest s₀ s typing) :
    (p.typesAfter types).length = (g.layout.extend p.body).next :=
  (h.slot_types hg).next.symm

/-- The functions of a unit, with their code. -/
theorem definition_made (hg : g.Made lib types) (h : p.CheckedOn g.declared head rest s₀ s typing)
    (hn : p.Named Bare) (hu : UnitCode.ofProgram typing.declared g.layout p = .ok code)
    {d : Definition}
    (hd : d ∈ Library.ofStmts (UnitCode.topContext typing.declared g.layout p) p.body) :
    d.Made (lib.after g typing.declared p).signature? (p.typesAfter types) := by
  obtain ⟨hc, span, hm⟩ := Library.mem_ofStmts hd
  obtain ⟨_, _, hplaced⟩ := UnitCode.ofProgram_ok hu
  obtain ⟨hname, hparams, hbody⟩ := Stmt.named_of_mem hn hm
  have hlayout : d.context.layout = g.layout.extend p.body := by rw [hc]; rfl
  refine ⟨hname, hparams, hbody, ?_, ?_, ?_, s, h.functions span _ _ _ _ hm, (h.lists hg).calls, ?_⟩
  · rw [Definition.inner, hc]
    exact hplaced span _ _ _ _ hm
  · rw [hlayout]
    exact hg.layout.extend p.body
  · exact Nat.le_of_eq (by rw [hlayout, h.length_typesAfter hg])
  · rw [hlayout]
    exact (h.slot_types hg).typed

/-- What a unit leaves to later ones. -/
theorem globals_made (hg : g.Made lib types) (h : p.CheckedOn g.declared head rest s₀ s typing)
    (hn : p.Named Bare) (hu : UnitCode.ofProgram typing.declared g.layout p = .ok code) :
    Globals.Made ⟨code.layout, typing.declared, g.definitions ++ code.definitions⟩
      (lib.after g typing.declared p) (p.typesAfter types) := by
  obtain ⟨rfl, _, _⟩ := UnitCode.ofProgram_ok hu
  have hmeaning : typing.declared.get? = s.lookup := funext h.get?_declared
  refine ⟨?_, ?_, hg.layout.extend p.body, ?_, ?_, ?_⟩
  · change g.definitions ++ (FunctionCode.plainAll _ p.body).map FunctionCode.render = _
    rw [hg.texts, ← Library.codes_ofStmts]
    simp [Library.texts, Library.codes, Library.after]
  · rw [h.declared]
    exact h.scopes_sound.flatten
  · rw [hmeaning]
    exact h.lists hg
  · rw [hmeaning]
    exact h.slot_types hg
  · intro d hd
    rcases List.mem_append.mp hd with hold | hnew
    · refine (hg.each d hold).mono ?_ _
      intro name sig hs
      exact Library.signature?_append hs _
    · exact h.definition_made hg hn hu hnew

/-- The text of a unit is that of all functions so far with its statements. -/
theorem text_eq (hg : g.Made lib types)
    (hu : UnitCode.ofProgram typing.declared g.layout p = .ok code) :
    ModuleText.ofUnit g.definitions code =
      (lib.after g typing.declared p).unitText (UnitCode.topContext typing.declared g.layout p)
        p.body := by
  obtain ⟨rfl, _, _⟩ := UnitCode.ofProgram_ok hu
  have htexts : (lib.after g typing.declared p).texts =
      g.definitions ++ (UnitCode.plain typing.declared g.layout p).definitions := by
    rw [hg.texts, UnitCode.definitions, UnitCode.plain, ← Library.codes_ofStmts]
    simp [Library.texts, Library.codes, Library.after]
  rw [Library.unitText, htexts]
  rfl

/-- If all variables fit in the page, every function behind the unit can be called. -/
theorem library_sound (hg : g.Made lib types)
    (h : p.CheckedOn g.declared head rest s₀ s typing) (hn : p.Named Bare)
    (hu : UnitCode.ofProgram typing.declared g.layout p = .ok code)
    (hfit : code.layout.next ≤ Page.slots) : (lib.after g typing.declared p).Sound := by
  have hmade := h.globals_made hg hn hu
  refine ⟨hmade.lists.names, ?_⟩
  intro d hd
  rw [← Library.arityOf_signature?]
  refine (hmade.each d hd).sound ?_
  rw [← hmade.typed.next]
  exact hfit

theorem runs (hg : g.Made lib types) (h : p.CheckedOn g.declared head rest s₀ s typing)
    (hn : p.Named Bare) (hu : UnitCode.ofProgram typing.declared g.layout p = .ok code)
    (hfit : code.layout.next ≤ Page.slots) :
    Library.Runs (lib.after g typing.declared p).arity
      (UnitCode.topContext typing.declared g.layout p) p.body := by
  obtain ⟨rfl, hplaced, _⟩ := UnitCode.ofProgram_ok hu
  refine ⟨rfl, ?_, hn, hplaced, ?_, h.returns⟩
  · intro name slot hslot
    exact Nat.lt_of_lt_of_le ((hg.layout.extend p.body).below hslot) hfit
  · rw [← Library.arityOf_signature?]
    exact h.callsFit (h.lists hg).calls

end Program.CheckedOn

end StackScript
