import StackScript.Proofs.Agreement
import StackScript.Proofs.Sessions

namespace StackScript

namespace Memory

theorem wordOf_byteOf (v : Word) :
    wordOf (byteOf v 1) (byteOf v 256) (byteOf v 65536) (byteOf v 16777216) = v := by
  have hlt : v.toUInt32.toNat < 4294967296 := v.toUInt32.toNat_lt
  have hsum : v.toUInt32.toNat / 1 % 2 ^ 8 + 256 * (v.toUInt32.toNat / 256 % 2 ^ 8) +
      65536 * (v.toUInt32.toNat / 65536 % 2 ^ 8) +
      16777216 * (v.toUInt32.toNat / 16777216 % 2 ^ 8) = v.toUInt32.toNat := by
    omega
  simp only [wordOf, byteOf, UInt8.toNat_ofNat']
  rw [hsum]
  apply Int32.toBitVec_inj.mp
  rw [Int32.toBitVec_ofNat']
  apply BitVec.eq_of_toNat_eq
  simp

theorem wordAt_setWord_self (m : Memory) (i : Nat) (v : Word) : (m.setWord i v).wordAt i = v := by
  simpa [wordAt, byte_setWord] using wordOf_byteOf v

theorem wordAt_setWord_ne (m : Memory) {i j : Nat} (v : Word) (h : i + 4 ≤ j ∨ j + 4 ≤ i) :
    (m.setWord i v).wordAt j = m.wordAt j := by
  have hbyte (k : Nat) (hk : k < 4) : (m.setWord i v).byte (j + k) = m.byte (j + k) := by
    rw [byte_setWord, if_neg (by omega), if_neg (by omega), if_neg (by omega), if_neg (by omega)]
  have hfirst : (m.setWord i v).byte j = m.byte j := hbyte 0 (by omega)
  unfold wordAt
  rw [hfirst, hbyte 1 (by omega), hbyte 2 (by omega), hbyte 3 (by omega)]

def word (m : Memory) (slot : Nat) : Word := m.wordAt (slot * Layout.slotSize)

/-- The slots hold words of their types. -/
def Typed (m : Memory) (types : List Ty) : Prop :=
  ∀ {slot : Nat} {type : Ty}, types[slot]? = some type → type.Admits (m.word slot)

def ZeroFrom (m : Memory) (n : Nat) : Prop := ∀ ⦃slot : Nat⦄, n ≤ slot → m.word slot = 0

theorem zeroFrom_ofPages (pages : Nat) : (ofPages pages).ZeroFrom 0 := by
  intro slot _
  simp [word, wordAt, byte, ofPages, wordOf]

def ZeroBetween (m : Memory) (n k : Nat) : Prop :=
  ∀ ⦃slot : Nat⦄, n ≤ slot → slot < k → m.word slot = 0

theorem ZeroFrom.between {m : Memory} {n : Nat} (h : m.ZeroFrom n) (k : Nat) : m.ZeroBetween n k :=
  fun _ hn _ => h hn

/-- Slots that hold zero can be given any types. -/
theorem Typed.append {m : Memory} {types more : List Ty} (h : m.Typed types)
    (hz : m.ZeroBetween types.length (types ++ more).length) : m.Typed (types ++ more) := by
  intro slot type ht
  rcases Nat.lt_or_ge slot types.length with hlt | hge
  · rw [List.getElem?_append_left hlt] at ht
    exact h ht
  · rw [hz hge (List.getElem?_eq_some_iff.mp ht).1]
    exact type.admits_zero

end Memory

def Page.put (y : Page) (slot : Nat) (v : Word) : Page := y.set (slot * Layout.slotSize) v

theorem Page.word_put (y : Page) (slot other : Nat) (v : Word) :
    (y.put slot v).memory.word other = if other = slot then v else y.memory.word other := by
  unfold put set Memory.word
  split
  · rename_i he
    rw [he]
    exact Memory.wordAt_setWord_self ..
  · rename_i hne
    refine Memory.wordAt_setWord_ne _ _ ?_
    simp only [Layout.slotSize]
    omega

theorem Layout.read_site {l : Layout} {name : String} {slot : Nat} (scopes : Scopes)
    (h : l.slots.get? name = some slot) (y : Page) :
    (l.site scopes).read name y = y.memory.word slot := by
  simp only [Layout.site, h]
  rfl

theorem Layout.write_site {l : Layout} {name : String} {slot : Nat} (scopes : Scopes)
    (h : l.slots.get? name = some slot) (v : Word) (y : Page) :
    (l.site scopes).write name v y = y.put slot v := by
  simp only [Layout.site, h]
  rfl

section Stages

variable {σ : Type}

/-- A site keeps top-level variables as the slots of a layout do, `Q` relating its store to a page. -/
structure Site.Mirrors (Q : σ → Page → Prop) (l : Layout) (a : Site σ) : Prop where
  reads : ∀ {name : String} {slot : Nat}, l.slots.get? name = some slot → ∀ {x : σ} {y : Page},
    Q x y → a.read name x = y.memory.word slot
  writes : ∀ {name : String} {slot : Nat}, l.slots.get? name = some slot → ∀ {x : σ} {y : Page},
    Q x y → ∀ v, Q (a.write name v x) (y.put slot v)

structure Sharing (Q : σ → Page → Prop) (types : List Ty) (x : σ) (y : Page) : Prop where
  same : Q x y
  typed : y.memory.Typed types

/-- Stores at a point of a unit at which names mean what they mean in `s`. -/
structure Midway (Q : σ → Page → Prop) (l : Layout) (types : List Ty) (s : Scopes) (x : σ)
    (y : Page) : Prop extends Sharing Q types x y where
  named : ∀ {name : String} {type : Ty}, s.typeOf? name = some type →
    ∃ slot, l.slots.get? name = some slot ∧ type.Admits (y.memory.word slot)

variable {Q : σ → Page → Prop} {l : Layout} {types : List Ty} {s s' : Scopes} {a : Site σ}
  {x : σ} {y : Page} {head rest : List Stmt}

/-- A variable gets a value of its type; no other name changes. -/
theorem Midway.write (h : Midway Q l types s x y) (hl : l.Sound) (ha : a.Mirrors Q l)
    {name : String} {slot : Nat} {type : Ty} {v : Word} (hslot : l.slots.get? name = some slot)
    (htype : types[slot]? = some type) (hv : type.Admits v)
    (hs : ∀ {other : String} {t : Ty}, s'.typeOf? other = some t →
      other = name ∧ t = type ∨ other ≠ name ∧ s.typeOf? other = some t) :
    Midway Q l types s' (a.write name v x) (y.put slot v) := by
  refine ⟨⟨ha.writes hslot h.same v, ?_⟩, ?_⟩
  · intro other t ho
    rw [Page.word_put]
    split
    · rename_i he
      rw [he, htype] at ho
      cases ho
      exact hv
    · exact h.typed ho
  · intro other t ho
    rcases hs ho with ⟨rfl, rfl⟩ | ⟨hne, ho⟩
    · refine ⟨slot, hslot, ?_⟩
      rw [Page.word_put, if_pos rfl]
      exact hv
    · obtain ⟨slot', hslot', hadmits⟩ := h.named ho
      refine ⟨slot', hslot', ?_⟩
      rw [Page.word_put, if_neg]
      · exact hadmits
      · rintro rfl
        exact hne (hl.apart hslot' hslot)

/-- A declared name has its new type as soon as it has its first value. -/
theorem Midway.declare (h : Midway Q l types s x y) (hl : l.Sound) (ha : a.Mirrors Q l)
    {name : String} {slot : Nat} {type : Ty} {v : Word} (hslot : l.slots.get? name = some slot)
    (htype : types[slot]? = some type) (hv : type.Admits v) :
    Midway Q l types (s.withVariable name type) (a.write name v x) (y.put slot v) := by
  refine h.write hl ha hslot htype hv ?_
  intro other t ho
  rw [Scopes.typeOf?_eq_some, Scopes.lookup_withVariable] at ho
  split at ho
  · rename_i he
    cases ho
    exact .inl ⟨he, rfl⟩
  · rename_i he
    exact .inr ⟨he, Scopes.typeOf?_eq_some.mpr ho⟩

theorem Midway.define (h : Midway Q l types s x y) {name : String} (free : s.lookup name = none)
    (sig : Signature) : Midway Q l types (s.withFunction name sig) x y := by
  refine ⟨h.toSharing, ?_⟩
  intro other type ho
  rw [Scopes.typeOf?_eq_some, Scopes.lookup_withFunction (Scopes.inner_none free)] at ho
  split at ho
  · cases ho
  · exact h.named (Scopes.typeOf?_eq_some.mpr ho)

/-- Before a unit runs, the slots that it takes are zero. So a variable that is declared again later
in the unit, and is already read from its new slot, holds a word of its old type too. -/
theorem Midway.start {g : Globals} {lib : Library} {old : List Ty} (hg : g.Made lib old)
    {p : Program} {head rest : List Stmt} {s₀ : Scopes} {typing : Typing}
    (h : p.CheckedOn g.declared head rest s₀ s typing) (hq : Q x y) (ht : y.memory.Typed old)
    (hz : y.memory.ZeroBetween old.length (p.typesAfter old).length) :
    Midway Q (g.layout.extend p.body) (p.typesAfter old) s₀ x y := by
  refine ⟨⟨hq, ht.append hz⟩, ?_⟩
  intro name type hn
  rw [Scopes.typeOf?_eq_some, h.seeded] at hn
  obtain ⟨slot, hslot, htype⟩ := hg.typed.typed hn
  by_cases hagain : name ∈ (FunctionCode.localsOf p.body).map (·.1)
  · obtain ⟨slot', hslot', hnew⟩ := g.layout.slot_of_declared hagain
    have hbelow := (hg.layout.extend p.body).below hslot'
    rw [(h.slot_types hg).next] at hbelow
    rw [hg.typed.next] at hnew
    refine ⟨slot', hslot', ?_⟩
    rw [hz hnew hbelow]
    exact type.admits_zero
  · exact ⟨slot, (g.layout.slot_of_not_declared hagain).trans hslot, ht htype⟩

theorem Paired.mono {τ : Type} {S S' : σ → τ → Prop} {known : String → Option Signature}
    {fs : String → Option (Routine σ)} {gs : String → Option (Routine τ)}
    (h : Paired S known fs gs) (hs : ∀ {x y}, S' x y → S x y) : Paired S' known fs gs := by
  intro name sig hn
  obtain ⟨r, q, hr, hq, hp⟩ := h hn
  obtain ⟨scopes, hchecked, hk, hreads⟩ := hp.checked
  exact ⟨r, q, hr, hq, hp.params, hp.body, hp.sig,
    ⟨scopes, hchecked, hk, fun ht _ _ hxy => hreads ht (hs hxy)⟩, hp.prints⟩

/-- A name that a block has declared stays declared. -/
theorem Stmt.Declares.keeps_inner {inFunction : Bool} (h : Declares inFunction s head s')
    {name : String} {b : Binding} (hn : s.inner.get? name = some b) : s'.inner.get? name = some b := by
  induction h with
  | nil => exact hn
  | init _ free _ _ ih =>
    apply ih
    rw [Scopes.withVariable, Layer.get?_insertVariable, if_neg]
    · exact hn
    · rintro rfl
      rw [free] at hn
      cases hn
  | define _ _ free _ ih =>
    apply ih
    have hinner := Scopes.inner_none free
    rw [Scopes.withFunction, Layer.get?_insertFunction (Layer.get?_none hinner).1, if_neg]
    · exact hn
    · rintro rfl
      rw [hinner] at hn
      cases hn

/-- After its declarations a block knows all their variables. -/
theorem Stmt.Declares.declared_inner {inFunction : Bool} (h : Declares inFunction s head s') :
    ∀ d ∈ FunctionCode.localsOf head, s'.inner.get? d.1 = some (.variable d.2) := by
  induction h with
  | nil => simp [FunctionCode.localsOf]
  | init _ _ _ rest ih =>
    intro d hd
    rcases List.mem_cons.mp hd with rfl | hd
    · apply rest.keeps_inner
      rw [Scopes.withVariable, Layer.get?_insertVariable, if_pos rfl]
    · exact ih d hd
  | define _ _ _ _ ih => exact ih

theorem Stmt.Declares.declared (h : Declares false s head s') :
    ∀ d ∈ FunctionCode.localsOf head, s'.lookup d.1 = some (.variable d.2) := by
  intro d hd
  rw [Scopes.lookup_eq, h.declared_inner d hd]
  rfl

/-- Declarations take free names only. -/
theorem Stmt.Declares.fresh {inFunction : Bool} (h : Declares inFunction s head s') :
    ∀ d ∈ FunctionCode.localsOf head, s.inner.get? d.1 = none := by
  induction h with
  | nil => simp [FunctionCode.localsOf]
  | init _ free _ _ ih =>
    intro d hd
    rcases List.mem_cons.mp hd with rfl | hd
    · exact free
    · have hafter := ih d hd
      rw [Scopes.withVariable, Layer.get?_insertVariable] at hafter
      split at hafter
      · cases hafter
      · exact hafter
  | define _ _ free _ ih =>
    intro d hd
    have hafter := ih d hd
    rw [Scopes.withFunction,
      Layer.get?_insertFunction (Layer.get?_none (Scopes.inner_none free)).1] at hafter
    split at hafter
    · cases hafter
    · exact hafter

/-- Declarations take one slot after the other, and no later one takes the same name. -/
theorem Stmt.Declares.slot_next {name : String} {type : Ty} {head more : List Stmt}
    (rest : Declares false (s.withVariable name type) head s')
    (hmore : ∀ d ∈ FunctionCode.localsOf more, s'.inner.get? d.1 = none) (L : Layout) :
    (((L.add name).extend head).extend more).slots.get? name = some L.next := by
  have hinner : (s.withVariable name type).inner.get? name = some (.variable type) := by
    rw [Scopes.withVariable, Layer.get?_insertVariable, if_pos rfl]
  have hhead : name ∉ (FunctionCode.localsOf head).map (·.1) := by
    intro hmem
    obtain ⟨d, hd, rfl⟩ := List.mem_map.mp hmem
    rw [rest.fresh d hd] at hinner
    cases hinner
  have hlater : name ∉ (FunctionCode.localsOf more).map (·.1) := by
    intro hmem
    obtain ⟨d, hd, rfl⟩ := List.mem_map.mp hmem
    have hkept := rest.keeps_inner hinner
    rw [hmore d hd] at hkept
    cases hkept
  rw [Layout.slot_of_not_declared _ hlater, Layout.slot_of_not_declared _ hhead, Layout.get?_add,
    if_pos rfl]

variable {t : Truth} {known : String → Option Signature}
  {fs : String → Option (Routine σ)} {gs : String → Option (Routine Page)}

/-- Between declarations: every name can be read. -/
theorem Midway.view (ha : a.Mirrors Q l) {scopes : Scopes} (hprints : a.scopes.Alike scopes) :
    View (Midway Q l types s) s (fun _ => false) a (l.site scopes) := by
  refine ⟨?_, hprints⟩
  intro name type _ hn x y hxy
  obtain ⟨slot, hslot, hadmits⟩ := hxy.named hn
  rw [ha.reads hslot hxy.same, Layout.read_site scopes hslot]
  exact ⟨rfl, hadmits⟩

/-- Behind the declarations: every variable can be set, as it lies in a slot of its type. -/
theorem Midway.setting (hl : l.Sound) (ht : l.Types types s.lookup) (ha : a.Mirrors Q l)
    {scopes : Scopes} (hprints : a.scopes.Alike scopes) :
    Setting (Midway Q l types s) s none (fun _ => false) a (l.site scopes) := by
  refine ⟨Midway.view ha hprints, ?_⟩
  intro name type v _ hn _ hv x y hxy
  obtain ⟨slot, hslot, htype⟩ := ht.typed (Scopes.typeOf?_eq_some.mp hn)
  rw [Layout.write_site scopes hslot]
  refine hxy.write hl ha hslot htype hv ?_
  intro other type' ho
  by_cases he : other = name
  · subst he
    rw [hn] at ho
    cases ho
    exact .inl ⟨rfl, rfl⟩
  · exact .inr ⟨he, ho⟩

/-- The declarations of a unit, and then what is behind them. -/
theorem Stmt.Declares.alike_top {limit fuel : Nat} {scopes : Scopes}
    {post : Option Word → World σ → World Page → Prop} (ht : t.Agrees .parity) (hl : l.Sound)
    (ha : a.Mirrors Q l) (hprints : a.scopes.Alike scopes)
    (hp : Paired (Sharing Q types) known fs gs) (hd : Declares false s head s')
    (hk : s'.Calls known)
    (htypes : ∀ d ∈ FunctionCode.localsOf head,
      ∃ slot, l.slots.get? d.1 = some slot ∧ types[slot]? = some d.2)
    (hrest : ∀ {w v}, Together (Midway Q l types s') w v →
      Alike (Together (Sharing Q types)) post
        (evalTop t (callAt t fs limit fuel 1) a fuel rest w)
        (evalTop .parity (callAt .parity gs limit fuel 1) (l.site scopes) fuel rest v))
    {w : World σ} {v : World Page} (hw : Together (Midway Q l types s) w v) :
    Alike (Together (Sharing Q types)) post
      (evalTop t (callAt t fs limit fuel 1) a fuel (head ++ rest) w)
      (evalTop .parity (callAt .parity gs limit fuel 1) (l.site scopes) fuel (head ++ rest) v) := by
  induction hd generalizing w v with
  | nil => exact hrest hw
  | @init s s' span name type value head typed free kept rest' ih =>
    have hall : Declares false s (.init span name type value :: head) s' :=
      .init typed free kept rest'
    have hcalls : KnownAlike (Midway Q l types s) known (callAt t fs limit fuel 1)
        (callAt .parity gs limit fuel 1) :=
      callAt_alike ht (hp.mono fun h => h.toSharing) limit fuel 1
    have hempty : s.Covers (fun _ => false) .empty := ⟨fun _ => rfl, by simp⟩
    obtain ⟨slot, hslot, htype⟩ := htypes (name, type) List.mem_cons_self
    rw [List.cons_append, evalTop_cons (by simp), evalTop_cons (by simp)]
    have hvalue := Expr.alike ht (Midway.view ha hprints) (hcalls.calls (hall.calls_before hk))
      hempty value typed hw
    have hinit : Alike (Together (Sharing Q types))
        (fun _ => Together (Midway Q l types (s.withVariable name type)))
        ((Stmt.init span name type value).eval t (callAt t fs limit fuel 1) a fuel .empty w)
        ((Stmt.init span name type value).eval .parity (callAt .parity gs limit fuel 1)
          (l.site scopes) fuel .empty v) := by
      refine (hvalue.weaken (fun _ _ h => ⟨h.host, h.store.toSharing⟩) (fun _ _ _ h => h)).bind ?_
      rintro x w v ⟨hx, hw⟩
      refine .done ⟨hw.host, ?_⟩
      change Midway Q l types _ _ ((l.site scopes).write name x v.store)
      rw [Layout.write_site scopes hslot]
      exact hw.store.declare hl ha hslot htype hx
    refine hinit.bind ?_
    intro _ w v hw
    exact ih hk (fun d hd => htypes d (List.mem_cons_of_mem _ hd)) hrest hw
  | @define s _ span name params result body head _ _ free _ ih =>
    rw [List.cons_append, evalTop_cons (by simp), evalTop_cons (by simp)]
    exact ih hk htypes hrest ⟨hw.host, hw.store.define free _⟩

/-- Declarations and the statements behind them. -/
theorem Stmt.Declares.evalUnit_alike {scopes : Scopes} {type : Ty} (ht : t.Agrees .parity)
    (hl : l.Sound) (ha : a.Mirrors Q l) (hprints : a.scopes.Alike scopes)
    (hp : Paired (Sharing Q types) known fs gs) (hd : Declares false s head s')
    (hk : s'.Calls known) (htypes : l.Types types s'.lookup)
    (hlast : lastType s' .none rest = .ok type) (limit fuel : Nat) {w : World σ} {v : World Page}
    (hw : Together (Midway Q l types s) w v) :
    Alike (Together (Sharing Q types))
      (fun raw w v => (∀ value, raw = some value → type.Admits value) ∧
        Together (Midway Q l types s') w v)
      (evalUnit t fs limit a fuel (head ++ rest) w)
      (evalUnit .parity gs limit (l.site scopes) fuel (head ++ rest) v) := by
  unfold evalUnit
  split
  · refine hd.alike_top ht hl ha hprints hp hk (fun d h => htypes.typed (hd.declared d h)) ?_ hw
    intro w v hw
    have hcalls : KnownAlike (Midway Q l types s') known (callAt t fs limit fuel 1)
        (callAt .parity gs limit fuel 1) :=
      callAt_alike ht (hp.mono fun h => h.toSharing) limit fuel 1
    refine (evalTop_alike ht (Midway.setting hl htypes ha hprints) (hcalls.calls hk) fuel hlast
      hw).weaken ?_ (fun _ _ _ h => h)
    intro w v hw
    exact ⟨hw.host, hw.store.toSharing⟩
  · exact .stopped ⟨hw.host, hw.store.toSharing⟩

/-- A unit goes the same way over a store that mirrors its slots and over memory. Its value is one
of the type that checking finds. -/
theorem Program.CheckedOn.evalUnit_alike {g : Globals} {lib : Library} {old : List Ty}
    (hg : g.Made lib old) {p : Program} {s₀ : Scopes} {typing : Typing}
    (h : p.CheckedOn g.declared head rest s₀ s typing) (ht : t.Agrees .parity)
    (ha : a.Mirrors Q (g.layout.extend p.body))
    (hprints : a.scopes.Alike (UnitCode.topContext typing.declared g.layout p).scopes)
    (hp : Paired (Sharing Q (p.typesAfter old)) (lib.after g typing.declared p).signature? fs
      (lib.after g typing.declared p).routine?)
    (limit fuel : Nat) {w : World σ} {v : World Page}
    (hw : Together (Midway Q (g.layout.extend p.body) (p.typesAfter old) s₀) w v) :
    Alike (Together (Sharing Q (p.typesAfter old)))
      (fun raw w v => (∀ value, raw = some value → typing.result.Admits value) ∧
        Together (Midway Q (g.layout.extend p.body) (p.typesAfter old) s) w v)
      (evalUnit t fs limit a fuel p.body w)
      (evalUnit .parity (lib.after g typing.declared p).routine? limit
        (UnitCode.topContext typing.declared g.layout p).site fuel p.body v) := by
  have hall := h.declares.evalUnit_alike ht (hg.layout.extend p.body) ha hprints hp
    (h.lists hg).calls (h.slot_types hg) h.last limit fuel hw
  rwa [← h.body] at hall

end Stages

end StackScript
