import StackScript.Proofs.Capacity
import StackScript.Proofs.Values

namespace StackScript

namespace Stmt.Declares

variable {inFunction : Bool} {s s' : Scopes} {head rest : List Stmt}

theorem split {a b : List Stmt} (h : Declares inFunction s (a ++ b) s') :
    ∃ m, Declares inFunction s a m ∧ Declares inFunction m b s' := by
  induction a generalizing s with
  | nil => exact ⟨s, .nil s, h⟩
  | cons stmt a ih =>
    cases h with
    | init typed free kept rest =>
      obtain ⟨m, ha, hb⟩ := ih rest
      exact ⟨m, .init typed free kept ha, hb⟩
    | define top own free rest =>
      obtain ⟨m, ha, hb⟩ := ih rest
      exact ⟨m, .define top own free ha, hb⟩

/-- Declarations run one after the other, and then the rest. -/
theorem evalTop_append {σ : Type} (h : Declares inFunction s head s') (t : Truth)
    (f : String → List Word → Eval σ Word) (a : Site σ) (fuel : Nat) (rest : List Stmt) :
    evalTop t f a fuel (head ++ rest) =
      evalAll t f a fuel head .empty >>= fun _ => evalTop t f a fuel rest := by
  induction h with
  | nil => rfl
  | @init _ _ span name type value head _ _ _ _ ih =>
    rw [List.cons_append, evalTop_cons (by simp), ih]
    simp only [evalAll, Stmt.eval, assignTo, bind_assoc]
    rfl
  | define _ _ _ _ ih =>
    rw [List.cons_append, evalTop_cons (by simp), ih]
    rfl

end Stmt.Declares

namespace Expr

mutual

def names : Expr → List String
  | .noneLit _ | .boolLit .. | .intLit .. => []
  | .var _ name => [name]
  | .unary _ _ operand => names operand
  | .binary _ _ left right => names left ++ names right
  | .call _ _ args => namesAll args
  | .print _ arg => names arg

def namesAll : List Expr → List String
  | [] => []
  | e :: es => names e ++ namesAll es

end

variable {σ : Type} {t : Truth} {f : String → List Word → Eval σ Word} {a b : Site σ}
  {locals : Table Word}

mutual

/-- Only the names that an expression reads matter to its value. -/
theorem eval_congr (hscopes : a.scopes = b.scopes) (e : Expr)
    (h : ∀ name ∈ e.names, a.read name = b.read name) :
    e.eval t f a locals = e.eval t f b locals := by
  match e with
  | .noneLit _ | .boolLit .. | .intLit .. => rfl
  | .var _ name => simp only [eval, h name (by simp [names])]
  | .unary _ _ operand => simp only [eval, eval_congr hscopes operand h]
  | .binary _ _ left right =>
    have hleft := eval_congr hscopes left fun name hn => h name (List.mem_append_left _ hn)
    have hright := eval_congr hscopes right fun name hn => h name (List.mem_append_right _ hn)
    simp only [eval, hleft, hright]
  | .call _ _ args => simp only [eval, evalAll_congr hscopes args h]
  | .print _ arg => simp only [eval, hscopes, eval_congr hscopes arg h]

theorem evalAll_congr (hscopes : a.scopes = b.scopes) (es : List Expr)
    (h : ∀ name ∈ namesAll es, a.read name = b.read name) :
    evalAll t f a locals es = evalAll t f b locals es := by
  match es with
  | [] => rfl
  | e :: es =>
    have hfirst := eval_congr hscopes e fun name hn => h name (List.mem_append_left _ hn)
    have hrest := evalAll_congr hscopes es fun name hn => h name (List.mem_append_right _ hn)
    simp only [evalAll, hfirst, hrest]

end

end Expr

def At (page x y : Page) : Prop := x = page ∧ y = page

theorem Together.eq_of_at {page : Page} {w v : World Page} (h : Together (At page) w v) :
    w = v := by
  obtain ⟨hhost, hw, hv⟩ := h
  cases w
  cases v
  cases hhost
  cases hw
  cases hv
  rfl

theorem Alike.eq_of_at {page : Page} {type : Ty} {r q : Option (Except Stop Word × World Page)}
    (h : Alike (Together (At page)) (ValuePost (At page) type) r q) : r = q := by
  cases h with
  | endless => rfl
  | stopped worlds => rw [worlds.eq_of_at]
  | done worlds => rw [worlds.2.eq_of_at]

section Pending

variable {types : List Ty} {known : String → Option Signature}
  {gs : String → Option (Routine Page)} {limit fuel : Nat} {s s' : Scopes} {l : Layout}
  {scopes : Scopes} {w w' : World Page}

/-- Expressions change no store, so only what the names mean in this one counts. -/
theorem Expr.alike_at (hp : Paired (Sharing (fun x y => x = y) types) known gs gs)
    (hw : Sharing (fun x y => x = y) types w.store w.store) (hk : s.Calls known)
    {a b : Site Page} (hscopes : a.scopes = b.scopes)
    (hreads : ∀ {name : String} {type : Ty}, s.typeOf? name = some type →
      a.read name w.store = b.read name w.store ∧ type.Admits (b.read name w.store))
    {e : Expr} {type : Ty} (he : e.typeIn s = .ok type) (limit fuel : Nat) :
    Alike (Together (At w.store)) (ValuePost (At w.store) type)
      (e.eval .parity (callAt .parity gs limit fuel 1) a .empty w)
      (e.eval .parity (callAt .parity gs limit fuel 1) b .empty w) := by
  have hsharing : ∀ {x y}, At w.store x y → Sharing (fun x y => x = y) types x y := by
    rintro _ _ ⟨rfl, rfl⟩
    exact hw
  have hcalls : KnownAlike (At w.store) known (callAt .parity gs limit fuel 1)
      (callAt .parity gs limit fuel 1) :=
    callAt_alike Truth.parity_agrees (hp.mono hsharing) limit fuel 1
  have hview : View (At w.store) s (fun _ => false) a b := by
    refine ⟨?_, fun _ => by rw [hscopes]⟩
    rintro name type _ hn _ _ ⟨rfl, rfl⟩
    exact hreads hn
  have hempty : s.Covers (fun _ => false) .empty := ⟨fun _ => rfl, by simp⟩
  exact Expr.alike Truth.parity_agrees hview (hcalls.calls hk) hempty e he ⟨rfl, rfl, rfl⟩

theorem Midway.admits_read {x : Page} (h : Midway (fun x y => x = y) l types s x x)
    (scopes : Scopes) {name : String} {type : Ty} (hn : s.typeOf? name = some type) :
    type.Admits ((l.site scopes).read name x) := by
  obtain ⟨slot, hslot, hadmits⟩ := h.named hn
  rw [Layout.read_site scopes hslot]
  exact hadmits

/-- A value is one of its type, and getting it leaves the store as it is. -/
theorem Midway.value (h : Midway (fun x y => x = y) l types s w.store w.store)
    (hp : Paired (Sharing (fun x y => x = y) types) known gs gs) (hk : s.Calls known) {e : Expr}
    {type : Ty} (he : e.typeIn s = .ok type) {v : Word}
    (hv : e.eval .parity (callAt .parity gs limit fuel 1) (l.site scopes) .empty w =
      some (.ok v, w')) : w'.store = w.store ∧ type.Admits v := by
  have halike := Expr.alike_at hp h.toSharing hk rfl
    (fun hn => ⟨rfl, h.admits_read scopes hn⟩) he limit fuel
  rw [hv] at halike
  cases halike with
  | done worlds => exact ⟨worlds.2.store.1, worlds.1⟩

/-- A value is the same at another site that gives the names it reads the same words. -/
theorem Midway.eval_eq (h : Midway (fun x y => x = y) l types s w.store w.store)
    (hp : Paired (Sharing (fun x y => x = y) types) known gs gs) (hk : s.Calls known) {e : Expr}
    {type : Ty} (he : e.typeIn s = .ok type) {b : Site Page} (hscopes : b.scopes = scopes)
    (hreads : ∀ name ∈ e.names, (l.site scopes).read name w.store = b.read name w.store) :
    e.eval .parity (callAt .parity gs limit fuel 1) (l.site scopes) .empty w =
      e.eval .parity (callAt .parity gs limit fuel 1) b .empty w := by
  -- Both sites have to agree on all names, also on those that the value does not read.
  let b' : Site Page :=
    { b with read := fun name => if name ∈ e.names then b.read name else (l.site scopes).read name }
  have hsame : ∀ name, (l.site scopes).read name w.store = b'.read name w.store := by
    intro name
    dsimp only [b']
    split
    · rename_i hn
      exact hreads name hn
    · rfl
  have hcongr : e.eval .parity (callAt .parity gs limit fuel 1) b' .empty =
      e.eval .parity (callAt .parity gs limit fuel 1) b .empty :=
    Expr.eval_congr (a := b') (b := b) rfl e fun name hn => if_pos hn
  rw [← hcongr]
  refine (Expr.alike_at hp h.toSharing hk hscopes.symm ?_ he limit fuel).eq_of_at
  intro name type hn
  rw [← hsame name]
  exact ⟨rfl, h.admits_read scopes hn⟩

/-- A declaration at the top level. -/
theorem Stmt.eval_init_ok {σ : Type} {t : Truth} {f : String → List Word → Eval σ Word} {a : Site σ}
    {span : Span} {name : String} {type : Ty} {value : Expr} {flow : Flow} {w w' : World σ} :
    (Stmt.init span name type value).eval t f a fuel .empty w = some (.ok flow, w') ↔
      ∃ v w₁, value.eval t f a .empty w = some (.ok v, w₁) ∧ flow = .next .empty ∧
        w' = ⟨a.write name v w₁.store, w₁.host⟩ := by
  change (value.eval t f a .empty >>= fun v => assignTo a name v .empty) w = _ ↔ _
  rw [Eval.bind_ok]
  refine exists_congr fun v => exists_congr fun w₁ => and_congr_right fun _ => ?_
  change some (Except.ok (Flow.next .empty), (⟨a.write name v w₁.store, w₁.host⟩ : World σ)) = _ ↔ _
  rw [Option.some.injEq, Prod.mk.injEq, Except.ok.injEq, eq_comm, @eq_comm _ _ w']

/-- Declarations fill the slots from `L` on one after the other: the slots behind are still zero, and
those of earlier units keep their words. -/
theorem Stmt.Declares.evalAll_ok {L : Layout} {head more : List Stmt} {flow : Flow} (hl : l.Sound)
    (hp : Paired (Sharing (fun x y => x = y) types) known gs gs)
    (hd : Declares false s head s') (hk : s'.Calls known)
    (htypes : ∀ d ∈ FunctionCode.localsOf head,
      ∃ slot, l.slots.get? d.1 = some slot ∧ types[slot]? = some d.2)
    (hlayout : l = (L.extend head).extend more)
    (hmore : ∀ d ∈ FunctionCode.localsOf more, s'.inner.get? d.1 = none)
    (hm : Midway (fun x y => x = y) l types s w.store w.store)
    (hz : w.store.memory.ZeroFrom L.next)
    (he : evalAll .parity (callAt .parity gs limit fuel 1) (l.site scopes) fuel head .empty w =
      some (.ok flow, w')) :
    Midway (fun x y => x = y) l types s' w'.store w'.store ∧
      w'.store.memory.ZeroFrom (L.extend head).next ∧
      ∀ slot < L.next, w'.store.memory.word slot = w.store.memory.word slot := by
  induction hd generalizing L w with
  | nil =>
    cases he
    exact ⟨hm, hz, fun _ _ => rfl⟩
  | @init s s' span name type value head typed free kept rest ih =>
    have hall : Declares false s (.init span name type value :: head) s' :=
      .init typed free kept rest
    have hbehind : l = ((L.add name).extend head).extend more := hlayout
    obtain ⟨flow₁, w₂, hfirst, he⟩ := Eval.bind_ok.mp he
    obtain ⟨v, w₁, hv, rfl, rfl⟩ := eval_init_ok.mp hfirst
    obtain ⟨hstore, hadmits⟩ := hm.value hp (hall.calls_before hk) typed hv
    obtain ⟨slot, hslot, htype⟩ := htypes (name, type) List.mem_cons_self
    have hnext : slot = L.next := by
      rw [hbehind, rest.slot_next hmore] at hslot
      cases hslot
      rfl
    have hafter : (l.site scopes).write name v w₁.store = w.store.put slot v := by
      rw [Layout.write_site scopes hslot, hstore]
    have hdeclared : Midway (fun x y => x = y) l types (s.withVariable name type)
        ((l.site scopes).write name v w₁.store) ((l.site scopes).write name v w₁.store) := by
      have hnow := hm.declare hl (Layout.site_mirrors l scopes) hslot htype hadmits
      rwa [Layout.write_site scopes hslot, ← hafter] at hnow
    have hzero : ((l.site scopes).write name v w₁.store).memory.ZeroFrom (L.add name).next := by
      intro other ho
      have hbelow : L.next < other := ho
      rw [hafter, Page.word_put, if_neg (by omega)]
      exact hz (Nat.le_of_lt hbelow)
    obtain ⟨hend, hzero', hkept⟩ := ih (L := L.add name)
      (w := ⟨(l.site scopes).write name v w₁.store, w₁.host⟩) hk
      (fun d hd => htypes d (List.mem_cons_of_mem _ hd)) hbehind hmore hdeclared hzero he
    refine ⟨hend, hzero', ?_⟩
    intro other ho
    have hlt : other < (L.add name).next := Nat.lt_trans ho (Nat.lt_succ_self L.next)
    calc w'.store.memory.word other
        = ((l.site scopes).write name v w₁.store).memory.word other := hkept other hlt
      _ = w.store.memory.word other := by rw [hafter, Page.word_put, if_neg (by omega)]
  | define _ _ free _ ih => exact ih hk htypes hlayout hmore (hm.define free _) hz he

end Pending

namespace Layout

/-- Names as they are read while some of them are pending: these count as zero. -/
def siteBefore (l : Layout) (pending : List String) (scopes : Scopes) : Site Page :=
  { l.site scopes with
    read := fun name page => if name ∈ pending then 0 else (l.site scopes).read name page }

/-- The code of a unit reads all names by the layout of the whole unit. -/
theorem read_extend (l : Layout) (ss : List Stmt) (scopes : Scopes) {page : Page}
    (hz : page.memory.ZeroFrom l.next) (name : String) :
    ((l.extend ss).site scopes).read name page =
      (l.siteBefore ((FunctionCode.localsOf ss).map (·.1)) scopes).read name page := by
  simp only [siteBefore]
  split
  · rename_i hn
    obtain ⟨slot, hslot, hnext⟩ := l.slot_of_declared hn
    rw [read_site scopes hslot, hz hnext]
  · rename_i hn
    simp only [site, l.slot_of_not_declared hn]

/-- A name that has not been declared anew still has its earlier word. -/
theorem read_not_declared {l : Layout} (hl : l.Sound) {ss : List Stmt} {name : String}
    (hn : name ∉ (FunctionCode.localsOf ss).map (·.1)) {page page' : Page}
    (hkept : ∀ slot < l.next, page'.memory.word slot = page.memory.word slot) (scopes : Scopes) :
    ((l.extend ss).site scopes).read name page' = (l.site scopes).read name page := by
  simp only [site, l.slot_of_not_declared hn]
  split
  · rename_i slot hslot
    exact hkept slot (hl.below hslot)
  · rfl

end Layout

/-- How a declaration with this value goes in a unit whose run has come from `start` to it. Earlier
units have left the layout `l`, the declarations so far have made it `l'`, and the names in `pending`
are declared from here on. -/
structure Ahead (l l' : Layout) (a : Site Page) (call : String → List Word → Eval Page Word)
    (fuel : Nat) (pending : List String) (body : List Stmt) (value : Expr) (post : List Stmt)
    (start before : World Page) : Prop where
  /-- The pending names count as zero in the value, and the next slot gets it. -/
  stored : Stmt.evalTop .parity call a fuel body start =
    (value.eval .parity call (l'.siteBefore pending a.scopes) .empty >>= fun v =>
      .modify (·.put l'.next v) >>= fun _ => Stmt.evalTop .parity call a fuel post) before
  /-- For checking, pending names mean what earlier units have left. -/
  meant : ∀ name ∈ pending,
    (l'.site a.scopes).read name before.store = (l.site a.scopes).read name start.store
  /-- So only earlier values that are zero can be read ahead of a declaration. -/
  agrees : (∀ name ∈ value.names, name ∈ pending → (l.site a.scopes).read name start.store = 0) →
    value.eval .parity call (l'.siteBefore pending a.scopes) .empty before =
      value.eval .parity call (l'.site a.scopes) .empty before

theorem Eval.bind_congr {σ α β : Type} {g g' : Eval σ α} {w : World σ} (h : g w = g' w)
    (f : α → Eval σ β) : (g >>= f) w = (g' >>= f) w := by
  change Eval.bind g f w = Eval.bind g' f w
  unfold Eval.bind
  rw [h]

/-- A unit that has come to a declaration goes on with its value, at any site that gives the same. -/
theorem Stmt.Declares.evalTop_ahead {σ : Type} {s m : Scopes} {pre : List Stmt}
    (hd : Declares false s pre m) {t : Truth} {f : String → List Word → Eval σ Word} {a b : Site σ}
    {fuel : Nat} {flow : Flow} {start before : World σ}
    (he : evalAll t f a fuel pre .empty start = some (.ok flow, before)) {span : Span} {x : String}
    {type : Ty} {value : Expr}
    (hvalue : value.eval t f a .empty before = value.eval t f b .empty before) (post : List Stmt) :
    evalTop t f a fuel (pre ++ .init span x type value :: post) start =
      (value.eval t f b .empty >>= fun v => .modify (a.write x v) >>= fun _ =>
        evalTop t f a fuel post) before := by
  have hcome : evalTop t f a fuel (pre ++ .init span x type value :: post) start =
      evalTop t f a fuel (.init span x type value :: post) before := by
    rw [hd.evalTop_append]
    change Eval.bind _ _ start = _
    unfold Eval.bind
    rw [he]
  have hinit : evalTop t f a fuel (.init span x type value :: post) =
      value.eval t f a .empty >>= fun v => .modify (a.write x v) >>= fun _ =>
        evalTop t f a fuel post := by
    rw [evalTop_cons (by simp)]
    change (value.eval t f a .empty >>= fun v => assignTo a x v .empty) >>= _ = _
    rw [bind_assoc]
    rfl
  rw [hcome, hinit]
  exact Eval.bind_congr hvalue _

/-- Checking types the value of a declaration before it takes the name up, but its code reads the
new slot. -/
theorem Stmt.Declares.ahead {types : List Ty} {known : String → Option Signature}
    {gs : String → Option (Routine Page)} {limit fuel : Nat} {l L : Layout} {scopes s m : Scopes}
    {pre post : List Stmt} {span : Span} {x : String} {type : Ty} {value : Expr} {flow : Flow}
    {start before : World Page} (hL : L.Sound)
    (hp : Paired (Sharing (fun x y => x = y) types) known gs gs)
    (hd : Declares false s pre m) (hk : m.Calls known) (htyped : value.typeIn m = .ok type)
    (hlayout : l = (L.extend pre).extend (.init span x type value :: post))
    (htypes : ∀ d ∈ FunctionCode.localsOf pre,
      ∃ slot, l.slots.get? d.1 = some slot ∧ types[slot]? = some d.2)
    (hpending : ∀ d ∈ FunctionCode.localsOf (.init span x type value :: post),
      m.inner.get? d.1 = none)
    (hslot : l.slots.get? x = some (L.extend pre).next)
    (hm : Midway (fun x y => x = y) l types s start.store start.store)
    (hz : start.store.memory.ZeroFrom L.next)
    (he : evalAll .parity (callAt .parity gs limit fuel 1) (l.site scopes) fuel pre .empty start =
      some (.ok flow, before)) :
    Ahead L (L.extend pre) (l.site scopes) (callAt .parity gs limit fuel 1) fuel
      (x :: (FunctionCode.localsOf post).map (·.1)) (pre ++ .init span x type value :: post) value
      post start before := by
  have hl : l.Sound := by
    rw [hlayout]
    exact (hL.extend pre).extend _
  obtain ⟨hmidway, hzero, hkept⟩ := hd.evalAll_ok hl hp hk htypes hlayout hpending hm hz he
  have hreads (name : String) : (l.site scopes).read name before.store =
      ((L.extend pre).siteBefore (x :: (FunctionCode.localsOf post).map (·.1)) scopes).read name
        before.store := by
    rw [hlayout]
    exact (L.extend pre).read_extend _ scopes hzero name
  have hvalue : value.eval .parity (callAt .parity gs limit fuel 1) (l.site scopes) .empty before =
      value.eval .parity (callAt .parity gs limit fuel 1)
        ((L.extend pre).siteBefore (x :: (FunctionCode.localsOf post).map (·.1)) scopes) .empty
        before :=
    hmidway.eval_eq hp hk htyped rfl fun name _ => hreads name
  have hmeant : ∀ name ∈ x :: (FunctionCode.localsOf post).map (·.1),
      ((L.extend pre).site scopes).read name before.store =
        (L.site scopes).read name start.store := by
    intro name hn
    refine Layout.read_not_declared hL ?_ hkept scopes
    intro hmem
    obtain ⟨d, hdeclared, rfl⟩ := List.mem_map.mp hmem
    obtain ⟨d', hd', heq⟩ : ∃ d' ∈ FunctionCode.localsOf (.init span x type value :: post),
        d'.1 = d.1 := List.mem_map.mp hn
    have hnone := hpending d' hd'
    rw [heq, hd.declared_inner d hdeclared] at hnone
    cases hnone
  refine ⟨?_, hmeant, ?_⟩
  · have hwrite (v : Word) : (l.site scopes).write x v = (·.put (L.extend pre).next v) :=
      funext (Layout.write_site scopes hslot v)
    rw [hd.evalTop_ahead he hvalue post]
    simp only [hwrite]
    rfl
  · intro hnames
    refine hvalue.symm.trans (hmidway.eval_eq hp hk htyped rfl fun name hn => ?_)
    rw [hreads]
    simp only [Layout.siteBefore]
    split
    · rename_i hpend
      exact ((hmeant name hpend).trans (hnames name hn hpend)).symm
    · rfl

section Declarations

variable {g : Globals} {lib : Library} {old : List Ty} {p : Program} {head rest pre post : List Stmt}
  {s₀ s : Scopes} {typing : Typing} {span : Span} {x : String} {type : Ty} {value : Expr}

/-- A declaration is followed by what is left of the head of its unit, and by the rest. -/
theorem Program.CheckedOn.split_at (h : p.CheckedOn g.declared head rest s₀ s typing)
    (hp : p.body = pre ++ .init span x type value :: post) :
    ∃ mid, head = pre ++ .init span x type value :: mid ∧ post = mid ++ rest := by
  have hrest := h.locals_rest
  rw [h.body] at hp
  rcases List.append_eq_append_iff.mp hp with ⟨more, rfl, rfl⟩ | ⟨more, rfl, hmore⟩
  · rw [FunctionCode.localsOf_append] at hrest
    cases (List.append_eq_nil_iff.mp hrest).2
  · cases more with
    | nil =>
      cases hmore
      cases hrest
    | cons stmt mid =>
      rw [List.cons_append, List.cons.injEq] at hmore
      obtain ⟨rfl, rfl⟩ := hmore
      exact ⟨mid, rfl, rfl⟩

/-- The scopes in which a declaration is checked: none of the names that are declared from there on
has been declared by the unit. -/
theorem Program.CheckedOn.at_declaration (h : p.CheckedOn g.declared head rest s₀ s typing)
    (hp : p.body = pre ++ .init span x type value :: post) :
    ∃ m, Stmt.Declares false s₀ pre m ∧ value.typeIn m = .ok type ∧
      (∀ {known}, s.Calls known → m.Calls known) ∧
      (∀ d ∈ FunctionCode.localsOf (.init span x type value :: post), m.inner.get? d.1 = none) ∧
      (g.layout.extend p.body).slots.get? x = some (g.layout.extend pre).next := by
  obtain ⟨mid, hhead, hpost⟩ := h.split_at hp
  have hdeclares := h.declares
  rw [hhead] at hdeclares
  obtain ⟨m, hpre, hinit⟩ := hdeclares.split
  have hlocals : FunctionCode.localsOf (.init span x type value :: post) =
      FunctionCode.localsOf (.init span x type value :: mid) := by
    rw [FunctionCode.localsOf, hpost, FunctionCode.localsOf_append, h.locals_rest, List.append_nil,
      FunctionCode.localsOf]
  refine ⟨m, hpre, ?_, hinit.calls_before, ?_, ?_⟩
  · cases hinit with
    | init typed => exact typed
  · rw [hlocals]
    exact hinit.fresh
  · cases hinit with
    | init _ _ _ hmid =>
      have hnone : ∀ d ∈ FunctionCode.localsOf rest, s.inner.get? d.1 = none := by
        simp [h.locals_rest]
      have hslot := hmid.slot_next hnone (g.layout.extend pre)
      rw [← Layout.extend_append, ← hpost] at hslot
      rw [hp, Layout.extend_append]
      exact hslot

/-- A run that comes to a declaration. -/
theorem Program.CheckedOn.ahead (hg : g.Made lib old)
    (h : p.CheckedOn g.declared head rest s₀ s typing)
    (hpaired : Paired (Sharing (fun x y => x = y) (p.typesAfter old))
      (lib.after g typing.declared p).signature? (lib.after g typing.declared p).routine?
      (lib.after g typing.declared p).routine?)
    (hp : p.body = pre ++ .init span x type value :: post) {limit fuel : Nat} {flow : Flow}
    {start before : World Page} (ht : start.store.memory.Typed old)
    (hz : start.store.memory.ZeroFrom old.length)
    (he : Stmt.evalAll .parity
      (callAt .parity (lib.after g typing.declared p).routine? limit fuel 1)
      (UnitCode.topContext typing.declared g.layout p).site fuel pre .empty start =
        some (.ok flow, before)) :
    Ahead g.layout (g.layout.extend pre) (UnitCode.topContext typing.declared g.layout p).site
      (callAt .parity (lib.after g typing.declared p).routine? limit fuel 1) fuel
      (x :: (FunctionCode.localsOf post).map (·.1)) p.body value post start before := by
  obtain ⟨m, hpre, htyped, hcalls, hpending, hslot⟩ := h.at_declaration hp
  have hlayout : g.layout.extend p.body =
      (g.layout.extend pre).extend (.init span x type value :: post) := by
    rw [hp, Layout.extend_append]
  have hk := hcalls (h.lists hg).calls
  have htypes : ∀ d ∈ FunctionCode.localsOf pre, ∃ slot,
      (g.layout.extend p.body).slots.get? d.1 = some slot ∧ (p.typesAfter old)[slot]? = some d.2 := by
    intro d hd
    refine (h.slot_types hg).typed (h.declares.declared d ?_)
    rw [← h.locals_head, hp, FunctionCode.localsOf_append]
    exact List.mem_append_left _ hd
  have hstart : start.store.memory.ZeroFrom g.layout.next := by
    rw [hg.typed.next]
    exact hz
  rw [hp]
  exact hpre.ahead hg.layout hpaired hk htyped hlayout htypes hpending hslot
    (Midway.start hg h rfl ht (hz.between _)) hstart he

end Declarations

namespace Globals

def declaresFirst (g : Globals) (source x : String) : Bool :=
  match g.accept source shellName with
  | .ok (⟨.init _ name _ _ :: _⟩, _, code) => name = x ∧ code.layout.next ≤ Page.slots
  | _ => false

theorem exists_of_declaresFirst {g : Globals} {source x : String}
    (h : g.declaresFirst source x = true) :
    ∃ span type value post typing code,
      g.accept source shellName = .ok (⟨.init span x type value :: post⟩, typing, code) ∧
        code.layout.next ≤ Page.slots := by
  unfold declaresFirst at h
  split at h
  · rename_i span name type value post typing code ha
    obtain ⟨rfl, hfit⟩ := of_decide_eq_true h
    exact ⟨span, type, value, post, typing, code, ha, hfit⟩
  · cases h

end Globals

namespace Session

/-- Units that succeed leave the free slots zero, so a slot that is read before its declaration has
run holds zero. -/
theorem Later.clean {host : Host} {limit : Nat} {s : Session}
    (h : Later Turn.Succeeds (start host limit) s) :
    s.Clean ∧ ∃ lib types, s.Kept lib types ∧ s.memory.Typed types := by
  refine (h.keeps (I := fun s => s.globals.layout.next ≤ Page.slots ∧ s.Clean ∧
    ∃ lib types, s.Kept lib types ∧ s.memory.Typed types)
    ⟨Nat.zero_le _, start_clean host limit, [], [], start_kept host limit, by simp [Memory.Typed]⟩
    ?_).2
  rintro t t' source steps answer ⟨hfit, hclean, lib, types, hk, ht⟩ ⟨value, rfl⟩ hrun
  obtain ⟨hfits, hnext⟩ := hk.fits_of_success hfit hrun
  exact ⟨hnext, hk.unit_clean ht hclean hfits (by simp) hrun,
    (hk.unit_typed ht ⟨hfits, hclean.fresh⟩ hrun).1⟩

/-- In a session whose units all succeed, whatever its variables hold: where a unit comes to a
declaration, the names that are declared from there on count as zero in the value, not as what
earlier units have left, and the declared name gets that value in its new slot. -/
theorem pending_names_count_as_zero {host : Host} {limit : Nat} {s : Session}
    (h : Later Turn.Succeeds (start host limit) s) {source file : String} {p : Program}
    {typing : Typing} {code : UnitCode} (ha : s.globals.accept source file = .ok (p, typing, code))
    (hfit : code.layout.next ≤ Page.slots) {pre post : List Stmt} {span : Span} {x : String}
    {type : Ty} {value : Expr} (hp : p.body = pre ++ .init span x type value :: post) :
    code.layout.slots.get? x = some (s.globals.layout.extend pre).next ∧
      ∃ lib types, ∃ k : s.Kept lib types,
        (∀ o, (∃ steps, Machine.execute steps s.limit s.memory s.host
            (s.globals.compiled p typing code).text = .ended o) ↔
          ∃ fuel r last, evalUnit .parity (lib.after s.globals typing.declared p).routine? s.limit
            (UnitCode.topContext typing.declared s.globals.layout p).site fuel p.body k.world =
              some (r, last) ∧ o = outcomeOf r last) ∧
        ∀ {fuel flow before},
          Stmt.evalAll .parity
            (callAt .parity (lib.after s.globals typing.declared p).routine? s.limit fuel 1)
            (UnitCode.topContext typing.declared s.globals.layout p).site fuel pre .empty k.world =
              some (.ok flow, before) →
          Ahead s.globals.layout (s.globals.layout.extend pre)
            (UnitCode.topContext typing.declared s.globals.layout p).site
            (callAt .parity (lib.after s.globals typing.declared p).routine? s.limit fuel 1) fuel
            (x :: (FunctionCode.localsOf post).map (·.1)) p.body value post k.world before := by
  obtain ⟨hclean, lib, types, k, ht⟩ := h.clean
  have hof := k.made.accepted ha
  obtain ⟨head, rest, scopes, hc⟩ := Program.typeOn_ok k.made.sound hof.typed
  have hzero : s.memory.ZeroFrom types.length := by
    rw [← k.made.typed.next]
    exact hclean
  obtain ⟨_, _, _, _, _, hslot⟩ := hc.at_declaration hp
  rw [← hof.layout] at hslot
  refine ⟨hslot, lib, types, k, hof.execute_iff hfit s.limit k.world, ?_⟩
  intro fuel flow before he
  exact hc.ahead k.made (hof.made.paired id) hp ht hzero he

/-- The second unit reads the variable of the first one ahead of its own. -/
theorem pending_names_count_as_zero_reading_five :
    ∃ s, Later Turn.Succeeds (start .reliable 20) s ∧ s.globals.layout.slots.get? "x" = some 0 ∧
      s.memory.word 0 = 5 ∧
      ∃ span type value post typing code,
        s.globals.accept "x: int = x + 1\nx" shellName =
          .ok (⟨.init span "x" type value :: post⟩, typing, code) ∧
        code.layout.slots.get? "x" = some 1 ∧
        ∃ lib types, ∃ k : s.Kept lib types,
          let p : Program := ⟨.init span "x" type value :: post⟩
          Ahead s.globals.layout s.globals.layout
            (UnitCode.topContext typing.declared s.globals.layout p).site
            (callAt .parity (lib.after s.globals typing.declared p).routine? s.limit 5 1) 5
            ("x" :: (FunctionCode.localsOf post).map (·.1)) p.body value post k.world k.world := by
  have hfirst : ((Trace.start .reliable 20).succeed 5 "x: int = 5").any (fun a =>
      a.trace.globals.layout.next = 1 ∧ a.trace.globals.layout.slots.get? "x" = some 0 ∧
        a.trace.world.store.memory.word 0 = 5 ∧
        a.trace.globals.declaresFirst "x: int = x + 1\nx" "x" = true) = true := by
    decide +kernel
  obtain ⟨a, ha, htest⟩ := (Option.any_eq_true _ _).mp hfirst
  obtain ⟨hnext, hslot, hword, hsecond⟩ := of_decide_eq_true htest
  have hs := Trace.succeed_later (Trace.start_kept .reliable 20) ha .refl
  obtain ⟨span, type, value, post, typing, code, ha, hfit⟩ := Globals.exists_of_declaresFirst hsecond
  have hbody : (⟨.init span "x" type value :: post⟩ : Program).body =
      [] ++ .init span "x" type value :: post := rfl
  obtain ⟨hx, lib, types, k, _, hahead⟩ := pending_names_count_as_zero hs ha hfit hbody
  have hone : code.layout.slots.get? "x" = some 1 := by
    rw [hx]
    exact congrArg some hnext
  exact ⟨a.trace.session, hs, hslot, hword, span, type, value, post, typing, code, ha, hone, lib,
    types, k, hahead rfl⟩

/-- Checking means 5 by the name on the right, so that the variable would become 6. -/
theorem declared_again_from_zero :
    ∃ s s' steps answer, Later Turn.Succeeds (start .reliable 20) s ∧
      s.globals.layout.slots.get? "x" = some 0 ∧ s.memory.word 0 = 5 ∧
      s.run steps "x: int = x + 1\nx" = some (answer, s') ∧
      s'.globals.layout.slots.get? "x" = some 1 ∧ s'.memory.word 1 = 1 := by
  have hboth : ((Trace.start .reliable 20).succeed 5 "x: int = 5").any (fun a =>
      a.trace.globals.layout.slots.get? "x" = some 0 ∧ a.trace.world.store.memory.word 0 = 5 ∧
        (a.trace.next 5 "x: int = x + 1\nx").any (fun t =>
          t.globals.layout.slots.get? "x" = some 1 ∧ t.world.store.memory.word 1 = 1) = true) =
      true := by
    decide +kernel
  obtain ⟨a, ha, htest⟩ := (Option.any_eq_true _ _).mp hboth
  obtain ⟨hslot, hword, hagain⟩ := of_decide_eq_true htest
  obtain ⟨t, ht, htest'⟩ := (Option.any_eq_true _ _).mp hagain
  obtain ⟨_, _, types, hk⟩ := Trace.succeed_executes (Trace.start_kept .reliable 20) ha
  obtain ⟨steps, answer, hrun, _⟩ := Trace.next_run hk ht
  have hs := Trace.succeed_later (Trace.start_kept .reliable 20) ha .refl
  exact ⟨a.trace.session, t.session, steps, answer, hs, hslot, hword, hrun,
    of_decide_eq_true htest'⟩

end Session

end StackScript
