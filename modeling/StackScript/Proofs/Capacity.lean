import StackScript.Proofs.Actions
import StackScript.Proofs.Slots

namespace StackScript

namespace Machine

/-- What a step from a frame with these results and callers can do to the frames of a state. -/
inductive Moves (memory : Memory) (host : Host) (results : Nat) (callers : List Frame) :
    Progress → Prop
  | trap {memory' : Memory} {host' : Host} {t : Trap} :
      Moves memory host results callers (.done ⟨.error t, memory', host'⟩)
  | finish {o : Outcome} (last : callers = []) : Moves memory host results callers (.done o)
  | stay {memory' : Memory} {host' : Host} {f : Frame} (size : memory'.size = memory.size)
      (same : f.results = results) :
      Moves memory host results callers (.running ⟨memory', host', f, callers⟩)
  | call {f g : Frame} (same : f.results = results) :
      Moves memory host results callers (.running ⟨memory, host, g, f :: callers⟩)
  | back {f : Frame} {outer : List Frame} {r : Option Word} (calls : callers = f :: outer)
      (value : r = none ↔ results = 0) :
      Moves memory host results callers
        (.running ⟨memory, host, { f with stack := r.toList ++ f.stack }, outer⟩)

section Moves

variable {m : Module} {limit : Nat} (memory : Memory) (host : Host) (f : Frame)
  (callers : List Frame)

theorem leave_moves : Moves memory host f.results callers (leave memory host f callers) := by
  unfold leave
  by_cases hr : f.results = 0
  · simp only [hr, ↓reduceIte]
    cases callers with
    | nil => exact .finish rfl
    | cons caller callers => exact .back rfl (by simp)
  · simp only [hr, ↓reduceIte]
    cases f.stack with
    | nil => exact .trap
    | cons top stack =>
      cases callers with
      | nil => exact .finish rfl
      | cons caller callers => exact .back rfl (by simp [hr])

theorem jump_moves (depth : Nat) :
    Moves memory host f.results callers (jump memory host f callers depth) := by
  unfold jump Frame.branch
  split
  · exact .trap
  · exact leave_moves memory host f callers
  · rename_i g hb
    refine .stay rfl ?_
    split at hb
    · cases hb
    · split at hb <;> cases hb <;> rfl

theorem invoke_moves (callee : Function) (args : List Word) :
    Moves memory host f.results callers (invoke limit memory host f callers callee args) := by
  unfold invoke
  split
  · split
    · exact .trap
    · split
      · exact .stay rfl rfl
      · exact .trap
  · split
    · exact .call rfl
    · exact .trap

theorem Acts.moves {memory : Memory} {host : Host} {f : Frame} {callers : List Frame} {i : Instr}
    {p : Progress} (h : Acts m limit memory host f callers i p) :
    Moves memory host f.results callers p := by
  cases h with
  | short | undefined | outside | noLocal | noFunction => exact .trap
  | computes | sets | enters => exact .stay rfl rfl
  | stores _ _ hstored =>
    obtain ⟨_, rfl⟩ := Memory.store?_eq_some.mp hstored
    exact .stay (memory.size_setWord _ _) rfl
  | @calls _ params _ callee =>
    exact invoke_moves memory host { f with stack := f.stack.drop params } callers callee _
  | returns => exact leave_moves memory host f callers
  | @branches depth stack => exact jump_moves memory host { f with stack } callers depth

/-- Every step keeps the frame, enters a call, leaves one or ends the run. -/
theorem step_moves (s : State) :
    Moves s.memory s.host s.frame.results s.callers (step m limit s) := by
  obtain ⟨memory, host, f, callers⟩ := s
  unfold step
  dsimp only
  split
  · exact leave_moves memory host f callers
  · split
    · split
      · exact leave_moves memory host f callers
      · exact .stay rfl rfl
    · rename_i l outer _ _ i code _
      exact (exec_acts m limit memory host { f with labels := { l with code } :: outer } callers
        i).moves

end Moves

section Passes

variable {m : Module} {limit : Nat} {s t : State} {P Q : State → Prop}

/-- A run from `s` that ends with a result comes by a state of which `P` holds. -/
def Passes (m : Module) (limit : Nat) (s : State) (P : State → Prop) : Prop :=
  ∀ o r, Reaches m limit s (.done o) → o.result = .ok r → ∃ t, Reaches m limit s (.running t) ∧ P t

/-- From every state on its way a run ends in the same way. -/
theorem Reaches.done_after {o : Outcome} (h : Reaches m limit s (.done o))
    (ht : Reaches m limit s (.running t)) : Reaches m limit t (.done o) := by
  obtain ⟨n, hn⟩ := h
  obtain ⟨k, hk⟩ := ht
  rcases Nat.le_total k n with hle | hle
  · obtain ⟨d, rfl⟩ := Nat.exists_eq_add_of_le hle
    rw [advance_add, hk] at hn
    exact ⟨d, hn⟩
  · exact absurd ⟨t, hk⟩ (not_lasts_of_done hn hle)

namespace Passes

theorem here (h : P s) : Passes m limit s P := fun _ _ _ _ => ⟨s, .refl s, h⟩

theorem trap {memory : Memory} {host : Host} {why : Trap}
    (h : step m limit s = .done ⟨.error why, memory, host⟩) : Passes m limit s P := by
  intro o r ho hr
  obtain ⟨n, hn⟩ := ho
  obtain ⟨k, hk⟩ := Reaches.one h
  rw [done_unique hn hk] at hr
  cases hr

theorem after (hs : Reaches m limit s (.running t)) (h : Passes m limit t P) :
    Passes m limit s P := by
  intro o r ho hr
  obtain ⟨u, hu, hp⟩ := h o r (ho.done_after hs) hr
  exact ⟨u, hs.trans hu, hp⟩

/-- A run that comes by one state and from there by another comes by the second. -/
theorem bind (h : Passes m limit s P) (hP : ∀ t, P t → Passes m limit t Q) :
    Passes m limit s Q := by
  intro o r ho hr
  obtain ⟨t, ht, hp⟩ := h o r ho hr
  exact after ht (hP t hp) o r ho hr

theorem step (hs : Machine.step m limit s = .running t) (h : Passes m limit t P) :
    Passes m limit s P := after (.one hs) h

end Passes

/-- A call under way: above `f` is a frame with these results, and on top of it any calls it makes. -/
inductive Above (f : Frame) (callers : List Frame) (results : Nat) (s : State) : Prop
  | direct (gives : s.frame.results = results) (calls : s.callers = f :: callers)
  | nested (pre : List Frame) (g : Frame) (gives : g.results = results)
      (calls : s.callers = pre ++ g :: f :: callers)

theorem Above.callers_ne_nil {f : Frame} {callers : List Frame} {results : Nat}
    (h : Above f callers results s) : s.callers ≠ [] := by
  cases h with
  | direct _ calls => simp [calls]
  | nested _ _ _ calls => simp [calls]

/-- A step of a call traps, goes on with it, or comes back, with a word unless there are no results. -/
theorem Above.step_cases {f : Frame} {callers : List Frame} {results : Nat}
    (h : Above f callers results s) {p : Progress}
    (hp : Moves s.memory s.host s.frame.results s.callers p) :
    (∃ why memory host, p = .done ⟨.error why, memory, host⟩) ∨
      ∃ u, p = .running u ∧ u.memory.size = s.memory.size ∧ (Above f callers results u ∨
        ∃ r : Option Word, (r = none ↔ results = 0) ∧
          u = ⟨s.memory, s.host, { f with stack := r.toList ++ f.stack }, callers⟩) := by
  cases hp with
  | trap => exact .inl ⟨_, _, _, rfl⟩
  | finish last => exact absurd last h.callers_ne_nil
  | stay size same =>
    refine .inr ⟨_, rfl, size, .inl ?_⟩
    cases h with
    | direct gives calls => exact .direct (same.trans gives) calls
    | nested pre g gives calls => exact .nested pre g gives calls
  | @call f' g' same =>
    refine .inr ⟨_, rfl, rfl, .inl ?_⟩
    cases h with
    | direct gives calls => exact .nested [] f' (same.trans gives) (by rw [calls]; rfl)
    | nested pre g gives calls => exact .nested (f' :: pre) g gives (by rw [calls]; rfl)
  | @back f' outer r calls' value =>
    refine .inr ⟨_, rfl, rfl, ?_⟩
    cases h with
    | direct gives calls =>
      rw [calls', List.cons.injEq] at calls
      obtain ⟨rfl, rfl⟩ := calls
      exact .inr ⟨r, gives ▸ value, rfl⟩
    | nested pre g gives calls =>
      rw [calls'] at calls
      cases pre with
      | nil =>
        rw [List.nil_append, List.cons.injEq] at calls
        obtain ⟨rfl, rfl⟩ := calls
        exact .inl (.direct gives rfl)
      | cons x pre =>
        rw [List.cons_append, List.cons.injEq] at calls
        obtain ⟨rfl, rfl⟩ := calls
        exact .inl (.nested pre g gives rfl)

/-- A call that is under way comes back with a word, unless the run stops. -/
theorem Above.passes {f : Frame} {callers : List Frame} (h : Above f callers 1 s)
    (hsize : s.memory.size = Memory.pageSize) :
    Passes m limit s fun t => ∃ (w : World Page) (v : Word),
      t = ⟨w.store.memory, w.host, { f with stack := v :: f.stack }, callers⟩ := by
  rintro o r ⟨n, hn⟩ hr
  induction n generalizing s with
  | zero => cases hn
  | succ n ih =>
    rw [advance] at hn
    rcases h.step_cases (@step_moves m limit s) with ⟨why, memory, host, hstep⟩ | ⟨u, hstep, hu, h⟩
    · rw [hstep] at hn
      cases hn
      cases hr
    · rw [hstep] at hn
      rcases h with habove | ⟨r, hr, rfl⟩
      · obtain ⟨t, ht, hp⟩ := ih habove (hu.trans hsize) hn
        exact ⟨t, .trans (.one hstep) ht, hp⟩
      · obtain ⟨v, rfl⟩ := Option.ne_none_iff_exists'.mp (mt hr.mp (by decide))
        exact ⟨_, .one hstep, ⟨⟨s.memory, hsize⟩, s.host⟩, v, rfl⟩

end Passes

end Machine

open Machine

def Module.Gives (m : Module) (arity : String → Option Nat) : Prop :=
  ∀ {name : String} {k : Nat}, arity name = some k →
    ∃ f, m.function? name = some f ∧ f.imported = none ∧ f.results = 1

def Leaves (k results : Nat) (locals : Table Word) (stack : List Word) (labels : List Label)
    (callers : List Frame) (s : State) : Prop :=
  ∃ (w : World Page) (vs : List Word), vs.length = k ∧
    s = stateAt w results locals (vs ++ stack) labels callers

section Straight

variable {m : Module} {limit : Nat} {arity : String → Option Nat} {c : Context}
  {locals : Table Word} {callers : List Frame}

/-- A call that the run comes back from leaves one word, whatever the function does on the way. -/
theorem call_passes (hm : m.Gives arity) {name : String} {k : Nat} (hn : arity name = some k)
    (w : World Page) (results : Nat) (args stack : List Word) (hargs : args.length = k)
    (kind : LabelKind) (rest : List Instr) (height : Nat) (outer : List Label) :
    Passes m limit
      (stateAt w results locals (args ++ stack)
        (⟨kind, .call name k 1 :: rest, height⟩ :: outer) callers)
      (Leaves 1 results locals stack (⟨kind, rest, height⟩ :: outer) callers) := by
  obtain ⟨f, hf, himported, hgives⟩ := hm hn
  have hlen : ¬(args ++ stack).length < k := by simp [hargs]
  have hdrop : (args ++ stack).drop k = stack := List.drop_left' hargs
  have hstep : step m limit (stateAt w results locals (args ++ stack)
      (⟨kind, .call name k 1 :: rest, height⟩ :: outer) callers) =
      if callers.length + 1 < limit then
        .running ⟨w.store.memory, w.host, .ofCall f ((args ++ stack).take k).reverse,
          ⟨results, locals, stack, ⟨kind, rest, height⟩ :: outer⟩ :: callers⟩
      else .done ⟨.error .exhausted, w.store.memory, w.host⟩ := by
    simp only [step, exec, hf, if_neg hlen, invoke, himported, hdrop]
  by_cases hd : callers.length + 1 < limit
  · rw [if_pos hd] at hstep
    refine .step hstep (.bind (Above.passes (.direct hgives rfl) w.store.sized) ?_)
    rintro t ⟨w', v, rfl⟩
    exact .here ⟨w', [v], rfl, rfl⟩
  · rw [if_neg hd] at hstep
    exact .trap hstep

theorem num_passes (op : NumOp) (left right : Word) (w : World Page) (results : Nat)
    (stack : List Word) (kind : LabelKind) (rest : List Instr) (height : Nat) (outer : List Label) :
    Passes m limit
      (stateAt w results locals (right :: left :: stack)
        (⟨kind, .num op :: rest, height⟩ :: outer) callers)
      (Leaves 1 results locals stack (⟨kind, rest, height⟩ :: outer) callers) := by
  cases ha : op.apply left right with
  | ok v =>
    have hstep : step m limit (stateAt w results locals (right :: left :: stack)
        (⟨kind, .num op :: rest, height⟩ :: outer) callers) =
        .running (stateAt w results locals (v :: stack) (⟨kind, rest, height⟩ :: outer) callers) := by
      simp only [step, exec, ha]
    exact .step hstep (.here ⟨w, [v], rfl, rfl⟩)
  | error why =>
    have hstep : step m limit (stateAt w results locals (right :: left :: stack)
        (⟨kind, .num op :: rest, height⟩ :: outer) callers) =
        .done ⟨.error why, w.store.memory, w.host⟩ := by
      simp only [step, exec, ha]
    exact .trap hstep

theorem load_passes (address : Word) (w : World Page) (results : Nat)
    (stack : List Word) (kind : LabelKind) (rest : List Instr) (height : Nat) (outer : List Label) :
    Passes m limit
      (stateAt w results locals (address :: stack) (⟨kind, .load :: rest, height⟩ :: outer) callers)
      (Leaves 1 results locals stack (⟨kind, rest, height⟩ :: outer) callers) := by
  cases ha : w.store.memory.load? address with
  | some v =>
    have hstep : step m limit (stateAt w results locals (address :: stack)
        (⟨kind, .load :: rest, height⟩ :: outer) callers) =
        .running (stateAt w results locals (v :: stack) (⟨kind, rest, height⟩ :: outer) callers) := by
      simp only [step, exec, ha]
    exact .step hstep (.here ⟨w, [v], rfl, rfl⟩)
  | none =>
    have hstep : step m limit (stateAt w results locals (address :: stack)
        (⟨kind, .load :: rest, height⟩ :: outer) callers) =
        .done ⟨.error (.outOfBounds address), w.store.memory, w.host⟩ := by
      simp only [step, exec, ha]
    exact .trap hstep

/-- A store that is passed is one to an address in the page. -/
theorem store_passes (address value : Word) (w : World Page) (results : Nat)
    (stack : List Word) (kind : LabelKind) (rest : List Instr) (height : Nat) (outer : List Label) :
    Passes m limit
      (stateAt w results locals (value :: address :: stack)
        (⟨kind, .store :: rest, height⟩ :: outer) callers)
      (fun t => w.store.memory.Holds address ∧
        Leaves 0 results locals stack (⟨kind, rest, height⟩ :: outer) callers t) := by
  by_cases ha : w.store.memory.Holds address
  · have hstep : step m limit (stateAt w results locals (value :: address :: stack)
        (⟨kind, .store :: rest, height⟩ :: outer) callers) =
        .running (stateAt ⟨w.store.set address.toInt.toNat value, w.host⟩ results locals stack
          (⟨kind, rest, height⟩ :: outer) callers) := by
      simp only [step, exec, Memory.store?_of_holds ha]
      rfl
    exact .step hstep (.here ⟨ha, _, [], rfl, rfl⟩)
  · have hstep : step m limit (stateAt w results locals (value :: address :: stack)
        (⟨kind, .store :: rest, height⟩ :: outer) callers) =
        .done ⟨.error (.outOfBounds address), w.store.memory, w.host⟩ := by
      simp only [step, exec, Memory.store?_of_not_holds ha]
    exact .trap hstep

mutual

/-- A run that ends with a result gets behind the code of a value, whatever the value is. -/
theorem Expr.passes (hm : m.Gives arity) (hl : c.locals = none) (e : Expr) (hs : e.Silent)
    (hc : e.CallsFit arity) (w : World Page) (results : Nat) (stack : List Word)
    (kind : LabelKind) (rest : List Instr) (height : Nat) (outer : List Label) :
    Passes m limit
      (stateAt w results locals stack
        (⟨kind, Instr.loadedAll (e.instrs c) ++ rest, height⟩ :: outer) callers)
      (Leaves 1 results locals stack (⟨kind, rest, height⟩ :: outer) callers) := by
  match e with
  | .noneLit _ | .boolLit .. | .intLit .. => exact .step rfl (.here ⟨w, [_], rfl, rfl⟩)
  | .var _ name =>
    have hown : c.isLocal name = false := by simp [Context.isLocal, hl]
    simp only [instrs, hown, Bool.false_eq_true, ↓reduceIte]
    exact .step rfl (load_passes _ w results stack kind rest height outer)
  | .unary _ op operand =>
    simp only [instrs, Instr.loadedAll_append, List.append_assoc]
    refine .bind (Expr.passes hm hl operand hs hc w results stack kind _ height outer) ?_
    rintro t ⟨w', vs, hvs, rfl⟩
    obtain ⟨v, rfl⟩ := List.length_eq_one_iff.mp hvs
    exact .after (unary_follows op v w' results stack kind rest height outer)
      (.here ⟨w', [_], rfl, rfl⟩)
  | .binary _ op left right =>
    obtain ⟨hcl, hcr⟩ := hc
    obtain ⟨hsl, hsr⟩ := Nat.add_eq_zero_iff.mp hs
    simp only [instrs, Instr.loadedAll_append, List.append_assoc]
    refine .bind (Expr.passes hm hl left hsl hcl w results stack kind _ height outer) ?_
    rintro t ⟨w₁, vs₁, hvs₁, rfl⟩
    refine .bind (Expr.passes hm hl right hsr hcr w₁ results (vs₁ ++ stack) kind _ height outer) ?_
    rintro t ⟨w₂, vs₂, hvs₂, rfl⟩
    obtain ⟨l, rfl⟩ := List.length_eq_one_iff.mp hvs₁
    obtain ⟨r, rfl⟩ := List.length_eq_one_iff.mp hvs₂
    exact num_passes _ l r w₂ results stack kind rest height outer
  | .call _ callee args =>
    obtain ⟨ha, hca⟩ := hc
    simp only [instrs, Instr.loadedAll_append, List.append_assoc]
    refine .bind (Expr.passesAll hm hl args hs hca w results stack kind _ height outer) ?_
    rintro t ⟨w', vs, hvs, rfl⟩
    exact call_passes hm ha w' results vs stack hvs kind rest height outer
  | .print .. => exact absurd hs (by simp [Silent, prints])

theorem Expr.passesAll (hm : m.Gives arity) (hl : c.locals = none) (es : List Expr)
    (hs : printsAll es = 0) (hc : CallsFitAll arity es) (w : World Page) (results : Nat)
    (stack : List Word) (kind : LabelKind) (rest : List Instr) (height : Nat)
    (outer : List Label) :
    Passes m limit
      (stateAt w results locals stack
        (⟨kind, Instr.loadedAll (instrsAll c es) ++ rest, height⟩ :: outer) callers)
      (Leaves es.length results locals stack (⟨kind, rest, height⟩ :: outer) callers) := by
  match es with
  | [] => exact .here ⟨w, [], rfl, rfl⟩
  | e :: es =>
    obtain ⟨hce, hces⟩ := hc
    obtain ⟨hse, hses⟩ := Nat.add_eq_zero_iff.mp hs
    simp only [instrsAll, Instr.loadedAll_append, List.append_assoc]
    refine .bind (Expr.passes hm hl e hse hce w results stack kind _ height outer) ?_
    rintro t ⟨w₁, vs₁, hvs₁, rfl⟩
    refine .bind (Expr.passesAll hm hl es hses hces w₁ results (vs₁ ++ stack) kind _ height outer) ?_
    rintro t ⟨w₂, vs₂, hvs₂, rfl⟩
    exact .here ⟨w₂, vs₂ ++ vs₁, by simp [hvs₁, hvs₂], by rw [List.append_assoc]⟩

end

/-- The first slot behind a page has no address in it. -/
theorem Page.lt_slots (page : Page) {slot : Nat} (h : slot ≤ Page.slots)
    (hholds : page.memory.Holds (Int32.ofNat (slot * Layout.slotSize))) : slot < Page.slots := by
  have hle : slot ≤ 16384 := h
  have hi : (Int32.ofNat (slot * Layout.slotSize)).toInt = (slot * 4 : Nat) :=
    Int32.toInt_ofNat_of_lt (by simp only [Layout.slotSize]; omega)
  have hend := hholds.2
  rw [hi, page.sized, Memory.pageSize] at hend
  change slot < 16384
  omega

/-- A run that ends with a result has stored the value of each declaration in the page. -/
theorem Stmt.Declares.passes (hm : m.Gives arity) (hl : c.locals = none) {s s' : Scopes}
    {head : List Stmt} (hd : Declares false s head s') (hp : PlacedAll c head)
    (hc : CallsFitAll arity head) {L : Layout} (hlayout : c.layout.slots = (L.extend head).slots)
    (hfit : L.next ≤ Page.slots) (w : World Page) (results : Nat) (stack : List Word)
    (kind : LabelKind) (rest : List Instr) (height : Nat) (outer : List Label) :
    Passes m limit
      (stateAt w results locals stack
        (⟨kind, Instr.loadedAll (instrsAll c head) ++ rest, height⟩ :: outer) callers)
      (fun _ => (L.extend head).next ≤ Page.slots) := by
  induction hd generalizing L w with
  | nil => exact .here hfit
  | @init s s' span name type value head typed free kept rest' ih =>
    have hown : c.isLocal name = false := by simp [Context.isLocal, hl]
    have hnext : (((L.add name).extend head).extend []).slots.get? name = some L.next :=
      rest'.slot_next (by simp [FunctionCode.localsOf]) L
    have hslot : c.layout.slots.get? name = some L.next := by
      rw [hlayout]
      exact hnext
    have haddress : (c.addressInstr name).loaded =
        .const (Int32.ofNat (L.next * Layout.slotSize)) := by
      simp [Context.addressInstr, Layout.address?, hslot, Instr.loaded]
    simp only [instrsAll, instrs, Context.storeInstrs, hown, Bool.false_eq_true, ↓reduceIte,
      Instr.loadedAll, haddress, Instr.loadedAll_append, List.cons_append, List.append_assoc]
    refine .step rfl (.bind (value.passes hm hl hp.1.2.silent hc.1 w results
      (Int32.ofNat (L.next * Layout.slotSize) :: stack) kind _ height outer) ?_)
    rintro t ⟨w₁, vs, hvs, rfl⟩
    obtain ⟨v, rfl⟩ := List.length_eq_one_iff.mp hvs
    refine .bind (store_passes _ v w₁ results stack kind _ height outer) ?_
    rintro t ⟨hholds, w₂, vs, hvs, rfl⟩
    obtain rfl := List.length_eq_zero_iff.mp hvs
    exact ih hp.2 hc.2 (L := L.add name) hlayout (w₁.store.lt_slots hfit hholds) w₂
  | define _ _ _ _ ih => exact ih hp.2 hc.2 hlayout hfit w

end Straight

/-- The functions of a library that can be loaded give words. -/
theorem Library.Written.gives {lib : Library} (h : lib.Written) (entry : Function) :
    (lib.module entry).Gives lib.arity := by
  intro name k hk
  obtain ⟨d, hd, rfl⟩ := Option.map_eq_some_iff.mp hk
  obtain ⟨hmem, rfl⟩ := Library.find?_some hd
  exact ⟨d.code.function, h.function? hmem, rfl, rfl⟩

/-- A unit that compiles is loaded from its text, whether or not its variables fit in the page. -/
theorem Globals.Made.loads {g : Globals} {lib : Library} {types : List Ty} (hg : g.Made lib types)
    {p : Program} {typing : Typing} {code : UnitCode} (hn : p.Named Bare)
    (ht : p.typeOn g.declared = .ok typing)
    (hu : UnitCode.ofProgram typing.declared g.layout p = .ok code) :
    let entry := entryFunction (UnitCode.topContext typing.declared g.layout p) p.body
    Module.prepare (ModuleText.ofUnit g.definitions code) =
      .ok ((lib.after g typing.declared p).module entry, entry) := by
  obtain ⟨head, rest, s, hc⟩ := Program.typeOn_ok hg.sound ht
  have hof := hg.unit hn ht hu
  have hcalls := hc.callsFit (hc.lists hg).calls
  rw [Library.arityOf_signature?] at hcalls
  change Module.prepare (g.compiled p typing code).text = _
  rw [hof.text]
  exact hof.made.written.prepare rfl hn hcalls

theorem Stmt.Declares.topInstrs_append {s s' : Scopes} {head : List Stmt}
    (h : Declares false s head s') (c : Context) (rest : List Stmt) :
    topInstrs c (head ++ rest) = instrsAll c head ++ topInstrs c rest := by
  induction h with
  | nil => rfl
  | init _ _ _ _ ih | define _ _ _ _ ih =>
    rw [List.cons_append, topInstrs, ih, instrsAll, List.append_assoc]
    simp

theorem Stmt.placedAll_left {c : Context} {a b : List Stmt} (h : PlacedAll c (a ++ b)) :
    PlacedAll c a := by
  induction a with
  | nil => trivial
  | cons stmt a ih => exact ⟨h.1, ih h.2⟩

theorem Stmt.placedAll_right {c : Context} {a b : List Stmt} (h : PlacedAll c (a ++ b)) :
    PlacedAll c b := by
  induction a with
  | nil => exact h
  | cons stmt a ih => exact ih h.2

/-- On top of globals that fit in the page, a unit that ends with a result leaves such globals: each
declaration stores its value, and a store beyond the page traps. Evaluation knows no such trap, so
this is shown of the run itself. -/
theorem Globals.Made.fits_of_success {g : Globals} {lib : Library} {types : List Ty}
    (hg : g.Made lib types) (hfit : g.layout.next ≤ Page.slots) {p : Program} {typing : Typing}
    {code : UnitCode} (hn : p.Named Bare) (ht : p.typeOn g.declared = .ok typing)
    (hu : UnitCode.ofProgram typing.declared g.layout p = .ok code) {steps limit : Nat}
    {w : World Page} {o : Outcome} {raw : Option Word}
    (he : Machine.execute steps limit w.store.memory w.host (g.compiled p typing code).text =
      .ended o)
    (hr : o.result = .ok raw) : code.layout.next ≤ Page.slots := by
  obtain ⟨head, rest, s, hc⟩ := Program.typeOn_ok hg.sound ht
  have hof := hg.unit hn ht hu
  have hwritten := hof.made.written
  have hcalls := (hc.lists hg).calls
  have hall := hc.callsFit hcalls
  have hhead := hc.declares.callsFit hcalls
  rw [Library.arityOf_signature?] at hall hhead
  obtain ⟨rfl, hplaced, _⟩ := UnitCode.ofProgram_ok hu
  rw [hc.body] at hplaced
  have hlayout : g.layout.extend p.body = g.layout.extend head := by
    rw [Layout.extend_eq, hc.locals_head, ← Layout.extend_eq]
  change (g.layout.extend p.body).next ≤ Page.slots
  rw [hof.text, hwritten.execute_eq rfl hn hall] at he
  by_cases hlimit : 0 < limit
  · rw [runEntry_running hlimit, hc.body, hc.declares.topInstrs_append, Instr.loadedAll_append] at he
    split at he
    · rename_i o' hdone
      cases he
      obtain ⟨_, _, hnext⟩ := hc.declares.passes (hwritten.gives _) rfl (Stmt.placedAll_left hplaced)
        hhead (congrArg Layout.slots hlayout) hfit w _ [] .body _ 0 [] o raw ⟨steps, hdone⟩ hr
      rwa [hlayout]
    · cases he
  · rw [runEntry_exhausted hlimit] at he
    cases he
    cases hr

/-- A unit of a session that succeeds fits in the page, as do the variables it leaves. -/
theorem Session.Kept.fits_of_success {s s' : Session} {lib : Library} {types : List Ty}
    (h : s.Kept lib types) (hfit : s.globals.layout.next ≤ Page.slots) {source : String}
    {steps : Nat} {value : Value} (hrun : s.run steps source = some (.ok value, s')) :
    Turn.Fits ⟨source, s, .ok value, s'⟩ ∧ s'.globals.layout.next ≤ Page.slots := by
  obtain ⟨p, raw, type, hp, ⟨ht, hu, he, hr⟩, _⟩ := run_iff_executes.mp ⟨steps, hrun⟩
  have hnext := h.made.fits_of_success hfit (Program.parse_named hp) ht hu (w := h.world) he hr
  refine ⟨fun c hc => ?_, hnext⟩
  change s.globals.compile source shellName = .ok c at hc
  rw [Globals.compile_eq, Globals.accept_eq_ok.mpr ⟨hp, ht, hu⟩] at hc
  cases hc
  exact hnext

end StackScript
