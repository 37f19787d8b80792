import StackScript.Typing

namespace StackScript

section Except

variable {ε α β : Type} {x : Except ε α} {f : α → Except ε β}

theorem bind_eq_ok {b : β} : (x >>= f) = .ok b ↔ ∃ a, x = .ok a ∧ f a = .ok b := by
  cases x with
  | error d => simp [bind, Except.bind]
  | ok a => simp [bind, Except.bind]

theorem pure_eq_ok {a b : α} : (pure a : Except ε α) = .ok b ↔ a = b := by
  simp [pure, Except.pure]

end Except

namespace Table

variable {α : Type}

def Distinct (t : Table α) : Prop := (t.entries.map (·.1)).Nodup

theorem distinct_empty : (empty : Table α).Distinct := List.nodup_nil

theorem Distinct.erase {t : Table α} (h : t.Distinct) (name : String) : (t.erase name).Distinct :=
  (List.filter_sublist.map _).nodup h

theorem Distinct.insert {t : Table α} (h : t.Distinct) (name : String) (value : α) :
    (t.insert name value).Distinct := by
  refine List.nodup_cons.mpr ⟨?_, h.erase name⟩
  intro hm
  obtain ⟨e, he, hn⟩ := List.mem_map.mp hm
  have hne := (List.mem_filter.mp he).2
  simp [hn] at hne

end Table

namespace Layer

structure Sound (l : Layer) : Prop where
  vars : l.vars.Distinct
  funcs : l.funcs.Distinct
  apart : ∀ name, l.vars.get? name ≠ none → l.funcs.get? name = none

theorem sound_empty : Layer.empty.Sound :=
  ⟨Table.distinct_empty, Table.distinct_empty, fun _ h => absurd rfl h⟩

theorem contains_iff {l : Layer} {name : String} : l.contains name = false ↔ l.get? name = none := by
  unfold contains get? Table.contains
  cases l.vars.get? name <;> cases l.funcs.get? name <;> simp

theorem Sound.insertVariable {l : Layer} (h : l.Sound) (name : String) (type : Ty)
    (hf : l.funcs.get? name = none) : Sound { l with vars := l.vars.insert name type } := by
  refine ⟨h.vars.insert name type, h.funcs, ?_⟩
  intro other ho
  simp only [Table.get?_insert] at ho
  split at ho
  · rename_i he
    rw [he, hf]
  · exact h.apart other ho

theorem Sound.insertFunction {l : Layer} (h : l.Sound) (name : String) (sig : Signature)
    (hv : l.vars.get? name = none) : Sound { l with funcs := l.funcs.insert name sig } := by
  refine ⟨h.vars, h.funcs.insert name sig, ?_⟩
  intro other ho
  have hne : other ≠ name := by
    rintro rfl
    exact ho hv
  rw [Table.get?_insert, if_neg hne]
  exact h.apart other ho

theorem get?_none {l : Layer} {name : String} (h : l.get? name = none) :
    l.vars.get? name = none ∧ l.funcs.get? name = none := by
  unfold get? at h
  cases hv : l.vars.get? name with
  | none => simpa [hv] using h
  | some type => simp [hv] at h

theorem put_ok {l l' : Layer} {name : String} {b : Binding} {at_ : Position}
    (h : settled (l.put name b at_) = .ok l') : l.get? name = none ∧ l' = l.insert name b := by
  rw [settled_put] at h
  cases hc : l.contains name with
  | true => simp [hc] at h
  | false =>
    simp only [hc, Bool.false_eq_true, ↓reduceIte, Except.ok.injEq] at h
    exact ⟨contains_iff.mp hc, h.symm⟩

theorem declareVariable_ok {l l' : Layer} {name : String} {type : Ty} {at_ : Position}
    (h : l.declareVariable name type at_ = .ok l') :
    l.get? name = none ∧ l' = { l with vars := l.vars.insert name type } := put_ok h

theorem put_of_free {l : Layer} {name : String} (h : l.get? name = none) (b : Binding)
    (at_ : Position) : l.put name b at_ = (.ok (), l.insert name b) := by
  rw [put, contains_iff.mpr h]
  rfl

theorem get?_insertVariable (l : Layer) (name other : String) (type : Ty) :
    Layer.get? { l with vars := l.vars.insert name type } other =
      if other = name then some (.variable type) else l.get? other := by
  by_cases h : other = name <;> simp [get?, h]

theorem get?_insertFunction {l : Layer} {name : String} (hv : l.vars.get? name = none)
    (other : String) (sig : Signature) :
    Layer.get? { l with funcs := l.funcs.insert name sig } other =
      if other = name then some (.function sig) else l.get? other := by
  by_cases h : other = name
  · subst h
    simp [get?, hv]
  · simp [get?, h]

theorem get?_overlayVariable (l : Layer) (e : String × Ty) (name : String) :
    (l.overlayVariable e).get? name =
      if name = e.1 then some (.variable e.2) else l.get? name := by
  by_cases h : name = e.1 <;> simp [overlayVariable, get?, h]

theorem get?_overlayFunction (l : Layer) (e : String × Signature) (name : String) :
    (l.overlayFunction e).get? name =
      if name = e.1 then some (.function e.2) else l.get? name := by
  by_cases h : name = e.1 <;> simp [overlayFunction, get?, h]

theorem Sound.overlayVariable {l : Layer} (h : l.Sound) (e : String × Ty) :
    (l.overlayVariable e).Sound := by
  refine ⟨h.vars.insert e.1 e.2, h.funcs.erase e.1, ?_⟩
  intro name hn
  simp only [Layer.overlayVariable, Table.get?_insert, Table.get?_erase] at hn ⊢
  split
  · rfl
  · rename_i hne
    rw [if_neg hne] at hn
    exact h.apart name hn

theorem Sound.overlayFunction {l : Layer} (h : l.Sound) (e : String × Signature) :
    (l.overlayFunction e).Sound := by
  refine ⟨h.vars.erase e.1, h.funcs.insert e.1 e.2, ?_⟩
  intro name hn
  simp only [Layer.overlayFunction, Table.get?_insert, Table.get?_erase] at hn ⊢
  split
  · rename_i he
    simp [he] at hn
  · rename_i hne
    rw [if_neg hne] at hn
    exact h.apart name hn

/-- Entries with names of their own, laid over a layer one by one. -/
theorem get?_foldl {α : Type} {put : Layer → String × α → Layer} {binding : α → Binding}
    (hput : ∀ l e name, (put l e).get? name =
      if name = e.1 then some (binding e.2) else l.get? name)
    {es : List (String × α)} (hd : (es.map (·.1)).Nodup) (l : Layer) (name : String) :
    (es.foldl put l).get? name = ((es.lookup name).map binding).or (l.get? name) := by
  induction es generalizing l with
  | nil => rfl
  | cons e es ih =>
    obtain ⟨key, value⟩ := e
    simp only [List.map_cons, List.nodup_cons] at hd
    rw [List.foldl_cons, ih hd.2, hput]
    by_cases h : name = key
    · have hnone : es.lookup name = none := by
        rw [List.lookup_eq_none_iff]
        intro p hp
        rw [h, bne_iff_ne]
        intro he
        exact hd.1 (he ▸ List.mem_map_of_mem hp)
      rw [hnone]
      simp [h]
    · simp [List.lookup_cons, h, beq_false_of_ne h]

/-- Laid over another layer, a sound one decides on the names that it knows. -/
theorem get?_overlay {l top : Layer} (h : top.Sound) (name : String) :
    (l.overlay top).get? name = (top.get? name).or (l.get? name) := by
  unfold overlay
  rw [get?_foldl get?_overlayFunction h.funcs, get?_foldl get?_overlayVariable h.vars]
  change ((top.funcs.get? name).map _).or (((top.vars.get? name).map _).or _) = _
  unfold get?
  cases hv : top.vars.get? name with
  | none => cases top.funcs.get? name <;> simp
  | some type =>
    rw [h.apart name (by simp [hv])]
    simp

/-- Whatever is laid over a sound layer, no name stands twice in it. -/
theorem Sound.overlay {l top : Layer} (h : l.Sound) : (l.overlay top).Sound := by
  unfold Layer.overlay
  have hv : (top.vars.entries.foldl Layer.overlayVariable l).Sound := by
    induction top.vars.entries generalizing l with
    | nil => exact h
    | cons e es ih => exact ih (h.overlayVariable e)
  generalize top.vars.entries.foldl Layer.overlayVariable l = m at hv
  induction top.funcs.entries generalizing m with
  | nil => exact hv
  | cons e es ih => exact ih _ (hv.overlayFunction e)

end Layer

namespace Scopes

def Sound (s : Scopes) : Prop := ∀ l ∈ s.layers, l.Sound

/-- All layers in one keep the meaning of every name. -/
theorem flatten_layers {ls : List Layer} (h : ∀ l ∈ ls, l.Sound) :
    (ls.foldr (fun l (flat : Layer) => flat.overlay l) Layer.empty).Sound ∧
      ∀ name, (ls.foldr (fun l (flat : Layer) => flat.overlay l) Layer.empty).get? name =
        ls.findSome? (·.get? name) := by
  induction ls with
  | nil => exact ⟨Layer.sound_empty, fun _ => rfl⟩
  | cons l ls ih =>
    obtain ⟨hs, hg⟩ := ih (fun m hm => h m (by simp [hm]))
    refine ⟨hs.overlay, fun name => ?_⟩
    rw [List.foldr_cons, Layer.get?_overlay (h l (by simp)), hg, List.findSome?_cons]
    cases l.get? name <;> rfl

theorem Sound.flatten {s : Scopes} (h : s.Sound) : s.flatten.Sound := (flatten_layers h).1

/-- One layer for all says the same about every name. -/
theorem Sound.get?_flatten {s : Scopes} (h : s.Sound) (name : String) :
    s.flatten.get? name = s.lookup name := (flatten_layers h).2 name

theorem lookup_push (s : Scopes) (l : Layer) (name : String) :
    (s.push l).lookup name = (l.get? name).or (s.lookup name) := by
  simp only [lookup, push, layers, List.findSome?_cons]
  cases l.get? name <;> rfl

theorem lookup_seeded (seed : Layer) (name : String) :
    (seeded seed).lookup name = seed.get? name := by
  simp only [lookup, seeded, layers, List.findSome?_cons, List.findSome?_nil]
  have : Layer.empty.get? name = none := rfl
  rw [this]
  cases seed.get? name <;> rfl

def Alike (s t : Scopes) : Prop := ∀ name, s.lookup name = t.lookup name

theorem Alike.typeOf? {s t : Scopes} (h : s.Alike t) (name : String) :
    s.typeOf? name = t.typeOf? name := by
  simp only [Scopes.typeOf?, h name]

theorem Alike.signatureOf? {s t : Scopes} (h : s.Alike t) (name : String) :
    s.signatureOf? name = t.signatureOf? name := by
  simp only [Scopes.signatureOf?, h name]

theorem Alike.push {s t : Scopes} (h : s.Alike t) (l : Layer) : (s.push l).Alike (t.push l) := by
  intro name
  rw [lookup_push, lookup_push, h name]

end Scopes

namespace Expr

mutual

/-- Types depend on the meaning of names only. -/
theorem typeIn_congr {s t : Scopes} (h : s.Alike t) (e : Expr) : e.typeIn s = e.typeIn t := by
  match e with
  | .noneLit _ | .boolLit .. | .intLit .. => rfl
  | .var _ name => simp only [typeIn, h.typeOf? name]
  | .unary _ _ operand => simp only [typeIn, typeIn_congr h operand]
  | .binary _ _ left right => simp only [typeIn, typeIn_congr h left, typeIn_congr h right]
  | .call _ callee args => simp only [typeIn, h.signatureOf? callee, checkArgs_congr h args]
  | .print _ arg => simp only [typeIn, typeIn_congr h arg]

theorem checkArgs_congr {s t : Scopes} (h : s.Alike t) (es : List Expr) (index : Nat)
    (types : List Ty) : checkArgs s index types es = checkArgs t index types es := by
  match es, types with
  | [], [] | [], _ :: _ | _ :: _, [] => simp [checkArgs]
  | e :: es, type :: types =>
    simp only [checkArgs, typeIn_congr h e, checkArgs_congr h es]

end

end Expr

namespace Scopes

def withVariable (s : Scopes) (name : String) (type : Ty) : Scopes :=
  { s with inner := { s.inner with vars := s.inner.vars.insert name type } }

def withFunction (s : Scopes) (name : String) (sig : Signature) : Scopes :=
  { s with inner := { s.inner with funcs := s.inner.funcs.insert name sig } }

theorem lookup_eq (s : Scopes) (name : String) :
    s.lookup name = (s.inner.get? name).or (s.lookupOuter name) := by
  simp only [lookup, lookupOuter, layers, List.findSome?_cons]
  cases s.inner.get? name <;> rfl

/-- A variable hides what its name meant before. -/
theorem lookup_withVariable (s : Scopes) (name other : String) (type : Ty) :
    (s.withVariable name type).lookup other =
      if other = name then some (.variable type) else s.lookup other := by
  rw [lookup_eq, lookup_eq, withVariable, Layer.get?_insertVariable]
  split <;> rfl

theorem lookup_withFunction {s : Scopes} {name : String} (h : s.inner.get? name = none)
    (other : String) (sig : Signature) :
    (s.withFunction name sig).lookup other =
      if other = name then some (.function sig) else s.lookup other := by
  rw [lookup_eq, lookup_eq, withFunction, Layer.get?_insertFunction (Layer.get?_none h).1]
  split <;> rfl

theorem Sound.withVariable {s : Scopes} (h : s.Sound) {name : String} (type : Ty)
    (hn : s.inner.get? name = none) : (s.withVariable name type).Sound := by
  intro l hl
  rcases List.mem_cons.mp hl with rfl | hl
  · exact (h s.inner (by simp [layers])).insertVariable name type (Layer.get?_none hn).2
  · exact h l (List.mem_cons_of_mem s.inner hl)

theorem Sound.withFunction {s : Scopes} (h : s.Sound) {name : String} (sig : Signature)
    (hn : s.inner.get? name = none) : (s.withFunction name sig).Sound := by
  intro l hl
  rcases List.mem_cons.mp hl with rfl | hl
  · exact (h s.inner (by simp [layers])).insertFunction name sig (Layer.get?_none hn).1
  · exact h l (List.mem_cons_of_mem s.inner hl)

/-- A declaration that is accepted is of a name that was free in its layer, and that it may hide
around it. -/
theorem put_ok {s s' : Scopes} {ofUnit : Bool} {name : String} {b : Binding} {at_ : Position}
    (h : settled (s.put ofUnit name b at_) = .ok s') :
    s.inner.get? name = none ∧ (ofUnit = true → s.conflictsOuter name b.isFunction = false) ∧
      s' = { s with inner := s.inner.insert name b } := by
  rw [settled_put] at h
  split at h
  · cases h
  · rename_i hc
    cases hi : settled (s.inner.put name b at_) with
    | error d =>
      rw [hi] at h
      cases h
    | ok inner =>
      rw [hi] at h
      obtain ⟨hn, rfl⟩ := Layer.put_ok hi
      cases h
      exact ⟨hn, by simpa using hc, rfl⟩

/-- A variable may be declared unless its name stands for a function. -/
theorem conflictsOuter_variable {s : Scopes} {name : String} :
    s.conflictsOuter name false = true ↔ ∃ sig, s.lookupOuter name = some (.function sig) := by
  unfold conflictsOuter
  rcases s.lookupOuter name with _ | ⟨type⟩ | ⟨sig⟩ <;> simp

/-- A function may be declared if its name stands for nothing. -/
theorem conflictsOuter_function {s : Scopes} {name : String} :
    s.conflictsOuter name true = true ↔ s.lookupOuter name ≠ none := by
  unfold conflictsOuter
  rcases s.lookupOuter name with _ | ⟨type⟩ | ⟨sig⟩ <;> simp

/-- At the top level a function needs a name that stands for nothing. -/
theorem declareFunction_ok {s s' : Scopes} {name : String} {sig : Signature} {at_ : Position}
    (h : s.declareFunction name sig at_ = .ok s') :
    s.lookup name = none ∧ s' = s.withFunction name sig := by
  obtain ⟨hn, hc, rfl⟩ := put_ok h
  refine ⟨?_, rfl⟩
  rw [lookup_eq, hn, Option.none_or]
  cases ho : s.lookupOuter name with
  | none => rfl
  | some b =>
    have hconflict := hc rfl
    rw [Binding.isFunction, conflictsOuter_function.mpr (by simp [ho])] at hconflict
    cases hconflict

theorem inner_none {s : Scopes} {name : String} (h : s.lookup name = none) :
    s.inner.get? name = none := by
  rw [lookup_eq] at h
  cases hi : s.inner.get? name with
  | none => rfl
  | some b => simp [hi] at h

end Scopes

namespace Stmt

/-- Declarations that lead from some scopes to others. Each value is typed before its variable is
declared. -/
inductive Declares (inFunction : Bool) : Scopes → List Stmt → Scopes → Prop
  | nil (s : Scopes) : Declares inFunction s [] s
  | init {s s' : Scopes} {span : Span} {name : String} {type : Ty} {value : Expr}
      {ss : List Stmt} (typed : value.typeIn s = .ok type) (free : s.inner.get? name = none)
      (kept : inFunction = false → ∀ sig, s.lookup name ≠ some (.function sig))
      (rest : Declares inFunction (s.withVariable name type) ss s') :
      Declares inFunction s (.init span name type value :: ss) s'
  | define {s s' : Scopes} {span : Span} {name : String} {params : List Param} {result : Ty}
      {body ss : List Stmt} (top : inFunction = false) (own : isReserved name = false)
      (free : s.lookup name = none)
      (rest : Declares inFunction (s.withFunction name (signatureOf params result)) ss s') :
      Declares inFunction s (.define span name params result body :: ss) s'

theorem declareVariable_ok {s s' : Scopes} {inFunction : Bool} {name : String} {type : Ty}
    {at_ : Position} (h : declareVariable s inFunction name type at_ = .ok s') :
    s.inner.get? name = none ∧
      (inFunction = false → ∀ sig, s.lookup name ≠ some (.function sig)) ∧
      s' = s.withVariable name type := by
  obtain ⟨hn, hc, rfl⟩ := Scopes.put_ok h
  refine ⟨hn, ?_, rfl⟩
  rintro rfl sig he
  rw [Scopes.lookup_eq, hn, Option.none_or] at he
  have hconflict := hc rfl
  rw [Binding.isFunction, Scopes.conflictsOuter_variable.mpr ⟨sig, he⟩] at hconflict
  cases hconflict

/-- The declarations at the head of a block, and the statements behind them. -/
theorem declareAll_ok {s s' : Scopes} {inFunction : Bool} {ss rest : List Stmt}
    (h : declareAll s inFunction ss = .ok (s', rest)) :
    ∃ head, ss = head ++ rest ∧ Declares inFunction s head s' := by
  fun_induction declareAll s inFunction ss with
  | case1 s span name type value stmts ih =>
    rw [bind_eq_ok] at h
    obtain ⟨received, hv, h⟩ := h
    split at h
    · rename_i he
      subst he
      rw [bind_eq_ok] at h
      obtain ⟨t, ht, h⟩ := h
      obtain ⟨head, rfl, hd⟩ := ih t h
      obtain ⟨hn, hk, rfl⟩ := declareVariable_ok ht
      exact ⟨_ :: head, rfl, .init hv hn hk hd⟩
    · cases h
  | case2 => cases h
  | case3 => cases h
  | case4 s span name params result body stmts hf hr ih =>
    rw [bind_eq_ok] at h
    obtain ⟨t, ht, h⟩ := h
    obtain ⟨head, rfl, hd⟩ := ih t h
    obtain ⟨hn, rfl⟩ := Scopes.declareFunction_ok ht
    exact ⟨_ :: head, rfl, .define (by simpa using hf) (by simpa using hr) hn hd⟩
  | case5 s stmts _ _ =>
    cases h
    exact ⟨[], rfl, .nil _⟩

end Stmt

end StackScript
