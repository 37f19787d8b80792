import StackScript.Proofs.TypeRules

namespace StackScript

namespace Meaning

variable {Γ Δ : Meaning} {entries : List (String × Binding)} {name : String}

/-- What has a meaning in `Γ` has the same in `Δ`. -/
def Sub (Γ Δ : Meaning) : Prop := ∀ name b, Γ name = some b → Δ name = some b

theorem Sub.extendAll (h : Γ.Sub Δ) (entries : List (String × Binding)) :
    (Γ.extendAll entries).Sub (Δ.extendAll entries) := by
  induction entries generalizing Γ Δ with
  | nil => exact h
  | cons entry entries ih =>
    refine ih fun name b hb => ?_
    unfold extend at hb ⊢
    split
    · rename_i he
      rwa [if_pos he] at hb
    · rename_i he
      rw [if_neg he] at hb
      exact h name b hb

theorem extendAll_of_not_mem (h : name ∉ entries.map (·.1)) : Γ.extendAll entries name = Γ name := by
  induction entries generalizing Γ with
  | nil => rfl
  | cons entry entries ih =>
    obtain ⟨hne, hnot⟩ := not_or.mp (mt List.mem_cons.mpr h)
    rw [extendAll, List.foldl_cons]
    exact (ih hnot).trans (if_neg hne)

theorem extendAll_eq_none :
    Γ.extendAll entries name = none ↔ Γ name = none ∧ name ∉ entries.map (·.1) := by
  induction entries generalizing Γ with
  | nil => simp [extendAll]
  | cons entry entries ih =>
    rw [extendAll, List.foldl_cons]
    refine ih.trans ?_
    by_cases he : name = entry.1 <;> simp [extend, he]

/-- New names do no harm to those that are known. -/
theorem sub_extendAll (h : ∀ name ∈ entries.map (·.1), Γ name = none) :
    Γ.Sub (Γ.extendAll entries) := by
  intro name b hb
  rw [extendAll_of_not_mem]
  · exact hb
  · intro hm
    rw [h name hm] at hb
    cases hb

end Meaning

section Weakening

variable {Γ Δ : Meaning}

/-- An expression keeps its type if more names get a meaning. -/
theorem Expr.HasType.mono (h : Γ.Sub Δ) {e : Expr} {type : Ty} (he : e.HasType Γ type) :
    e.HasType Δ type := by
  induction he with
  | noneLit => exact .noneLit
  | boolLit => exact .boolLit
  | intLit => exact .intLit
  | var bound => exact .var (h _ _ bound)
  | neg _ ih => exact .neg ih
  | not _ ih => exact .not ih
  | arithmetic kind _ _ ihl ihr => exact .arithmetic kind ihl ihr
  | order kind _ _ ihl ihr => exact .order kind ihl ihr
  | equality kind _ _ ihl ihr => exact .equality kind ihl ihr
  | identity _ _ ihl ihr => exact .identity ihl ihr
  | call bound arity _ ih => exact .call (h _ _ bound) arity ih
  | print _ ih => exact .print ih

/-- A well typed statement stays so if more names get a meaning. -/
theorem Stmt.WellTyped.mono (h : Γ.Sub Δ) {f : Option Enclosing} {stmt : Stmt}
    (hs : stmt.WellTyped Γ f) : stmt.WellTyped Δ f := by
  induction hs with
  | pass => exact .pass
  | expr value => exact .expr (value.mono h)
  | assign bound value own => exact .assign (h _ _ bound) (value.mono h) own
  | ret inside value => exact .ret inside (value.mono h)
  | ifElse cond _ _ ihy ihn => exact .ifElse (cond.mono h) ihy ihn
  | ifElif cond _ cond' _ _ ihy ihy' ihn => exact .ifElif (cond.mono h) ihy (cond'.mono h) ihy' ihn
  | whileDo cond _ ih => exact .whileDo (cond.mono h) ih

theorem Stmt.ValuesTyped.mono (h : Γ.Sub Δ) {head : List Stmt} (hv : ValuesTyped Γ head) :
    ValuesTyped Δ head := by
  intro pre span name type value post he
  exact (hv pre span name type value post he).mono (h.extendAll _)

/-- A well typed function stays so, as its own names come on top. -/
theorem Stmt.FunctionTyped.mono (h : Γ.Sub Δ) {params : List Param} {result : Ty}
    {body : List Stmt} (hf : FunctionTyped Γ params result body) :
    FunctionTyped Δ params result body := by
  obtain ⟨declarations, names, values, statements⟩ := hf
  have hparams := h.extendAll (paramBindings params)
  exact .intro declarations names (values.mono hparams)
    fun stmt hm => (statements stmt hm).mono (hparams.extendAll _)

end Weakening

namespace Stmt

theorem ValuesTyped.append {Γ : Meaning} {a b : List Stmt} (ha : ValuesTyped Γ a)
    (hb : ValuesTyped (Γ.extendAll (bindings a)) b) : ValuesTyped Γ (a ++ b) := by
  induction a generalizing Γ with
  | nil => exact hb
  | cons stmt a ih =>
    refine .cons ?_ (ih ha.tail ?_)
    · rintro span name type value rfl
      exact ha [] span name type value a rfl
    · rwa [← Meaning.extendAll_append, ← bindings_append]

theorem bindings_eq_nil {ss : List Stmt} (h : ∀ stmt ∈ ss, stmt.isDeclaration = false) :
    bindings ss = [] := by
  refine List.filterMap_eq_nil_iff.mpr fun stmt hm => ?_
  cases stmt with
  | init | define => cases h _ hm
  | _ => rfl

theorem eq_nil_of_declaredNames {ss : List Stmt} (h : ∀ stmt ∈ ss, stmt.isDeclaration = true)
    (hnames : declaredNames ss = []) : ss = [] := by
  cases ss with
  | nil => rfl
  | cons stmt ss =>
    cases stmt with
    | init | define => cases hnames
    | _ => cases h _ List.mem_cons_self

end Stmt

namespace Program

variable {Γ : Meaning}

/-- Two programs, one typed on top of the other, are one well typed program if the second declares
nothing, or if the first declares only and the second declares new names only. -/
theorem WellTyped.append {p q : Program} (hp : p.WellTyped Γ)
    (hq : q.WellTyped (Γ.extendAll (Stmt.bindings p.body)))
    (h : Stmt.declaredNames q.body = [] ∨ (∀ stmt ∈ p.body, stmt.isDeclaration = true) ∧
      ∀ name ∈ Stmt.declaredNames q.body, Γ.extendAll (Stmt.bindings p.body) name = none) :
    WellTyped Γ ⟨p.body ++ q.body⟩ := by
  cases hp with
  | @intro head rest decls names vars funcs values bodies stmts =>
  cases hq with
  | @intro head' rest' decls' names' vars' funcs' values' bodies' stmts' =>
  have hrest : ∀ stmt ∈ rest, stmt.isDeclaration = false := fun s hm => (stmts s hm).not_declaration
  have hrest' : ∀ stmt ∈ rest', stmt.isDeclaration = false :=
    fun s hm => (stmts' s hm).not_declaration
  have hbindings : Stmt.bindings (head ++ rest) = Stmt.bindings head := by
    rw [Stmt.bindings_append, Stmt.bindings_eq_nil hrest, List.append_nil]
  have hnames : Stmt.declaredNames (head' ++ rest') = Stmt.declaredNames head' := by
    rw [Stmt.declaredNames, Stmt.bindings_append, Stmt.bindings_eq_nil hrest', List.append_nil]
    rfl
  dsimp only at vars' funcs' values' bodies' stmts' h
  rw [hbindings] at vars' funcs' values' bodies' stmts' h
  rw [hnames] at h
  -- Either way the declarations of both come first, and those of the second are new.
  have hbody : (head ++ rest) ++ (head' ++ rest') = (head ++ head') ++ (rest ++ rest') := by
    rcases h with hnone | ⟨hall, _⟩
    · rw [Stmt.eq_nil_of_declaredNames decls' hnone]
      simp
    · have hnil : rest = [] := List.eq_nil_iff_forall_not_mem.mpr fun stmt hm => by
        have hfalse := hrest stmt hm
        rw [hall stmt (List.mem_append_right head hm)] at hfalse
        cases hfalse
      rw [hnil]
      simp
  have hnew : ∀ name ∈ Stmt.declaredNames head', Γ.extendAll (Stmt.bindings head) name = none := by
    rcases h with hnone | ⟨_, hnew⟩
    · rw [hnone]
      simp
    · exact hnew
  have hsub := Meaning.sub_extendAll hnew
  have hall : Γ.extendAll (Stmt.bindings (head ++ head')) =
      (Γ.extendAll (Stmt.bindings head)).extendAll (Stmt.bindings head') := by
    rw [Stmt.bindings_append, Meaning.extendAll_append]
  have hfree {name : String} {b : Binding} (hm : (name, b) ∈ Stmt.bindings head') : Γ name = none :=
    (Meaning.extendAll_eq_none.mp (hnew name (List.mem_map_of_mem hm))).1
  rw [hbody]
  refine .intro (List.forall_mem_append.mpr ⟨decls, decls'⟩) ?_ ?_ ?_ (values.append values') ?_ ?_
  · rw [Stmt.declaredNames_append]
    refine List.nodup_append.mpr ⟨names, names', ?_⟩
    rintro name hm _ hm' rfl
    exact (Meaning.extendAll_eq_none.mp (hnew name hm')).2 hm
  · intro name type hm sig
    rw [Stmt.bindings_append] at hm
    rcases List.mem_append.mp hm with hm | hm
    · exact vars name type hm sig
    · simp [hfree hm]
  · intro name sig hm
    rw [Stmt.bindings_append] at hm
    rcases List.mem_append.mp hm with hm | hm
    · exact funcs name sig hm
    · exact ⟨(funcs' name sig hm).1, hfree hm⟩
  · intro span name params result body hm
    rw [hall]
    rcases List.mem_append.mp hm with hm | hm
    · exact (bodies span name params result body hm).mono hsub
    · exact bodies' span name params result body hm
  · intro stmt hm
    rw [hall]
    rcases List.mem_append.mp hm with hm | hm
    · exact (stmts stmt hm).mono hsub
    · exact stmts' stmt hm

end Program

end StackScript
