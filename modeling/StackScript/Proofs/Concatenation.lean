import StackScript.Proofs.Agreement
import StackScript.Proofs.Units
import StackScript.Proofs.Weakening

namespace StackScript

def Binding.Valued : Binding → Prop
  | .variable type => type ≠ .void
  | .function sig => sig.result ≠ .void

def Meaning.Valued (Γ : Meaning) : Prop := ∀ name b, Γ name = some b → b.Valued

theorem Stmt.bindings_valued {ss : List Stmt} (h : ∀ s ∈ ss, s.Valued) :
    ∀ entry ∈ bindings ss, entry.2.Valued := by
  intro entry hm
  obtain ⟨s, hs, he⟩ := List.mem_filterMap.mp hm
  have hvalued := h s hs
  cases s with
  | init | define =>
    cases he
    exact hvalued
  | _ => cases he

theorem Meaning.Valued.extendAll {Γ : Meaning} (h : Γ.Valued) {entries : List (String × Binding)}
    (hentries : ∀ entry ∈ entries, entry.2.Valued) : (Γ.extendAll entries).Valued := by
  induction entries generalizing Γ with
  | nil => exact h
  | cons entry entries ih =>
    obtain ⟨hfirst, hrest⟩ := List.forall_mem_cons.mp hentries
    refine ih (fun name b hb => ?_) hrest
    unfold extend at hb
    split at hb
    · cases hb
      exact hfirst
    · exact h name b hb

/-- Where all names have values, so do all expressions. -/
theorem Expr.HasType.ne_void {Γ : Meaning} (hΓ : Γ.Valued) {e : Expr} {type : Ty}
    (h : e.HasType Γ type) : type ≠ .void := by
  induction h with
  | var bound => exact hΓ _ _ bound
  | call bound => exact hΓ _ _ bound
  | print _ ih => exact ih
  | _ => exact Ty.noConfusion

namespace Program

/-- What the units `p` and `q` have to keep to if they are to be one: `q` declares nothing, or `p`
declares only and `q` declares names that are new to it. -/
def Joins (Γ : Meaning) (p q : Program) : Prop :=
  Stmt.declaredNames q.body = [] ∨ (∀ stmt ∈ p.body, stmt.isDeclaration = true) ∧
    ∀ name ∈ Stmt.declaredNames q.body, Γ name = none ∧ name ∉ Stmt.declaredNames p.body

instance (Γ : Meaning) (p q : Program) : Decidable (p.Joins Γ q) :=
  inferInstanceAs (Decidable (_ ∨ _ ∧ _))

section Typing

variable {p q : Program} {s₀ s : Scopes} {head rest : List Stmt} {typing : Typing} {seed : Layer}

theorem Checked.bindings_eq (h : p.Checked s₀ head rest s typing) :
    Stmt.bindings p.body = Stmt.bindings head := by
  have hwell := (Stmt.checkAll_iff (f := none) ⟨rfl, by simp⟩).mp (Stmt.checkAll_of_lastType h.last)
  have hrest : ∀ stmt ∈ rest, stmt.isDeclaration = false := fun stmt hm =>
    (hwell stmt hm).not_declaration
  rw [h.body, Stmt.bindings_append, Stmt.bindings_eq_nil hrest, List.append_nil]

theorem Checked.lookup_eq (h : p.Checked s₀ head rest s typing) :
    s.lookup = Meaning.extendAll s₀.lookup (Stmt.bindings p.body) := by
  rw [h.bindings_eq]
  exact h.declares.lookup_eq

theorem typeOn_checked (hs : seed.Sound) (h : p.typeOn seed = .ok typing) :
    ∃ head rest s, p.Checked (.seeded seed) head rest s typing ∧
      s.lookup = typing.declared.get? := by
  obtain ⟨head, rest, s, hc⟩ := typeOn_ok hs h
  refine ⟨head, rest, s, hc.toChecked, ?_⟩
  rw [hc.declared]
  exact (funext (hc.declares.sound hc.sound).get?_flatten).symm

/-- What names mean once a unit has been checked. -/
theorem typeOn_declared (hs : seed.Sound) (h : p.typeOn seed = .ok typing) :
    typing.declared.get? = Meaning.extendAll seed.get? (Stmt.bindings p.body) := by
  obtain ⟨_, _, s, hc, hlookup⟩ := typeOn_checked hs h
  have hseed : (Scopes.seeded seed).lookup = seed.get? := funext (Scopes.lookup_seeded seed)
  rw [← hlookup, hc.lookup_eq, hseed]

theorem typeOn_sound (hs : seed.Sound) (h : p.typeOn seed = .ok typing) : typing.declared.Sound := by
  obtain ⟨_, _, _, hc⟩ := typeOn_ok hs h
  rw [hc.declared]
  exact (hc.declares.sound hc.sound).flatten

/-- Names that the second unit declares are free behind the first. -/
theorem Joins.free {Γ : Meaning} (h : p.Joins Γ q) : ∀ name ∈ Stmt.declaredNames q.body,
    Meaning.extendAll Γ (Stmt.bindings p.body) name = none := by
  rcases h with hnone | ⟨_, hnew⟩
  · rw [hnone]
    simp
  · intro name hm
    exact Meaning.extendAll_eq_none.mpr (hnew name hm)

/-- Two units that are checked one after the other are checked as one, and declare the same. -/
theorem Joins.typeOn (h : p.Joins seed.get? q) (hs : seed.Sound) (hp : p.typeOn seed = .ok typing)
    {typing' : Typing} (hq : q.typeOn typing.declared = .ok typing') (hs' : typing.declared.Sound) :
    ∃ both, Program.typeOn seed ⟨p.body ++ q.body⟩ = .ok both ∧
      both.declared.get? = typing'.declared.get? := by
  have hmeaning := typeOn_declared hs hp
  have hwell : Program.WellTyped seed.get? ⟨p.body ++ q.body⟩ := by
    refine (typeOn_iff.mp ⟨_, hp⟩).append ?_ ?_
    · rw [← hmeaning]
      exact typeOn_iff.mp ⟨_, hq⟩
    · exact h.imp id fun hnew => ⟨hnew.1, Joins.free (.inr hnew)⟩
  obtain ⟨both, hboth⟩ := typeOn_iff.mpr hwell
  refine ⟨both, hboth, ?_⟩
  rw [typeOn_declared hs hboth, typeOn_declared hs' hq, hmeaning, Stmt.bindings_append,
    Meaning.extendAll_append]

end Typing

theorem endsInExpr_iff {p : Program} : p.endsInExpr = true ↔
    ∃ before span value, p.body = before ++ [.expr span value] := by
  unfold endsInExpr
  constructor
  · intro h
    split at h
    · rename_i span value hlast
      obtain ⟨before, hb⟩ := List.getLast?_eq_some_iff.mp hlast
      exact ⟨before, span, value, hb⟩
    · cases h
  · rintro ⟨before, span, value, hb⟩
    rw [hb, List.getLast?_concat]

theorem endsInExpr_append (a : List Stmt) {b : List Stmt} (hb : b ≠ []) :
    endsInExpr ⟨a ++ b⟩ = endsInExpr ⟨b⟩ := by
  unfold endsInExpr
  rw [List.getLast?_append_of_ne_nil _ hb]

end Program

theorem Stmt.lastType_append (s : Scopes) (type : Ty) (a b : List Stmt) :
    lastType s type (a ++ b) = lastType s type a >>= fun t => lastType s t b := by
  induction a generalizing type with
  | nil => rfl
  | cons stmt a ih =>
    simp only [List.cons_append, lastType, ih, bind_assoc]

/-- The value of a unit has the type of its last expression. -/
theorem Program.Checked.result_eq {p : Program} {s₀ s : Scopes} {head rest : List Stmt}
    {typing : Typing} (h : p.Checked s₀ head rest s typing) {before : List Stmt} {span : Span}
    {value : Expr} (hbody : p.body = before ++ [.expr span value]) (hs : Meaning.Valued s.lookup) :
    value.typeIn s = .ok typing.result := by
  have hlast := h.last
  obtain ⟨rest', rfl⟩ : ∃ rest', rest = rest' ++ [.expr span value] := by
    rw [h.body] at hbody
    rcases List.eq_nil_or_concat rest with rfl | ⟨rest', stmt, rfl⟩
    · have hmem : .expr span value ∈ head := by
        rw [List.append_nil] at hbody
        simp [hbody]
      cases h.declares.declarable.declarations _ hmem
    · rw [List.concat_eq_append, ← List.append_assoc] at hbody
      obtain ⟨_, hlast⟩ := List.append_inj' hbody rfl
      exact ⟨rest', by rw [List.concat_eq_append, hlast]⟩
  rw [Stmt.lastType_append, bind_eq_ok] at hlast
  obtain ⟨t, _, hlast⟩ := hlast
  simp only [Stmt.lastType, Stmt.typeIn, bind_eq_ok] at hlast
  obtain ⟨type, ht, hresult⟩ := hlast
  have hvalue : type.isValue = true := by
    simpa [Ty.isValue] using (Expr.typeIn_iff.mp ht).ne_void hs
  rw [hvalue] at hresult
  cases hresult
  exact ht

/-- A unit has a value of the same type behind other statements, if names mean the same there. -/
theorem Program.valueType_append {seed seed' : Layer} (hs : seed.Sound) (hs' : seed'.Sound)
    {before : List Stmt} {q : Program} (hq : q.body ≠ []) {both typing : Typing}
    (hboth : Program.typeOn seed ⟨before ++ q.body⟩ = .ok both) (htyping : q.typeOn seed' = .ok typing)
    (hmeaning : both.declared.get? = typing.declared.get?)
    (hvalued : Meaning.Valued typing.declared.get?) :
    valueType ⟨before ++ q.body⟩ both = q.valueType typing := by
  unfold valueType
  rw [endsInExpr_append before hq]
  cases hends : q.endsInExpr with
  | false => simp
  | true =>
    obtain ⟨init, span, value, hlast⟩ := endsInExpr_iff.mp hends
    obtain ⟨_, _, s, hc, hlookup⟩ := typeOn_checked hs hboth
    obtain ⟨_, _, s', hc', hlookup'⟩ := typeOn_checked hs' htyping
    have hbody : before ++ q.body = (before ++ init) ++ [.expr span value] := by
      rw [hlast, List.append_assoc]
    have halike : s.Alike s' := fun name => by rw [hlookup, hlookup', hmeaning]
    have htype := hc.result_eq hbody (by rwa [hlookup, hmeaning])
    rw [Expr.typeIn_congr halike, hc'.result_eq hlast (by rwa [hlookup'])] at htype
    exact (Except.ok.inj htype).symm

theorem FunctionCode.ofStmts_append {c : Context} {a b : List Stmt} {fs gs : List FunctionCode}
    (ha : ofStmts c a = .ok fs) (hb : ofStmts c b = .ok gs) :
    ofStmts c (a ++ b) = .ok (fs ++ gs) := by
  fun_induction ofStmts c a generalizing fs with
  | case1 =>
    cases ha
    exact hb
  | case2 span name params result body stmts ih =>
    simp only [bind_eq_ok, pure_eq_ok] at ha
    obtain ⟨f, hf, fs, hfs, rfl⟩ := ha
    simp only [List.cons_append, ofStmts, bind_eq_ok, pure_eq_ok]
    exact ⟨f, hf, fs ++ gs, ih hfs, rfl⟩
  | case3 stmt stmts hother ih =>
    rw [List.cons_append, ofStmts.eq_3 c stmt (stmts ++ b) hother]
    exact ih ha

namespace UnitCode

open Gen

variable {c : Context}

/-- An expression that is not the last statement gives up its value. -/
theorem valueCode_of_code {value : Expr} {is : List Instr} {d : Nat}
    (h : value.code c 0 = .ok (is, d)) (at_ : Position) :
    ∃ js, Stmt.valueCode c value at_ 0 = .ok (js, 0) := by
  obtain ⟨_, _, rfl⟩ := Expr.emitted_of_code h
  simp only [Stmt.valueCode, bind_ok, depth_ok]
  cases hp : value.isPrint with
  | true =>
    rw [hp] at h
    exact ⟨is, 0, 0, rfl, is, 0, h, 0, 0, rfl, rfl⟩
  | false =>
    rw [hp] at h
    exact ⟨is ++ [.drop], 0, 0, rfl, is, 1, h, 1, 1, rfl, rfl⟩

/-- The entry of both is coded as soon as the entries of both are. -/
theorem topCode_append {a b : List Stmt} (hb : b ≠ []) {is js : List Instr} {d e : Nat}
    (ha : topCode c a 0 = .ok (is, d)) (hcode : topCode c b 0 = .ok (js, e)) :
    ∃ ks, topCode c (a ++ b) 0 = .ok (ks, e) := by
  fun_induction topCode c a generalizing is d with
  | case1 => exact ⟨js, hcode⟩
  | case2 span value =>
    obtain ⟨first, hfirst⟩ := valueCode_of_code ha span.first
    rw [List.cons_append, List.nil_append, topCode.eq_3 c _ b fun _ _ _ => hb]
    simp only [bind_ok, pure_ok]
    exact ⟨first ++ js, first, 0, hfirst, js, e, hcode, rfl⟩
  | case3 stmt stmts hlast ih =>
    simp only [bind_ok, pure_ok] at ha
    obtain ⟨first, d₁, hfirst, rest, d₂, hrest, _⟩ := ha
    obtain ⟨_, _, rfl⟩ := Stmt.code_ok stmt hfirst
    obtain ⟨ks, hks⟩ := ih hrest
    rw [List.cons_append, topCode.eq_3 c stmt (stmts ++ b) (by simp [hb])]
    simp only [bind_ok, pure_ok]
    exact ⟨first ++ ks, first, 0, hfirst, ks, e, hks, rfl⟩

/-- The entry has code as soon as its statements have. -/
theorem mainCode_iff {p : Program} :
    (∃ r, mainCode c p 0 = .ok r) ↔ ∃ r, topCode c p.body 0 = .ok r := by
  constructor
  · rintro ⟨r, h⟩
    simp only [mainCode, bind_ok] at h
    obtain ⟨is, d, htop, _⟩ := h
    exact ⟨(is, d), htop⟩
  · rintro ⟨⟨is, d⟩, htop⟩
    simp only [mainCode, bind_ok, depth_ok]
    rcases topCode_depth htop with rfl | ⟨hends, rfl⟩
    · cases hends : p.endsInExpr with
      | true => exact ⟨_, is, 0, htop, 0, 0, rfl, rfl⟩
      | false => exact ⟨_, is, 0, htop, 0, 0, rfl, rfl⟩
    · have hends : p.endsInExpr = true := hends
      simp only [hends]
      exact ⟨_, is, 1, htop, 1, 1, rfl, rfl⟩

theorem ofProgram_eq_ok {declared : Layer} {layout : Layout} {p : Program} {u : UnitCode} :
    ofProgram declared layout p = .ok u ↔ ∃ fs main,
      FunctionCode.ofStmts (topContext declared layout p) p.body = .ok fs ∧
      mainCode (topContext declared layout p) p 0 = .ok main ∧
      u = ⟨fs, main.1, p.endsInExpr, layout.extend p.body⟩ := by
  change (do
    let functions ← FunctionCode.ofStmts (topContext declared layout p) p.body
    let main ← mainCode (topContext declared layout p) p 0
    pure (⟨functions, main.1, p.endsInExpr, layout.extend p.body⟩ : UnitCode)) = .ok u ↔ _
  simp only [bind_eq_ok, pure_eq_ok]
  constructor
  · rintro ⟨fs, hfs, main, hmain, rfl⟩
    exact ⟨fs, main, hfs, hmain, rfl⟩
  · rintro ⟨fs, main, hfs, hmain, rfl⟩
    exact ⟨fs, hfs, main, hmain, rfl⟩

end UnitCode

theorem Stmt.evalTop_append {σ : Type} (t : Truth) (f : String → List Word → Eval σ Word)
    (site : Site σ) (fuel : Nat) (a : List Stmt) {b : List Stmt} (hb : b ≠ []) :
    evalTop t f site fuel (a ++ b) =
      evalTop t f site fuel a >>= fun _ => evalTop t f site fuel b := by
  fun_induction evalTop t f site fuel a with
  | case1 => rfl
  | case2 span value =>
    rw [List.cons_append, List.nil_append, evalTop_cons fun _ _ _ => hb]
    simp only [Stmt.eval, bind_assoc, pure_bind]
  | case3 stmt stmts hlast ih =>
    rw [List.cons_append, evalTop_cons (by simp [hb]), ih, bind_assoc]

/-- Statements evaluated behind others give what they give in the world that those leave. -/
theorem evalUnit_append {σ : Type} {t : Truth} {fs : String → Option (Routine σ)} {limit : Nat}
    {site : Site σ} {fuel : Nat} {a b : List Stmt} (hb : b ≠ []) {w v w' : World σ}
    {r r' : Option Word} (h : evalUnit t fs limit site fuel a w = some (.ok r, v))
    (h' : evalUnit t fs limit site fuel b v = some (.ok r', w')) :
    evalUnit t fs limit site fuel (a ++ b) w = some (.ok r', w') := by
  unfold evalUnit at h h' ⊢
  split at h
  · rename_i hlimit
    rw [if_pos hlimit] at h'
    rw [if_pos hlimit, Stmt.evalTop_append _ _ _ _ _ hb]
    exact Eval.bind_ok.mpr ⟨r, v, h, h'⟩
  · cases h

end StackScript
