import StackScript.Command
import StackScript.Proofs.Scopes

namespace StackScript

namespace Scopes

/-- The same scopes with an empty layer around all of them. -/
def grounded (s : Scopes) : Scopes := ⟨s.inner, s.outer ++ [.empty]⟩

section Grounded

variable (s : Scopes) (name : String) (at_ : Position)

theorem lookupOuter_grounded : s.grounded.lookupOuter name = s.lookupOuter name := by
  have hempty : [Layer.empty].findSome? (·.get? name) = none := rfl
  simp only [lookupOuter, grounded, List.findSome?_append, hempty, Option.or_none]

theorem grounded_alike : s.grounded.Alike s := by
  intro name
  rw [lookup_eq, lookup_eq, lookupOuter_grounded]
  rfl

theorem conflictsOuter_grounded (asFunction : Bool) :
    s.grounded.conflictsOuter name asFunction = s.conflictsOuter name asFunction := by
  simp only [conflictsOuter, lookupOuter_grounded]

/-- A declaration is accepted or refused alike, and reported in the same way. -/
theorem put_grounded (ofUnit : Bool) (b : Binding) :
    settled (s.grounded.put ofUnit name b at_) = grounded <$> settled (s.put ofUnit name b at_) := by
  rw [settled_put, settled_put, conflictsOuter_grounded]
  split
  · rfl
  · simp only [map_bind, map_pure]
    rfl

theorem flatten_grounded : s.grounded.flatten = s.flatten := by
  have hempty : Layer.empty.overlay .empty = .empty := rfl
  simp only [flatten, layers, grounded, List.foldr_cons, List.foldr_append, List.foldr_nil, hempty]

end Grounded

end Scopes

theorem Expr.checkCondition_congr {s t : Scopes} (h : s.Alike t) (cond : Expr) :
    cond.checkCondition s = cond.checkCondition t := by
  simp only [checkCondition, typeIn_congr h cond]

namespace Stmt

mutual

/-- Checking a statement asks what names mean and which of them are local, and nothing else. -/
theorem typeIn_congr {s t : Scopes} (h : s.Alike t) (hl : ∀ name, s.isLocal name = t.isLocal name)
    (result : Option Ty) (stmt : Stmt) : stmt.typeIn s result = stmt.typeIn t result := by
  match stmt with
  | .init .. | .define .. | .pass _ => rfl
  | .ret _ value => simp only [typeIn, Expr.typeIn_congr h value]
  | .assign _ name value => simp only [typeIn, h.typeOf? name, hl name, Expr.typeIn_congr h value]
  | .ifElse _ cond yes no =>
    simp only [typeIn, Expr.checkCondition_congr h cond, checkAll_congr h hl result yes,
      checkAll_congr h hl result no]
  | .ifElif _ cond yes cond' yes' no =>
    simp only [typeIn, Expr.checkCondition_congr h cond, checkAll_congr h hl result yes,
      Expr.checkCondition_congr h cond', checkAll_congr h hl result yes',
      checkAll_congr h hl result no]
  | .whileDo _ cond body =>
    simp only [typeIn, Expr.checkCondition_congr h cond, checkAll_congr h hl result body]
  | .expr _ value => simp only [typeIn, Expr.typeIn_congr h value]

theorem checkAll_congr {s t : Scopes} (h : s.Alike t)
    (hl : ∀ name, s.isLocal name = t.isLocal name) (result : Option Ty) (stmts : List Stmt) :
    checkAll s result stmts = checkAll t result stmts := by
  match stmts with
  | [] => rfl
  | stmt :: stmts =>
    simp only [checkAll, typeIn_congr h hl result stmt, checkAll_congr h hl result stmts]

end

theorem lastType_grounded (s : Scopes) (type : Ty) (stmts : List Stmt) :
    lastType s.grounded type stmts = lastType s type stmts := by
  induction stmts generalizing type with
  | nil => rfl
  | cons stmt stmts ih =>
    simp only [lastType, typeIn_congr s.grounded_alike (fun _ => rfl) none stmt, ih]

theorem declareAll_grounded (s : Scopes) (inFunction : Bool) (stmts : List Stmt) :
    declareAll s.grounded inFunction stmts =
      (fun r => (r.1.grounded, r.2)) <$> declareAll s inFunction stmts := by
  induction stmts generalizing s with
  | nil => rfl
  | cons stmt stmts ih =>
    cases stmt with
    | init span name type value =>
      simp only [declareAll, Expr.typeIn_congr s.grounded_alike value, map_bind]
      refine bind_congr fun received => ?_
      split
      · simp only [declareVariable, Scopes.put_grounded, bind_map_left, map_bind, ih]
      · rfl
    | define span name params result body =>
      simp only [declareAll]
      split
      · rfl
      · split
        · rfl
        · simp only [Scopes.declareFunction, Scopes.put_grounded, bind_map_left, map_bind, ih]
    | _ => rfl

/-- A function is checked in a layer of its own, inside all others. -/
theorem checkFunction_grounded (s : Scopes) (params : List Param) (result : Ty)
    (body : List Stmt) :
    checkFunction s.grounded params result body = checkFunction s params result body := by
  have hpush (layer : Layer) : s.grounded.push layer = (s.push layer).grounded := rfl
  simp only [checkFunction, hpush, declareAll_grounded, bind_map_left,
    checkAll_congr (Scopes.grounded_alike _) (fun _ => rfl)]

theorem checkFunctions_grounded (s : Scopes) (stmts : List Stmt) :
    checkFunctions s.grounded stmts = checkFunctions s stmts := by
  induction stmts with
  | nil => rfl
  | cons stmt stmts ih =>
    cases stmt with
    | define span name params result body =>
      simp only [checkFunctions, checkFunction_grounded, ih]
    | init span name type value => simp only [checkFunctions, ih]
    | _ => rfl

end Stmt

/-- A layer without declarations around all others makes no difference to a unit. -/
theorem Program.typeFrom_grounded (s : Scopes) (p : Program) :
    p.typeFrom s.grounded = p.typeFrom s := by
  simp only [typeFrom, Stmt.declareAll_grounded, bind_map_left, Stmt.lastType_grounded,
    Stmt.checkFunctions_grounded, Scopes.flatten_grounded]

namespace SourceFile

theorem attempt_bind {α β : Type} (f : SourceFile) (r : Except Diagnostic α)
    (k : α → Except Diagnostic β) :
    f.attempt (r >>= k) = f.attempt r >>= fun a => f.attempt (k a) := by
  cases r <;> rfl

/-- A file is checked as the first unit of a session would be. -/
theorem check_eq (f : SourceFile) :
    f.check = f.attempt (do
      let p ← Program.parse f.text f.name
      let typing ← p.typeOn Globals.empty.declared
      return .success ((p.valueType typing).label ++ "\n")) := by
  have halone (p : Program) : p.typeOn Globals.empty.declared = p.typeAlone :=
    p.typeFrom_grounded .empty
  simp only [check, attempt_bind, halone]
  rfl

/-- Checking a unit and compiling it as the first of a session come to the same: the same result and
declarations, or the same complaint at the same place. So a file that compiles is reported with the
type that its unit is read as, and one that is refused is refused with the same report. -/
theorem check_reports_compiled :
    (∀ p : Program, p.typeAlone = p.typeOn Globals.empty.declared) ∧
    (∀ (f : SourceFile) (compiled : Compiled),
      Globals.empty.compile f.text f.name = .ok compiled →
        f.check = .ok (.success (compiled.type.label ++ "\n"))) ∧
    ∀ (f : SourceFile) (report : Report),
      f.check = .error report → f.moduleText = .error report := by
  refine ⟨fun p => (p.typeFrom_grounded .empty).symm, fun f compiled hc => ?_,
    fun f report hr => ?_⟩
  · obtain ⟨p, hp, hc⟩ := bind_eq_ok.mp hc
    obtain ⟨typing, ht, hc⟩ := bind_eq_ok.mp hc
    obtain ⟨code, _, hc⟩ := bind_eq_ok.mp hc
    cases hc
    rw [check_eq, hp]
    change f.attempt (p.typeOn Globals.empty.declared >>= _) = _
    rw [ht]
    rfl
  · rw [check_eq] at hr
    rw [moduleText, Globals.compile]
    cases hp : Program.parse f.text f.name with
    | error d =>
      rw [hp] at hr
      cases hr
      rfl
    | ok p =>
      rw [hp] at hr
      change f.attempt (p.typeOn Globals.empty.declared >>= _) = _ at hr
      change (f.attempt (p.typeOn Globals.empty.declared >>= _) >>= _) = _
      cases ht : p.typeOn Globals.empty.declared with
      | error d =>
        rw [ht] at hr
        cases hr
        rfl
      | ok typing =>
        rw [ht] at hr
        cases hr

/-- A function that hides a variable, and one that assigns to a variable of the file. -/
theorem check_reports_compiled_hiding :
    let f : SourceFile :=
      ⟨"f", "x: int = 1\ndef f(x: bool) -> bool:\n  y: bool = x\n  y = not x\n  return y\nf(x == 1)"⟩
    let g : SourceFile := ⟨"g", "x: int = 1\ndef g() -> int:\n  x = 2\n  return x\ng()"⟩
    (∃ compiled, Globals.empty.compile f.text f.name = .ok compiled ∧ compiled.type = .bool ∧
      f.check = .ok (.success "bool\n")) ∧
    ∃ report, g.check = .error report ∧ g.moduleText = .error report := by
  intro f g
  obtain ⟨_, hcompiled, hrefused⟩ := check_reports_compiled
  constructor
  · have htype : (Globals.empty.compile f.text f.name).toOption.map (·.type) = some .bool := by
      decide +kernel
    cases hc : Globals.empty.compile f.text f.name with
    | error d =>
      rw [hc] at htype
      cases htype
    | ok compiled =>
      rw [hc] at htype
      have hbool : compiled.type = .bool := Option.some.inj htype
      have hcheck := hcompiled f compiled hc
      rw [hbool] at hcheck
      exact ⟨compiled, rfl, hbool, hcheck⟩
  · have hnone : g.check.toOption.isNone = true := by decide +kernel
    cases hr : g.check with
    | error report => exact ⟨report, rfl, hrefused g report hr⟩
    | ok report =>
      rw [hr] at hnone
      cases hnone

end SourceFile

end StackScript
