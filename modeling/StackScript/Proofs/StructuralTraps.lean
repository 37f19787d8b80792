import StackScript.Proofs.Actions
import StackScript.Proofs.Flattening

namespace StackScript

def Trap.isStructural : Trap → Bool
  | unknownLocal _ | branchOutOfRange _ | unknownFunction _ | unknownImport ..
  | hostArity .. => true
  | underflow | noResult | divideByZero | overflow | exhausted | outOfBounds _
  | hostFailed _ => false

theorem Trap.message_ne_index {t : Trap} (h : t.isStructural = false) (k : Nat) :
    t.message ≠ "unknown function index " ++ toString k := by
  intro he
  have hfirst : t.message.toList.head? = some 'u' := by
    rw [he]
    simp
  cases t with
  | unknownLocal | branchOutOfRange | unknownFunction | unknownImport | hostArity => cases h
  | underflow | noResult | divideByZero | overflow | exhausted =>
    revert hfirst
    decide
  | outOfBounds address =>
    change ("out of bounds memory access at address " ++ Text.decimal address).toList.head? =
      _ at hfirst
    rw [String.toList_append] at hfirst
    cases hfirst
  | hostFailed reason =>
    change ("host output failed: " ++ reason).toList.head? = _ at hfirst
    rw [String.toList_append] at hfirst
    cases hfirst

namespace Module

/-- What loading and linking a module make sure of. -/
structure Checked (m : Module) : Prop where
  fits : ∀ f ∈ m.functions,
    Instr.FitsAll (signatureIn m.functions) (f.params ++ f.locals) 1 f.body
  links : ∀ f ∈ m.functions, ∀ module field, f.imported = some (module, field) →
    ∃ function, HostFunction.resolve? module field = some function ∧
      function.arity = f.params.length

theorem resolve?_of_link {fs : List Function} (h : link fs = .ok ()) {f : Function} (hf : f ∈ fs)
    {module field : String} (hi : f.imported = some (module, field)) :
    ∃ function, HostFunction.resolve? module field = some function ∧
      function.arity = f.params.length := by
  induction fs with
  | nil => cases hf
  | cons g gs ih =>
    rw [link] at h
    split at h
    · rename_i hown
      rcases List.mem_cons.mp hf with rfl | hf
      · rw [hown] at hi
        cases hi
      · exact ih h hf
    · rename_i module' field' himported
      split at h
      · cases h
      · rename_i function hresolve
        split at h
        · rename_i hsignature
          rcases List.mem_cons.mp hf with rfl | hf
          · rw [himported] at hi
            cases hi
            exact ⟨function, hresolve, hsignature.1⟩
          · exact ih h hf
        · cases h

/-- Loading and linking have made sure that code refers only to what is there. -/
theorem checked_of_prepare {text : String} {m : Module} {entry : Function}
    (h : prepare text = .ok (m, entry)) : m.Checked := by
  obtain ⟨m', hload, h⟩ := bind_eq_ok.mp h
  obtain ⟨⟨⟩, hlink, h⟩ := bind_eq_ok.mp h
  split at h
  · cases h
    exact ⟨load_fits hload, fun f hf module field hi => resolve?_of_link hlink hf hi⟩
  · cases h

/-- A function found by its name stands at the place of the name. -/
theorem index?_of_function? {m : Module} {name : String} {f : Function}
    (h : m.function? name = some f) :
    ∃ k, m.index? name = some k ∧ m.functions[k]? = some f := by
  obtain ⟨hf, k, hk, rfl, hbefore⟩ := List.find?_eq_some_iff_getElem.mp h
  refine ⟨k, List.findIdx?_eq_some_iff_getElem.mpr ⟨hk, hf, ?_⟩, List.getElem?_eq_getElem hk⟩
  intro j hj
  simpa using hbefore j hj

end Module

theorem Host.call_of_arity {host : Host} {function : HostFunction} {args : List Word} {t : Trap}
    (ha : args.length = function.arity) (h : host.call function args = .error t) :
    t.isStructural = false := by
  have hcall : ∃ c, HostCall.of? function args = some c := by
    cases function with
    | printGlobal =>
      obtain ⟨slot, value, rfl⟩ := List.length_eq_two.mp ha
      exact ⟨_, rfl⟩
    | print | printInt | printBool =>
      obtain ⟨value, rfl⟩ := List.length_eq_one_iff.mp ha
      exact ⟨_, rfl⟩
  obtain ⟨c, hc⟩ := hcall
  rcases Host.call_eq_error h with ⟨reason, rfl⟩ | ⟨hnone, _⟩
  · rfl
  · rw [hc] at hnone
    cases hnone

theorem NumOp.apply_error {op : NumOp} {left right : Word} {t : Trap}
    (h : op.apply left right = .error t) : t.isStructural = false := by
  cases op with
  | div =>
    simp only [apply] at h
    split at h
    · cases h
      rfl
    · split at h <;> cases h
      rfl
  | rem =>
    simp only [apply] at h
    split at h <;> cases h
    rfl
  | add | sub | mul | lt | le | gt | ge | eq | ne => cases h

namespace Machine

open Instr

/-- The code of each label refers to what is there, with the labels further out around it; so does
the code that a loop starts again. -/
def LabelsFit (m : Module) (names : List String) : List Label → Prop
  | [] => True
  | l :: outer =>
    FitsAll (Module.signatureIn m.functions) names (outer.length + 1) l.code ∧
    (∀ code, l.kind = .loop code →
      FitsAll (Module.signatureIn m.functions) names (outer.length + 1) code) ∧
    LabelsFit m names outer

structure Frame.Checked (m : Module) (names : List String) (f : Frame) : Prop where
  locals : ∀ name ∈ names, f.locals.contains name = true
  labels : LabelsFit m names f.labels

structure State.Checked (m : Module) (limit : Nat) (s : State) : Prop where
  frames : ∀ f ∈ s.frame :: s.callers, ∃ names, f.Checked m names
  room : s.callers.length < limit

/-- The run goes on in order, or has not ended in a trap of code that refers to nothing. -/
def Progress.Checked (m : Module) (limit : Nat) : Progress → Prop
  | running s => s.Checked m limit
  | done o => ∀ t, o.result = .error t → t.isStructural = false

variable {m : Module} {limit : Nat} {names : List String}

theorem LabelsFit.drop {labels : List Label} (h : LabelsFit m names labels) (n : Nat) :
    LabelsFit m names (labels.drop n) := by
  induction n generalizing labels with
  | zero => exact h
  | succ n ih =>
    cases labels with
    | nil => exact h
    | cons l outer => exact ih h.2.2

/-- A branch below the number of labels leaves the function or comes to checked code. -/
theorem Frame.Checked.branch {f : Frame} (h : f.Checked m names) {depth : Nat}
    (hd : depth < f.labels.length) :
    f.branch depth = .ok none ∨ ∃ g, f.branch depth = .ok (some g) ∧ g.Checked m names := by
  have htarget := h.labels.drop depth
  unfold Frame.branch
  split
  · rename_i hdrop
    rw [List.drop_eq_nil_iff] at hdrop
    exact absurd hd (Nat.not_lt.mpr hdrop)
  · rename_i l outer hdrop
    rw [hdrop] at htarget
    obtain ⟨-, hagain, houter⟩ := htarget
    cases hkind : l.kind with
    | body => exact .inl rfl
    | block => exact .inr ⟨_, rfl, h.locals, houter⟩
    | loop code => exact .inr ⟨_, rfl, h.locals, hagain code hkind, hkind ▸ hagain, houter⟩

/-- The frame of a call has the variables of its function. -/
theorem Frame.ofCall_checked (hm : m.Checked) {f : Function} (hf : f ∈ m.functions)
    {args : List Word} (ha : args.length = f.params.length) :
    (Frame.ofCall f args).Checked m (f.params ++ f.locals) where
  locals name hname := by
    have hparams : (f.params.zip args).map (·.1) = f.params :=
      List.map_fst_zip (Nat.le_of_eq ha.symm)
    have hlocals : (f.locals.map fun name => (name, (0 : Word))).map (·.1) = f.locals := by
      rw [List.map_map]
      exact List.map_id _
    rw [Frame.ofCall, Table.contains_ofList, List.map_append, hparams, hlocals]
    simpa using hname
  labels := by
    refine ⟨hm.fits f hf, ?_, trivial⟩
    intro code hcode
    cases hcode

section Steps

variable {memory : Memory} {host : Host} {f : Frame} {callers : List Frame}

theorem checked_running (hf : f.Checked m names) (hc : ∀ g ∈ callers, ∃ names, g.Checked m names)
    (hr : callers.length < limit) :
    (Progress.running ⟨memory, host, f, callers⟩).Checked m limit :=
  ⟨List.forall_mem_cons.mpr ⟨⟨names, hf⟩, hc⟩, hr⟩

theorem checked_done {t : Trap} (ht : t.isStructural = false) :
    (Progress.done ⟨.error t, memory, host⟩).Checked m limit := by
  intro u hu
  cases hu
  exact ht

theorem leave_checked (hc : ∀ g ∈ callers, ∃ names, g.Checked m names)
    (hr : callers.length < limit) : (leave memory host f callers).Checked m limit := by
  have hback (r : Option Word) {caller : Frame} {outer : List Frame}
      (he : callers = caller :: outer) : (Progress.running ⟨memory, host,
        { caller with stack := r.toList ++ caller.stack }, outer⟩).Checked m limit := by
    subst he
    obtain ⟨⟨names, hcaller⟩, houter⟩ := List.forall_mem_cons.mp hc
    exact checked_running ⟨hcaller.locals, hcaller.labels⟩ houter (Nat.lt_of_succ_lt hr)
  have hend (r : Option Word) : (Progress.done ⟨.ok r, memory, host⟩).Checked m limit := by
    intro t ht
    cases ht
  unfold leave
  by_cases hresults : f.results = 0
  · simp only [hresults, ↓reduceIte]
    cases callers with
    | nil => exact hend none
    | cons caller outer => exact hback none rfl
  · simp only [hresults, ↓reduceIte]
    cases f.stack with
    | nil => exact checked_done rfl
    | cons top stack =>
      cases callers with
      | nil => exact hend (some top)
      | cons caller outer => exact hback (some top) rfl

theorem jump_checked (hf : f.Checked m names) (hc : ∀ g ∈ callers, ∃ names, g.Checked m names)
    (hr : callers.length < limit) {depth : Nat} (hd : depth < f.labels.length) :
    (jump memory host f callers depth).Checked m limit := by
  unfold jump
  rcases hf.branch hd with hleave | ⟨g, hbranch, hg⟩
  · rw [hleave]
    exact leave_checked hc hr
  · rw [hbranch]
    exact checked_running hg hc hr

/-- A call finds its function with the host or in the module. -/
theorem invoke_checked (hm : m.Checked) (hf : f.Checked m names)
    (hc : ∀ g ∈ callers, ∃ names, g.Checked m names) (hr : callers.length < limit)
    {callee : Function} (hcallee : callee ∈ m.functions) {args : List Word}
    (ha : args.length = callee.params.length) :
    (invoke limit memory host f callers callee args).Checked m limit := by
  unfold invoke
  cases himported : callee.imported with
  | some origin =>
    obtain ⟨module, field⟩ := origin
    obtain ⟨function, hresolve, harity⟩ := hm.links callee hcallee module field himported
    simp only [hresolve]
    cases hcall : host.call function args with
    | ok host => exact checked_running hf hc hr
    | error t => exact checked_done (Host.call_of_arity (ha.trans harity.symm) hcall)
  | none =>
    dsimp only
    split
    · rename_i hroom
      exact checked_running (Frame.ofCall_checked hm hcallee ha)
        (List.forall_mem_cons.mpr ⟨⟨names, hf⟩, hc⟩) hroom
    · exact checked_done rfl

/-- An instruction that refers to what is there finds it. -/
theorem Acts.checked (hm : m.Checked) (hf : f.Checked m names)
    (hc : ∀ g ∈ callers, ∃ names, g.Checked m names) (hr : callers.length < limit) {i : Instr}
    (hi : i.Fits (Module.signatureIn m.functions) names f.labels.length) {p : Progress}
    (h : Acts m limit memory host f callers i p) : p.Checked m limit := by
  -- most instructions change nothing but the stack, of which the invariant says nothing
  have hany (stack : List Word) : Frame.Checked m names { f with stack } := ⟨hf.locals, hf.labels⟩
  cases h with
  | short | outside => exact checked_done rfl
  | undefined herror => exact checked_done (NumOp.apply_error herror)
  | @noLocal name he hnone =>
    subst he
    have hfound : (f.locals.get? name).isSome = true := hf.locals name hi
    rw [hnone] at hfound
    cases hfound
  | @noFunction name _ _ he hnone =>
    subst he
    obtain ⟨callee, hcallee, _⟩ := Option.map_eq_some_iff.mp hi
    have hfound : m.function? name = some callee := hcallee
    rw [hnone] at hfound
    cases hfound
  | computes | stores => exact checked_running (hany _) hc hr
  | sets =>
    refine checked_running ⟨?_, hf.labels⟩ hc hr
    intro other hother
    rw [Table.contains_insert, hf.locals other hother, Bool.or_true]
  | @calls name params _ callee he hcallee hparams =>
    subst he
    obtain ⟨found, hfound, hsignature⟩ := Option.map_eq_some_iff.mp hi
    cases hcallee.symm.trans hfound
    cases hsignature
    refine invoke_checked hm (hany _) hc hr (List.mem_of_find?_eq_some hfound) ?_
    rw [List.length_reverse, List.length_take]
    omega
  | returns => exact leave_checked hc hr
  | branches he =>
    rcases he with rfl | rfl <;> exact jump_checked (hany _) hc hr hi.1
  | @enters kind body he =>
    have hbody : FitsAll (Module.signatureIn m.functions) names (f.labels.length + 1) body := by
      rcases he with ⟨rfl, _⟩ | ⟨rfl, _⟩ <;> exact hi
    refine checked_running ⟨hf.locals, hbody, ?_, hf.labels⟩ hc hr
    intro code hcode
    rcases he with ⟨_, rfl⟩ | ⟨_, rfl⟩
    · cases hcode
    · cases hcode
      exact hbody

end Steps

/-- A step keeps the variables and the labels that code was checked with, and keeps the frames below
the limit. -/
theorem step_checked (hm : m.Checked) {s : State} (h : s.Checked m limit) :
    (step m limit s).Checked m limit := by
  obtain ⟨memory, host, ⟨results, locals, stack, labels⟩, callers⟩ := s
  obtain ⟨hframes, hr⟩ := h
  obtain ⟨⟨names, hlocals, hlabels⟩, hc⟩ := List.forall_mem_cons.mp hframes
  cases labels with
  | nil => exact leave_checked hc hr
  | cons l outer =>
    obtain ⟨kind, code, height⟩ := l
    obtain ⟨hcode, hagain, houter⟩ := hlabels
    cases code with
    | nil =>
      cases kind with
      | body => exact leave_checked hc hr
      | block | loop => exact checked_running ⟨hlocals, houter⟩ hc hr
    | cons i code =>
      have hframe : Frame.Checked m names ⟨results, locals, stack, ⟨kind, code, height⟩ :: outer⟩ :=
        ⟨hlocals, hcode.2, hagain, houter⟩
      exact (exec_acts m limit memory host _ callers _).checked hm hframe hc hr hcode.1

theorem after_checked (hm : m.Checked) {p : Progress} (h : p.Checked m limit) (n : Nat) :
    (p.after m limit n).Checked m limit := by
  induction n generalizing p with
  | zero => rwa [Progress.after_zero]
  | succ n ih =>
    cases p with
    | done o => exact h
    | running s =>
      rw [Progress.after_succ]
      exact ih (step_checked hm h)

/-- An entry without parameters is no function of the host, since these all take some. -/
theorem enter_checked (hm : m.Checked) {entry : Function} (hentry : entry ∈ m.functions)
    (hparams : entry.params = []) (memory : Memory) (host : Host) :
    (enter limit memory host entry).Checked m limit := by
  unfold enter
  cases himported : entry.imported with
  | some origin =>
    obtain ⟨function, -, harity⟩ := hm.links entry hentry origin.1 origin.2 himported
    rw [hparams] at harity
    cases function <;> cases harity
  | none =>
    dsimp only
    split
    · rename_i hroom
      have hargs : ([] : List Word).length = entry.params.length := by rw [hparams]; rfl
      refine checked_running (Frame.ofCall_checked hm hentry hargs) ?_ hroom
      intro g hg
      cases hg
    · exact checked_done rfl

theorem State.Checked.next {s : State} (h : s.Checked m limit) {name : String}
    {params results : Nat} (hn : s.next? = some (.call name params results)) :
    ∃ f, m.function? name = some f := by
  obtain ⟨l, hl, hcode⟩ := Option.bind_eq_some_iff.mp hn
  obtain ⟨names, -, hlabels⟩ := h.frames s.frame List.mem_cons_self
  obtain ⟨outer, houter⟩ := List.head?_eq_some_iff.mp hl
  obtain ⟨rest, hrest⟩ := List.head?_eq_some_iff.mp hcode
  rw [houter] at hlabels
  have hfits := hlabels.1
  rw [hrest] at hfits
  obtain ⟨f, hf, -⟩ := Option.map_eq_some_iff.mp hfits.1
  exact ⟨f, hf⟩

/-- A module that loads and links, run from an entry without parameters, finds whatever its code
refers to. No run of it ends in a trap for a missing variable, function, import or label or for a
wrong number of arguments; at each step there are no more frames than the limit allows, and a
function that is called stands at the place of its name. -/
theorem prepared_runs_keep_references {text : String} {m : Module} {entry : Function}
    (hprepare : Module.prepare text = .ok (m, entry)) (hparams : entry.params = []) (limit : Nat)
    (memory : Memory) (host : Host) :
    (∀ steps o t, execute steps limit memory host text = .ended o → o.result = .error t →
      t.isStructural = false ∧ ∀ k : Nat, t.message ≠ "unknown function index " ++ toString k) ∧
    ∀ steps s, (enter limit memory host entry).after m limit steps = .running s →
      (s.frame :: s.callers).length ≤ limit ∧
      ∀ name params results, s.next? = some (.call name params results) →
        ∃ k f, m.index? name = some k ∧ m.functions[k]? = some f ∧ m.function? name = some f := by
  have hm := Module.checked_of_prepare hprepare
  have hrun (steps : Nat) : ((enter limit memory host entry).after m limit steps).Checked m limit :=
    after_checked hm (enter_checked hm (entry_mem_of_prepare hprepare) hparams memory host) steps
  constructor
  · intro steps o t ho ht
    have hdone := hrun steps
    rw [(execute_ended_iff hprepare).mp ho] at hdone
    have hstructural := hdone t ht
    exact ⟨hstructural, Trap.message_ne_index hstructural⟩
  · intro steps s hs
    have hrunning := hrun steps
    rw [hs] at hrunning
    refine ⟨hrunning.room, ?_⟩
    intro name params results hnext
    obtain ⟨f, hf⟩ := State.Checked.next hrunning hnext
    obtain ⟨k, hk, hplace⟩ := Module.index?_of_function? hf
    exact ⟨k, f, hk, hplace, hf⟩

/-- Branches out of a loop in a block, and calls until no frame is left. -/
theorem prepared_runs_keep_references_countdown :
    ∃ text m entry o, Module.prepare text = .ok (m, entry) ∧ entry.params = [] ∧
      execute 60 3 (.ofPages 1) .reliable text = .ended o ∧ o.result = .error .exhausted ∧
      Trap.exhausted.isStructural = false ∧
      ∀ steps s, (enter 3 (.ofPages 1) .reliable entry).after m 3 steps = .running s →
        (s.frame :: s.callers).length ≤ 3 := by
  have hclosed : ModuleText.Closed [countdown] [.const 2, .call "f" 1 1] := by
    refine ⟨by decide, by decide, ?_, ?_⟩
    · simp [FitsAll, Fits, ModuleText.signature?, ModuleText.imports, countdown]
    · simp [FitsAll, Fits, ModuleText.signature?, ModuleText.imports, countdown]
  have hprepare := Module.prepare_closed hclosed false
  generalize ModuleText.wrap _ _ _ = text at hprepare
  obtain ⟨htraps, hframes⟩ :=
    prepared_runs_keep_references hprepare rfl 3 (.ofPages 1) .reliable
  have hend : execute 60 3 (.ofPages 1) .reliable text =
      .ended ⟨.error .exhausted, .ofPages 1, .reliable⟩ :=
    (execute_ended_iff hprepare).mpr rfl
  exact ⟨text, _, _, _, hprepare, rfl, hend, rfl, (htraps 60 _ _ hend rfl).1,
    fun steps s hs => (hframes steps s hs).1⟩

end Machine

end StackScript
