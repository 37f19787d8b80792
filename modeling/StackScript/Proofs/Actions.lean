import StackScript.Machine

namespace StackScript.Machine

/-- What an instruction can do in a frame that is already past it. -/
inductive Acts (m : Module) (limit : Nat) (memory : Memory) (host : Host) (f : Frame)
    (callers : List Frame) (i : Instr) : Progress → Prop where
  /-- It finds too few words. -/
  | short : f.stack.length < i.pops →
    Acts m limit memory host f callers i (.done ⟨.error .underflow, memory, host⟩)
  | undefined {op : NumOp} {left right : Word} {t : Trap} : op.apply left right = .error t →
    Acts m limit memory host f callers i (.done ⟨.error t, memory, host⟩)
  | outside {address : Word} :
    Acts m limit memory host f callers i (.done ⟨.error (.outOfBounds address), memory, host⟩)
  | noLocal {name : String} : i = .localGet name → f.locals.get? name = none →
    Acts m limit memory host f callers i (.done ⟨.error (.unknownLocal name), memory, host⟩)
  | noFunction {name : String} {params results : Nat} : i = .call name params results →
    m.function? name = none →
    Acts m limit memory host f callers i (.done ⟨.error (.unknownFunction name), memory, host⟩)
  /-- It works on the stack alone. -/
  | computes (taken left : List Word) {stack : List Word} : f.stack = taken ++ stack →
    taken.length = i.pops → left.length = i.pushes →
    Acts m limit memory host f callers i
      (.running ⟨memory, host, { f with stack := left ++ stack }, callers⟩)
  | stores {value address : Word} {stack : List Word} {memory' : Memory} : i = .store →
    f.stack = value :: address :: stack → memory.store? address value = some memory' →
    Acts m limit memory host f callers i (.running ⟨memory', host, { f with stack }, callers⟩)
  | sets {name : String} {value : Word} {stack : List Word} : i = .localSet name →
    f.stack = value :: stack →
    Acts m limit memory host f callers i (.running ⟨memory, host,
      { f with stack, locals := f.locals.insert name value }, callers⟩)
  | calls {name : String} {params results : Nat} {callee : Function} :
    i = .call name params results → m.function? name = some callee → params ≤ f.stack.length →
    Acts m limit memory host f callers i
      (invoke limit memory host { f with stack := f.stack.drop params } callers callee
        (f.stack.take params).reverse)
  | returns : i = .ret → Acts m limit memory host f callers i (leave memory host f callers)
  /-- It branches, with the condition off the stack. -/
  | branches {depth : Nat} {stack : List Word} : i = .br depth ∨ i = .brIf depth →
    Acts m limit memory host f callers i (jump memory host { f with stack } callers depth)
  | enters {kind : LabelKind} {body : List Instr} :
    i = .block body ∧ kind = .block ∨ i = .loop body ∧ kind = .loop body →
    Acts m limit memory host f callers i (.running ⟨memory, host,
      { f with labels := ⟨kind, body, f.stack.length⟩ :: f.labels }, callers⟩)

theorem length_lt_two {stack : List Word} (h : ∀ top next rest, stack ≠ top :: next :: rest) :
    stack.length < 2 := by
  rcases stack with _ | ⟨top, _ | ⟨next, rest⟩⟩
  · exact Nat.zero_lt_two
  · exact Nat.one_lt_two
  · exact absurd rfl (h top next rest)

/-- Every instruction does one of these things. What all instructions keep is proved by cases on
this, without looking into `exec` again. -/
theorem exec_acts (m : Module) (limit : Nat) (memory : Memory) (host : Host) (f : Frame)
    (callers : List Frame) (i : Instr) :
    Acts m limit memory host f callers i (exec m limit memory host f callers i) := by
  cases i with
  | const value | address value => exact .computes [] [value] rfl rfl rfl
  | nop => exact .computes [] [] rfl rfl rfl
  | num op =>
    simp only [exec]
    split
    · rename_i right left stack hstack
      split
      · rename_i value _
        exact .computes [right, left] [value] hstack rfl rfl
      · rename_i herror
        exact .undefined herror
    · rename_i hshort
      exact .short (length_lt_two hshort)
  | load =>
    simp only [exec]
    split
    · rename_i address stack hstack
      split
      · rename_i value _
        exact .computes [address] [value] hstack rfl rfl
      · exact .outside
    · rename_i hstack
      exact .short (by simp [hstack, Instr.pops])
  | store =>
    simp only [exec]
    split
    · rename_i hstack
      split
      · rename_i hstored
        exact .stores rfl hstack hstored
      · exact .outside
    · rename_i hshort
      exact .short (length_lt_two hshort)
  | localGet name =>
    simp only [exec]
    split
    · rename_i value _
      exact .computes [] [value] rfl rfl rfl
    · rename_i hnone
      exact .noLocal rfl hnone
  | localSet name =>
    simp only [exec]
    split
    · rename_i hstack
      exact .sets rfl hstack
    · rename_i hstack
      exact .short (by simp [hstack, Instr.pops])
  | drop =>
    simp only [exec]
    split
    · rename_i value stack hstack
      exact .computes [value] [] hstack rfl rfl
    · rename_i hstack
      exact .short (by simp [hstack, Instr.pops])
  | call name params results =>
    simp only [exec]
    split
    · rename_i hnone
      exact .noFunction rfl hnone
    · rename_i callee hcallee
      split
      · rename_i hshort
        exact .short hshort
      · rename_i hparams
        exact .calls rfl hcallee (Nat.le_of_not_lt hparams)
  | ret => exact .returns rfl
  | br depth => exact .branches (.inl rfl)
  | brIf depth =>
    simp only [exec]
    split
    · rename_i value stack hstack
      split
      · exact .computes [value] [] hstack rfl rfl
      · exact .branches (.inr rfl)
    · rename_i hstack
      exact .short (by simp [hstack, Instr.pops])
  | block body => exact .enters (.inl ⟨rfl, rfl⟩)
  | loop body => exact .enters (.inr ⟨rfl, rfl⟩)

end StackScript.Machine
