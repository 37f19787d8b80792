/-!
Tables: finite maps from names, kept as lists of entries in which the first of a name counts.
-/

namespace StackScript

structure Table (α : Type) where
  entries : List (String × α)

namespace Table

variable {α : Type}

def empty : Table α := ⟨[]⟩

def get? (t : Table α) (name : String) : Option α := t.entries.lookup name

def contains (t : Table α) (name : String) : Bool := (t.get? name).isSome

def erase (t : Table α) (name : String) : Table α :=
  ⟨t.entries.filter fun e => e.1 != name⟩

/-- Puts an entry in place of any other of its name. -/
def insert (t : Table α) (name : String) (value : α) : Table α :=
  ⟨(name, value) :: (t.erase name).entries⟩

def ofList (entries : List (String × α)) : Table α :=
  entries.foldl (fun t e => t.insert e.1 e.2) empty

@[simp] theorem get?_empty (name : String) : (empty : Table α).get? name = none := rfl

theorem lookup_filter_ne {name other : String} (h : other ≠ name) (es : List (String × α)) :
    (es.filter fun e => e.1 != name).lookup other = es.lookup other := by
  induction es with
  | nil => rfl
  | cons e es ih =>
    obtain ⟨n, a⟩ := e
    by_cases hn : n = name
    · subst hn
      simp [ih, List.lookup_cons, beq_false_of_ne h]
    · simp [hn, List.lookup_cons, ih]

theorem lookup_filter_self (name : String) (es : List (String × α)) :
    (es.filter fun e => e.1 != name).lookup name = none := by
  induction es with
  | nil => rfl
  | cons e es ih =>
    obtain ⟨n, a⟩ := e
    by_cases hn : n = name
    · simp [hn, ih]
    · simp [hn, List.lookup_cons, ih, beq_false_of_ne (Ne.symm hn)]

@[simp] theorem get?_erase (t : Table α) (name other : String) :
    (t.erase name).get? other = if other = name then none else t.get? other := by
  by_cases h : other = name
  · subst h
    simp [get?, erase, lookup_filter_self]
  · simp [get?, erase, lookup_filter_ne h, h]

@[simp] theorem get?_insert (t : Table α) (name other : String) (value : α) :
    (t.insert name value).get? other = if other = name then some value else t.get? other := by
  by_cases h : other = name
  · subst h
    simp [get?, insert]
  · have := get?_erase t name other
    simp only [get?, insert, List.lookup_cons, beq_false_of_ne h] at this ⊢
    simpa [h] using this

end Table

end StackScript
