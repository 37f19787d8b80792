import StackScript.Diagnostic
import StackScript.Program
import StackScript.Table

/-!
Scopes: what names mean, block by block.

A layer holds the declarations of one block; scopes are layers, the innermost first, and there is
always one. Variables and functions share their names: a name of a layer is looked up among its
variables first.
-/

namespace StackScript

structure Signature where
  params : List Ty
  result : Ty
  deriving DecidableEq, Repr

inductive Binding where
  | variable (type : Ty)
  | function (sig : Signature)
  deriving DecidableEq, Repr

def Binding.isFunction : Binding → Bool
  | .variable _ => false
  | .function _ => true

/-- What is left of an answer that comes with a state: the state, if nothing went wrong. -/
def settled {α : Type} (r : Except Diagnostic Unit × α) : Except Diagnostic α := r.1.map fun _ => r.2

structure Layer where
  vars : Table Ty
  funcs : Table Signature

namespace Layer

def empty : Layer := ⟨.empty, .empty⟩

def contains (l : Layer) (name : String) : Bool :=
  l.vars.contains name || l.funcs.contains name

def get? (l : Layer) (name : String) : Option Binding :=
  match l.vars.get? name with
  | some type => some (.variable type)
  | none => (l.funcs.get? name).map .function

def insert (l : Layer) (name : String) : Binding → Layer
  | .variable type => { l with vars := l.vars.insert name type }
  | .function sig => { l with funcs := l.funcs.insert name sig }

/-- Declares a name that is still free in the layer. The layer comes back with the answer. -/
def put (l : Layer) (name : String) (b : Binding) (at_ : Position) : Except Diagnostic Unit × Layer :=
  if l.contains name then (.error ⟨.duplicateDeclaration name, at_⟩, l) else (.ok (), l.insert name b)

def declareVariable (l : Layer) (name : String) (type : Ty) (at_ : Position) :
    Except Diagnostic Layer :=
  settled (l.put name (.variable type) at_)

def declareFunction (l : Layer) (name : String) (sig : Signature) (at_ : Position) :
    Except Diagnostic Layer :=
  settled (l.put name (.function sig) at_)

theorem settled_put (l : Layer) (name : String) (b : Binding) (at_ : Position) :
    settled (l.put name b at_) =
      if l.contains name then .error ⟨.duplicateDeclaration name, at_⟩ else .ok (l.insert name b) := by
  unfold put
  split <;> rfl

def overlayVariable (l : Layer) (e : String × Ty) : Layer :=
  ⟨l.vars.insert e.1 e.2, l.funcs.erase e.1⟩

def overlayFunction (l : Layer) (e : String × Signature) : Layer :=
  ⟨l.vars.erase e.1, l.funcs.insert e.1 e.2⟩

/-- Lays another layer over this one: its names replace those of the same name here. -/
def overlay (l top : Layer) : Layer :=
  top.funcs.entries.foldl overlayFunction
    (top.vars.entries.foldl overlayVariable l)

end Layer

structure Scopes where
  inner : Layer
  /-- The layers around it, innermost first. -/
  outer : List Layer

namespace Scopes

def empty : Scopes := ⟨.empty, []⟩

/-- A new block inside the declarations of earlier units. -/
def seeded (seed : Layer) : Scopes := ⟨.empty, [seed]⟩

def push (s : Scopes) (l : Layer) : Scopes := ⟨l, s.inner :: s.outer⟩

/-- Takes the innermost layer off, if it is not the only one. -/
def pop? (s : Scopes) : Option (Layer × Scopes) :=
  match s.outer with
  | [] => none
  | l :: ls => some (s.inner, ⟨l, ls⟩)

def layers (s : Scopes) : List Layer := s.inner :: s.outer

def lookup (s : Scopes) (name : String) : Option Binding := s.layers.findSome? (·.get? name)

/-- Looks a name up outside the innermost layer. -/
def lookupOuter (s : Scopes) (name : String) : Option Binding := s.outer.findSome? (·.get? name)

def typeOf? (s : Scopes) (name : String) : Option Ty :=
  match s.lookup name with
  | some (.variable type) => some type
  | _ => none

def signatureOf? (s : Scopes) (name : String) : Option Signature :=
  match s.lookup name with
  | some (.function sig) => some sig
  | _ => none

/-- Whether a name is a variable of the innermost layer. -/
def isLocal (s : Scopes) (name : String) : Bool := s.inner.vars.contains name

/-- All layers as one, inner declarations over outer ones. -/
def flatten (s : Scopes) : Layer := s.layers.foldr (fun l flat => flat.overlay l) .empty

/-- A unit may declare a variable of an earlier unit again, as a variable; a function name stays
taken. -/
def conflictsOuter (s : Scopes) (name : String) (asFunction : Bool) : Bool :=
  match s.lookupOuter name with
  | some (.function _) => true
  | some (.variable _) => asFunction
  | none => false

/-- Declares a name in the innermost layer. If that is the layer of a unit, the declarations of earlier
units are looked at too. -/
def put (s : Scopes) (ofUnit : Bool) (name : String) (b : Binding) (at_ : Position) :
    Except Diagnostic Unit × Scopes :=
  if ofUnit && s.conflictsOuter name b.isFunction then
    (.error ⟨.duplicateDeclaration name, at_⟩, s)
  else
    let (answer, inner) := s.inner.put name b at_
    (answer, { s with inner })

def declareVariable (s : Scopes) (name : String) (type : Ty) (at_ : Position) :
    Except Diagnostic Scopes :=
  settled (s.put true name (.variable type) at_)

def declareFunction (s : Scopes) (name : String) (sig : Signature) (at_ : Position) :
    Except Diagnostic Scopes :=
  settled (s.put true name (.function sig) at_)

theorem settled_put (s : Scopes) (ofUnit : Bool) (name : String) (b : Binding) (at_ : Position) :
    settled (s.put ofUnit name b at_) =
      if ofUnit && s.conflictsOuter name b.isFunction then .error ⟨.duplicateDeclaration name, at_⟩
      else do return { s with inner := ← settled (s.inner.put name b at_) } := by
  unfold put
  split
  · rfl
  · unfold settled
    rcases s.inner.put name b at_ with ⟨_ | _, _⟩ <;> rfl

end Scopes

end StackScript
