import StackScript.Tree

/-!
Walking a tree sibling by sibling.

A cursor stands on a node or behind the last of its siblings. Behind the last one it still knows
the parent, whose end is where a missing node would have been.
-/

namespace StackScript

namespace Node

/-- The complaint about a node, or a place, that holds nothing of the wanted sort. -/
def unsupported (what : String) (span : Span) (source : String) : Diagnostic :=
  ⟨.unsupportedSyntax what span.start span.stop (span.text source), span.first⟩

/-- The complaint about a child that is not there. -/
def missing (what : String) (parent : Span) (source : String) : Diagnostic :=
  unsupported what parent.atEnd source

end Node

structure Tree.Cursor where
  parent : Option Node
  siblings : List Node

namespace Tree.Cursor

def ofRoot (root : Node) : Cursor := ⟨none, [root]⟩

def node? (c : Cursor) : Option Node := c.siblings.head?

def atEnd (c : Cursor) : Bool := c.siblings.isEmpty

def firstChild (c : Cursor) : Cursor :=
  match c.node? with
  | some n => ⟨some n, n.children⟩
  | none => ⟨c.parent, []⟩

def nextSibling (c : Cursor) : Cursor := { c with siblings := c.siblings.tail }

def span (c : Cursor) : Span :=
  match c.node?, c.parent with
  | some n, _ => n.span
  | none, some p => p.span.atEnd
  | none, none => .nowhere

def text (c : Cursor) (source : String) : String :=
  match c.node? with
  | some n => n.text source
  | none => ""

def expect (c : Cursor) (what source : String) : Except Diagnostic Node :=
  match c.node? with
  | some n => .ok n
  | none => .error (Node.unsupported what c.span source)

end Tree.Cursor

end StackScript
