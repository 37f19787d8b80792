import StackScript.Tree

/-!
Reading a token list from the front.

A reader takes a stream to a reply: a value, a failure, or `endless` for a reading that would take
more steps than it was given. The stream remembers its last token, because reading past the end
shows that token again and again.
-/

namespace StackScript.Tree

structure Stream where
  rest : List Token
  last : Token

namespace Stream

/-- A stream over a list of tokens, if it has one. -/
def ofTokens? (tokens : List Token) : Option Stream :=
  tokens.getLast?.map fun last => ⟨tokens, last⟩

def current (s : Stream) : Token := s.rest.headD s.last

def kind (s : Stream) : Token.Kind := s.current.kind

/-- The kind of the token after the current one. -/
def nextKind (s : Stream) : Token.Kind :=
  match s.rest with
  | _ :: next :: _ => next.kind
  | _ => .eof

def advance (s : Stream) : Stream := { s with rest := s.rest.tail }

/-- Whether a token is left that does not mark the end. -/
def more (s : Stream) : Bool := !s.rest.isEmpty && s.kind != .eof

/-- The complaint about a current token that cannot stand there. -/
def unexpected (s : Stream) : Diagnostic :=
  ⟨.unexpectedToken s.current.value, s.current.span.first⟩

def unexpectedWith (s : Stream) (message : String) : Diagnostic :=
  ⟨.unexpectedTokenDetailed s.current.value message, s.current.span.first⟩

end Stream

inductive Reply (α : Type) where
  | ok (value : α) (rest : Stream)
  | failed (why : Diagnostic) (rest : Stream)
  | endless

def Reader (α : Type) : Type := Stream → Reply α

namespace Reader

protected def pure {α : Type} (a : α) : Reader α := fun s => .ok a s

protected def bind {α β : Type} (r : Reader α) (f : α → Reader β) : Reader β := fun s =>
  match r s with
  | .ok a s => f a s
  | .failed d s => .failed d s
  | .endless => .endless

instance : Monad Reader where
  pure := Reader.pure
  bind := Reader.bind

def endless {α : Type} : Reader α := fun _ => .endless

def fail {α : Type} (why : Stream → Diagnostic) : Reader α := fun s => .failed (why s) s

/-- The kind of the current token, which stays. -/
def kind : Reader Token.Kind := fun s => .ok s.kind s

def nextKind : Reader Token.Kind := fun s => .ok s.nextKind s

def more : Reader Bool := fun s => .ok s.more s

def take : Reader Token := fun s => .ok s.current s.advance

/-- Takes a token of this kind. -/
def expect (kind : Token.Kind) : Reader Token := fun s =>
  if s.kind = kind then .ok s.current s.advance else .failed s.unexpected s

def takeLeaf (node : Node.Kind) : Reader Node := do return .leaf node (← take)

def expectLeaf (kind : Token.Kind) (node : Node.Kind) : Reader Node := do
  return .leaf node (← expect kind)

end Reader

end StackScript.Tree
