import StackScript.Command

/-!
The interactive session.

Lines are collected into units: a line that ends in a colon opens a block, which an empty line
closes. Each unit runs in the session of the ones before.
-/

namespace StackScript

structure Repl where
  session : Session
  /-- The lines of a block that is still open. -/
  block : Option (List Char)

namespace Repl

def start : Repl := ⟨.start .reliable Machine.defaultLimit, none⟩

def greeting : String := versionText ++ "\nType 'exit' to quit.\n"

def prompt (r : Repl) : String := if r.block.isSome then "... " else ">>> "

/-- What a line leads to. -/
inductive Next where
  | ask (r : Repl)
  | evaluate (r : Repl) (unit : String)
  | stop

/-- Takes a whole unit. -/
def complete (r : Repl) (unit : List Char) : Next :=
  let r := { r with block := none }
  let word := Text.trim unit
  if word = "exit".toList ∨ word = "quit".toList then .stop
  else if word = [] then .ask r
  else .evaluate r (String.ofList unit)

/-- Takes a line, or the end of the input. -/
def feed (r : Repl) (line : Option String) : Next :=
  match r.block, line with
  | none, none => .stop
  | none, some line =>
    let unit := Text.trimEnd line.toList
    if unit.getLast? = some ':' then .ask { r with block := some unit } else r.complete unit
  | some unit, none => r.complete unit
  | some unit, some line =>
    if Text.trim line.toList = [] then r.complete unit
    else .ask { r with block := some (unit ++ '\n' :: Text.trimEnd line.toList) }

/-- The report on a unit, without what it printed. -/
def answer (unit : String) : Except Diagnostic Value → Report
  | .ok value => .ofValue value
  | .error d => .ofDiagnostic d unit shellName

/-- Runs a unit for at most `steps` steps. -/
def evaluate (r : Repl) (steps : Nat) (unit : String) : Option (Report × Repl) := do
  let (result, session) ← r.session.run steps unit
  let printed := Report.success session.host.output
  return (printed.andThen (answer unit result),
    { r with session := { session with host := session.host.cleared } })

def unreadable : Report := .failure s!"Failed to read input: {FileError.notText.message}\n"

/-- A whole conversation. A line that is no text ends it with a failure. -/
def converse (steps : Nat) (r : Repl) (said : Report) : List (Option String) → Option Report
  | [] =>
    let said := said.andThen (.success r.prompt)
    match r.feed none with
    | .stop => some said
    | .ask r => some (said.andThen (.success r.prompt))
    | .evaluate r unit => do
      let (report, r) ← r.evaluate steps unit
      return (said.andThen report).andThen (.success r.prompt)
  | none :: _ => some ((said.andThen (.success r.prompt)).andThen unreadable)
  | some line :: lines =>
    let said := said.andThen (.success r.prompt)
    match r.feed (some line) with
    | .stop => some said
    | .ask r => r.converse steps said lines
    | .evaluate r unit => do
      let (report, r) ← r.evaluate steps unit
      r.converse steps (said.andThen report) lines

end Repl

end StackScript
