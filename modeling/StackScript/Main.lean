import StackScript.Command.Repl

/-!
The program itself: files, standard input and output around the commands.
-/

namespace StackScript

def fileError : IO.Error → FileError
  | .noFileOrDirectory .. => .notFound
  | .inappropriateType _ 21 _ => .isFolder
  | .inappropriateType _ 20 _ => .notFolder
  | .invalidArgument _ 36 _ => .nameTooLong
  | e => .other (toString e)

def readText (path : String) : IO (Except FileError String) := do
  try
    let handle ← IO.FS.Handle.mk path .read
    match String.fromUTF8? (← handle.readBinToEnd) with
    | some text => return .ok text
    | none => return .error .notText
  catch e => return .error (fileError e)

def writeText (path text : String) : IO (Except FileError Unit) := do
  try
    IO.FS.writeFile path text
    return .ok ()
  catch e => return .error (fileError e)

def files : Command.Files IO := ⟨readText, writeText⟩

def say (r : Report) : IO UInt32 := do
  IO.print r.out
  (← IO.getStdout).flush
  IO.eprint r.err
  return UInt32.ofNat r.code

/-- Steps between two looks at what a unit has printed. -/
def stride : Nat := 10000

/-- Runs a unit to its end, and prints what it prints as it goes. -/
partial def follow (limit : Nat) (u : Session.Started) : IO Machine.Outcome := do
  let u := u.advance limit stride
  match u.progress with
  | .done o =>
    IO.print o.host.output
    (← IO.getStdout).flush
    return { o with host := o.host.cleared }
  | .running s =>
    IO.print s.host.output
    (← IO.getStdout).flush
    follow limit { u with progress := .running { s with host := s.host.cleared } }

def runFile (path : String) : IO UInt32 := do
  match ← readText path with
  | .error e => say (.unread path e)
  | .ok text =>
    let f : SourceFile := ⟨Path.fileName path, text⟩
    match f.begin with
    | .error r => say r
    | .ok u => say (f.ending u.compiled (← follow Machine.defaultLimit u))

/-- Runs one unit of an interactive session. -/
def answerUnit (r : Repl) (unit : String) : IO Repl := do
  match r.session.begin unit shellName with
  | .error d =>
    let _ ← say (Repl.answer unit (.error d))
    return r
  | .ok u =>
    let (result, session) := r.session.finish u.compiled (← follow r.session.limit u)
    let _ ← say (Repl.answer unit result)
    return { r with session }

def readLine : IO (Except Report (Option String)) := do
  try
    let line ← (← IO.getStdin).getLine
    return .ok (if line.isEmpty then none else some line)
  catch _ => return .error Repl.unreadable

partial def converse (r : Repl) : IO UInt32 := do
  let _ ← say (.success r.prompt)
  match ← readLine with
  | .error e => say e
  | .ok line =>
    match r.feed line with
    | .stop => return 0
    | .ask r => converse r
    | .evaluate r unit => converse (← answerUnit r unit)

def perform : Command → IO UInt32
  | .version => say (.success (versionText ++ "\n"))
  | .repl => do
    let _ ← say (.success Repl.greeting)
    converse .start
  | .build path output => do say (← Command.performBuild files path output)
  | .check path => do say (← Command.onFile files path SourceFile.check)
  | .tokens path => do say (← Command.onFile files path SourceFile.tokens)
  | .tree path => do say (← Command.onFile files path SourceFile.tree)
  | .run path => runFile path

def usage : String :=
  "Usage: pywat build FILE [-o OUT] | check FILE | run FILE | tokens FILE | tree FILE | repl\n"

end StackScript

def main (args : List String) : IO UInt32 := do
  match StackScript.Command.ofArgs? args with
  | some c => StackScript.perform c
  | none =>
    IO.eprint StackScript.usage
    return 2
