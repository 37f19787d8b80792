import StackScript.Command.Path
import StackScript.Session

/-!
The command line.

A command on a file reads it, does one thing with it and reports: an exit code and what goes to
either output. Reading and writing are given from outside, so that a report is a plain value.
-/

namespace StackScript

def versionText : String := "pywat 0.1.0"

inductive Command where
  | build (input : String) (output : Option String)
  | check (input : String)
  | run (input : String)
  | tokens (input : String)
  | tree (input : String)
  | repl
  | version
  deriving DecidableEq, Repr

/-- Why a file cannot be read or written. -/
inductive FileError where
  | notFound
  | isFolder
  | notFolder
  | nameTooLong
  | notText
  | other (message : String)

def FileError.message : FileError → String
  | notFound => "No such file or directory (os error 2)"
  | isFolder => "Is a directory (os error 21)"
  | notFolder => "Not a directory (os error 20)"
  | nameTooLong => "File name too long (os error 36)"
  | notText => "stream did not contain valid UTF-8"
  | other message => message

/-- What a command leaves behind. -/
structure Report where
  code : Nat
  out : String
  err : String

namespace Report

def success (out : String) : Report := ⟨0, out, ""⟩

def failure (err : String) : Report := ⟨1, "", err⟩

/-- Puts a report behind another one; the later one decides the code. -/
def andThen (a b : Report) : Report := ⟨b.code, a.out ++ b.out, a.err ++ b.err⟩

/-- A file that could not be read. -/
def unread (path : String) (e : FileError) : Report :=
  failure s!"Failed to read {path}: {e.message}\n"

/-- A diagnostic in full, then in one line. -/
def ofDiagnostic (d : Diagnostic) (source file : String) : Report :=
  failure (d.render source file ++ d.summary ++ "\n")

/-- A value is printed unless there is none. -/
def ofValue : Value → Report
  | .none => success ""
  | value => success (value.text ++ "\n")

end Report

/-- The text of a file, and the name reports give it. -/
structure SourceFile where
  name : String
  text : String

namespace SourceFile

def report (f : SourceFile) (d : Diagnostic) : Report := .ofDiagnostic d f.text f.name

/-- A result, or the report of what was wrong. -/
def attempt {α : Type} (f : SourceFile) (r : Except Diagnostic α) : Except Report α :=
  match r with
  | .ok a => .ok a
  | .error d => .error (f.report d)

def tokenLine (t : Token) : String :=
  Text.padLeft ' ' 5 (toString t.span.start) ++ "  " ++ Text.padRight ' ' 14 t.kind.label ++ " " ++
    Text.quoted t.value ++ "\n"

def tokens (f : SourceFile) : Except Report Report := do
  let tokens ← f.attempt (Token.scan f.text f.name)
  return .success (String.join (tokens.map tokenLine))

def tree (f : SourceFile) : Except Report Report := do
  let stream ← f.attempt (Tree.streamOf f.text f.name)
  let tree ← f.attempt (Tree.ofStream stream).1
  return .success (tree.outline f.text)

def check (f : SourceFile) : Except Report Report := do
  let p ← f.attempt (Program.parse f.text f.name)
  let typing ← f.attempt p.typeAlone
  return .success ((p.valueType typing).label ++ "\n")

def moduleText (f : SourceFile) : Except Report String := do
  return (← f.attempt (Globals.empty.compile f.text f.name)).text

/-- Loads the file as the first unit of a session. -/
def begin (f : SourceFile) : Except Report Session.Started :=
  f.attempt ((Session.start .reliable Machine.defaultLimit).begin f.text f.name)

/-- The report on a run that has ended, without what it printed. -/
def ending (f : SourceFile) (compiled : Compiled) (o : Machine.Outcome) : Report :=
  match o.result with
  | .ok raw => .ofValue (.ofWord raw compiled.type)
  | .error t => f.report t.diagnostic

/-- Runs the file for at most `steps` steps. -/
def run (f : SourceFile) (steps : Nat) : Except Report Report := do
  let u := (← f.begin).advance Machine.defaultLimit steps
  match u.progress with
  | .done o => return (Report.success o.host.output).andThen (f.ending u.compiled o)
  | .running s => .error ⟨1, s.host.output, ""⟩

end SourceFile

namespace Command

/-- Whether an argument is an option; a single dash is a path. -/
def isOption (arg : String) : Bool :=
  match arg.toList with
  | '-' :: _ :: _ => true
  | _ => false

/-- The path in an output option that carries it: after an equals sign, or right behind the short
form. -/
def attachedOutput? (arg : String) : Option String :=
  let path := match arg.toList with
    | '-' :: '-' :: 'o' :: 'u' :: 't' :: 'p' :: 'u' :: 't' :: '=' :: path => path
    | '-' :: 'o' :: '=' :: path => path
    | '-' :: 'o' :: path => path
    | _ => []
  if path.isEmpty then none else some (String.ofList path)

/-- The output option of a build and its file, in any order. -/
def buildOf : Option String → Option String → List String → Option Command
  | some input, output, [] => some (.build input output)
  | none, _, [] => none
  | input, none, "-o" :: path :: args =>
    if isOption path then none else buildOf input (some path) args
  | input, none, "--output" :: path :: args =>
    if isOption path then none else buildOf input (some path) args
  | input, output, arg :: args =>
    match output, attachedOutput? arg, input with
    | none, some path, _ => buildOf input (some path) args
    | _, _, none => if isOption arg then none else buildOf (some arg) output args
    | _, _, some _ => none

def ofArgs? : List String → Option Command
  | ["--version"] | ["-V"] => some .version
  | ["repl"] => some .repl
  | ["check", input] => some (.check input)
  | ["run", input] => some (.run input)
  | ["tokens", input] => some (.tokens input)
  | ["tree", input] => some (.tree input)
  | "build" :: args => buildOf none none args
  | _ => none

/-- How files are read and written. -/
structure Files (m : Type → Type) where
  read : String → m (Except FileError String)
  write : String → String → m (Except FileError Unit)

variable {m : Type → Type} [Monad m]

/-- Reads a file and does something with it. -/
def onFile (files : Files m) (path : String) (act : SourceFile → Except Report Report) :
    m Report := do
  match ← files.read path with
  | .error e => return .unread path e
  | .ok text =>
    match act ⟨Path.fileName path, text⟩ with
    | .ok r | .error r => return r

/-- Compiles a file into a module file, beside it unless another place is given. -/
def performBuild (files : Files m) (input : String) (output : Option String) : m Report := do
  match ← files.read input with
  | .error e => return .unread input e
  | .ok text =>
    match SourceFile.moduleText ⟨Path.fileName input, text⟩ with
    | .error r => return r
    | .ok moduleText =>
      let path := output.getD (Path.withExtension input "wat")
      match ← files.write path moduleText with
      | .error e => return .failure s!"Failed to write {path}: {e.message}\n"
      | .ok () => return .success s!"Wrote {path}\n"

end Command

end StackScript
