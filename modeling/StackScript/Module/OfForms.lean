import StackScript.Form.Read
import StackScript.Module
import StackScript.Table

/-!
Loading a module from its text.

The header of every function is read first, so that a call can name a function that comes later.
Operands may stand inside an instruction; they are then executed before it.
-/

namespace StackScript.Module

def fault {α : Type} (f : Fault) (offset : Nat) : Except LoadError α := .error ⟨f, offset⟩

def expectString (f : Form) (what : String) : Except LoadError String :=
  match f.string? with
  | some s => .ok s
  | none => fault (.expectedString what) f.offset

/-- How many word types stand here; nothing else may. -/
def wordTypes (what : String) : List Form → Except LoadError Nat
  | [] => .ok 0
  | f :: fs =>
    if f.atom? = some "i32" then (· + 1) <$> wordTypes what fs
    else fault (.onlyWords what) f.offset

/-- Names without one: their places from `first` on. -/
def placeNames (first count : Nat) : List String := (List.range' first count).map toString

/-- The names that a declaration adds behind the `count` ones before it. -/
def declaredNames (what : String) (count : Nat) : List Form → Except LoadError (List String)
  | [] => .ok []
  | f :: fs =>
    match f.name? with
    | some name => do
      let types ← wordTypes what fs
      if types = 1 then return [name] else fault (.oneTypeEach what) f.offset
    | none => do return placeNames count (← wordTypes what (f :: fs))

/-- Reads one form of a header; `none` if the body starts with it. -/
def headerForm (fn : Function) (f : Form) : Except LoadError (Option Function) :=
  match f with
  | .atom offset _ => fault .atomInFunction offset
  | .list _ fields =>
    match f.head?, fields with
    | some "import", [_, module, field] => do
      let module ← expectString module "import module"
      let field ← expectString field "import field"
      return some { fn with imported := some (module, field) }
    | some "export", [_, name] => do
      let name ← expectString name "export name"
      return some { fn with exported := some name }
    | some "param", _ :: fields => do
      let names ← declaredNames "params" fn.params.length fields
      return some { fn with params := fn.params ++ names }
    | some "result", _ :: fields => do
      let types ← wordTypes "results" fields
      return some { fn with results := fn.results + types }
    | some "local", _ :: fields => do
      let names ← declaredNames "locals" (fn.params.length + fn.locals.length) fields
      return some { fn with locals := fn.locals ++ names }
    | _, _ => return none

/-- Reads a header, and gives the forms of the body. -/
def headerForms (fn : Function) : List Form → Except LoadError (Function × List Form)
  | [] => .ok (fn, [])
  | f :: fs => do
    match ← headerForm fn f with
    | some fn => headerForms fn fs
    | none => return (fn, f :: fs)

/-- A function whose body is still to be read. -/
structure Pending where
  function : Function
  body : List Form
  offset : Nat

/-- Reads the forms of a function behind its first word. -/
def pendingOf (offset : Nat) (forms : List Form) : Except LoadError Pending := do
  let blank : Function := ⟨none, [], 0, [], [], none, none⟩
  let (name, forms) :=
    match forms with
    | [] => (none, [])
    | f :: fs =>
      match f.name? with
      | some name => (some name, fs)
      | none => (none, f :: fs)
  let (function, body) ← headerForms { blank with name } forms
  if 1 < function.results then fault .severalResults offset
  else if function.imported.isSome && !body.isEmpty then fault .importWithBody offset
  else return ⟨function, body, offset⟩

/-- The number of pages of a memory. -/
def pagesOf (f : Form) : Except LoadError Nat :=
  match f with
  | .list _ [kind, pages] =>
    if kind.atom? = some "memory" then
      match pages.atom?.bind Text.nat32? with
      | some n => .ok n
      | none => fault .memorySize pages.offset
    else fault .onlyMemoryImports f.offset
  | _ => fault .onlyMemoryImports f.offset

def memoryOf (offset : Nat) : List Form → Except LoadError MemoryImport
  | [_, module, field, memory] => do
    let pages ← pagesOf memory
    let module ← expectString module "import module"
    let field ← expectString field "import field"
    return ⟨module, field, pages⟩
  | _ => fault .malformedImport offset

/-- What the instructions of a function can refer to. -/
structure Surroundings where
  /-- Parameters and results of each named function. -/
  signatures : Table (Nat × Nat)
  locals : List String

def localOf (s : Surroundings) (f : Form) : Except LoadError String :=
  match f.name?.or f.atom? with
  | none => fault .expectedLocal f.offset
  | some name =>
    if s.locals.contains name then .ok name else fault (.unknownLocal name) f.offset

/-- A branch depth below the number of labels around. -/
def depthOf (labels : Nat) (f : Form) : Except LoadError Nat :=
  match f.atom?.bind Text.nat32? with
  | none => fault .expectedDepth f.offset
  | some depth =>
    if depth < labels then .ok depth else fault (.depthOutOfRange depth) f.offset

def constOf (f : Form) : Except LoadError Word :=
  match f.atom?.bind Text.int32? with
  | some n => .ok n
  | none => fault .invalidConstant f.offset

def callOf (s : Surroundings) (f : Form) : Except LoadError Instr :=
  match f.name? with
  | none => fault .expectedFunctionName f.offset
  | some name =>
    match s.signatures.get? name with
    | some (params, results) => .ok (.call name params results)
    | none => fault (.unknownFunction name) f.offset

/-- The instruction of a word, by the number of atoms it takes. -/
inductive Shape where
  | plain (i : Instr)
  | immediate (parse : Form → Except LoadError Instr)

def shape? (s : Surroundings) (labels : Nat) (op : String) : Option Shape :=
  match op with
  | "i32.const" => some (.immediate fun f => .const <$> constOf f)
  | "i32.load" => some (.plain .load)
  | "i32.store" => some (.plain .store)
  | "local.get" => some (.immediate fun f => .localGet <$> localOf s f)
  | "local.set" => some (.immediate fun f => .localSet <$> localOf s f)
  | "call" => some (.immediate (callOf s))
  | "br" => some (.immediate fun f => .br <$> depthOf labels f)
  | "br_if" => some (.immediate fun f => .brIf <$> depthOf labels f)
  | "drop" => some (.plain .drop)
  | "nop" => some (.plain .nop)
  | "return" => some (.plain .ret)
  | op => (NumOp.ofMnemonic? op).map fun op => .plain (.num op)

/-- An instruction from its word and its atoms. -/
def instrOf (s : Surroundings) (labels offset : Nat) (op : String) (atoms : List Form) :
    Except LoadError Instr :=
  match shape? s labels op with
  | none => fault (.unknownInstruction op) offset
  | some (.plain i) =>
    if atoms.isEmpty then .ok i else fault (.immediates op 0 atoms.length) offset
  | some (.immediate parse) =>
    match atoms with
    | [f] => parse f
    | atoms => fault (.immediates op 1 atoms.length) offset

def atomsOf (forms : List Form) : List Form := forms.filter fun f => f.atom?.isSome

mutual

/-- The instructions of a form: its operands in order, then its own. -/
def codeOf (s : Surroundings) (labels : Nat) : Form → Except LoadError (List Instr)
  | .list offset (.atom _ op :: items) =>
    if op = "block" ∨ op = "loop" then
      if (items.head?.bind Form.head?) = some "result" then fault .blockResult offset
      else do
        let body ← codeOfAll s (labels + 1) items
        return [if op = "block" then .block body else .loop body]
    else do
      let operands ← operandsOf s labels items
      let i ← instrOf s labels offset op (atomsOf items)
      return operands ++ [i]
  | f => fault .expectedInstruction f.offset

def codeOfAll (s : Surroundings) (labels : Nat) : List Form → Except LoadError (List Instr)
  | [] => .ok []
  | f :: fs => do
    let first ← codeOf s labels f
    return first ++ (← codeOfAll s labels fs)

/-- The instructions of the lists among the items. -/
def operandsOf (s : Surroundings) (labels : Nat) : List Form → Except LoadError (List Instr)
  | [] => .ok []
  | .atom _ _ :: fs => operandsOf s labels fs
  | .list offset items :: fs => do
    let first ← codeOf s labels (.list offset items)
    return first ++ (← operandsOf s labels fs)

end

/-- The fields of a module: the functions with their bodies unread, and the memory. -/
def fieldsOf (pending : List Pending) (memory : Option MemoryImport) :
    List Form → Except LoadError (List Pending × Option MemoryImport)
  | [] => .ok (pending.reverse, memory)
  | .atom offset _ :: _ => fault .atomInModule offset
  | .list offset items :: fs =>
    match (Form.list offset items).head? with
    | some "func" => do
      let p ← pendingOf offset items.tail
      fieldsOf (p :: pending) memory fs
    | some "import" =>
      if memory.isSome then fault .secondMemory offset
      else do
        let m ← memoryOf offset items
        fieldsOf pending (some m) fs
    | head => fault (.unsupportedField head) offset

/-- The signatures of the named functions; a name may stand once. -/
def signaturesOf (known : Table (Nat × Nat)) :
    List Pending → Except LoadError (Table (Nat × Nat))
  | [] => .ok known
  | p :: ps =>
    match p.function.name with
    | none => signaturesOf known ps
    | some name =>
      if known.contains name then fault (.duplicateFunction name) p.offset
      else signaturesOf (known.insert name (p.function.params.length, p.function.results)) ps

def bodiesOf (signatures : Table (Nat × Nat)) : List Pending → Except LoadError (List Function)
  | [] => .ok []
  | p :: ps => do
    let s : Surroundings := ⟨signatures, p.function.params ++ p.function.locals⟩
    let body ← codeOfAll s 1 p.body
    return { p.function with body } :: (← bodiesOf signatures ps)

def ofForms : List Form → Except LoadError Module
  | [root] =>
    match root with
    | .list _ (.atom _ "module" :: fields) => do
      let (pending, memory) ← fieldsOf [] none fields
      let signatures ← signaturesOf .empty pending
      let functions ← bodiesOf signatures pending
      return ⟨functions, memory⟩
    | root => fault .notAModule root.offset
  | _ => fault .notOneModule 0

/-- Loads a module from its text. -/
def load (text : String) : Except LoadError Module := do ofForms (← Form.read text)

end StackScript.Module
