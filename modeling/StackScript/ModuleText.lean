import StackScript.Code.OfProgram

/-!
Module text: the code of a unit, with what it takes from its host and what it offers.
-/

namespace StackScript.ModuleText

/-- The name a unit's entry is exported under. -/
def entryName : String := "exported_func"

/-- What every module takes from its host: name, field and number of parameters. -/
def imports : List (String × String × Nat) :=
  [("print", "imported_func", 1), ("print_global", "print_global_func", 2),
    ("print_int", "print_int", 1), ("print_bool", "print_bool", 1)]

def importText (name field : String) (params : Nat) : String :=
  s!"  (func ${name} (import \"imports\" \"{field}\")" ++
    String.join (List.replicate params " (param i32)") ++ ")\n"

/-- The lines of a text without their ends; a carriage return before an end goes with it. -/
def linesOf (text : String) : List (List Char) :=
  (Text.lines text.toList).map fun line =>
    if line.getLast? = some '\n' then
      let line := line.dropLast
      if line.getLast? = some '\r' then line.dropLast else line
    else line

/-- Each line of a text, two blanks further in. -/
def indented (text : String) : String :=
  String.join ((linesOf text).map fun line => "  " ++ String.ofList line ++ "\n")

/-- A module of function definitions and an entry with this code. -/
def wrap (definitions : List String) (main : String) (returnsValue : Bool) : String :=
  "(module\n" ++
    String.join (imports.map fun (name, field, params) => importText name field params) ++
    "  (import \"js\" \"memory\" (memory 1))\n" ++
    String.join (definitions.map indented) ++
    s!"  (func (export \"{entryName}\")" ++ (if returnsValue then " (result i32)" else "") ++ "\n" ++
    main ++ "  )\n" ++ ")\n"

/-- The module of a unit, with the definitions of earlier units before its own. -/
def ofUnit (earlier : List String) (u : UnitCode) : String :=
  wrap (earlier ++ u.definitions) u.mainText u.returnsValue

end StackScript.ModuleText
