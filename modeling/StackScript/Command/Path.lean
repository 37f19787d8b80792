/-!
Names of files in paths.
-/

namespace StackScript.Path

/-- A path without the slashes and single dots behind its last name, written backwards. -/
def trimmed : List Char → List Char
  | '/' :: cs => trimmed cs
  | '.' :: '/' :: cs => trimmed ('/' :: cs)
  | cs => cs

/-- The last name of a path and what stands before it; `none` if it ends in no name. -/
def split? (path : String) : Option (List Char × List Char) :=
  let backwards := trimmed path.toList.reverse
  let name := (backwards.takeWhile (· != '/')).reverse
  let front := (backwards.dropWhile (· != '/')).reverse
  if name = [] ∨ name = ['.'] ∨ name = ['.', '.'] then none else some (front, name)

/-- The name of the file itself. -/
def fileName (path : String) : String :=
  match split? path with
  | some (_, name) => String.ofList name
  | none => path

/-- A name without its extension; a dot at its start begins none. -/
def stem (name : List Char) : List Char :=
  let backwards := name.reverse
  match backwards.dropWhile (· != '.') with
  | _ :: stem => if stem = [] then name else stem.reverse
  | [] => name

/-- The path up to the dot of its extension, or all of it if it has none. -/
def upToDot (path : String) : String :=
  match split? path with
  | some (front, name) =>
    if (stem name).length < name.length then String.ofList (front ++ stem name ++ ['.']) else path
  | none => path

/-- Puts an extension behind the stem of the last name; a path that ends in no name stays. -/
def putExtension (path extension : String) : String :=
  match split? path with
  | some (front, name) => String.ofList (front ++ stem name) ++ "." ++ extension
  | none => path

/-- The path with another extension in place of its own. The old one is taken off first, up to its
dot, so that a stem of a single dot leaves two dots: the folder above, which takes no extension. -/
def withExtension (path extension : String) : String := putExtension (upToDot path) extension

end StackScript.Path
