/-!
# Import paths

`importPath` is how one file refers to another as a module: the path to it from the directory of the
first, without extension. Paths are taken apart into components; `..` goes to the directory above.
-/

namespace Schemata.ImportPath

/-- Cut a list at every occurrence of an element. -/
def splitOn (separator : Char) : List Char → List (List Char)
  | [] => [[]]
  | c :: rest =>
    if c = separator then [] :: splitOn separator rest
    else
      match splitOn separator rest with
      | first :: others => (c :: first) :: others
      | [] => [[c]]

/-- The components of a path, without empty ones and those that stay where they are. -/
def components (path : String) : List String :=
  ((splitOn '/' path.toList).filter fun part => part ≠ [] ∧ part ≠ ['.']).map String.ofList

/-- Whether a path starts at the root. -/
def isAbsolute (path : String) : Bool :=
  path.toList.head? = some '/'

/-- Follow one component from a directory whose components are given from the last to the first. -/
def step (absolute : Bool) (back : List String) (component : String) : List String :=
  if component = ".." then
    match back with
    | [] => if absolute then [] else [".."]
    | last :: rest => if last = ".." then ".." :: back else rest
  else component :: back

/-- Components in which `..` occurs at the start at most, and not at all below the root. -/
def normalize (absolute : Bool) (parts : List String) : List String :=
  (parts.foldl (step absolute) []).reverse

/-- The components of a path from the root, given those of the current directory. -/
def absolute (current : List String) (path : String) : List String :=
  normalize true (if isAbsolute path then components path else current ++ components path)

/-- The components after the common start of two lists. -/
def afterCommon : List String → List String → List String × List String
  | a :: left, b :: right => if a = b then afterCommon left right else (a :: left, b :: right)
  | left, right => (left, right)

/-- The path from one directory to a place, both given by their components from the root. -/
def relative (directory place : List String) : List String :=
  let (up, down) := afterCommon directory place
  up.map (fun _ => "..") ++ down

/-- A name without its extension: what stands before the last dot, if there is one. -/
def withoutExtension (name : String) : String :=
  let back := name.toList.reverse
  if back.contains '.' then String.ofList ((back.dropWhile (· ≠ '.')).drop 1).reverse else name

/-- A path with slashes in place of backslashes. -/
def slashes (path : String) : String :=
  String.ofList (path.toList.map fun c => if c = '\\' then '/' else c)

/-- The specifier of a module at a relative path, without the extension of its last component. -/
def specifier (parts : List String) : String :=
  let directory := "/".intercalate parts.dropLast
  let stem := withoutExtension (parts.getLast?.getD ".")
  let path := if directory = "" then stem else directory ++ "/" ++ stem
  if path.toList.head? = some '.' then path else "./" ++ path

/-- The directory of a file, by its components from the root. -/
def directoryOf (current : List String) (file : String) : List String :=
  let parts := (normalize (isAbsolute file) (components file)).dropLast
  if isAbsolute file then parts else normalize true (current ++ parts)

/-- How a file refers to another one as a module. -/
def importPath (current : List String) (fromFile toFile : String) : String :=
  specifier (relative (directoryOf current (slashes fromFile)) (absolute current (slashes toFile)))

end Schemata.ImportPath
