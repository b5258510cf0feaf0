import Schemata.Document
import Schemata.Generation

/-!
# The command line

`Request.parse` reads the arguments of the command and `run` does its work on files whose content is
given: it reads a document and settings, generates a module, and says what is written where, what is
reported, and with which code the command ends. `lookups` lists the paths that `run` can look at.
-/

namespace Schemata.CommandLine

/-- Something that an option chooses. -/
inductive Choice where
  | config (file : String)
  | maybe (name : String)
  | skipAnnotations
  | typesPath (path : String)
  | verbose
  | help

/-- An option: it chooses something, or does so with a value. -/
inductive Opt where
  | flag (choice : Choice)
  | valued (choice : String → Choice)

/-- The option of a long name. -/
def longOption? : String → Option Opt
  | "--config" => some (.valued .config)
  | "--maybe" => some (.valued .maybe)
  | "--skip-parse-jsdoc" => some (.flag .skipAnnotations)
  | "--types-import-path" => some (.valued .typesPath)
  | "--verbose" => some (.flag .verbose)
  | "--help" => some (.flag .help)
  | _ => none

/-- The option of a letter. -/
def shortOption? : Char → Option Opt
  | 'c' => some (.valued .config)
  | 'm' => some (.valued .maybe)
  | 'v' => some (.flag .verbose)
  | _ => none

/-- What one argument says: choices, and perhaps an option whose value is the next argument. -/
structure Word where
  choices : List Choice
  pending : Option (String → Choice)

/-- An argument that starts with two dashes. A value may follow an equals sign. -/
def longWord (cs : List Char) : Option Word :=
  let name := String.ofList (cs.takeWhile (· ≠ '='))
  match longOption? name, cs.dropWhile (· ≠ '=') with
  | some (.flag choice), [] => some ⟨[choice], none⟩
  | some (.valued choice), [] => some ⟨[], some choice⟩
  | some (.valued choice), _ :: value => some ⟨[choice (String.ofList value)], none⟩
  | _, _ => none

/-- Letters after one dash. What follows the letter of an option with a value is the value. -/
def shortWord : List Char → Option Word
  | [] => some ⟨[], none⟩
  | c :: rest =>
    match shortOption? c with
    | none => none
    | some (.flag choice) =>
      (shortWord rest).map fun word => { word with choices := choice :: word.choices }
    | some (.valued choice) =>
      if rest.isEmpty then some ⟨[], some choice⟩
      else some ⟨[choice (String.ofList rest)], none⟩

/-- The arguments taken apart: choices and places. -/
structure Scanned where
  choices : List Choice
  places : List String

/-- Take arguments apart. After two dashes there are only places. -/
def scan : List String → Option Scanned
  | [] => some ⟨[], []⟩
  | argument :: rest =>
    let word : Option (Option Word) :=
      match argument.toList with
      | '-' :: '-' :: cs => some (longWord ('-' :: '-' :: cs))
      | '-' :: c :: cs => some (shortWord (c :: cs))
      | _ => none
    if argument = "--" then some ⟨[], rest⟩
    else
      match word with
      | none => (scan rest).map fun scanned => { scanned with places := argument :: scanned.places }
      | some none => none
      | some (some ⟨choices, none⟩) =>
        (scan rest).map fun scanned => { scanned with choices := choices ++ scanned.choices }
      | some (some ⟨choices, some pending⟩) =>
        match rest with
        | [] => none
        | value :: rest =>
          (scan rest).map fun scanned =>
            { scanned with choices := choices ++ pending value :: scanned.choices }

/-- The files and choices from which a module is generated. -/
structure Arguments where
  path : String
  output : String
  config : Option String
  maybeNames : List String
  skipAnnotations : Bool
  typesPath : Option String
  verbose : Bool

/-- What the command is asked for. -/
inductive Request where
  | help
  | generate (arguments : Arguments)

/-- The last value that some choices give. -/
def lastOf {α : Type} (choices : List Choice) (value? : Choice → Option α) : Option α :=
  (choices.filterMap value?).getLast?

/-- The request that arguments make, unless they are not understood. Asking for help needs no
places. -/
def Request.parse (arguments : List String) : Option Request :=
  match scan arguments with
  | none => none
  | some ⟨choices, places⟩ =>
    if choices.any (· matches .help) then some .help
    else
      match places with
      | [path, output] => some (.generate {
          path := path
          output := output
          config := lastOf choices fun | .config file => some file | _ => none
          maybeNames := choices.filterMap fun | .maybe name => some name | _ => none
          skipAnnotations := choices.any (· matches .skipAnnotations)
          typesPath := lastOf choices fun | .typesPath path => some path | _ => none
          verbose := choices.any (· matches .verbose) })
      | _ => none

/-- What is found at a path. -/
inductive Found where
  | nothing
  | directory
  | file (text : String)

/-- Why the command stops early. -/
inductive Stop where
  | unreadable (error : Json.ReadError)
  | noSuchFile
  | isDirectory
  | notDirectory
  | failure (failure : Failure)

/-- What is reported of a stop. -/
def Stop.message : Stop → String
  | .unreadable .malformed => "a file does not hold a value"
  | .unreadable .longInteger => "a file holds an integer that is too long"
  | .noSuchFile => "there is no such file"
  | .isDirectory => "a directory stands in the place of a file"
  | .notDirectory => "a file stands in the place of a directory"
  | .failure (.load error) => error.message
  | .failure (.compile error) => error.message
  | .failure (.render error) => error.message
  | .failure (.fault .wrongKind) => "a value has the wrong kind"
  | .failure (.fault .noPart) => "a value lacks a part"

/-- The outcome of the command. -/
structure Report where
  exitCode : Nat
  /-- The lines on the error channel. -/
  lines : List String
  stop : Option Stop
  /-- The file that is written, with its text. -/
  written : Option (String × String)

/-- The outcome when the arguments are not understood. -/
def Report.misused : Report := ⟨2, [], none, none⟩

/-- The absolute form of a path. -/
def absolutePath (current : List String) (path : String) : String :=
  "/" ++ "/".intercalate (ImportPath.absolute current path)

/-- The paths of the directories above an absolute path, from the root on. -/
def ancestors (path : String) : List String :=
  let parts := ImportPath.components path
  (List.range parts.length).map fun count => "/" ++ "/".intercalate (parts.take count)

/-- A path with the last suffix of its name replaced. A name that starts or ends with its only dot
has no suffix. -/
def withSuffix (path suffix : String) : String :=
  let back := path.toList.reverse
  let name := back.takeWhile (· ≠ '/')
  let directory := (back.dropWhile (· ≠ '/')).reverse
  let stem := (name.dropWhile (· ≠ '.')).drop 1
  let extension := name.takeWhile (· ≠ '.')
  let kept := if stem.isEmpty || extension.isEmpty then name else stem
  String.ofList (directory ++ kept.reverse) ++ suffix

/-- The value in a file. -/
def readJson (find : String → Found) (path : String) : Except Stop Json :=
  match find path with
  | .nothing => .error .noSuchFile
  | .directory => .error .isDirectory
  | .file text =>
    match Json.parse text with
    | .ok value => .ok value
    | .error error => .error (.unreadable error)

/-- A result among those for which the command can stop. -/
def orStop {α : Type} : Except Fault α → Except Stop α
  | .ok value => .ok value
  | .error reason => .error (.failure (.fault reason))

/-- The settings: those of a file, changed by what the arguments choose. -/
def settings (arguments : Arguments) (given : Option Json) : Except Fault Settings := do
  let settings ← match given with
    | some value => Settings.ofJson value
    | none => .ok Settings.default
  let settings ← if arguments.maybeNames.isEmpty then .ok settings
    else (settings.addTypeNames (.arr (arguments.maybeNames.map Json.str))).complete
  let settings := if arguments.skipAnnotations then
    { settings with skipAnnotations := .bool true } else settings
  return match arguments.typesPath with
    | some path => { settings with typesPath := .str path }
    | none => settings

/-- The program that a document spells. -/
def program (path : String) (document : Json) (settings : Settings) : Except Failure Program :=
  match document with
  | .obj _ => do
    let unit ← SourceUnit.ofDocument document (.str (withSuffix path ".ts"))
    Failure.lift (Program.ofUnit unit settings)
  | _ => .error (.fault .noPart)

/-- Everything that has to be read, in the order in which it is read. -/
def prepare (arguments : Arguments) (current : List String) (find : String → Found) :
    Except Stop Program := do
  let path := absolutePath current arguments.path
  let document ← readJson find path
  let given ← match arguments.config with
    | some file => do pure (some (← readJson find (absolutePath current file)))
    | none => pure none
  let settings ← orStop (settings arguments given)
  match program path document settings with
  | .ok program => return program
  | .error failure => throw (.failure failure)

/-- Whether the files that have to exist do. -/
def inputsExist (arguments : Arguments) (current : List String) (find : String → Found) : Bool :=
  (arguments.path :: arguments.config.toList).all fun path =>
    !(find (absolutePath current path) matches .nothing)

/-- Why a file cannot be written, if it cannot: the first thing above it that is no directory stands
against it, or a directory in its place. -/
def writeStop? (find : String → Found) (path : String) : Option Stop :=
  match ((ancestors path).map find).find? (!· matches .directory), find path with
  | some (.file _), _ => some .notDirectory
  | some _, _ => some .noSuchFile
  | none, .directory => some .isDirectory
  | none, _ => none

/-- The outcome of generating a module. -/
def report (find : String → Found) (output : String) (verbose : Bool)
    (generated : Traced LogLine Generation) : Report :=
  let lines := logTexts (if verbose then .debug else .warning) generated.trace
  match generated.result with
  | .error failure => ⟨1, lines, some (.failure failure), none⟩
  | .ok generation =>
    match writeStop? find output with
    | some stop => ⟨1, lines, some stop, none⟩
    | none =>
      let errors := generation.rejections.map fun rejection => "Error: " ++ rejection.text
      let cycles := generation.cycles.map fun cycle =>
        "Circular dependency: " ++ " -> ".intercalate cycle
      ⟨if generation.rejections.isEmpty then 0 else 1, lines ++ errors ++ cycles, none,
        some (output, generation.code)⟩

/-- Run the command in a directory, given by its components, on files that can be found by their
absolute paths. -/
def run (arguments : List String) (current : List String) (find : String → Found) : Report :=
  match Request.parse arguments with
  | none => .misused
  | some .help => ⟨0, [], none, none⟩
  | some (.generate arguments) =>
    if !inputsExist arguments current find then .misused
    else
      match prepare arguments current find with
      | .error stop => ⟨1, [], some stop, none⟩
      | .ok program =>
        let output := absolutePath current arguments.output
        report find output arguments.verbose (program.generate current (.str output))

/-- The absolute paths at which `run` looks. -/
def lookups (arguments : List String) (current : List String) : List String :=
  match Request.parse arguments with
  | some (.generate arguments) =>
    let output := absolutePath current arguments.output
    output :: ancestors output ++
      (arguments.path :: arguments.config.toList).map (absolutePath current)
  | _ => []

end Schemata.CommandLine
