import Schemata.CommandLine

/-!
# The command

`main` reads the files that the command looks at, runs it, and carries out what it reports.
-/

namespace Schemata.CommandLine

/-- How the command is used. -/
def usage : String :=
  "Usage: schemata [OPTIONS] PATH OUTPUT\n\n" ++
  "  -c, --config FILE         settings\n" ++
  "  -m, --maybe NAME          a type name treated as a Maybe wrapper\n" ++
  "  --skip-parse-jsdoc        ignore annotation tags\n" ++
  "  --types-import-path TEXT  the module from which enums are imported\n" ++
  "  -v, --verbose             report every step\n"

/-- The system's code for reading a directory as a file. -/
def isADirectory : UInt32 := 21

/-- What is found at a path on disk. Below a file there is nothing. -/
def look (path : String) : IO Found := do
  try
    return .file (← IO.FS.readFile path)
  catch
    | .noFileOrDirectory _ _ _ => return .nothing
    | .inappropriateType _ code _ => return if code = isADirectory then .directory else .nothing
    | error => throw error

/-- Report lines on the error channel. -/
def complain (lines : List String) : IO Unit := do
  let channel ← IO.getStderr
  for line in lines do
    channel.putStrLn line

end Schemata.CommandLine

open Schemata.CommandLine in
/-- Generate a module from the document and the settings that the arguments name. -/
def main (arguments : List String) : IO UInt32 := do
  let current := Schemata.ImportPath.components (toString (← IO.currentDir))
  let found ← (lookups arguments current).mapM fun path => return (path, ← look path)
  let report := run arguments current fun path => (found.lookup path).getD .nothing
  complain (report.lines ++ report.stop.toList.map Stop.message)
  match report.written with
  | some (path, text) => IO.FS.writeFile path text
  | none => if report.stop.isNone then IO.print usage
  return UInt32.ofNat report.exitCode
