/-!
# Log lines

What the program tells about its work beside its results. A line has a level and the part of the
program it comes from.
-/

namespace Schemata

/-- How much a log line matters. -/
inductive Level where
  | debug
  | warning
  | error
  deriving DecidableEq, Repr

/-- The rank of a level; a greater one matters more. -/
def Level.rank : Level → Nat
  | .debug => 10
  | .warning => 30
  | .error => 40

/-- The word for a level. -/
def Level.word : Level → String
  | .debug => "DEBUG"
  | .warning => "WARNING"
  | .error => "ERROR"

/-- The part of the program that a line comes from. -/
inductive Origin where
  | generator
  | compiler
  | annotations
  | dependencies
  | references
  deriving DecidableEq, Repr

/-- The name of a part of the program in a log line. -/
def Origin.word : Origin → String
  | .generator => "types_to_zod.pipeline.generator"
  | .compiler => "types_to_zod.pipeline.analyzer.compiler"
  | .annotations => "types_to_zod.pipeline.analyzer.annotations"
  | .dependencies => "types_to_zod.pipeline.analyzer.dependencies"
  | .references => "types_to_zod.pipeline.analyzer.reference_resolver"

/-- A log line. -/
structure LogLine where
  level : Level
  origin : Origin
  message : String

/-- The text of a log line. -/
def LogLine.text (line : LogLine) : String :=
  line.level.word ++ " " ++ line.origin.word ++ ": " ++ line.message

/-- The texts of the lines of a level and above. -/
def logTexts (least : Level) (lines : List LogLine) : List String :=
  (lines.filter fun line => least.rank ≤ line.level.rank).map LogLine.text

end Schemata
