import PotExtract.Call.Record
import PotExtract.Files.Tree
import PotExtract.Glob.Pattern
import PotExtract.Text.Quoted

/-!
# Events of a run

What a run reports while it works, and how much each report matters.

* `Event.line`: a report as it is logged.
-/

namespace PotExtract

/-- How much a report matters, from the least to the most. -/
inductive Level where
  | trace
  | debug
  | info
  | warn
  | error
  deriving DecidableEq, Repr

/-- The place of a level in the order. -/
def Level.rank : Level → Nat
  | .trace => 0
  | .debug => 1
  | .info => 2
  | .warn => 3
  | .error => 4

/-- A level as it is logged, five characters wide. -/
def Level.label : Level → String
  | .trace => "TRACE"
  | .debug => "DEBUG"
  | .info => " INFO"
  | .warn => " WARN"
  | .error => "ERROR"

/-- Something a run reports. -/
inductive Event where
  /-- There is no configuration file. -/
  | defaultConfig
  | invalidIgnore (pattern : String) (error : Glob.PatternError)
  | invalidInclude (pattern : String) (error : Glob.PatternError)
  | missingInclude (path : Path)
  | cannotAccess (path : Path) (error : FileError)
  | pathsSkipped (count : Nat)
  | extracting (files : Nat) (root : Path)
  | skippedCall (call : Skipped)
  | cannotRead (path : String) (error : FileError)
  | domainMismatch (record : Record)
  | emptyText (record : Record)
  deriving Repr

namespace Event

/-- How much an event matters. -/
def level : Event → Level
  | defaultConfig => .info
  | invalidIgnore .. | invalidInclude .. | missingInclude _ | cannotAccess .. | cannotRead .. =>
    .warn
  | pathsSkipped _ | extracting .. | skippedCall _ | emptyText _ => .debug
  | domainMismatch _ => .trace

/-- A domain argument that may be absent, in words. -/
def domainText : Option String → String
  | none => "None"
  | some domain => "Some(" ++ quotedText domain ++ ")"

/-- An event in words. -/
def message : Event → String
  | defaultConfig => "No .wppotrc.json found, using default configuration"
  | invalidIgnore pattern error => "Invalid ignore pattern '" ++ pattern ++ "': " ++ error.message
  | invalidInclude pattern error => "Invalid glob pattern '" ++ pattern ++ "': " ++ error.message
  | missingInclude path => "Include path does not exist: " ++ path.text
  | cannotAccess path error =>
    "Cannot access path: IO error for operation on " ++ path.text ++ ": " ++ error.message
  | pathsSkipped count => toString count ++ " path(s) skipped due to access errors"
  | extracting files root =>
    "extracting from " ++ toString files ++ " file(s) under " ++ root.text
  | skippedCall call =>
    "skipping " ++ call.function.name ++ "() at " ++ call.location.display ++ ": " ++
      call.reason.message
  | cannotRead path error => "Cannot read " ++ path ++ ": " ++ error.message
  | domainMismatch record =>
    "excluding \"" ++ record.text ++ "\" at " ++ record.location.display ++ ": domain " ++
      domainText record.domain ++ " does not match"
  | emptyText record => "excluding empty text at " ++ record.location.display

/-- An event as a line of the log. -/
def line (e : Event) : String :=
  e.level.label ++ " " ++ e.message

end Event

end PotExtract
