import PotExtract.CommandLine.Read

/-!
# Help

What the program says of itself, and of a command line it cannot use.

* `Stop.ending`: how the program ends when no command follows from the command
  line.
-/

namespace PotExtract.CommandLine

/-- A flag with its letter, its name and what it asks for. -/
def flagLine (flag : Flag) : String :=
  let letter :=
    match flag.letter? with
    | some c => "-" ++ c.toString ++ ", "
    | none => "    "
  let value :=
    match flag with
    | .switch _ => ""
    | .setting _ => " <VALUE>"
  let left := letter ++ "--" ++ flag.name ++ value
  "  " ++ left ++ String.ofList (List.replicate (32 - left.length) ' ') ++ flag.about

/-- The help of the program. -/
def helpLines : List String := [
  "A fast CLI tool for generating gettext POT catalogs from WordPress PHP sources",
  "",
  "Usage: wp-pot [COMMAND]",
  "",
  "Commands:",
  "  extract  Extract translatable strings into a POT file",
  "  init     Initialize a .wppotrc.json config file",
  "  help     Print this message",
  "",
  "Options:"] ++ Flag.ofProgram.map flagLine ++ ["", "Options of extract:"] ++
  Flag.ofExtract.map flagLine

/-- Lines as a text. -/
def ofLines (lines : List String) : String :=
  String.join (lines.map fun line => line ++ "\n")

/-- A misuse in words. -/
def Misuse.message : Misuse → String
  | .unknownArgument word => "unexpected argument '" ++ word ++ "' found"
  | .unknownCommand word => "unrecognized subcommand '" ++ word ++ "'"
  | .missingValue flag => "a value is required for '--" ++ flag.name ++ "' but none was supplied"
  | .unneededValue flag =>
    "unexpected value for '--" ++ flag.name ++ "' found; no more were expected"
  | .conflict first second =>
    if first = second then
      "the argument '--" ++ first.name ++ "' cannot be used multiple times"
    else
      "the argument '--" ++ first.name ++ "' cannot be used with '--" ++ second.name ++ "'"
  | .invalidField error => error.message

/-- How the program ends without a command. -/
def Stop.ending : Stop → Ending
  | .help => { exitCode := 0, stdout := ofLines helpLines, stderr := "" }
  | .version => { exitCode := 0, stdout := "wp-pot 0.1.0\n", stderr := "" }
  | .misuse m =>
    { exitCode := 2, stdout := ""
      stderr := ofLines ["error: " ++ m.message, "", "For more information, try '--help'."] }

end PotExtract.CommandLine
