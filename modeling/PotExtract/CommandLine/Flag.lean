/-!
# Flags

The flags of the command line by their names.

* `Flag.long?`, `Flag.short?`: the flag that a name stands for, among those
  that a command knows.
-/

namespace PotExtract.CommandLine

/-- A flag that takes no value. -/
inductive Switch where
  | noHeaders
  | stdout
  | verbose
  | help
  | version
  deriving DecidableEq, Repr

/-- A flag that takes a value. -/
inductive Setting where
  | sourceRoot
  | domain
  | package
  | bugReport
  | lastTranslator
  | team
  | header
  | destFile
  deriving DecidableEq, Repr

/-- What a flag can be. -/
inductive Flag where
  | switch (s : Switch)
  | setting (s : Setting)
  deriving DecidableEq, Repr

/-- The name after two dashes. -/
def Switch.name : Switch → String
  | .noHeaders => "no-headers"
  | .stdout => "stdout"
  | .verbose => "verbose"
  | .help => "help"
  | .version => "version"

/-- The name after two dashes. -/
def Setting.name : Setting → String
  | .sourceRoot => "source-root"
  | .domain => "domain"
  | .package => "package"
  | .bugReport => "bug-report"
  | .lastTranslator => "last-translator"
  | .team => "team"
  | .header => "header"
  | .destFile => "dest-file"

namespace Flag

/-- The name after two dashes. -/
def name : Flag → String
  | switch s => s.name
  | setting s => s.name

/-- The name after one dash, for a flag that has one. -/
def letter? : Flag → Option Char
  | switch .verbose => some 'v'
  | switch .help => some 'h'
  | switch .version => some 'V'
  | setting .domain => some 'd'
  | setting .destFile => some 'o'
  | _ => none

/-- What a flag asks for. -/
def about : Flag → String
  | switch .noHeaders => "Emit only the required core headers"
  | switch .stdout => "Write the template to stdout instead of a file"
  | switch .verbose => "Enable verbose output"
  | switch .help => "Print help"
  | switch .version => "Print version"
  | setting .sourceRoot => "Source code root directory; the config file is searched from here"
  | setting .domain => "Only extract calls for this text domain"
  | setting .package => "Project name for the header (defaults to the domain)"
  | setting .bugReport => "Report-Msgid-Bugs-To header value"
  | setting .lastTranslator => "Last-Translator header value"
  | setting .team => "Language-Team header value"
  | setting .header => "Custom header NAME=VALUE, may be repeated"
  | setting .destFile => "Output file (defaults to destFile relative to the source root)"

/-- The flags before a command. -/
def ofProgram : List Flag := [switch .help, switch .version]

/-- The flags of the command that writes a configuration file. -/
def ofInit : List Flag := [switch .help]

/-- The flags of the command that writes a template. -/
def ofExtract : List Flag := [
  setting .sourceRoot,
  setting .domain,
  setting .package,
  setting .bugReport,
  setting .lastTranslator,
  setting .team,
  switch .noHeaders,
  setting .header,
  setting .destFile,
  switch .stdout,
  switch .verbose,
  switch .help]

/-- The known flag with a name. Names are not abbreviated. -/
def long? (known : List Flag) (name : String) : Option Flag :=
  known.find? fun flag => flag.name == name

/-- The known flag with a letter. -/
def short? (known : List Flag) (letter : Char) : Option Flag :=
  known.find? fun flag => flag.letter? == some letter

end Flag

end PotExtract.CommandLine
