import PotExtract.Command
import PotExtract.CommandLine.Flag

/-!
# Reading the command line

A command is a word and its flags, in any order. A flag that takes a value
gets it from its own word or from the next one, and a value from the next word
is looked at only when another flag, or the end, follows it.

* `readOptions`: what the flags of a command say;
* `readCommandLine`: the command of a program's arguments.
-/

namespace PotExtract.CommandLine

/-- Why the value of a custom header is refused. -/
inductive FieldError where
  | noSeparator (text : String)
  | emptyName (text : String)
  deriving DecidableEq, Repr

/-- An error in words. -/
def FieldError.message : FieldError → String
  | .noSeparator text => "invalid header '" ++ text ++ "': expected NAME=VALUE"
  | .emptyName text => "invalid header '" ++ text ++ "': name is empty"

/-- What is wrong with a command line. -/
inductive Misuse where
  /-- A word that is no flag of the command, or that stands where none is expected. -/
  | unknownArgument (word : String)
  | unknownCommand (word : String)
  /-- A value is absent, or an empty path. -/
  | missingValue (flag : Setting)
  /-- A flag that takes no value has one. -/
  | unneededValue (flag : Switch)
  /-- Two flags exclude each other; a flag that may be given once excludes itself. -/
  | conflict (first second : Flag)
  | invalidField (error : FieldError)
  deriving DecidableEq, Repr

/-- Why no command follows from a command line. -/
inductive Stop where
  | help
  | version
  | misuse (m : Misuse)
  deriving DecidableEq, Repr

/-- A name and value, separated by the first equals sign, without the blanks around them. -/
def readField (text : String) : Except FieldError (String × String) :=
  match text.toList.dropWhile (· != '=') with
  | [] => .error (.noSeparator text)
  | _ :: value =>
    match trimBlanks (text.toList.takeWhile (· != '=')) with
    | [] => .error (.emptyName text)
    | name => .ok (String.ofList name, String.ofList (trimBlanks value))

/-- What is known while the words are read. -/
structure Reading where
  options : Options := {}
  /-- The last flag, with the value from the next word if there was one, as long as it is not
  settled. -/
  pending : Option (Setting × Option String) := none
  deriving DecidableEq, Repr

namespace Reading

/-- A setting that can be given once. -/
def once {α : Type} (flag : Setting) (old : Option α) (value : Except Misuse α) :
    Except Misuse (Option α) :=
  if old.isSome then .error (.conflict (.setting flag) (.setting flag)) else some <$> value

/-- A value that is a path. -/
def readPath (flag : Setting) (value : String) : Except Misuse Path :=
  if value.isEmpty then .error (.missingValue flag) else .ok ⟨value⟩

/-- The options with one more setting. -/
def assign (o : Options) (flag : Setting) (value : String) : Except Misuse Options := do
  match flag with
  | .sourceRoot => return { o with sourceRoot := ← once flag o.sourceRoot (readPath flag value) }
  | .domain => return { o with domain := ← once flag o.domain (.ok value) }
  | .package => return { o with package := ← once flag o.package (.ok value) }
  | .bugReport => return { o with bugReport := ← once flag o.bugReport (.ok value) }
  | .lastTranslator =>
    return { o with lastTranslator := ← once flag o.lastTranslator (.ok value) }
  | .team => return { o with team := ← once flag o.team (.ok value) }
  | .header =>
    let field ← (readField value).mapError .invalidField
    return { o with headers := o.headers ++ [field] }
  | .destFile => return { o with destFile := ← once flag o.destFile (readPath flag value) }

/-- The options with one more switch. Help and the version are given at once. -/
def turnOn (o : Options) (flag : Switch) : Except Stop Options :=
  let repeated : Stop := .misuse (.conflict (.switch flag) (.switch flag))
  match flag with
  | .help => .error .help
  | .version => .error .version
  | .noHeaders => if o.noHeaders then .error repeated else .ok { o with noHeaders := true }
  | .stdout => if o.stdout then .error repeated else .ok { o with stdout := true }
  | .verbose => if o.verbose then .error repeated else .ok { o with verbose := true }

/-- The options once the last flag is settled. -/
def settle (r : Reading) : Except Stop Options :=
  match r.pending with
  | none => .ok r.options
  | some (flag, none) => .error (.misuse (.missingValue flag))
  | some (flag, some value) => (assign r.options flag value).mapError .misuse

/-- One more flag, with its value if that is in the same word. -/
def addFlag (r : Reading) (flag : Flag) (value : Option String) : Except Stop Reading :=
  match flag, value with
  | .switch s, some _ => .error (.misuse (.unneededValue s))
  | .switch s, none => do return { options := ← turnOn (← r.settle) s }
  | .setting s, some value => do
    return { options := ← (assign (← r.settle) s value).mapError .misuse }
  | .setting s, none => do return { options := ← r.settle, pending := some (s, none) }

/-- A word that is no flag: the value of the last one, if it has none yet. -/
def addWord (r : Reading) (word : String) : Except Stop Reading :=
  match r.pending with
  | some (flag, none) => .ok { r with pending := some (flag, some word) }
  | _ => .error (.misuse (.unknownArgument word))

end Reading

/-- A word after two dashes: a name, and a value after an equals sign. -/
def readLong (known : List Flag) (r : Reading) (word : String) (s : List Char) :
    Except Stop Reading :=
  let value :=
    match s.dropWhile (· != '=') with
    | [] => none
    | _ :: value => some (String.ofList value)
  match Flag.long? known (String.ofList (s.takeWhile (· != '='))) with
  | none => .error (.misuse (.unknownArgument word))
  | some flag => r.addFlag flag value

/-- Letters after one dash. The first that takes a value takes all that follows, less an equals
sign. -/
def readShort (known : List Flag) (r : Reading) (word : String) :
    List Char → Except Stop Reading
  | [] => .ok r
  | c :: rest =>
    match Flag.short? known c with
    | none => .error (.misuse (.unknownArgument word))
    | some (.switch s) => do readShort known (← r.addFlag (.switch s) none) word rest
    | some (.setting s) =>
      match rest with
      | [] => r.addFlag (.setting s) none
      | '=' :: value => r.addFlag (.setting s) (some (String.ofList value))
      | value => r.addFlag (.setting s) (some (String.ofList value))

/-- One word of a command's flags. A dash alone is no flag. -/
def readWord (known : List Flag) (r : Reading) (word : String) : Except Stop Reading :=
  match word.toList with
  | '-' :: '-' :: s => readLong known r word s
  | '-' :: c :: s => readShort known r word (c :: s)
  | _ => r.addWord word

/-- Flags that exclude each other do not stand together. -/
def checkConflicts (o : Options) : Except Misuse Options :=
  if o.noHeaders && !o.headers.isEmpty then
    .error (.conflict (.switch .noHeaders) (.setting .header))
  else if o.stdout && o.destFile.isSome then
    .error (.conflict (.switch .stdout) (.setting .destFile))
  else .ok o

/-- The words of a command's flags. Nothing may follow two dashes that stand alone. -/
def readWords (known : List Flag) (r : Reading) : List String → Except Stop Options
  | [] => do (checkConflicts (← r.settle)).mapError .misuse
  | "--" :: [] => do (checkConflicts (← r.settle)).mapError .misuse
  | "--" :: word :: _ => .error (.misuse (.unknownArgument word))
  | word :: rest => do readWords known (← readWord known r word) rest

/-- What the flags of a command say. -/
def readOptions (known : List Flag) (words : List String) : Except Stop Options :=
  readWords known {} words

/-- The names of the commands. -/
def commandNames : List String := ["extract", "init", "help"]

/-- What is asked for by the words after the command for help: the name of a command, or
nothing. -/
def readHelp : List String → Stop
  | [] => .help
  | word :: rest =>
    if !commandNames.contains word then .misuse (.unknownCommand word)
    else
      match rest with
      | [] => .help
      | word :: _ => .misuse (.unknownCommand word)

/-- The command of a program's arguments; there may be none. -/
def readCommandLine : List String → Except Stop (Option Command)
  | [] | ["--"] => .ok none
  | "--" :: word :: _ => .error (.misuse (.unknownArgument word))
  | "extract" :: rest =>
    (fun options => some (.extract options)) <$> readOptions Flag.ofExtract rest
  | "init" :: rest => (fun _ => some .init) <$> readOptions Flag.ofInit rest
  | "help" :: rest => .error (readHelp rest)
  | word :: rest =>
    match word.toList with
    | '-' :: _ :: _ => (fun _ => none) <$> readOptions Flag.ofProgram (word :: rest)
    | _ => .error (.misuse (.unknownCommand word))

end PotExtract.CommandLine
