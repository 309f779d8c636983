import PotExtract.Config.Read
import PotExtract.Files.Tree

/-!
# Finding a configuration

A project's configuration file lies in the directory where a run starts, or
in a directory around it. The search stops at the top of a repository.

* `findConfig?`: the nearest configuration file;
* `loadConfig`: what it says. A file that is found has to be in order; no
  other file, and no default, takes its place.
-/

namespace PotExtract

/-- The name of a configuration file. -/
def configName : String := ".wppotrc.json"

/-- The name that marks the top of a repository. -/
def repositoryMark : String := ".git"

/-- The configuration file of the first of some nested directories, innermost first, that has one.
The search does not go past the top of a repository. -/
def nearestConfig? (t : Tree) : List Path → Option Path
  | [] => none
  | p :: outer =>
    if t.pathExists (p.join ⟨configName⟩) then some (p.join ⟨configName⟩)
    else if t.pathExists (p.join ⟨repositoryMark⟩) then none
    else nearestConfig? t outer

/-- The configuration file of a run that starts in a directory. -/
def findConfig? (t : Tree) (start : Path) : Option Path :=
  nearestConfig? t start.ancestors

/-- Why a configuration file cannot be used. -/
inductive LoadError where
  | unreadable (path : Path) (error : FileError)
  /-- The file is no JSON text. -/
  | notJson (path : Path)
  | invalid (path : Path) (error : ConfigError)
  deriving DecidableEq, Repr

/-- An error and its causes in words, the outermost first. -/
def LoadError.chain : LoadError → List String
  | .unreadable path error =>
    ["Failed to read config file: " ++ quotedText path.text, error.message]
  | .notJson path =>
    ["Failed to parse config file: " ++ quotedText path.text, "not a JSON text"]
  | .invalid path error => ("Invalid config file: " ++ quotedText path.text) :: error.chain

/-- The configuration in a file. -/
def readConfig (t : Tree) (path : Path) : Except LoadError Config :=
  match t.read path with
  | .error error => .error (.unreadable path error)
  | .ok text =>
    match Json.read? text with
    | none => .error (.notJson path)
    | some value => (Config.ofJson value).mapError (.invalid path)

/-- The configuration of a run that starts in a directory, if there is a file for it. -/
def loadConfig (t : Tree) (start : Path) : Except LoadError (Option Config) :=
  match findConfig? t start with
  | none => .ok none
  | some path => some <$> readConfig t path

end PotExtract
