import PotExtract.Config.Basic
import PotExtract.Event
import PotExtract.Glob.Expand

/-!
# Finding source files

The files of a project: those at and below the included paths that have the
right extension, less what is ignored.

* `Scan.files`: in the order of their components, each once;
* `scan`: includes are looked up in turn, and each path below them is judged
  on its own.
-/

namespace PotExtract

open Glob

/-- What a path is ignored by. -/
structure Ignores where
  /-- Everything at and below these paths. -/
  literal : List Path
  /-- Every path whose text matches. -/
  patterns : List Pattern

/-- The ignored paths of a project at `base`. What is no pattern ignores nothing. -/
def Ignores.ofList (base : Path) (ignores : List String) : Ignores × List Event :=
  let (wild, literal) := ignores.partition hasWildcard
  let compiled := wild.map fun text => (text, Pattern.compile? text)
  let faults := compiled.filterMap fun (text, result) =>
    match result with
    | .ok _ => none
    | .error e => some (Event.invalidIgnore text e)
  ({ literal := literal.map fun text => base.join ⟨text⟩
     patterns := compiled.filterMap fun (_, result) => result.toOption }, faults)

/-- Whether a path is ignored. -/
def Ignores.covers (ignores : Ignores) (p : Path) : Bool :=
  ignores.literal.any p.startsWith || ignores.patterns.any fun pattern => pattern.accepts p.text

/-- The paths of one include, and what there is to report. A pattern stands for directories. -/
def includedPaths (t : Tree) (base : Path) (text : String) : List Path × List Event :=
  if hasWildcard text then
    match t.expand (base.join ⟨text⟩) with
    | .ok paths => (paths.filter t.isDirectory, [])
    | .error e => ([], [.invalidInclude text e])
  else
    let path := if text = "" ∨ text = "." then base else base.join ⟨text⟩
    if t.pathExists path then ([path], []) else ([], [.missingInclude path])

/-- The paths to search. Without includes that is the project itself. -/
def searchPaths (t : Tree) (base : Path) (includes : List String) : List Path × List Event :=
  if includes.isEmpty then ([base], [])
  else
    let found := includes.map (includedPaths t base)
    (found.flatMap Prod.fst, found.flatMap Prod.snd)

/-- Whether a node is a file and its path has the extension of source files. -/
def isSource (p : Path) (node : Node) : Bool :=
  node ≠ .directory && p.extension? == some "php"

/-- The source files at and below a path that are not ignored. -/
def sourcesBelow (t : Tree) (ignores : Ignores) (start : Path) : Except FileError (List Path) := do
  let found ← t.walk start
  return (found.filter fun (p, node) => !ignores.covers p && isSource p node).map Prod.fst

/-- Paths without those that say the same as the one before them. -/
def dropRepeated : List Path → List Path
  | p :: q :: rest =>
    if p.components = q.components then dropRepeated (p :: rest) else p :: dropRepeated (q :: rest)
  | paths => paths
termination_by paths => paths.length

/-- Paths in the order of their components. Of those that say the same, the first stays. -/
def sortPaths (paths : List Path) : List Path :=
  dropRepeated <| paths.mergeSort fun p q =>
    (Path.compareComponents p.components q.components).isLE

/-- What a search found. -/
structure Scan where
  files : List Path
  /-- How many paths could not be searched. -/
  skipped : Nat
  events : List Event

/-- The source files of a project at `base`. -/
def scan (t : Tree) (base : Path) (includes ignores : List String) : Scan :=
  let (ignores, ignoreEvents) := Ignores.ofList base ignores
  let (starts, includeEvents) := searchPaths t base includes
  let searched := starts.map fun start => (start, sourcesBelow t ignores start)
  let failures := searched.filterMap fun (start, result) =>
    match result with
    | .ok _ => none
    | .error e => some (Event.cannotAccess start e)
  { files := sortPaths (searched.flatMap fun (_, result) => (result.toOption).getD [])
    skipped := failures.length
    events := ignoreEvents ++ includeEvents ++ failures }

end PotExtract
