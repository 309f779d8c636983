import PotExtract.CommandLine.Usage
import Std.Data.HashMap
import Std.Time.DateTime.Timestamp

/-!
# The program

Reads the disk as far as the command looks at it, performs the command, writes
what has changed, and says how it ended.

* `readDisk`: what leads to the paths of a command, and all that is below the
  directories it searches;
* `writeChanges`: what the command has made of that.
-/

namespace PotExtract

/-- The text of the path to a place. -/
def placeText (place : Place) : String :=
  "/" ++ String.intercalate "/" place

/-- The place of the working directory. -/
def readHome : IO Place := do
  let path ← IO.FS.realPath "."
  return (Path.pieces ⟨path.toString⟩).filter fun piece => piece ≠ ""

/-- What is at a place on the disk, if there is something; a link is what it leads to. Only source
files and configuration files are read. -/
def readNode? (place : Place) : IO (Option Node) := do
  try
    let path ← IO.FS.realPath (placeText place)
    let wanted := fun name => (Path.mk name).extension? == some "php" || name == configName
    if (← path.metadata).type == .dir then return some .directory
    else if place.getLast?.any wanted then return some (Node.ofBytes (← IO.FS.readBinFile path))
    else return some .binary
  catch _ => return none

/-- The disk as far as it has been read. -/
abbrev Disk := Std.HashMap Place Node

/-- The files and directories that have been read. -/
def Disk.tree (disk : Disk) (home : Place) : Tree :=
  { nodes := disk.toList, home }

/-- A place read, if that has not been done. -/
def Disk.readPlace (disk : Disk) (place : Place) : IO Disk := do
  if place.isEmpty || disk.contains place then return disk
  match ← readNode? place with
  | some node => return disk.insert place node
  | none => return disk

/-- The directories that lead to a place, from the top on, and the place itself. -/
def wayTo (place : Place) : List Place :=
  (List.range (place.length + 1)).map fun n => place.take n

/-- What a path leads through, and where it leads. The search for a configuration looks at two names
in each of the directories on the way. -/
def Disk.readWay (disk : Disk) (home : Place) (p : Path) : IO Disk := do
  let said := p.components
  let stops := (List.range (said.length + 1)).map fun n => Path.placeOf home (said.take n)
  (stops.flatMap wayTo).foldlM (fun disk stop =>
    [stop, stop ++ [configName], stop ++ [repositoryMark]].foldlM Disk.readPlace disk) disk

/-- Everything below a place. Links to directories are not followed. -/
partial def Disk.readBelow (disk : Disk) (place : Place) : IO Disk := do
  let entries ← try (← IO.FS.realPath (placeText place)).readDir catch _ => pure #[]
  entries.foldlM (fun disk entry => do
    let inner := place ++ [entry.fileName]
    let linked := (← entry.path.symlinkMetadata).type == .symlink
    let disk ← if linked && (← entry.path.isDir) then pure disk else disk.readPlace inner
    if linked then return disk else disk.readBelow inner) disk

/-- A path that what an include finds lies at or below: for a pattern, the components before its
first special character. -/
def searchTop (base : Path) (text : String) : Path :=
  let path := base.join ⟨text⟩
  if hasWildcard text then
    let special := fun c => c == '*' || c == '?' || c == '['
    (Tree.globStart path).joinNames ((Tree.globPieces path).takeWhile fun piece =>
      !piece.toList.any special)
  else path

/-- The disk as far as a command looks at it. -/
def readDisk (home : Place) : Command → IO Disk
  | .init => Disk.readWay ∅ home ⟨"."⟩
  | .extract options => do
    let disk ← Disk.readWay ∅ home options.root
    match loadConfig (disk.tree home) options.root with
    | .error _ => return disk
    | .ok loaded =>
      let config := options.applyTo (loaded.getD {})
      let tops := if config.includes.isEmpty then [options.root]
        else config.includes.map (searchTop options.root)
      let disk ← (options.destination config).toList.foldlM (fun disk => disk.readWay home) disk
      tops.foldlM (fun disk top => do
        (← disk.readWay home top).readBelow (Path.placeOf home top.components)) disk

/-- What is new or different in a tree, written to the disk. -/
def writeChanges (old new : Tree) : IO Unit := do
  for (place, node) in new.nodes do
    unless old.node? place == some node do
      match node with
      | .directory => IO.FS.createDirAll (placeText place)
      | .text content => IO.FS.writeFile (placeText place) content
      | .binary => pure ()

/-- What a command leaves on the terminal, put there. -/
def finish (ending : Ending) : IO UInt32 := do
  (← IO.getStdout).putStr ending.stdout
  (← IO.getStderr).putStr ending.stderr
  return ending.exitCode.toUInt32

/-- A command performed on the disk. -/
def runCommand (command : Command) : IO UInt32 := do
  let home ← readHome
  let tree := (← readDisk home command).tree home
  let seconds := (← Std.Time.Timestamp.now).toSecondsSinceUnixEpoch.val
  let done := command.perform tree ⟨seconds, .utc⟩ (← IO.getEnv "SOURCE_DATE_EPOCH")
  try
    writeChanges tree done.tree
    let threshold := logThreshold (← IO.getEnv "WP_POT_LOG") command.isVerbose
    finish (done.ending (← (← IO.getStdout).isTty) command.isVerbose threshold)
  catch e =>
    finish { exitCode := 2, stdout := "", stderr := "Error: " ++ e.toString ++ "\n" }

end PotExtract

open PotExtract PotExtract.CommandLine

/-- The exit code is 0, 1 if the command failed, or 2 if it stopped. -/
def main (words : List String) : IO UInt32 :=
  match readCommandLine words with
  | .ok (some command) => runCommand command
  | .ok none => finish Stop.help.ending
  | .error stop => finish stop.ending
