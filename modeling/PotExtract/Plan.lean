import PotExtract.Calendar.Epoch
import PotExtract.Config.Find
import PotExtract.Config.Override
import PotExtract.Scan

/-!
# Plans

What has to be settled before the first source file is read: the
configuration, the files, where the template goes and which date it gets.

* `plan`: the plan of a run, or the first fault on the way to it.
-/

namespace PotExtract

/-- What a run is asked to do. -/
structure Options extends Overrides where
  /-- The project; the working directory without it. -/
  sourceRoot : Option Path := none
  /-- Where to write the template, in place of the file that the project sets. -/
  destFile : Option Path := none
  /-- The template goes to standard output. -/
  stdout : Bool := false
  verbose : Bool := false
  deriving DecidableEq, Repr

namespace Options

/-- The project of a run. -/
def root (o : Options) : Path :=
  o.sourceRoot.getD ⟨"."⟩

/-- Where the template goes; standard output has no path. -/
def destination (o : Options) (c : Config) : Option Path :=
  if o.stdout then none else some (o.destFile.getD (o.root.join ⟨c.destFile⟩))

end Options

/-- A run that is ready to read its files. -/
structure Plan where
  config : Config
  root : Path
  /-- The source files, in order. -/
  files : List Path
  /-- How many paths could not be searched. -/
  skippedPaths : Nat
  destination : Option Path
  /-- The creation date, if it is set. -/
  date : Option Timestamp

/-- Why there is no plan. -/
inductive PlanError where
  | load (error : LoadError)
  /-- The settings are not in order once those of the run are in. -/
  | config (error : ConfigError)
  | date (error : Epoch.Error)
  deriving DecidableEq, Repr

/-- An error and its causes in words, the outermost first. -/
def PlanError.chain : PlanError → List String
  | .load error => error.chain
  | .config error => error.chain
  | .date error => [error.message]

/-- The plan of a run, and what there is to report on the way to it. The creation date is given
as the text of a setting. -/
def plan (t : Tree) (options : Options) (dateSetting : Option String) :
    List Event × Except PlanError Plan :=
  match loadConfig t options.root with
  | .error error => ([], .error (.load error))
  | .ok loaded =>
    let loading := if loaded.isNone then [Event.defaultConfig] else []
    let config := options.applyTo (loaded.getD {})
    match config.check with
    | .error error => (loading, .error (.config error))
    | .ok () =>
      let found := scan t options.root config.includes config.ignores
      let skipping := if found.skipped = 0 then [] else [Event.pathsSkipped found.skipped]
      let events := loading ++ found.events ++ skipping
      match Epoch.read dateSetting with
      | .error error => (events, .error (.date error))
      | .ok date =>
        (events, .ok {
          config
          root := options.root
          files := found.files
          skippedPaths := found.skipped
          destination := options.destination config
          date })

namespace Plan

/-- A file as references name it, which is relative to the project. -/
def displayPath (p : Plan) (file : Path) : String :=
  ((file.relativeTo? p.root).getD file).text

end Plan

end PotExtract
