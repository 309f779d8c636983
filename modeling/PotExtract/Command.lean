import PotExtract.Config.Write
import PotExtract.Log
import PotExtract.Report

/-!
# Commands

What the program can be asked to do, and what comes of it.

* `Command.perform`: the files after a command, what it writes to standard
  output, and its report or error;
* `Performance.ending`: what a command leaves on the terminal.
-/

namespace PotExtract

/-- What the program is asked to do. -/
inductive Command where
  /-- Write a configuration file with all defaults. -/
  | init
  /-- Write the template of a project. -/
  | extract (options : Options)
  deriving DecidableEq, Repr

/-- Whether a command reports all details. -/
def Command.isVerbose : Command → Bool
  | .init => false
  | .extract options => options.verbose

/-- Why a command stops. -/
inductive CommandError where
  | plan (error : PlanError)
  | createDirectory (path : Path) (error : FileError)
  | writeTemplate (path : Path) (error : FileError)
  | writeConfig (path : Path) (error : FileError)
  deriving DecidableEq, Repr

/-- An error and its causes in words, the outermost first. -/
def CommandError.chain : CommandError → List String
  | .plan error => error.chain
  | .createDirectory path error =>
    ["Failed to create directory: " ++ quotedText path.text, error.message]
  | .writeTemplate path error =>
    ["Failed to write POT file: " ++ quotedText path.text, error.message]
  | .writeConfig path error =>
    ["Failed to write config file: " ++ quotedText path.text, error.message]

/-- An error with its causes on one line. -/
def CommandError.message (e : CommandError) : String :=
  String.intercalate ": " e.chain

/-- What comes of a command. -/
structure Performance where
  /-- The files once it is done. -/
  tree : Tree
  /-- What it writes to standard output before it reports. -/
  output : String := ""
  events : List Event := []
  result : Except CommandError Report

/-- The directories around the template's file. -/
def makeParent (t : Tree) (p : Path) : Tree × Except CommandError Unit :=
  match p.parent? with
  | none => (t, .ok ())
  | some parent =>
    if parent.text.isEmpty then (t, .ok ())
    else
      let (t, made) := t.createDirectories parent
      (t, made.mapError (.createDirectory parent))

/-- A template written to a file, with the directories around it. Those that are made stay if the
file cannot be written. -/
def saveTemplate (t : Tree) (p : Path) (template : String) : Tree × Except CommandError Unit :=
  match makeParent t p with
  | (t, .error error) => (t, .error error)
  | (t, .ok ()) =>
    match t.write p template with
    | .error error => (t, .error (.writeTemplate p error))
    | .ok t => (t, .ok ())

/-- The template of a planned run, delivered. -/
def Plan.perform (p : Plan) (t : Tree) (now : Timestamp) : Performance :=
  let files := p.readFiles t
  let harvest := Harvest.ofFiles p.config.filter files
  let template := p.template now harvest
  let events := p.events files
  match p.destination with
  | none => { tree := t, output := template, events, result := .ok (.extracted p harvest) }
  | some path =>
    let (tree, saved) := saveTemplate t path template
    { tree, events, result := saved.map fun () => .extracted p harvest }

/-- The template of a project, delivered if there is a plan for it. -/
def performExtract (t : Tree) (now : Timestamp) (dateSetting : Option String) (options : Options) :
    Performance :=
  match plan t options dateSetting with
  | (events, .error error) => { tree := t, events, result := .error (.plan error) }
  | (events, .ok p) =>
    let done := p.perform t now
    { done with events := events ++ done.events }

/-- A configuration file in the working directory, unless there is something at its place. -/
def performInit (t : Tree) : Performance :=
  let path := (⟨"."⟩ : Path).join ⟨configName⟩
  if t.pathExists path then { tree := t, result := .ok .present }
  else
    match t.write path Config.defaultText with
    | .error error => { tree := t, result := .error (.writeConfig path error) }
    | .ok tree => { tree, result := .ok .created }

/-- What comes of a command, at a given time and with the creation date given as the text of a
setting. -/
def Command.perform (t : Tree) (now : Timestamp) (dateSetting : Option String) :
    Command → Performance
  | .init => performInit t
  | .extract options => performExtract t now dateSetting options

/-- What a command leaves on the terminal. -/
structure Ending where
  exitCode : Nat
  stdout : String
  stderr : String
  deriving DecidableEq, Repr

/-- How a command ends: with code 0, with code 1 if it failed, and with code 2 if it stopped. The
log comes before the report. -/
def Performance.ending (p : Performance) (colors verbose : Bool) (threshold : Option Level) :
    Ending :=
  let log := logText threshold p.events
  match p.result with
  | .error error =>
    { exitCode := 2, stdout := p.output, stderr := log ++ "Error: " ++ error.message ++ "\n" }
  | .ok report =>
    let text := report.render colors verbose
    let exitCode := if report.failed then 1 else 0
    if report.sharesOutput then { exitCode, stdout := p.output, stderr := log ++ text }
    else { exitCode, stdout := p.output ++ text, stderr := log }

end PotExtract
