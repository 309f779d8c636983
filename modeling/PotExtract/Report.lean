import PotExtract.Harvest
import PotExtract.Text.Styled

/-!
# Reports

What a command says once it has done its work.

* `Report.lines`: a report in words;
* `Report.failed`: whether the command counts as failed all the same.
-/

namespace PotExtract

/-- What a command did. -/
inductive Report where
  /-- A template was made. -/
  | extracted (plan : Plan) (harvest : Harvest)
  /-- A configuration file was made. -/
  | created
  /-- There is a configuration file already. -/
  | present

/-- A number with a word for what is counted. -/
def counted (n : Nat) (one many : String) : String :=
  toString n ++ " " ++ if n = 1 then one else many

/-- A line that begins with a warning. -/
def warning (text : String) : List Span :=
  [⟨.boldYellow, "warning:"⟩, ⟨.plain, " " ++ text⟩]

/-- A line that begins with a note. -/
def note (text : String) : List Span :=
  [⟨.bold, "note:"⟩, ⟨.plain, " " ++ text⟩]

/-- A line that begins with a check mark. -/
def success (text : String) : List Span :=
  [⟨.green, "✓"⟩, ⟨.plain, " "⟩, ⟨.green, text⟩]

/-- A line that begins with a cross. -/
def failure (text : String) : List Span :=
  [⟨.red, "✘"⟩, ⟨.plain, " "⟩, ⟨.red, text⟩]

/-- The lines about files that could not be read and paths that could not be searched. -/
def accessLines (p : Plan) (h : Harvest) : List (List Span) :=
  h.readFailures.map (fun f => warning ("cannot read " ++ f.path ++ ": " ++ f.error.message)) ++
    if p.skippedPaths = 0 then []
    else [warning (toString p.skippedPaths ++ " path(s) skipped due to access errors")]

/-- A call that could not be read, in words. -/
def skippedNote (call : Skipped) : List Span :=
  note <| "skipped " ++ call.function.name ++ "() at " ++ call.location.reference ++ ": " ++
    call.reason.message

/-- The lines about calls that could not be read: each of them, or their number. -/
def skippedLines (verbose : Bool) (calls : List Skipped) : List (List Span) :=
  if verbose then calls.map skippedNote
  else if calls.isEmpty then []
  else [warning (toString calls.length ++ " call(s) could not be extracted statically (use ") ++
    [⟨.cyan, "-v"⟩, ⟨.plain, " for details)"⟩]]

/-- The lines about the template. Calls of other domains are mentioned only if there are
entries. -/
def resultLines (verbose : Bool) (p : Plan) (h : Harvest) : List (List Span) :=
  let files := counted p.files.length "file" "files"
  let target := (p.destination.map Path.text).getD "stdout"
  let excluded := h.collection.counts.domainMismatches
  if h.entries.isEmpty then [failure ("No translatable strings found in " ++ files)]
  else
    success ("Extracted " ++ counted h.entries.size "string" "strings" ++ " from " ++ files ++
      " to " ++ target) ::
      if verbose ∧ 0 < excluded then
        [note (toString excluded ++ " call(s) excluded by the domain filter")]
      else []

namespace Report

/-- A report in words. -/
def lines (verbose : Bool) : Report → List (List Span)
  | extracted p h =>
    accessLines p h ++ skippedLines verbose h.skippedCalls ++ resultLines verbose p h
  | created => [success ("Created " ++ configName)]
  | .present => [[⟨.boldRed, "error:"⟩, ⟨.plain, " " ++ configName ++ " already exists"⟩]]

/-- A report as it is written. -/
def render (colors verbose : Bool) (r : Report) : String :=
  String.join ((r.lines verbose).map (renderLine colors))

/-- The command did not do all that it was asked for: a file could not be read, there is nothing
to translate, or there is a configuration file already. -/
def failed : Report → Bool
  | extracted _ h => !h.readFailures.isEmpty || h.entries.isEmpty
  | created => false
  | .present => true

/-- Standard output holds the template, so that it has no room for the report. -/
def sharesOutput : Report → Bool
  | extracted p _ => p.destination.isNone
  | _ => false

end Report

end PotExtract
