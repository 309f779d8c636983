import PotExtract.Collection
import PotExtract.Plan
import PotExtract.Template.Document

/-!
# What a run finds

The files of a plan are read and their calls collected, file by file. A file
that cannot be read is noted and left out.

* `Harvest.ofFiles`: what all files give;
* `Plan.template`: the template of a run.
-/

namespace PotExtract

/-- A source file that could not be read. -/
structure ReadFailure where
  path : String
  error : FileError
  deriving DecidableEq, Repr

/-- A source file, by its name in references, with its calls or the reason why it has none. -/
structure SourceFile where
  path : String
  result : Except FileError Extraction

/-- What a run found. -/
structure Harvest where
  collection : Collection := {}
  /-- The files that could not be read, in order. -/
  readFailures : List ReadFailure := []
  /-- The calls that could not be read, in order. -/
  skippedCalls : List Skipped := []

namespace Harvest

/-- What was found once one more file is in. -/
def add (filter : DomainFilter) (h : Harvest) (file : SourceFile) : Harvest :=
  match file.result with
  | .ok extraction =>
    { h with
      collection := h.collection.add filter extraction
      skippedCalls := h.skippedCalls ++ extraction.skipped }
  | .error error => { h with readFailures := h.readFailures ++ [⟨file.path, error⟩] }

/-- What some files give, in their order. -/
def ofFiles (filter : DomainFilter) (files : List SourceFile) : Harvest :=
  files.foldl (add filter) {}

/-- The entries of a run. -/
def entries (h : Harvest) : Array Entry :=
  h.collection.catalog.entries

end Harvest

namespace SourceFile

/-- A file of a plan, read. -/
def read (t : Tree) (p : Plan) (file : Path) : SourceFile :=
  let path := p.displayPath file
  { path, result := (fun text => extract path text.toList) <$> t.read file }

/-- What reading a file reports: the calls that cannot be read. -/
def readEvents (file : SourceFile) : List Event :=
  match file.result with
  | .ok extraction => extraction.skipped.map Event.skippedCall
  | .error _ => []

/-- What adding a file reports: that it could not be read, or the records that are turned away. -/
def addEvents (filter : DomainFilter) (file : SourceFile) : List Event :=
  match file.result with
  | .ok extraction => extraction.records.filterMap fun r =>
    match Catalog.refusal? filter r with
    | some .domainMismatch => some (.domainMismatch r)
    | some .emptyText => some (.emptyText r)
    | none => none
  | .error error => [.cannotRead file.path error]

end SourceFile

namespace Plan

/-- The files of a plan, read in order. -/
def readFiles (p : Plan) (t : Tree) : List SourceFile :=
  p.files.map (SourceFile.read t p)

/-- What a run reports. All files are read before the first is added. -/
def events (p : Plan) (files : List SourceFile) : List Event :=
  .extracting p.files.length p.root ::
    files.flatMap SourceFile.readEvents ++ files.flatMap (SourceFile.addEvents p.config.filter)

/-- What a run finds. -/
def harvest (p : Plan) (t : Tree) : Harvest :=
  .ofFiles p.config.filter (p.readFiles t)

/-- The template of a run, dated `now` if its date is not set. -/
def template (p : Plan) (now : Timestamp) (h : Harvest) : String :=
  Template.render p.config.header (p.date.getD now) h.collection.catalog

end Plan

end PotExtract
