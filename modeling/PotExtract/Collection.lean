import PotExtract.Call.Extract
import PotExtract.Catalog

/-!
# Collecting the calls of many files

A catalog that grows file by file, with counts of what became of each call.

* `Collection.add`: one more file.
-/

namespace PotExtract

/-- What became of the calls so far. -/
structure Counts where
  files : Nat := 0
  /-- Calls that were read. -/
  calls : Nat := 0
  accepted : Nat := 0
  domainMismatches : Nat := 0
  emptyTexts : Nat := 0
  /-- Calls that could not be read. -/
  skippedCalls : Nat := 0
  deriving DecidableEq, Repr

/-- A catalog and the counts of what went into it. -/
structure Collection where
  catalog : Catalog := .empty
  counts : Counts := {}

/-- Records taken in one after the other, and what became of each. -/
def Catalog.ingestAll (filter : DomainFilter) (c : Catalog) :
    List Record → List Catalog.Outcome × Catalog
  | [] => ([], c)
  | r :: rs =>
    let (outcome, c) := c.ingest filter r
    let (outcomes, c) := c.ingestAll filter rs
    (outcome :: outcomes, c)

/-- The counts with one more file, whose records had these outcomes. -/
def Counts.add (n : Counts) (outcomes : List Catalog.Outcome) (skipped : Nat) : Counts where
  files := n.files + 1
  calls := n.calls + outcomes.length
  accepted := n.accepted + outcomes.countP Catalog.Outcome.isAccepted
  domainMismatches := n.domainMismatches + outcomes.count (.refused .domainMismatch)
  emptyTexts := n.emptyTexts + outcomes.count (.refused .emptyText)
  skippedCalls := n.skippedCalls + skipped

/-- The calls of one more file. -/
def Collection.add (filter : DomainFilter) (c : Collection) (e : Extraction) :
    Collection :=
  let (outcomes, catalog) := c.catalog.ingestAll filter e.records
  { catalog, counts := c.counts.add outcomes e.skipped.length }

end PotExtract
