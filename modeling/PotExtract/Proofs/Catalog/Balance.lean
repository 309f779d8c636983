import PotExtract.Harvest
import PotExtract.Proofs.Catalog.Runs
import Mathlib.Algebra.BigOperators.Group.List.Basic
import Mathlib.Algebra.GroupWithZero.Nat

/-!
# Counts that balance

The counts of a run against what was taken in, file by file: every call is
accepted or refused, every file is read or noted, and the catalog has no more
places than there are accepted calls.

* `Collection.Balanced`: what the counts of a collection say;
* `Collection.Balanced.add`: one more file keeps the balance;
* `Harvest.Accounted`: where the files of a run have gone;
* `Harvest.Accounted.add`: one more file, readable or not;
* `counts_balance`: both hold of every run.
-/

namespace PotExtract

namespace Catalog

/-- How many places the entries have together. -/
def places (c : Catalog) : Nat :=
  (c.entries.toList.map fun e => e.occurrences.length).sum

/-- An outcome is one of three kinds. -/
theorem length_eq_sum_outcomes (outcomes : List Outcome) :
    outcomes.length = outcomes.countP Outcome.isAccepted +
      outcomes.count (.refused .domainMismatch) + outcomes.count (.refused .emptyText) := by
  induction outcomes with
  | nil => rfl
  | cons o outcomes ih =>
    have kinds : 1 = [o].countP Outcome.isAccepted + [o].count (.refused .domainMismatch) +
        [o].count (.refused .emptyText) := by
      cases o with
      | inserted | merged => rfl
      | refused reason => cases reason <;> rfl
    rw [List.length_cons, ih, List.countP_cons, List.count_cons, List.count_cons]
    simp only [List.countP_cons, List.count_cons, List.countP_nil, List.count_nil] at kinds
    omega

theorem length_merge_le (e : Entry) (l : Source.Location) (plural : Option String) :
    (e.merge l plural).occurrences.length ≤ e.occurrences.length + 1 := by
  simp only [Entry.merge]
  split
  · omega
  · simp

/-- A sum in which one term grows by at most one. -/
theorem sum_modify_le (f : Entry → Entry) (size : Entry → Nat)
    (h : ∀ e, size (f e) ≤ size e + 1) (es : List Entry) (i : Nat) :
    ((es.modify i f).map size).sum ≤ (es.map size).sum + 1 := by
  induction es generalizing i with
  | nil => simp
  | cons e es ih =>
    cases i with
    | zero =>
      have := h e
      simp only [List.modify_zero_cons, List.map_cons, List.sum_cons]
      omega
    | succ i =>
      have := ih i
      simp only [List.modify_succ_cons, List.map_cons, List.sum_cons]
      omega

/-- A record adds a place at most, and none if it is refused. -/
theorem places_ingest_le (filter : DomainFilter) (c : Catalog) (r : Record) :
    (c.ingest filter r).2.places ≤
      c.places + [(c.ingest filter r).1].countP Outcome.isAccepted := by
  rcases ingest_cases filter c r with ⟨_, -, hc⟩ | ⟨-, i, -, hc⟩ | ⟨-, -, hc⟩
  · simp [hc]
  · have grows := sum_modify_le (·.merge r.location r.plural) (·.occurrences.length)
      (fun e => length_merge_le e r.location r.plural) c.entries.toList i
    simpa [hc, places, Outcome.isAccepted] using grows
  · simp [hc, places, Outcome.isAccepted]

theorem places_ingestAll_le (filter : DomainFilter) (c : Catalog) (rs : List Record) :
    (c.ingestAll filter rs).2.places ≤
      c.places + (c.ingestAll filter rs).1.countP Outcome.isAccepted := by
  induction rs generalizing c with
  | nil => simp
  | cons r rs ih =>
    have first := places_ingest_le filter c r
    have rest := ih (c.ingest filter r).2
    simp only [ingestAll_cons, List.countP_cons, List.countP_nil] at first rest ⊢
    omega

/-- Every entry has a place. -/
theorem Valid.size_le_places {c : Catalog} (h : c.Valid) : c.entries.size ≤ c.places := by
  have one_le : ∀ n ∈ c.entries.toList.map fun e => e.occurrences.length, 1 ≤ n := by
    intro n hn
    obtain ⟨e, he, rfl⟩ := List.mem_map.1 hn
    exact List.length_pos_iff.2 (h.wellFormed e (Array.mem_toList_iff.1 he)).found
  have := List.length_le_sum_of_one_le _ one_le
  simpa [places] using this

end Catalog

/-! ## Collections -/

namespace Collection

open Catalog (Outcome)

/-- The calls of some files, one file after the other. -/
def ofExtractions (filter : DomainFilter) (files : List Extraction) : Collection :=
  files.foldl (add filter) {}

/-- What became of the records of some files, taken into one catalog. -/
def outcomes (filter : DomainFilter) (files : List Extraction) : List Outcome :=
  (Catalog.empty.ingestAll filter (files.flatMap Extraction.records)).1

/-- The counts of a collection say what became of the calls of some files, and its catalog has
what was accepted. -/
structure Balanced (filter : DomainFilter) (files : List Extraction) (c : Collection) : Prop where
  files_eq : c.counts.files = files.length
  calls_eq : c.counts.calls = (files.map fun e => e.records.length).sum
  skippedCalls_eq : c.counts.skippedCalls = (files.map fun e => e.skipped.length).sum
  calls_split :
    c.counts.calls = c.counts.accepted + c.counts.domainMismatches + c.counts.emptyTexts
  accepted_eq : c.counts.accepted = (outcomes filter files).countP Outcome.isAccepted
  domainMismatches_eq :
    c.counts.domainMismatches = (outcomes filter files).count (.refused .domainMismatch)
  emptyTexts_eq : c.counts.emptyTexts = (outcomes filter files).count (.refused .emptyText)
  catalog_eq :
    c.catalog = (Catalog.empty.ingestAll filter (files.flatMap Extraction.records)).2
  size_eq : c.catalog.entries.size = (outcomes filter files).count .inserted
  size_le : c.catalog.entries.size ≤ c.catalog.places
  places_le : c.catalog.places ≤ c.counts.accepted

variable {filter : DomainFilter} {files : List Extraction} {c : Collection}

theorem balanced_empty : Balanced filter [] {} := by
  constructor
  case size_le | places_le => exact Nat.le_refl 0
  all_goals rfl

/-- One more file keeps the balance. -/
theorem Balanced.add (h : c.Balanced filter files) (e : Extraction) :
    (c.add filter e).Balanced filter (files ++ [e]) := by
  have run : Catalog.empty.ingestAll filter ((files ++ [e]).flatMap Extraction.records) =
      (outcomes filter files ++ (c.catalog.ingestAll filter e.records).1,
        (c.catalog.ingestAll filter e.records).2) := by
    rw [List.flatMap_append, List.flatMap_singleton, Catalog.ingestAll_append, ← h.catalog_eq]
    rfl
  have more : outcomes filter (files ++ [e]) =
      outcomes filter files ++ (c.catalog.ingestAll filter e.records).1 := by
    rw [outcomes, run]
  have valid : c.catalog.Valid := h.catalog_eq ▸ Catalog.valid_empty.ingestAll filter _
  have size := Catalog.size_ingestAll filter c.catalog e.records
  have places := Catalog.places_ingestAll_le filter c.catalog e.records
  have split := Catalog.length_eq_sum_outcomes (c.catalog.ingestAll filter e.records).1
  constructor
  case files_eq => simp [Collection.add, Counts.add, h.files_eq]
  case calls_eq => simp [Collection.add, Counts.add, h.calls_eq]
  case skippedCalls_eq => simp [Collection.add, Counts.add, h.skippedCalls_eq]
  case calls_split =>
    have before := h.calls_split
    simp only [Collection.add, Counts.add]
    omega
  case accepted_eq => simp [Collection.add, Counts.add, more, h.accepted_eq]
  case domainMismatches_eq => simp [Collection.add, Counts.add, more, h.domainMismatches_eq]
  case emptyTexts_eq => simp [Collection.add, Counts.add, more, h.emptyTexts_eq]
  case catalog_eq => rw [run]; rfl
  case size_eq => rw [more, List.count_append, ← h.size_eq]; exact size
  case size_le => exact (valid.ingestAll filter e.records).size_le_places
  case places_le =>
    have before := h.places_le
    simp only [Collection.add, Counts.add]
    omega

theorem balanced_foldl (h : c.Balanced filter files) (more : List Extraction) :
    (more.foldl (add filter) c).Balanced filter (files ++ more) := by
  induction more generalizing c files with
  | nil => simpa using h
  | cons e more ih => simpa using ih (h.add e)

theorem balanced_ofExtractions (filter : DomainFilter) (files : List Extraction) :
    (ofExtractions filter files).Balanced filter files := by
  simpa [ofExtractions] using balanced_foldl balanced_empty files

end Collection

/-! ## Runs -/

namespace SourceFile

/-- The calls of a file, if it could be read. -/
def extraction? (file : SourceFile) : Option Extraction :=
  file.result.toOption

/-- Why a file could not be read, if it could not. -/
def failure? (file : SourceFile) : Option ReadFailure :=
  match file.result with
  | .ok _ => none
  | .error error => some ⟨file.path, error⟩

/-- A file is read or noted, and not both. -/
theorem readable_or_not (file : SourceFile) :
    (∃ e, file.result = .ok e ∧ file.extraction? = some e ∧ file.failure? = none) ∨
      ∃ error, file.result = .error error ∧ file.extraction? = none ∧
        file.failure? = some ⟨file.path, error⟩ := by
  unfold extraction? failure?
  cases file.result with
  | ok e => exact .inl ⟨e, rfl, rfl, rfl⟩
  | error error => exact .inr ⟨error, rfl, rfl, rfl⟩

theorem length_eq_add (files : List SourceFile) :
    (files.filterMap extraction?).length + (files.filterMap failure?).length = files.length := by
  induction files with
  | nil => rfl
  | cons file files ih =>
    rcases file.readable_or_not with ⟨e, -, read, noted⟩ | ⟨error, -, read, noted⟩
    · simp only [List.filterMap_cons, read, noted, List.length_cons]
      omega
    · simp only [List.filterMap_cons, read, noted, List.length_cons]
      omega

end SourceFile

namespace Harvest

/-- Every file of a run is in its collection or among its failures, and nothing else is. -/
structure Accounted (filter : DomainFilter) (files : List SourceFile) (h : Harvest) : Prop where
  collection_eq :
    h.collection = .ofExtractions filter (files.filterMap SourceFile.extraction?)
  readFailures_eq : h.readFailures = files.filterMap SourceFile.failure?
  skippedCalls_eq :
    h.skippedCalls = (files.filterMap SourceFile.extraction?).flatMap Extraction.skipped

variable {filter : DomainFilter} {files : List SourceFile} {h : Harvest}

theorem accounted_empty : Accounted filter [] {} :=
  ⟨rfl, rfl, rfl⟩

/-- One more file is collected or noted. -/
theorem Accounted.add (known : h.Accounted filter files) (file : SourceFile) :
    (h.add filter file).Accounted filter (files ++ [file]) := by
  rcases file.readable_or_not with ⟨e, result, read, noted⟩ | ⟨error, result, read, noted⟩
  · constructor
    · simp [Harvest.add, result, read, known.collection_eq, Collection.ofExtractions]
    · simp [Harvest.add, result, noted, known.readFailures_eq]
    · simp [Harvest.add, result, read, known.skippedCalls_eq]
  · constructor
    · simp [Harvest.add, result, read, known.collection_eq]
    · simp [Harvest.add, result, noted, known.readFailures_eq]
    · simp [Harvest.add, result, read, known.skippedCalls_eq]

theorem accounted_foldl (known : h.Accounted filter files) (more : List SourceFile) :
    (more.foldl (add filter) h).Accounted filter (files ++ more) := by
  induction more generalizing h files with
  | nil => simpa using known
  | cons file more ih => simpa using ih (known.add file)

theorem accounted_ofFiles (filter : DomainFilter) (files : List SourceFile) :
    (ofFiles filter files).Accounted filter files := by
  simpa [ofFiles] using accounted_foldl accounted_empty files

theorem Accounted.balanced (known : h.Accounted filter files) :
    h.collection.Balanced filter (files.filterMap SourceFile.extraction?) :=
  known.collection_eq ▸ Collection.balanced_ofExtractions filter _

/-- No file is lost. -/
theorem Accounted.files_eq (known : h.Accounted filter files) :
    h.collection.counts.files + h.readFailures.length = files.length := by
  rw [known.balanced.files_eq, known.readFailures_eq, SourceFile.length_eq_add]

theorem Accounted.skippedCalls_length (known : h.Accounted filter files) :
    h.skippedCalls.length = h.collection.counts.skippedCalls := by
  rw [known.balanced.skippedCalls_eq, known.skippedCalls_eq, List.length_flatMap]

end Harvest

namespace Plan

/-- The calls of the files of a plan that can be read, in order. -/
def readable (p : Plan) (t : Tree) : List Extraction :=
  p.files.filterMap fun file =>
    (t.read file).toOption.map fun text => extract (p.displayPath file) text.toList

/-- The files of a plan that cannot be read, in order, each with the reason. -/
def unreadable (p : Plan) (t : Tree) : List ReadFailure :=
  p.files.filterMap fun file =>
    match t.read file with
    | .ok _ => none
    | .error error => some ⟨p.displayPath file, error⟩

theorem filterMap_extraction?_readFiles (p : Plan) (t : Tree) :
    (p.readFiles t).filterMap SourceFile.extraction? = p.readable t := by
  rw [readFiles, List.filterMap_map, readable]
  apply List.filterMap_congr
  intro file _
  simp only [Function.comp_apply, SourceFile.read, SourceFile.extraction?]
  cases t.read file <;> rfl

theorem filterMap_failure?_readFiles (p : Plan) (t : Tree) :
    (p.readFiles t).filterMap SourceFile.failure? = p.unreadable t := by
  rw [readFiles, List.filterMap_map, unreadable]
  apply List.filterMap_congr
  intro file _
  simp only [Function.comp_apply, SourceFile.read, SourceFile.failure?]
  cases t.read file <;> rfl

end Plan

/-- **Every file and every call is accounted for.** After any files, the counts say how many files
and calls there were and what became of the calls, the catalog has an entry for each record that
made one, and its places are at least as many as its entries and at most as many as the accepted
calls. A run over any files collects those that can be read, in their order, as if there were no
others, and notes the others; the calls that it lists as skipped are those that it counts. -/
theorem counts_balance :
    (∀ (filter : DomainFilter) (files : List Extraction),
      (Collection.ofExtractions filter files).Balanced filter files) ∧
    ∀ (p : Plan) (t : Tree),
      (p.harvest t).collection = .ofExtractions p.config.filter (p.readable t) ∧
      (p.harvest t).readFailures = p.unreadable t ∧
      (p.harvest t).skippedCalls = (p.readable t).flatMap Extraction.skipped ∧
      (p.harvest t).collection.counts.files + (p.harvest t).readFailures.length =
        p.files.length ∧
      (p.harvest t).skippedCalls.length = (p.harvest t).collection.counts.skippedCalls := by
  refine ⟨Collection.balanced_ofExtractions, ?_⟩
  intro p t
  have known := Harvest.accounted_ofFiles p.config.filter (p.readFiles t)
  have files : (p.readFiles t).length = p.files.length := List.length_map _
  rw [Plan.harvest]
  refine ⟨?_, ?_, ?_, ?_, known.skippedCalls_length⟩
  · rw [known.collection_eq, p.filterMap_extraction?_readFiles t]
  · rw [known.readFailures_eq, p.filterMap_failure?_readFiles t]
  · rw [known.skippedCalls_eq, p.filterMap_extraction?_readFiles t]
  · rw [known.files_eq, files]

end PotExtract
