import PotExtract.Call.Record
import Std.Data.TreeMap

/-!
# The catalog

Messages grouped by context and text, in the order in which they first
appear.

* `Catalog.ingest`: a record taken into the catalog, or turned away by the
  domain filter or for want of text.
-/

namespace PotExtract

open Source

/-- Which domains a catalog takes. -/
inductive DomainFilter where
  /-- Every call, with or without a domain. -/
  | any
  /-- The calls whose domain is written just so. -/
  | exact (domain : String)
  deriving DecidableEq, Repr

/-- The filter of an optional domain. -/
def DomainFilter.ofDomain : Option String → DomainFilter
  | none => .any
  | some domain => .exact domain

/-- Whether a call with this domain argument is taken. -/
def DomainFilter.accepts (filter : DomainFilter) (domain : Option String) : Bool :=
  match filter with
  | .any => true
  | .exact wanted => domain == some wanted

/-- What tells one entry from another. -/
structure Key where
  context : Option String
  msgid : String
  deriving DecidableEq, Repr

/-- Keys in the order of their contexts, then of their texts. -/
def Key.compare : Key → Key → Ordering :=
  compareLex (compareOn Key.context) (compareOn Key.msgid)

instance : Std.TransCmp Key.compare :=
  inferInstanceAs (Std.TransCmp (compareLex _ _))

instance : Std.LawfulEqCmp Key.compare where
  compare_self {a} := by simp [Key.compare, compareLex, compareOn]
  eq_of_compare {a b} h := by
    simp only [Key.compare, compareLex, compareOn, Ordering.then_eq_eq,
      Std.LawfulEqCmp.compare_eq_iff_eq] at h
    cases a
    cases b
    simp_all

/-- A message to translate, and where it was found. -/
structure Entry where
  context : Option String
  msgid : String
  plural : Option String
  /-- Each place once, in the order in which they were found. -/
  occurrences : List Location
  deriving DecidableEq, Repr

/-- The key of an entry. -/
def Entry.key (e : Entry) : Key :=
  ⟨e.context, e.msgid⟩

/-- An entry found at one more place, maybe with a plural. The first plural stays. -/
def Entry.merge (e : Entry) (location : Location) (plural : Option String) : Entry :=
  { e with
    plural := e.plural <|> plural
    occurrences :=
      if location ∈ e.occurrences then e.occurrences else e.occurrences ++ [location] }

/-- The entries of a run and the place of each key among them. -/
structure Catalog where
  entries : Array Entry
  index : Std.TreeMap Key Nat Key.compare

namespace Catalog

/-- A catalog with no entries. -/
def empty : Catalog :=
  ⟨#[], ∅⟩

instance : Inhabited Catalog := ⟨empty⟩

/-- The entry of a key. -/
def get? (c : Catalog) (key : Key) : Option Entry :=
  c.index[key]?.bind fun i => c.entries[i]?

/-- Why a record is turned away. -/
inductive Refusal where
  /-- Its domain is not wanted. -/
  | domainMismatch
  /-- It has no text; the empty text belongs to the header. -/
  | emptyText
  deriving DecidableEq, Repr

/-- What became of a record. -/
inductive Outcome where
  /-- It made a new entry. -/
  | inserted
  /-- It was added to an entry. -/
  | merged
  | refused (reason : Refusal)
  deriving DecidableEq, Repr

/-- The record is in the catalog. -/
def Outcome.isAccepted : Outcome → Bool
  | .inserted | .merged => true
  | .refused _ => false

/-- Why a record is turned away, if it is. The domain is looked at before the text. -/
def refusal? (filter : DomainFilter) (r : Record) : Option Refusal :=
  if !filter.accepts r.domain then some .domainMismatch
  else if r.text.isEmpty then some .emptyText
  else none

/-- A record added to the entry of its key, or as a new entry at the end. -/
def insert (c : Catalog) (r : Record) : Outcome × Catalog :=
  let key : Key := ⟨r.context, r.text⟩
  match c.index[key]? with
  | some i => (.merged, { c with entries := c.entries.modify i (·.merge r.location r.plural) })
  | none =>
    (.inserted,
      { entries := c.entries.push ⟨r.context, r.text, r.plural, [r.location]⟩
        index := c.index.insert key c.entries.size })

/-- A record taken in, or turned away. -/
def ingest (filter : DomainFilter) (c : Catalog) (r : Record) : Outcome × Catalog :=
  match refusal? filter r with
  | some reason => (.refused reason, c)
  | none => c.insert r

end Catalog

end PotExtract
