import PotExtract.Collection
import PotExtract.Proofs.Catalog.Valid

/-!
# The catalog as a grouping

A catalog is what grouping its accepted records by key gives: keys, places and
plurals in the order in which they first appear.

* `grouping`: some records grouped by key;
* `grouping_concat`: one record more, merged into its entry or a new entry;
* `toList_ingest`, `toList_ingestAll`: a catalog follows the grouping, record
  by record;
* `entries_ingestAll`: the catalog of a list of records.
-/

namespace PotExtract

/-- The key of the entry that a record belongs to. -/
def Record.key (r : Record) : Key :=
  ⟨r.context, r.text⟩

/-- The filter asks for the record's domain, if it asks for any, and there is text to translate. -/
structure Record.Accepted (filter : DomainFilter) (r : Record) : Prop where
  domain_eq : ∀ domain, filter = .exact domain → r.domain = some domain
  text_ne : r.text ≠ ""

namespace Catalog

theorem refusal?_eq_none_iff_accepted {filter : DomainFilter} {r : Record} :
    refusal? filter r = none ↔ r.Accepted filter := by
  have accepts : filter.accepts r.domain = true ↔
      ∀ domain, filter = .exact domain → r.domain = some domain := by
    cases filter with
    | any => simp [DomainFilter.accepts]
    | exact wanted => simp [DomainFilter.accepts]
  rw [refusal?_eq_none, accepts]
  exact ⟨fun h => ⟨h.1, h.2⟩, fun h => ⟨h.domain_eq, h.text_ne⟩⟩

instance (filter : DomainFilter) (r : Record) : Decidable (r.Accepted filter) :=
  decidable_of_iff _ refusal?_eq_none_iff_accepted

/-- A record that is not accepted changes nothing. -/
theorem ingest_eq_self {filter : DomainFilter} {r : Record} (h : ¬ r.Accepted filter)
    (c : Catalog) : (c.ingest filter r).2 = c := by
  rw [← refusal?_eq_none_iff_accepted] at h
  obtain ⟨reason, hreason⟩ := Option.ne_none_iff_exists'.1 h
  simp [ingest, hreason]

/-! ## Grouping records -/

/-- The records of a key. -/
def recordsOf (rs : List Record) (key : Key) : List Record :=
  rs.filter fun r => r.key = key

/-- The entry that the records of a key make: the first plural that any of them has, and their
places, each where it first appears. -/
def entryOf (rs : List Record) (key : Key) : Entry where
  context := key.context
  msgid := key.msgid
  plural := (recordsOf rs key).findSome? fun r => r.plural
  occurrences := ((recordsOf rs key).map fun r => r.location).eraseDups

/-- Records grouped by key. The keys are in the order in which they first appear. -/
def grouping (rs : List Record) : List Entry :=
  (rs.map Record.key).eraseDups.map (entryOf rs)

@[simp] theorem key_entryOf (rs : List Record) (key : Key) : (entryOf rs key).key = key := rfl

theorem map_key_grouping (rs : List Record) :
    (grouping rs).map Entry.key = (rs.map Record.key).eraseDups := by
  simp [grouping, Function.comp_def]

theorem eraseDups_concat {α : Type} [DecidableEq α] (l : List α) (a : α) :
    (l ++ [a]).eraseDups = if a ∈ l then l.eraseDups else l.eraseDups ++ [a] := by
  rw [List.eraseDups_append]
  by_cases h : a ∈ l
  · simp [List.removeAll, h]
  · simp [List.removeAll, h, List.eraseDups_cons]

/-- One record more is merged into the entry of its key, which may have had no record before. -/
theorem entryOf_concat (rs : List Record) (r : Record) (key : Key) :
    entryOf (rs ++ [r]) key =
      if key = r.key then (entryOf rs key).merge r.location r.plural else entryOf rs key := by
  by_cases h : key = r.key
  · subst h
    have records : recordsOf (rs ++ [r]) r.key = recordsOf rs r.key ++ [r] := by
      simp [recordsOf]
    simp [entryOf, records, Entry.merge, List.findSome?_append, eraseDups_concat]
  · have records : recordsOf (rs ++ [r]) key = recordsOf rs key := by
      simp [recordsOf, Ne.symm h]
    simp [entryOf, records, h]

theorem entryOf_new {rs : List Record} {r : Record} (h : r.key ∉ rs.map Record.key) :
    (entryOf rs r.key).merge r.location r.plural = ⟨r.context, r.text, r.plural, [r.location]⟩ := by
  have records : recordsOf rs r.key = [] := by
    rw [recordsOf, List.filter_eq_nil_iff]
    intro s hs
    have ne : s.key ≠ r.key := fun heq => h (heq ▸ List.mem_map_of_mem hs)
    simpa using ne
  simp only [entryOf, records, Entry.merge]
  simp [Record.key]

/-- One record more: the entry of its key is merged where it stands, or stands last. -/
theorem grouping_concat (rs : List Record) (r : Record) :
    grouping (rs ++ [r]) =
      if r.key ∈ rs.map Record.key then
        (grouping rs).map fun e => if e.key = r.key then e.merge r.location r.plural else e
      else grouping rs ++ [⟨r.context, r.text, r.plural, [r.location]⟩] := by
  have keys : ((rs ++ [r]).map Record.key).eraseDups =
      if r.key ∈ rs.map Record.key then (rs.map Record.key).eraseDups
      else (rs.map Record.key).eraseDups ++ [r.key] := by
    rw [List.map_append, List.map_singleton, eraseDups_concat]
  by_cases h : r.key ∈ rs.map Record.key
  · rw [grouping, keys, if_pos h, if_pos h, grouping, List.map_map]
    apply List.map_congr_left
    intro key _
    exact entryOf_concat rs r key
  · rw [grouping, keys, if_neg h, if_neg h, List.map_append, List.map_singleton, entryOf_concat,
      if_pos rfl, entryOf_new h]
    congr 1
    apply List.map_congr_left
    intro key hkey
    have ne : key ≠ r.key := by
      rintro rfl
      exact h (List.mem_eraseDups.1 hkey)
    rw [entryOf_concat, if_neg ne]

/-! ## Catalogs -/

/-- In a catalog that agrees with its index, the entry at the place of a key is the one that has
it. -/
theorem Valid.modify_eq_map {c : Catalog} (h : c.Valid) {key : Key} {i : Nat}
    (hi : c.index[key]? = some i) (f : Entry → Entry) :
    c.entries.modify i f = c.entries.map fun e => if e.key = key then f e else e := by
  apply Array.ext_getElem?
  intro j
  rw [Array.getElem?_modify, Array.getElem?_map]
  cases he : c.entries[j]? with
  | none => simp
  | some e =>
    have here : i = j ↔ e.key = key := by
      rw [← Option.some_inj, ← hi, h.index_iff, keys, Array.getElem?_map, he]
      simp
    simp only [here, Option.map_some]
    split <;> rfl

/-- A key that no record has is a key that the index does not bind. -/
theorem Valid.index_eq_none_iff {c : Catalog} (h : c.Valid) {rs : List Record}
    (grouped : c.entries.toList = grouping rs) {key : Key} :
    c.index[key]? = none ↔ key ∉ rs.map Record.key := by
  have bound : key ∈ rs.map Record.key ↔ key ∈ c.keys := by
    rw [← List.mem_eraseDups, ← map_key_grouping, ← grouped, ← Array.toList_map,
      Array.mem_toList_iff, keys]
  rw [bound, Array.mem_iff_getElem?, Option.eq_none_iff_forall_ne_some, not_exists]
  exact forall_congr' fun i => not_congr (h.index_iff key i)

/-- An accepted record takes a catalog from one grouping to the next. -/
theorem toList_ingest {filter : DomainFilter} {c : Catalog} (h : c.Valid) {rs : List Record}
    (grouped : c.entries.toList = grouping rs) {r : Record} (accepted : r.Accepted filter) :
    (c.ingest filter r).2.entries.toList = grouping (rs ++ [r]) := by
  rw [grouping_concat]
  rcases ingest_cases filter c r with ⟨_, refused, -⟩ | ⟨-, i, hi, hc⟩ | ⟨-, new, hc⟩
  · rw [refusal?_eq_none_iff_accepted.2 accepted] at refused
    cases refused
  · have known : r.key ∈ rs.map Record.key := by
      by_contra absent
      have unbound : c.index[r.key]? = none := (h.index_eq_none_iff grouped).2 absent
      exact absurd (unbound.symm.trans hi) (by simp)
    rw [hc, if_pos known, h.modify_eq_map hi, Array.toList_map, grouped]
    rfl
  · have absent : r.key ∉ rs.map Record.key := (h.index_eq_none_iff grouped).1 new
    rw [hc, if_neg absent, Array.toList_push, grouped]

/-- A list of records takes a catalog on, from whatever grouping it has reached. -/
theorem toList_ingestAll (filter : DomainFilter) {c : Catalog} (h : c.Valid) {seen : List Record}
    (grouped : c.entries.toList = grouping seen) (rs : List Record) :
    (c.ingestAll filter rs).2.entries.toList =
      grouping (seen ++ rs.filter fun r => r.Accepted filter) := by
  induction rs generalizing c seen with
  | nil => simpa [ingestAll] using grouped
  | cons r rs ih =>
    by_cases accepted : r.Accepted filter
    · have next := ih (h.ingest filter r) (toList_ingest h grouped accepted)
      simpa [ingestAll, accepted] using next
    · have same : (c.ingest filter r).2.entries.toList = grouping seen := by
        rw [ingest_eq_self accepted, grouped]
      have next := ih (h.ingest filter r) same
      simpa [ingestAll, accepted] using next

/-- **A catalog is the grouping of its accepted records.** A list of records taken into an empty
catalog leaves the keys of the accepted records in the order in which they first appear, each with
the places where it was found, in that order too, and the first plural that any of its records
has. A record that is not accepted leaves any catalog as it was. -/
theorem entries_ingestAll (filter : DomainFilter) (rs : List Record) :
    (Catalog.empty.ingestAll filter rs).2.entries.toList =
        grouping (rs.filter fun r => r.Accepted filter) ∧
      ∀ (c : Catalog) (r : Record), ¬ r.Accepted filter → (c.ingest filter r).2 = c := by
  constructor
  · have start : Catalog.empty.entries.toList = grouping [] := rfl
    simpa using toList_ingestAll filter valid_empty start rs
  · intro c r refused
    exact ingest_eq_self refused c

end Catalog

end PotExtract
