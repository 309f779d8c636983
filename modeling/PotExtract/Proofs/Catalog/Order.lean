import PotExtract.Proofs.Catalog.Grouping
import PotExtract.Proofs.Catalog.Runs

/-!
# Records in another order, and records again

What a catalog holds does not depend on the order of its records, and records
that it holds already leave it as it is.

* `key_mem_grouping_iff`, `location_mem_iff`, `plural_isSome_iff`: what is in
  a catalog, said of its records without their order;
* `Similar`: two catalogs with the same content;
* `Knows`: a catalog that has what a record says;
* `ingest_of_knows`: such a record is merged and changes nothing;
* `order_and_repetition`: permuted records give similar catalogs, and a second
  pass over the same records gives the same one.
-/

namespace PotExtract

theorem Entry.merge_has (e : Entry) (l : Source.Location) (plural : Option String) :
    l ∈ (e.merge l plural).occurrences ∧ (plural.isSome → (e.merge l plural).plural.isSome) := by
  constructor
  · simp only [Entry.merge]
    split
    · assumption
    · simp
  · intro h
    cases he : e.plural with
    | none => simpa [Entry.merge, he] using h
    | some first => simp [Entry.merge, he]

/-- What an entry has already, changes nothing when it is merged. -/
theorem Entry.merge_eq_self {e : Entry} {l : Source.Location} {plural : Option String}
    (place : l ∈ e.occurrences) (h : plural.isSome → e.plural.isSome) : e.merge l plural = e := by
  have same : (e.plural <|> plural) = e.plural := by
    cases he : e.plural with
    | some first => rfl
    | none =>
      cases plural with
      | none => rfl
      | some p => simp [he] at h
  rw [Entry.merge, if_pos place, same]

namespace Catalog

/-! ## The order of records -/

/-- Two catalogs with the same keys, each found at the same places and with or without a plural in
both. Which plural it is may differ. -/
structure Similar (c d : Catalog) : Prop where
  keys_perm : c.keys.toList.Perm d.keys.toList
  occurrences_perm : ∀ e ∈ c.entries, ∀ f ∈ d.entries, e.key = f.key →
    e.occurrences.Perm f.occurrences
  plural_iff : ∀ e ∈ c.entries, ∀ f ∈ d.entries, e.key = f.key →
    (e.plural.isSome ↔ f.plural.isSome)

section
variable {rs : List Record}

theorem mem_recordsOf {key : Key} {r : Record} : r ∈ recordsOf rs key ↔ r ∈ rs ∧ r.key = key := by
  simp [recordsOf]

theorem key_mem_grouping_iff {key : Key} :
    key ∈ (grouping rs).map Entry.key ↔ ∃ r ∈ rs, r.key = key := by
  rw [map_key_grouping, List.mem_eraseDups, List.mem_map]

theorem eq_entryOf_of_mem {e : Entry} (he : e ∈ grouping rs) : e = entryOf rs e.key := by
  obtain ⟨key, -, rfl⟩ := List.mem_map.1 he
  rw [key_entryOf]

/-- An entry has the places of the records of its key. -/
theorem location_mem_iff {e : Entry} (he : e ∈ grouping rs) {l : Source.Location} :
    l ∈ e.occurrences ↔ ∃ r ∈ rs, r.key = e.key ∧ r.location = l := by
  have places : e.occurrences = ((recordsOf rs e.key).map fun r => r.location).eraseDups :=
    congrArg Entry.occurrences (eq_entryOf_of_mem he)
  rw [places, List.mem_eraseDups, List.mem_map]
  simp only [mem_recordsOf, and_assoc]

/-- An entry has a plural if a record of its key has one. -/
theorem plural_isSome_iff {e : Entry} (he : e ∈ grouping rs) :
    e.plural.isSome ↔ ∃ r ∈ rs, r.key = e.key ∧ r.plural.isSome := by
  have first : e.plural = (recordsOf rs e.key).findSome? fun r => r.plural :=
    congrArg Entry.plural (eq_entryOf_of_mem he)
  rw [first, List.findSome?_isSome_iff]
  simp only [mem_recordsOf, and_assoc]

end

/-- Catalogs that group permuted records hold the same. -/
theorem similar_of_grouping {c d : Catalog} (hc : c.Valid) (hd : d.Valid) {rs rs' : List Record}
    (perm : rs.Perm rs') (groupedC : c.entries.toList = grouping rs)
    (groupedD : d.entries.toList = grouping rs') : c.Similar d := by
  have inC {e : Entry} (he : e ∈ c.entries) : e ∈ grouping rs :=
    groupedC ▸ Array.mem_toList_iff.2 he
  have inD {f : Entry} (hf : f ∈ d.entries) : f ∈ grouping rs' :=
    groupedD ▸ Array.mem_toList_iff.2 hf
  constructor
  · apply (List.perm_ext_iff_of_nodup hc.nodup_keys hd.nodup_keys).2
    intro key
    rw [keys, keys, Array.toList_map, Array.toList_map, groupedC, groupedD, key_mem_grouping_iff,
      key_mem_grouping_iff]
    simp only [perm.mem_iff]
  · intro e he f hf same
    apply (List.perm_ext_iff_of_nodup (hc.wellFormed e he).nodup (hd.wellFormed f hf).nodup).2
    intro l
    rw [location_mem_iff (inC he), location_mem_iff (inD hf), same]
    simp only [perm.mem_iff]
  · intro e he f hf same
    rw [plural_isSome_iff (inC he), plural_isSome_iff (inD hf), same]
    simp only [perm.mem_iff]

/-- Records in another order make a similar catalog. -/
theorem similar_of_perm (filter : DomainFilter) {rs rs' : List Record} (perm : rs.Perm rs') :
    (Catalog.empty.ingestAll filter rs).2.Similar (Catalog.empty.ingestAll filter rs').2 := by
  have grouped (rs : List Record) : (Catalog.empty.ingestAll filter rs).2.entries.toList =
      grouping ([] ++ rs.filter fun r => r.Accepted filter) :=
    toList_ingestAll filter valid_empty rfl rs
  apply similar_of_grouping (valid_empty.ingestAll filter rs) (valid_empty.ingestAll filter rs')
    _ (grouped rs) (grouped rs')
  exact perm.filter _

/-! ## The same records again -/

/-- The catalog has what a record says: its key, its place, and some plural if the record has
one. -/
def Knows (c : Catalog) (r : Record) : Prop :=
  ∃ (i : Nat) (e : Entry), c.entries[i]? = some e ∧ e.key = r.key ∧
    r.location ∈ e.occurrences ∧ (r.plural.isSome → e.plural.isSome)

/-- A catalog that goes on forgets nothing. -/
theorem Knows.extends {c d : Catalog} {r : Record} (h : c.Knows r) (ext : c.Extends d) :
    d.Knows r := by
  obtain ⟨i, e, he, key, place, plural⟩ := h
  obtain ⟨e', he', more⟩ := ext i e he
  refine ⟨i, e', he', ?_, ?_, ?_⟩
  · rw [← key, Entry.key, Entry.key, more.context_eq, more.msgid_eq]
  · exact more.occurrences_kept.subset place
  · intro hr
    obtain ⟨p, hp⟩ := Option.isSome_iff_exists.1 (plural hr)
    rw [more.plural_eq p hp]
    rfl

/-- A record that is taken in is known from then on. -/
theorem knows_ingest {c : Catalog} (h : c.Valid) {filter : DomainFilter} {r : Record}
    (accepted : refusal? filter r = none) : (c.ingest filter r).2.Knows r := by
  rcases ingest_cases filter c r with ⟨_, refused, -⟩ | ⟨-, i, hi, hc⟩ | ⟨-, -, hc⟩
  · rw [accepted] at refused
    cases refused
  · have here := (h.index_iff _ i).1 hi
    rw [keys, Array.getElem?_map] at here
    obtain ⟨e, he, key⟩ := Option.map_eq_some_iff.1 here
    have has := e.merge_has r.location r.plural
    refine ⟨i, e.merge r.location r.plural, ?_, key, has.1, has.2⟩
    rw [hc, Array.getElem?_modify, if_pos rfl, he]
    rfl
  · refine ⟨c.entries.size, ⟨r.context, r.text, r.plural, [r.location]⟩, ?_, rfl, ?_, id⟩
    · rw [hc]
      exact Array.getElem?_push_size
    · exact List.mem_singleton.2 rfl

/-- A record that the catalog knows is merged, and nothing changes. -/
theorem ingest_of_knows {c : Catalog} (h : c.Valid) {filter : DomainFilter} {r : Record}
    (known : c.Knows r) (accepted : refusal? filter r = none) :
    c.ingest filter r = (.merged, c) := by
  obtain ⟨i, e, he, key, place, plural⟩ := known
  have bound : c.index[(⟨r.context, r.text⟩ : Key)]? = some i := by
    rw [h.index_iff, keys, Array.getElem?_map, he]
    exact congrArg some key
  have same : c.entries.modify i (·.merge r.location r.plural) = c.entries := by
    apply Array.ext_getElem?
    intro j
    rw [Array.getElem?_modify]
    split
    case isTrue hj =>
      subst hj
      rw [he, Option.map_some, Entry.merge_eq_self place plural]
    case isFalse => rfl
  simp [ingest, accepted, insert, bound, same]

/-- Every record of a list that is taken in is known in the end. -/
theorem knows_ingestAll {filter : DomainFilter} {c : Catalog} (h : c.Valid) {rs : List Record}
    {r : Record} (hr : r ∈ rs) (accepted : refusal? filter r = none) :
    (c.ingestAll filter rs).2.Knows r := by
  induction rs generalizing c with
  | nil => cases hr
  | cons first rs ih =>
    rcases List.mem_cons.1 hr with rfl | later
    · exact (knows_ingest h accepted).extends (extends_ingestAll filter _ rs)
    · exact ih (h.ingest filter first) later

/-- What becomes of a record that the catalog knows if it accepts it. -/
def outcomeAgain (filter : DomainFilter) (r : Record) : Outcome :=
  match refusal? filter r with
  | some reason => .refused reason
  | none => .merged

/-- Records that the catalog knows leave it as it is. -/
theorem ingestAll_of_knows {filter : DomainFilter} {c : Catalog} (h : c.Valid) {rs : List Record}
    (known : ∀ r ∈ rs, refusal? filter r = none → c.Knows r) :
    c.ingestAll filter rs = (rs.map (outcomeAgain filter), c) := by
  induction rs with
  | nil => rfl
  | cons r rs ih =>
    have step : c.ingest filter r = (outcomeAgain filter r, c) := by
      cases hr : refusal? filter r with
      | some reason => simp [ingest, outcomeAgain, hr]
      | none =>
        rw [ingest_of_knows h (known r List.mem_cons_self hr) hr, outcomeAgain, hr]
    have rest := ih fun r hr => known r (List.mem_cons_of_mem _ hr)
    rw [ingestAll_cons, step, rest, List.map_cons]

/-- **Neither the order of the records nor their repetition matters.** Permuted records give the
same keys, each at the same places and with a plural in both catalogs or in neither. Records taken
in a second time leave the catalog just as it is, and each that is accepted is merged. -/
theorem order_and_repetition (filter : DomainFilter) :
    (∀ rs rs' : List Record, rs.Perm rs' →
      (Catalog.empty.ingestAll filter rs).2.Similar (Catalog.empty.ingestAll filter rs').2) ∧
    ∀ rs : List Record,
      (Catalog.empty.ingestAll filter rs).2.ingestAll filter rs =
        (rs.map (outcomeAgain filter), (Catalog.empty.ingestAll filter rs).2) := by
  constructor
  · intro rs rs' perm
    exact similar_of_perm filter perm
  · intro rs
    apply ingestAll_of_knows (valid_empty.ingestAll filter rs)
    intro r hr accepted
    exact knows_ingestAll valid_empty hr accepted

/-- The same message with two plurals, and one for another domain. -/
def postRecords : List Record :=
  [⟨⟨"Post", none, none, some "shop"⟩, ⟨"a", 1⟩⟩,
    ⟨⟨"Post", some "Posts", none, some "shop"⟩, ⟨"b", 1⟩⟩,
    ⟨⟨"Post", some "All posts", none, some "shop"⟩, ⟨"a", 2⟩⟩,
    ⟨⟨"Menu", none, none, some "core"⟩, ⟨"b", 2⟩⟩]

theorem order_and_repetition_posts :
    postRecords.Perm postRecords.reverse ∧
      (Catalog.empty.ingestAll (.exact "shop") postRecords).2.Similar
        (Catalog.empty.ingestAll (.exact "shop") postRecords.reverse).2 ∧
      ((Catalog.empty.ingestAll (.exact "shop") postRecords).2.ingestAll (.exact "shop")
        postRecords).1 = [.merged, .merged, .merged, .refused .domainMismatch] := by
  have perm : postRecords.Perm postRecords.reverse := postRecords.reverse_perm.symm
  obtain ⟨similar, again⟩ := order_and_repetition (.exact "shop")
  refine ⟨perm, similar _ _ perm, ?_⟩
  rw [again]
  rfl

end Catalog

end PotExtract
