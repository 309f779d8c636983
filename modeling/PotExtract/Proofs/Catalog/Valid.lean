import PotExtract.Proofs.Catalog.Reached
import Mathlib.Data.List.Nodup

/-!
# The catalog and its index

The index of a catalog finds the entry of each key, and a record only ever
adds to the entries that are there.

* `Valid`: the index and the entries agree, and each entry is well formed;
* `Valid.ingest`, `Reached.valid`: one record keeps that, and so does a run;
* `Valid.get?_eq_some_iff`: what is found under a key;
* `Extends`, `extends_ingest`: what one record leaves as it was.
-/

namespace PotExtract

/-- What an entry of a catalog has. -/
structure Entry.WellFormed (e : Entry) : Prop where
  msgid_ne : e.msgid ≠ ""
  found : e.occurrences ≠ []
  nodup : e.occurrences.Nodup

/-- One entry goes on from another. -/
structure Entry.Extends (e later : Entry) : Prop where
  context_eq : later.context = e.context
  msgid_eq : later.msgid = e.msgid
  plural_eq : ∀ plural, e.plural = some plural → later.plural = some plural
  occurrences_kept : e.occurrences <+: later.occurrences

theorem Entry.Extends.refl (e : Entry) : e.Extends e :=
  ⟨rfl, rfl, fun _ h => h, List.prefix_refl _⟩

@[simp] theorem Entry.key_merge (e : Entry) (l : Source.Location) (plural : Option String) :
    (e.merge l plural).key = e.key := rfl

theorem Entry.extends_merge (e : Entry) (l : Source.Location) (plural : Option String) :
    e.Extends (e.merge l plural) := by
  refine ⟨rfl, rfl, ?_, ?_⟩
  · intro first h
    simp [merge, h]
  · simp only [merge]
    split
    · exact List.prefix_refl _
    · exact List.prefix_append _ _

theorem Entry.WellFormed.merge {e : Entry} (h : e.WellFormed) (l : Source.Location)
    (plural : Option String) : (e.merge l plural).WellFormed := by
  refine ⟨h.msgid_ne, ?_, ?_⟩
  · obtain ⟨more, hmore⟩ := (e.extends_merge l plural).occurrences_kept
    rw [← hmore]
    exact List.append_ne_nil_of_left_ne_nil h.found more
  · simp only [Entry.merge]
    split
    · exact h.nodup
    · rename_i hl
      exact List.nodup_append.2 ⟨h.nodup, List.nodup_singleton l, by
        rintro a ha b hb rfl
        exact hl (List.mem_singleton.1 hb ▸ ha)⟩

namespace Catalog

/-- The keys of the entries, by their places. -/
def keys (c : Catalog) : Array Key :=
  c.entries.map Entry.key

/-- A catalog whose index and entries agree. -/
structure Valid (c : Catalog) : Prop where
  /-- A key is bound to the place of its entry, and to no other. -/
  index_iff : ∀ (key : Key) (i : Nat), c.index[key]? = some i ↔ c.keys[i]? = some key
  size_index : c.index.size = c.entries.size
  wellFormed : ∀ e ∈ c.entries, e.WellFormed

theorem valid_empty : Valid .empty := by
  refine ⟨?_, rfl, ?_⟩
  · intro key i
    simp [empty, keys]
  · intro e he
    simp [empty] at he

theorem keys_modify_merge (c : Catalog) (i : Nat) (l : Source.Location)
    (plural : Option String) :
    keys { c with entries := c.entries.modify i (·.merge l plural) } = c.keys := by
  apply Array.ext_getElem?
  intro j
  simp only [keys, Array.getElem?_map, Array.getElem?_modify]
  split
  · simp [Function.comp_def]
  · rfl

/-- An index with one more key, bound to the place past the last. -/
theorem index_iff_push {c : Catalog} (h : c.Valid) {key : Key} (new : c.index[key]? = none)
    (k : Key) (i : Nat) :
    (c.index.insert key c.entries.size)[k]? = some i ↔ (c.keys.push key)[i]? = some k := by
  have size : c.keys.size = c.entries.size := Array.size_map ..
  rw [Std.TreeMap.getElem?_insert, Array.getElem?_push, size]
  simp only [Std.LawfulEqCmp.compare_eq_iff_eq]
  by_cases hk : key = k
  · subst hk
    have nowhere : c.keys[i]? ≠ some key := by
      simp [← h.index_iff, new]
    by_cases hi : i = c.entries.size
    · simp [hi]
    · simp [hi, nowhere, Ne.symm hi]
  · by_cases hi : i = c.entries.size
    · have past : c.keys[i]? = none := Array.getElem?_eq_none (by omega)
      simp [hk, hi ▸ past, h.index_iff, hi]
    · simp [hk, hi, h.index_iff]

theorem Valid.ingest {c : Catalog} (h : c.Valid) (filter : DomainFilter) (r : Record) :
    (c.ingest filter r).2.Valid := by
  have wellFormed : ∀ e ∈ (c.ingest filter r).2.entries, e.WellFormed := by
    apply forall_entries_ingest _ (fun e he => he.merge r.location r.plural) h.wellFormed
    intro ne
    exact ⟨ne, List.cons_ne_nil _ _, List.nodup_singleton _⟩
  rcases ingest_cases filter c r with ⟨_, -, hc⟩ | ⟨-, i, -, hc⟩ | ⟨-, new, hc⟩
  · rw [hc]
    exact h
  · rw [hc] at wellFormed ⊢
    refine ⟨?_, ?_, wellFormed⟩
    · rw [keys_modify_merge]
      exact h.index_iff
    · simpa using h.size_index
  · rw [hc] at wellFormed ⊢
    refine ⟨?_, ?_, wellFormed⟩
    · intro k i
      rw [index_iff_push h new]
      simp [keys, Entry.key]
    · have absent : ¬ c.index.contains (⟨r.context, r.text⟩ : Key) := by
        simp [← Std.TreeMap.isSome_getElem?_eq_contains, new]
      simp [Std.TreeMap.size_insert, absent, h.size_index]

theorem Reached.valid {allowed : Record → Prop} {c : Catalog} (h : Reached allowed c) :
    c.Valid := by
  induction h with
  | empty => exact valid_empty
  | ingest _ filter _ ih => exact ih.ingest filter _

/-! ## Looking entries up -/

theorem Valid.nodup_keys {c : Catalog} (h : c.Valid) : c.keys.toList.Nodup := by
  rw [List.nodup_iff_pairwise_ne, List.pairwise_iff_getElem]
  intro i j hi hj hij heq
  rw [Array.getElem_toList, Array.getElem_toList] at heq
  have first := (h.index_iff c.keys[j] i).2 (heq ▸ Array.getElem?_eq_getElem hi)
  have second := (h.index_iff c.keys[j] j).2 (Array.getElem?_eq_getElem hj)
  rw [first] at second
  exact absurd (Option.some.inj second) (Nat.ne_of_lt hij)

theorem Valid.lt_size {c : Catalog} (h : c.Valid) {key : Key} {i : Nat}
    (hi : c.index[key]? = some i) : i < c.entries.size := by
  obtain ⟨inside, -⟩ := Array.getElem?_eq_some_iff.1 ((h.index_iff key i).1 hi)
  simpa [keys] using inside

/-- What is found under a key is the entry that has it. -/
theorem Valid.get?_eq_some_iff {c : Catalog} (h : c.Valid) {key : Key} {e : Entry} :
    c.get? key = some e ↔ e ∈ c.entries ∧ e.key = key := by
  have keyAt (i : Nat) : c.keys[i]? = c.entries[i]?.map Entry.key := Array.getElem?_map ..
  simp only [get?, Option.bind_eq_some_iff, h.index_iff, keyAt]
  constructor
  · rintro ⟨i, hkey, he⟩
    rw [he] at hkey
    exact ⟨Array.mem_of_getElem? he, Option.some.inj hkey⟩
  · rintro ⟨he, rfl⟩
    obtain ⟨i, hi⟩ := Array.mem_iff_getElem?.1 he
    exact ⟨i, by rw [hi]; rfl, hi⟩

/-! ## One record more -/

/-- The entries of one catalog go on in another, each at its place. -/
def Extends (c later : Catalog) : Prop :=
  ∀ (i : Nat) (e : Entry), c.entries[i]? = some e →
    ∃ e', later.entries[i]? = some e' ∧ e.Extends e'

theorem extends_ingest (filter : DomainFilter) (c : Catalog) (r : Record) :
    c.Extends (c.ingest filter r).2 := by
  intro i e he
  rcases ingest_cases filter c r with ⟨_, -, hc⟩ | ⟨-, j, -, hc⟩ | ⟨-, -, hc⟩
  · rw [hc]
    exact ⟨e, he, .refl e⟩
  · rw [hc]
    simp only [Array.getElem?_modify, he]
    split
    · exact ⟨_, rfl, e.extends_merge _ _⟩
    · exact ⟨e, rfl, .refl e⟩
  · obtain ⟨inside, -⟩ := Array.getElem?_eq_some_iff.1 he
    rw [hc]
    exact ⟨e, by rw [Array.getElem?_push_lt inside, ← he, Array.getElem?_eq_getElem inside],
      .refl e⟩

/-- **The index never loses touch with the entries.** In every catalog of a run, whatever the
filters were, the index binds the key of each entry to its place and nothing else, no key occurs
twice, each entry is well formed, and a key finds its own entry or none. The next record only
extends what is there. -/
theorem Reached.coherent {allowed : Record → Prop} {c : Catalog} (h : Reached allowed c) :
    c.Valid ∧ c.keys.toList.Nodup ∧
      (∀ (key : Key) (i : Nat), c.index[key]? = some i → i < c.entries.size) ∧
      (∀ (key : Key) (e : Entry), c.get? key = some e ↔ e ∈ c.entries ∧ e.key = key) ∧
      ∀ (filter : DomainFilter) (r : Record), c.Extends (c.ingest filter r).2 :=
  ⟨h.valid, h.valid.nodup_keys, fun _ _ hi => h.valid.lt_size hi,
    fun _ _ => h.valid.get?_eq_some_iff, fun filter r => extends_ingest filter c r⟩

/-- Four records under changing filters: one has an empty context, one is refused, and the last
brings a plural. -/
def shopRun : Catalog :=
  let first := (Catalog.empty.ingest .any ⟨⟨"Post", none, none, none⟩, ⟨"a", 1⟩⟩).2
  let second := (first.ingest (.exact "shop") ⟨⟨"Post", none, some "", some "shop"⟩, ⟨"a", 1⟩⟩).2
  let third := (second.ingest (.exact "shop") ⟨⟨"Post", none, none, none⟩, ⟨"a", 2⟩⟩).2
  (third.ingest .any ⟨⟨"Post", some "Posts", none, none⟩, ⟨"b", 1⟩⟩).2

theorem Reached.coherent_shopRun :
    Reached (fun _ => True) shopRun ∧
      shopRun.get? ⟨none, "Post"⟩ =
        some ⟨none, "Post", some "Posts", [⟨"a", 1⟩, ⟨"b", 1⟩]⟩ := by
  have reached : Reached (fun _ => True) shopRun :=
    .ingest (.ingest (.ingest (.ingest .empty _ trivial) _ trivial) _ trivial) _ trivial
  have entries : shopRun.entries.toList =
      [⟨none, "Post", some "Posts", [⟨"a", 1⟩, ⟨"b", 1⟩]⟩, ⟨some "", "Post", none, [⟨"a", 1⟩]⟩] :=
    rfl
  have mem : ⟨none, "Post", some "Posts", [⟨"a", 1⟩, ⟨"b", 1⟩]⟩ ∈ shopRun.entries := by
    rw [← Array.mem_toList_iff, entries]
    exact List.mem_cons_self
  obtain ⟨-, -, -, finds, -⟩ := Reached.coherent reached
  exact ⟨reached, (finds _ _).2 ⟨mem, rfl⟩⟩

end Catalog

end PotExtract
