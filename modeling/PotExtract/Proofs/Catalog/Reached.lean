import PotExtract.Catalog

/-!
# Catalogs that a run reaches

A run takes in one record after another, under any filter each.

* `ingest_cases`: what one record can do to a catalog;
* `Reached`: a catalog that some run ends with;
* `Reached.forall_entries`: what holds of new entries and survives merging
  holds of all;
* `Reached.exists_record`: where entries come from.
-/

namespace PotExtract.Catalog

theorem refusal?_eq_none {filter : DomainFilter} {r : Record} :
    refusal? filter r = none ↔ filter.accepts r.domain = true ∧ r.text ≠ "" := by
  unfold refusal?
  cases filter.accepts r.domain with
  | false => simp
  | true => simp

/-- What one record can do: it is refused, it is merged into the entry of its key, or it makes a
new entry at the end. -/
theorem ingest_cases (filter : DomainFilter) (c : Catalog) (r : Record) :
    (∃ reason, refusal? filter r = some reason ∧ c.ingest filter r = (.refused reason, c)) ∨
    (refusal? filter r = none ∧ ∃ i, c.index[(⟨r.context, r.text⟩ : Key)]? = some i ∧
      c.ingest filter r =
        (.merged, { c with entries := c.entries.modify i (·.merge r.location r.plural) })) ∨
    (refusal? filter r = none ∧ c.index[(⟨r.context, r.text⟩ : Key)]? = none ∧
      c.ingest filter r =
        (.inserted,
          { entries := c.entries.push ⟨r.context, r.text, r.plural, [r.location]⟩
            index := c.index.insert ⟨r.context, r.text⟩ c.entries.size })) := by
  cases hr : refusal? filter r with
  | some reason => exact .inl ⟨reason, rfl, by simp [ingest, hr]⟩
  | none =>
    cases hi : c.index[(⟨r.context, r.text⟩ : Key)]? with
    | some i => exact .inr (.inl ⟨rfl, i, rfl, by simp [ingest, hr, insert, hi]⟩)
    | none => exact .inr (.inr ⟨rfl, rfl, by simp [ingest, hr, insert, hi]⟩)

/-- A catalog that a run over some of the `allowed` records ends with. -/
inductive Reached (allowed : Record → Prop) : Catalog → Prop where
  | empty : Reached allowed .empty
  | ingest {c : Catalog} (before : Reached allowed c) (filter : DomainFilter) {r : Record}
      (h : allowed r) : Reached allowed (c.ingest filter r).2

section
variable {allowed : Record → Prop} {P : Entry → Prop}

/-- One record keeps what holds of new entries and survives merging. -/
theorem forall_entries_ingest {filter : DomainFilter} {c : Catalog} {r : Record}
    (new : r.text ≠ "" → P ⟨r.context, r.text, r.plural, [r.location]⟩)
    (merge : ∀ e, P e → P (e.merge r.location r.plural)) (h : ∀ e ∈ c.entries, P e) :
    ∀ e ∈ (c.ingest filter r).2.entries, P e := by
  rcases ingest_cases filter c r with ⟨_, -, hc⟩ | ⟨-, i, -, hc⟩ | ⟨accepted, -, hc⟩
  · rw [hc]
    exact h
  · intro e he
    rw [hc] at he
    obtain ⟨j, hj⟩ := Array.mem_iff_getElem?.1 he
    rw [Array.getElem?_modify] at hj
    split at hj
    · obtain ⟨d, hd, rfl⟩ := Option.map_eq_some_iff.1 hj
      exact merge d (h d (Array.mem_of_getElem? hd))
    · exact h e (Array.mem_of_getElem? hj)
  · intro e he
    rw [hc] at he
    rcases Array.mem_push.1 he with he | rfl
    · exact h e he
    · exact new (refusal?_eq_none.1 accepted).2

theorem Reached.forall_entries {c : Catalog} (h : Reached allowed c)
    (new : ∀ r, allowed r → r.text ≠ "" → P ⟨r.context, r.text, r.plural, [r.location]⟩)
    (merge : ∀ e r, allowed r → P e → P (e.merge r.location r.plural)) :
    ∀ e ∈ c.entries, P e := by
  induction h with
  | empty =>
    intro e he
    cases he
    contradiction
  | @ingest c _ filter r hr ih =>
    exact forall_entries_ingest (new r hr) (fun e => merge e r hr) ih

theorem Reached.msgid_ne_empty {c : Catalog} (h : Reached allowed c) {e : Entry}
    (he : e ∈ c.entries) : e.msgid ≠ "" := by
  refine h.forall_entries (P := fun e => e.msgid ≠ "") ?_ ?_ e he
  · intro r _ ne
    exact ne
  · intro e r _ he
    exact he

/-- An entry was found only where some record of the run was. -/
theorem Reached.exists_record {c : Catalog} (h : Reached allowed c) {e : Entry}
    (he : e ∈ c.entries) {l : Source.Location} (hl : l ∈ e.occurrences) :
    ∃ r, allowed r ∧ r.location = l := by
  refine h.forall_entries (P := fun e => ∀ l ∈ e.occurrences, ∃ r, allowed r ∧ r.location = l)
    ?_ ?_ e he l hl
  · intro r hr _ l hl
    exact ⟨r, hr, (List.mem_singleton.1 hl).symm⟩
  · intro e r hr he l hl
    simp only [Entry.merge] at hl
    split at hl
    · exact he l hl
    · rcases List.mem_append.1 hl with hl | hl
      · exact he l hl
      · exact ⟨r, hr, (List.mem_singleton.1 hl).symm⟩

end

end PotExtract.Catalog
