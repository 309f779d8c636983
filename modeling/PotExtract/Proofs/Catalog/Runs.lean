import PotExtract.Collection
import PotExtract.Proofs.Catalog.Valid

/-!
# Lists of records taken in

What holds of one record holds of a list of them.

* `ingestAll_append`: a list goes in as its parts, one after the other;
* `Valid.ingestAll`, `extends_ingestAll`: the index keeps in step, and entries
  only go on;
* `size_ingestAll`: each outcome that says so makes one entry.
-/

namespace PotExtract

theorem Entry.Extends.trans {a b c : Entry} (h : a.Extends b) (k : b.Extends c) : a.Extends c :=
  ⟨k.context_eq.trans h.context_eq, k.msgid_eq.trans h.msgid_eq,
    fun plural hp => k.plural_eq plural (h.plural_eq plural hp),
    h.occurrences_kept.trans k.occurrences_kept⟩

namespace Catalog

variable (filter : DomainFilter)

@[simp] theorem ingestAll_nil (c : Catalog) : c.ingestAll filter [] = ([], c) := rfl

@[simp] theorem ingestAll_cons (c : Catalog) (r : Record) (rs : List Record) :
    c.ingestAll filter (r :: rs) =
      ((c.ingest filter r).1 :: ((c.ingest filter r).2.ingestAll filter rs).1,
        ((c.ingest filter r).2.ingestAll filter rs).2) := rfl

theorem ingestAll_append (c : Catalog) (rs more : List Record) :
    c.ingestAll filter (rs ++ more) =
      ((c.ingestAll filter rs).1 ++ ((c.ingestAll filter rs).2.ingestAll filter more).1,
        ((c.ingestAll filter rs).2.ingestAll filter more).2) := by
  induction rs generalizing c with
  | nil => rfl
  | cons r rs ih => simp [ih]

@[simp] theorem length_outcomes (c : Catalog) (rs : List Record) :
    (c.ingestAll filter rs).1.length = rs.length := by
  induction rs generalizing c with
  | nil => rfl
  | cons r rs ih => simp [ih]

theorem Valid.ingestAll {c : Catalog} (h : c.Valid) (rs : List Record) :
    (c.ingestAll filter rs).2.Valid := by
  induction rs generalizing c with
  | nil => exact h
  | cons r rs ih => exact ih (h.ingest filter r)

/-! ## What is there goes on -/

theorem Extends.refl (c : Catalog) : c.Extends c := by
  intro i e he
  exact ⟨e, he, .refl e⟩

theorem Extends.trans {a b c : Catalog} (h : a.Extends b) (k : b.Extends c) : a.Extends c := by
  intro i e he
  obtain ⟨e', he', first⟩ := h i e he
  obtain ⟨e'', he'', second⟩ := k i e' he'
  exact ⟨e'', he'', first.trans second⟩

theorem extends_ingestAll (c : Catalog) (rs : List Record) :
    c.Extends (c.ingestAll filter rs).2 := by
  induction rs generalizing c with
  | nil => exact .refl c
  | cons r rs ih => exact (extends_ingest filter c r).trans (ih _)

/-! ## How many entries there are -/

theorem size_ingest (c : Catalog) (r : Record) :
    (c.ingest filter r).2.entries.size =
      c.entries.size + [(c.ingest filter r).1].count .inserted := by
  rcases ingest_cases filter c r with ⟨_, -, hc⟩ | ⟨-, i, -, hc⟩ | ⟨-, -, hc⟩
  · simp [hc]
  · simp [hc]
  · simp [hc]

theorem size_ingestAll (c : Catalog) (rs : List Record) :
    (c.ingestAll filter rs).2.entries.size =
      c.entries.size + (c.ingestAll filter rs).1.count .inserted := by
  induction rs generalizing c with
  | nil => rfl
  | cons r rs ih =>
    have first := size_ingest filter c r
    have rest := ih (c.ingest filter r).2
    simp only [ingestAll_cons, List.count_cons, List.count_nil] at first rest ⊢
    omega

end Catalog

end PotExtract
