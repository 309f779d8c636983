import PotExtract.Scan
import Mathlib.Tactic.SplitIfs

/-!
# Sorted paths

Sorting puts paths in the order of what they say and keeps one path for
everything that is said.

* `Path.compareComponents_eq`: paths are compared in the order of their components;
* `mem_of_mem_sortPaths`, `exists_mem_sortPaths`, `nodup_sortPaths`: what sorting keeps;
* `map_components_sortPaths`: the order in which paths are given makes no difference.
-/

namespace PotExtract

namespace Path

/-- The text of a name. -/
def Component.text : Component → String
  | .name text => text
  | .root | .here | .up => ""

theorem Component.compare_eq :
    Component.compare = compareLex (compareOn Component.rank) (compareOn Component.text) := by
  funext a b
  cases a <;> cases b <;> rfl

instance : Std.TransCmp Component.compare := by
  rw [Component.compare_eq]
  infer_instance

instance : Std.LawfulEqCmp Component.compare where
  eq_of_compare {a b} h := by
    cases a <;> cases b <;> simp_all [Component.compare, Component.rank]

theorem compareComponents_eq : compareComponents = List.compareLex Component.compare := by
  funext a b
  induction a generalizing b with
  | nil => cases b <;> rfl
  | cons c a ih =>
    cases b with
    | nil => rfl
    | cons d b =>
      rw [compareComponents, List.compareLex_cons_cons, ih]

instance : Std.TransCmp compareComponents := by
  rw [compareComponents_eq]
  infer_instance

instance : Std.LawfulEqCmp compareComponents := by
  rw [compareComponents_eq]
  infer_instance

/-- A path comes before another, by what they say. -/
def Before (p q : Path) : Prop :=
  compareComponents p.components q.components = .lt

end Path

open PotExtract.Path (compareComponents)

theorem mem_of_mem_dropRepeated {paths : List Path} {p : Path} (h : p ∈ dropRepeated paths) :
    p ∈ paths := by
  fun_induction dropRepeated paths with
  | case1 q r rest same ih =>
    rcases List.mem_cons.1 (ih h) with rfl | later
    · exact List.mem_cons_self
    · exact List.mem_cons_of_mem _ (List.mem_cons_of_mem _ later)
  | case2 q r rest differ ih =>
    rcases List.mem_cons.1 h with rfl | later
    · exact List.mem_cons_self
    · exact List.mem_cons_of_mem _ (ih later)
  | case3 paths => exact h

theorem pairwise_dropRepeated {paths : List Path}
    (sorted : paths.Pairwise fun p q => (compareComponents p.components q.components).isLE) :
    (dropRepeated paths).Pairwise Path.Before := by
  fun_induction dropRepeated paths with
  | case1 p q rest same ih =>
    exact ih (sorted.sublist (.cons_cons _ (.cons _ (.refl _))))
  | case2 p q rest differ ih =>
    rw [List.pairwise_cons] at sorted ⊢
    refine ⟨fun r hr => ?_, ih sorted.2⟩
    have first : compareComponents p.components q.components = .lt := by
      rcases Ordering.isLE_iff_eq_lt_or_eq_eq.1 (sorted.1 q List.mem_cons_self) with before | same
      · exact before
      · exact absurd (Std.LawfulEqCmp.eq_of_compare same) differ
    have later := mem_of_mem_dropRepeated hr
    rcases List.mem_cons.1 later with rfl | later
    · exact first
    · have := (List.pairwise_cons.1 sorted.2).1 r later
      exact Std.TransCmp.lt_of_lt_of_isLE first this
  | case3 paths short =>
    match paths with
    | [] => exact .nil
    | [p] => exact List.pairwise_singleton _ _
    | p :: q :: rest => exact absurd rfl (short p q rest)

/-- What is dropped says the same as a path that stays. -/
theorem exists_mem_dropRepeated {paths : List Path} {p : Path} (h : p ∈ paths) :
    ∃ q ∈ dropRepeated paths, q.components = p.components := by
  fun_induction dropRepeated paths generalizing p with
  | case1 q r rest same ih =>
    rcases List.mem_cons.1 h with rfl | later
    · exact ih List.mem_cons_self
    · rcases List.mem_cons.1 later with rfl | later
      · obtain ⟨kept, hkept, said⟩ := ih List.mem_cons_self
        exact ⟨kept, hkept, said.trans same⟩
      · exact ih (List.mem_cons_of_mem _ later)
  | case2 q r rest differ ih =>
    rcases List.mem_cons.1 h with rfl | later
    · exact ⟨p, List.mem_cons_self, rfl⟩
    · obtain ⟨kept, hkept, said⟩ := ih later
      exact ⟨kept, List.mem_cons_of_mem _ hkept, said⟩
  | case3 paths => exact ⟨p, h, rfl⟩

theorem mem_of_mem_sortPaths {paths : List Path} {p : Path} (h : p ∈ sortPaths paths) :
    p ∈ paths :=
  List.mem_mergeSort.1 (mem_of_mem_dropRepeated h)

/-- Whatever a path says, a sorted path says it. -/
theorem exists_mem_sortPaths {paths : List Path} {p : Path} (h : p ∈ paths) :
    ∃ q ∈ sortPaths paths, q.components = p.components :=
  exists_mem_dropRepeated (List.mem_mergeSort.2 h)

theorem pairwise_sortPaths (paths : List Path) : (sortPaths paths).Pairwise Path.Before := by
  apply pairwise_dropRepeated
  apply List.pairwise_mergeSort
  · intro p q r
    exact Std.TransCmp.isLE_trans
  · intro p q
    by_cases before : (compareComponents p.components q.components).isLE = true
    · rw [before, Bool.true_or]
    · rw [Std.OrientedCmp.lt_of_not_isLE before]
      simp

/-- Whatever is said, at most one sorted path says it. -/
theorem nodup_sortPaths (paths : List Path) : ((sortPaths paths).map Path.components).Nodup := by
  rw [List.Nodup, List.pairwise_map]
  apply (pairwise_sortPaths paths).imp
  intro p q before same
  have equal : compareComponents q.components q.components = .eq := Std.ReflCmp.compare_self
  rw [Path.Before, same, equal] at before
  cases before

/-- What sorted paths say is settled by what is said, in whatever order and how often. -/
theorem map_components_sortPaths {paths others : List Path}
    (same : ∀ said, (∃ p ∈ paths, p.components = said) ↔ ∃ p ∈ others, p.components = said) :
    (sortPaths paths).map Path.components = (sortPaths others).map Path.components := by
  have sorted (paths : List Path) : ((sortPaths paths).map Path.components).Pairwise
      fun a b => compareComponents a b = .lt := by
    rw [List.pairwise_map]
    exact pairwise_sortPaths paths
  have mem (paths : List Path) (said : List Path.Component) :
      said ∈ (sortPaths paths).map Path.components ↔ ∃ p ∈ paths, p.components = said := by
    rw [List.mem_map]
    constructor
    · rintro ⟨p, hp, said⟩
      exact ⟨p, mem_of_mem_sortPaths hp, said⟩
    · rintro ⟨p, hp, rfl⟩
      exact exists_mem_sortPaths hp
  have perm : ((sortPaths paths).map Path.components).Perm
      ((sortPaths others).map Path.components) := by
    rw [List.perm_ext_iff_of_nodup (nodup_sortPaths _) (nodup_sortPaths _)]
    intro said
    rw [mem, mem, same]
  refine perm.eq_of_pairwise ?_ (sorted paths) (sorted others)
  intro a b _ _ before after
  have swapped : compareComponents a b = (compareComponents b a).swap := Std.OrientedCmp.eq_swap
  rw [swapped, after] at before
  cases before

end PotExtract
