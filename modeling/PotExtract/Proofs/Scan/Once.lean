import PotExtract.Proofs.Scan.Found
import Mathlib.Data.List.Nodup

/-!
# Every file once

Files that are found are told apart by what they say, and paths after one
trunk that lead to the same place say the same. Only the dot that may begin a
path makes a difference that leads nowhere.

* `IsFound.components_eq`: two paths to one file, with or without the dot,
  say the same;
* `files_once`: when no file is found twice.
-/

namespace PotExtract

open PotExtract.Path (Component)

section
variable {t : Tree} {base : Path} {includes ignores : List String}

theorem eq_of_components_eq {f g : Path} (hf : f ∈ (scan t base includes ignores).files)
    (hg : g ∈ (scan t base includes ignores).files) (same : f.components = g.components) :
    f = g := by
  rw [files_scan] at hf hg
  exact List.inj_on_of_nodup_map (nodup_sortPaths _) hf hg same

theorem IsFound.components_eq {trunk : List Component} {f g : Path} {names more : List String}
    (hf : IsFound t base includes ignores trunk f names)
    (hg : IsFound t base includes ignores trunk g more) (same : t.find f = t.find g)
    (dots : f.beginsHere = g.beginsHere) : f.components = g.components := by
  obtain ⟨node, -, there⟩ := hf.exists_node
  obtain ⟨node', -, there'⟩ := hg.exists_node
  rw [there, there', Except.ok.injEq, Prod.mk.injEq, List.append_cancel_left_eq] at same
  rw [hf.follows.components_eq, hg.follows.components_eq, dots, same.1]

/-- Literal includes are spelled as the project is, and patterns find no path with a dot. -/
theorem IsFound.beginsHere_congr {trunk : List Component} {f g : Path} {names more : List String}
    (hf : IsFound t base includes ignores trunk f names)
    (hg : IsFound t base includes ignores trunk g more)
    (alike : base.beginsHere = false ∨ (∀ text ∈ includes, hasWildcard text = true) ∨
      ∀ text ∈ includes, hasWildcard text = false) : f.beginsHere = g.beginsHere := by
  have literal (h : base.beginsHere = false ∨ ∀ text ∈ includes, hasWildcard text = false) :
      f.beginsHere = g.beginsHere := by
    rw [hf.beginsHere_of_literal h, hg.beginsHere_of_literal h]
  rcases alike with plain | wild | allLiteral
  · exact literal (.inl plain)
  · by_cases empty : includes = []
    · exact literal (.inr (by simp [empty]))
    · rw [hf.beginsHere_of_wild empty wild, hg.beginsHere_of_wild empty wild]
  · exact literal (.inr allLiteral)

/-- **No file is found twice under one spelling.** What is found are files, and two paths to the
same file that both begin with a dot, or both do not, are one path. So every file is found at most
once if the project does not begin with a dot, or if its includes are all patterns or all
literal. -/
theorem files_once (wf : t.WellFormed) (there : t.isDirectory base = true)
    (below : IncludesBelow base includes) :
    (∀ f ∈ (scan t base includes ignores).files,
      ∃ place node, t.find f = .ok (place, node) ∧ node ≠ .directory) ∧
    (∀ f ∈ (scan t base includes ignores).files, ∀ g ∈ (scan t base includes ignores).files,
      t.find f = t.find g → f.beginsHere = g.beginsHere → f = g) ∧
    ((base.beginsHere = false ∨ (∀ text ∈ includes, hasWildcard text = true) ∨
        ∀ text ∈ includes, hasWildcard text = false) →
      ((scan t base includes ignores).files.map t.find).Nodup) := by
  have hb := Tree.isSpelled_of_isDirectory there
  obtain ⟨trunk, -, -, files⟩ := below.exists_isFound wf hb ignores
  have one : ∀ f ∈ (scan t base includes ignores).files,
      ∀ g ∈ (scan t base includes ignores).files,
      t.find f = t.find g → f.beginsHere = g.beginsHere → f = g := by
    intro f hf g hg same dots
    obtain ⟨names, first⟩ := files f hf
    obtain ⟨more, second⟩ := files g hg
    exact eq_of_components_eq hf hg (first.components_eq second same dots)
  refine ⟨fun f hf => ?_, one, fun alike => ?_⟩
  · obtain ⟨names, known⟩ := files f hf
    obtain ⟨node, file, found⟩ := known.exists_node
    exact ⟨_, node, found, file⟩
  · apply List.Nodup.map_on
    · intro f hf g hg same
      obtain ⟨names, first⟩ := files f hf
      obtain ⟨more, second⟩ := files g hg
      exact one f hf g hg same (first.beginsHere_congr second alike)
    · rw [files_scan]
      exact (nodup_sortPaths _).of_map

end

theorem files_once_siteTree :
    siteTree.WellFormed ∧ siteTree.isDirectory ⟨"site"⟩ = true ∧
      IncludesBelow ⟨"site"⟩ ["inc*", "inc/old"] ∧
      ((scan siteTree ⟨"site"⟩ ["inc*", "inc/old"] []).files.map siteTree.find).Nodup := by
  have wf : siteTree.WellFormed := by decide
  have there : siteTree.isDirectory ⟨"site"⟩ = true := rfl
  exact ⟨wf, there, includesBelow_siteTree,
    (files_once wf there includesBelow_siteTree).2.2 (.inl rfl)⟩

/-- A literal include finds the file with the dot that begins the project, and the pattern finds
it without. -/
theorem vendor_twice :
    (scan vendorTree ⟨"."⟩ [".", "*"] []).files = [⟨"./vendor/a.php"⟩, ⟨"vendor/a.php"⟩] ∧
      vendorTree.find ⟨"./vendor/a.php"⟩ = .ok (["vendor", "a.php"], .text "") ∧
      vendorTree.find ⟨"vendor/a.php"⟩ = .ok (["vendor", "a.php"], .text "") := by
  refine ⟨?_, rfl, rfl⟩
  have here : (includedPaths vendorTree ⟨"."⟩ ".").1 = [⟨"."⟩] := by decide
  have starts : (searchPaths vendorTree ⟨"."⟩ [".", "*"]).1 = [⟨"."⟩, ⟨"vendor"⟩] := by
    simp [searchPaths, here, includedPaths_vendorTree]
  have all : sourcesBelow vendorTree (Ignores.ofList ⟨"."⟩ []).1 ⟨"."⟩ =
      .ok [⟨"./vendor/a.php"⟩] := by
    simp only [sourcesBelow, Tree.walk, show vendorTree.find ⟨"."⟩ = .ok ([], .directory) from rfl,
      bind, Except.bind, below_vendorTree]
    rfl
  have named : sourcesBelow vendorTree (Ignores.ofList ⟨"."⟩ []).1 ⟨"vendor"⟩ =
      .ok [⟨"vendor/a.php"⟩] := by
    rw [sourcesBelow, walk_vendorTree]
    rfl
  have sorted : sortPaths [⟨"./vendor/a.php"⟩, ⟨"vendor/a.php"⟩] =
      [⟨"./vendor/a.php"⟩, ⟨"vendor/a.php"⟩] := by
    rw [sortPaths, List.mergeSort_of_pairwise (by decide), dropRepeated, if_neg (by decide),
      dropRepeated]
    simp
  rw [files_scan, starts]
  simpa [all, named, Except.toOption] using sorted

end PotExtract
