import PotExtract.Proofs.Scan.Ignored

/-!
# Exactly which files

A search finds the source files at and below its starts that no ignored path
and no ignored pattern takes out, each judged on its own. Of paths that say
the same, one is found.

* `IsSourceBelow`: a source file, as it is met from a start;
* `IsSpared`: a path is not ignored;
* `Tree.WellFormed.mem_files_iff`: what is found, from any starts;
* `files_exact`: what is found if no include is a pattern.
-/

namespace PotExtract

open Glob

/-- A source file at or below a path, as it is met from there. -/
structure IsSourceBelow (t : Tree) (start f : Path) : Prop where
  exists_names : ∃ place names node, t.locate start = .ok place ∧ f = start.joinNames names ∧
    t.node? (place ++ names) = some node ∧ node ≠ .directory
  extension?_eq : f.extension? = some "php"

/-- A path that does not begin with an ignored path, and that matches no ignored pattern. -/
structure IsSpared (base : Path) (ignores : List String) (f : Path) : Prop where
  not_below : ∀ text ∈ ignores, hasWildcard text = false →
    ¬ (base.join ⟨text⟩).components <+: f.components
  not_matched : ∀ text ∈ ignores, hasWildcard text = true →
    ∀ pattern, Pattern.compile? text = .ok pattern → pattern.accepts f.text = false

/-! ## What is ignored -/

theorem mem_patterns_ofList {base : Path} {ignores : List String} {pattern : Pattern} :
    pattern ∈ (Ignores.ofList base ignores).1.patterns ↔
      ∃ text ∈ ignores, hasWildcard text = true ∧ Pattern.compile? text = .ok pattern := by
  simp only [Ignores.ofList, List.partition_eq_filter_filter, List.filterMap_map,
    List.mem_filterMap, List.mem_filter, Function.comp_apply]
  constructor
  · rintro ⟨text, ⟨mem, wild⟩, compiled⟩
    refine ⟨text, mem, wild, ?_⟩
    cases h : Pattern.compile? text <;> simp_all [Except.toOption]
  · rintro ⟨text, mem, wild, compiled⟩
    exact ⟨text, ⟨mem, wild⟩, by simp [compiled, Except.toOption]⟩

theorem covers_eq_false_iff {base : Path} {ignores : List String} {f : Path} :
    (Ignores.ofList base ignores).1.covers f = false ↔ IsSpared base ignores f := by
  rw [Ignores.covers, Bool.or_eq_false_iff, List.any_eq_false, List.any_eq_false, literal_ofList]
  constructor
  · rintro ⟨literal, wild⟩
    constructor
    · intro text mem plain below
      refine literal (base.join ⟨text⟩) (List.mem_map.2 ⟨text, ?_, rfl⟩) ?_
      · exact List.mem_filter.2 ⟨mem, by simp [plain]⟩
      · exact List.isPrefixOf_iff_prefix.2 below
    · intro text mem special pattern compiled
      simpa using wild pattern (mem_patterns_ofList.2 ⟨text, mem, special, compiled⟩)
  · rintro ⟨not_below, not_matched⟩
    constructor
    · intro p hp begins
      obtain ⟨text, htext, rfl⟩ := List.mem_map.1 hp
      obtain ⟨mem, plain⟩ := List.mem_filter.1 htext
      exact not_below text mem (by simpa using plain) (List.isPrefixOf_iff_prefix.1 begins)
    · intro pattern hpattern
      obtain ⟨text, mem, special, compiled⟩ := mem_patterns_ofList.1 hpattern
      simp [not_matched text mem special pattern compiled]

/-! ## What is found -/

section
variable {t : Tree} {base : Path} {includes ignores : List String}

theorem Tree.WellFormed.mem_sourcesBelow_iff (wf : t.WellFormed) {ignores : Ignores}
    {start f : Path} :
    f ∈ (sourcesBelow t ignores start).toOption.getD [] ↔
      IsSourceBelow t start f ∧ ignores.covers f = false := by
  constructor
  · intro h
    cases searched : sourcesBelow t ignores start with
    | error e => simp [searched, Except.toOption] at h
    | ok sources =>
      obtain ⟨found, node, walked, met, spared, source⟩ :=
        mem_sourcesBelow searched (by simpa [searched, Except.toOption] using h)
      obtain ⟨place, names, located, spelled, -, there⟩ := wf.exists_of_mem_walk walked met
      obtain ⟨file, extension⟩ : node ≠ .directory ∧ f.extension? = some "php" := by
        simpa [isSource] using source
      exact ⟨⟨⟨place, names, node, located, spelled, (Tree.find_eq_ok.1 there).2, file⟩,
        extension⟩, spared⟩
  · rintro ⟨⟨⟨place, names, node, located, rfl, hn, file⟩, extension⟩, spared⟩
    obtain ⟨found, walked, met⟩ := wf.mem_walk located hn
    unfold sourcesBelow
    simp only [walked, bind, Except.bind, pure, Except.pure, Except.toOption, Option.getD_some]
    refine List.mem_map.2 ⟨_, List.mem_filter.2 ⟨met, ?_⟩, rfl⟩
    simp [spared, isSource, file, extension]

/-- A path is found, by what it says, if it is met from some start and not ignored; what is found
is spelled as it is met. -/
theorem Tree.WellFormed.mem_files_iff (wf : t.WellFormed) (base : Path)
    (includes ignores : List String) :
    (∀ f ∈ (scan t base includes ignores).files,
      ∃ start ∈ (searchPaths t base includes).1, IsSourceBelow t start f ∧
        IsSpared base ignores f) ∧
    ∀ start ∈ (searchPaths t base includes).1, ∀ f, IsSourceBelow t start f →
      IsSpared base ignores f →
      ∃ g ∈ (scan t base includes ignores).files, g.components = f.components := by
  rw [files_scan]
  constructor
  · intro f hf
    obtain ⟨start, hstart, hf⟩ := List.mem_flatMap.1 (mem_of_mem_sortPaths hf)
    obtain ⟨source, spared⟩ := wf.mem_sourcesBelow_iff.1 hf
    exact ⟨start, hstart, source, covers_eq_false_iff.1 spared⟩
  · intro start hstart f source spared
    apply exists_mem_sortPaths
    exact List.mem_flatMap.2 ⟨start, hstart,
      wf.mem_sourcesBelow_iff.2 ⟨source, covers_eq_false_iff.2 spared⟩⟩

/-- In whatever order the includes are given, and however often, what is found says the same. -/
theorem map_components_files {others : List String}
    (same : ∀ text, text ∈ others ↔ text ∈ includes) :
    (scan t base others ignores).files.map Path.components =
      (scan t base includes ignores).files.map Path.components := by
  have none : others = [] ↔ includes = [] := by
    simp only [List.eq_nil_iff_forall_not_mem, same]
  rw [files_scan, files_scan]
  apply map_components_sortPaths
  simp only [List.mem_flatMap, mem_searchPaths, same, none, implies_true]

/-! ## Includes without patterns -/

/-- The path that an include without wildcards stands for. -/
def includePath (base : Path) (text : String) : Path :=
  if text = "" ∨ text = "." then base else base.join ⟨text⟩

/-- The paths that a project asks to search if none of its includes is a pattern. -/
def literalStarts (base : Path) (includes : List String) : List Path :=
  if includes = [] then [base] else includes.map (includePath base)

theorem includedPaths_literal {text : String} (literal : hasWildcard text = false) :
    (includedPaths t base text).1 =
      if t.pathExists (includePath base text) then [includePath base text] else [] := by
  unfold includedPaths includePath
  simp only [literal, Bool.false_eq_true, if_false]
  split_ifs <;> rfl

theorem mem_includedPaths_literal {text : String} (literal : hasWildcard text = false)
    {start : Path} :
    start ∈ (includedPaths t base text).1 ↔
      start = includePath base text ∧ t.pathExists start = true := by
  rw [includedPaths_literal literal]
  split_ifs with there
  · rw [List.mem_singleton]
    exact ⟨fun h => ⟨h, h ▸ there⟩, fun h => h.1⟩
  · simp only [List.not_mem_nil, false_iff, not_and]
    rintro rfl
    exact there

theorem mem_includedPaths_wild {text : String} (wild : hasWildcard text = true) {start : Path} :
    start ∈ (includedPaths t base text).1 ↔
      ∃ paths, t.expand (base.join ⟨text⟩) = .ok paths ∧ start ∈ paths ∧
        t.isDirectory start = true := by
  unfold includedPaths
  rw [if_pos wild]
  cases t.expand (base.join ⟨text⟩) with
  | error e => simp
  | ok paths => simp

theorem mem_searchPaths_literal (literal : ∀ text ∈ includes, hasWildcard text = false)
    {start : Path} (there : t.pathExists start = true) :
    start ∈ (searchPaths t base includes).1 ↔ start ∈ literalStarts base includes := by
  rw [mem_searchPaths, literalStarts]
  split_ifs with none
  · simp [none]
  · simp only [none, false_and, false_or, List.mem_map]
    constructor
    · rintro ⟨text, mem, hstart⟩
      exact ⟨text, mem, ((mem_includedPaths_literal (literal text mem)).1 hstart).1.symm⟩
    · rintro ⟨text, mem, rfl⟩
      exact ⟨text, mem, (mem_includedPaths_literal (literal text mem)).2 ⟨rfl, there⟩⟩

theorem IsSourceBelow.pathExists (wf : t.WellFormed) {start f : Path}
    (h : IsSourceBelow t start f) : t.pathExists start = true := by
  obtain ⟨place, names, node, located, -, hn, -⟩ := h.exists_names
  have there : ∃ n, t.node? place = some n := by
    by_cases here : names = []
    · subst here
      exact ⟨node, by simpa using hn⟩
    · exact ⟨_, wf.node?_around here hn⟩
  obtain ⟨n, hplace⟩ := there
  rw [Tree.pathExists, Tree.find_eq_ok.2 ⟨located, hplace⟩]
  rfl

/-- **A search without patterns finds exactly the source files that are included and not
ignored.** What is found is met at or below an included path and is spared; and whatever is met
and spared is found, by what it says. The result is in the order of what its paths say, no two of
them say the same, and the order and repetition of the includes make no difference to what they
say. -/
theorem files_exact (wf : t.WellFormed)
    (literal : ∀ text ∈ includes, hasWildcard text = false) (base : Path)
    (ignores : List String) :
    (∀ f ∈ (scan t base includes ignores).files,
      ∃ start ∈ literalStarts base includes, IsSourceBelow t start f ∧
        IsSpared base ignores f) ∧
    (∀ start ∈ literalStarts base includes, ∀ f, IsSourceBelow t start f →
      IsSpared base ignores f →
      ∃ g ∈ (scan t base includes ignores).files, g.components = f.components) ∧
    (scan t base includes ignores).files.Pairwise Path.Before ∧
    ∀ others, (∀ text, text ∈ others ↔ text ∈ includes) →
      (scan t base others ignores).files.map Path.components =
        (scan t base includes ignores).files.map Path.components := by
  obtain ⟨sound, complete⟩ := wf.mem_files_iff base includes ignores
  refine ⟨fun f hf => ?_, fun start hstart f source spared => ?_, ?_, fun others same => ?_⟩
  · obtain ⟨start, hstart, source, spared⟩ := sound f hf
    exact ⟨start, (mem_searchPaths_literal literal (source.pathExists wf)).1 hstart, source,
      spared⟩
  · exact complete start ((mem_searchPaths_literal literal (source.pathExists wf)).2 hstart) f
      source spared
  · rw [files_scan]
    exact pairwise_sortPaths _
  · exact map_components_files same

end

/-- Three includes overlap, and one ignored path lies inside of them. -/
theorem files_exact_siteTree :
    siteTree.WellFormed ∧ (∀ text ∈ ["inc", "./inc", "inc/a.php"], hasWildcard text = false) ∧
      (∃ g ∈ (scan siteTree ⟨"site"⟩ ["inc", "./inc", "inc/a.php"] ["inc/old", "*/old/*"]).files,
        g.components = [.name "site", .name "inc", .name "a.php"]) ∧
      ∀ f ∈ (scan siteTree ⟨"site"⟩ ["inc", "./inc", "inc/a.php"] ["inc/old", "*/old/*"]).files,
        f.components ≠ [.name "site", .name "inc", .name "old", .name "b.php"] := by
  have wf : siteTree.WellFormed := by decide
  have literal : ∀ text ∈ ["inc", "./inc", "inc/a.php"], hasWildcard text = false := by decide
  obtain ⟨sound, complete, -⟩ := files_exact wf literal ⟨"site"⟩ ["inc/old", "*/old/*"]
  have source : IsSourceBelow siteTree ⟨"site/./inc"⟩ ⟨"site/./inc/a.php"⟩ :=
    ⟨⟨["site", "inc"], ["a.php"], .text "", rfl, by decide, rfl, by decide⟩, by decide⟩
  have compiled : Pattern.compile? "*/old/*" = .ok ⟨[.anySequence, .char '/', .char 'o', .char 'l',
      .char 'd', .char '/', .anySequence]⟩ := by
    decide +kernel
  have spared : IsSpared ⟨"site"⟩ ["inc/old", "*/old/*"] ⟨"site/./inc/a.php"⟩ := by
    constructor
    · decide
    · intro text mem wild pattern h
      rcases List.mem_cons.1 mem with rfl | mem
      · exact absurd wild (by decide)
      · rw [List.mem_singleton.1 mem, compiled, Except.ok.injEq] at h
        subst h
        decide
  refine ⟨wf, literal, complete ⟨"site/./inc"⟩ (by decide) _ source spared, fun f hf said => ?_⟩
  obtain ⟨start, -, -, spared⟩ := sound f hf
  apply spared.not_below "inc/old" (by decide) (by decide)
  rw [said]
  decide

end PotExtract
