import PotExtract.Proofs.Scan.Found

/-!
# What is ignored

An ignored path without wildcards is told from its beginning, as the project
is spelled. Files that are spelled otherwise are not seen to lie there.

* `IsFound.not_ignored`: a file that is spelled as the project is lies in no
  ignored place;
* `files_of_wild`: when ignored paths make no difference;
* `not_below_ignored`: both, for a whole search.
-/

namespace PotExtract

open PotExtract.Path (Component)

/-! ## Ignored paths -/

theorem literal_ofList (base : Path) (ignores : List String) :
    (Ignores.ofList base ignores).1.literal =
      (ignores.filter fun text => !hasWildcard text).map fun text => base.join ⟨text⟩ := by
  simp only [Ignores.ofList, List.partition_eq_filter_filter]
  rfl

theorem patterns_ofList_filter (base : Path) (ignores : List String) :
    (Ignores.ofList base (ignores.filter hasWildcard)).1.patterns =
      (Ignores.ofList base ignores).1.patterns := by
  simp only [Ignores.ofList, List.partition_eq_filter_filter, List.filter_filter, Bool.and_self]

theorem literal_ofList_filter (base : Path) (ignores : List String) :
    (Ignores.ofList base (ignores.filter hasWildcard)).1.literal = [] := by
  rw [literal_ofList, List.filter_filter]
  simp

namespace Path

theorem startsWith_of_follows {p q : Path} {trunk : List Component} {names before : List String}
    (hp : p.Follows trunk names) (hq : q.Follows trunk before) (same : p.beginsHere = q.beginsHere)
    (h : before <+: names) : p.startsWith q = true := by
  rw [startsWith, List.isPrefixOf_iff_prefix, hp.components_eq, hq.components_eq, same]
  exact (List.prefix_append_right_inj _).2 ((List.prefix_append_right_inj _).2 (h.map _))

theorem startsWith_of_beginsHere {p q : Path} (hp : p.beginsHere = false)
    (hq : q.beginsHere = true) : p.startsWith q = false := by
  rw [← Bool.not_eq_true, startsWith, List.isPrefixOf_iff_prefix]
  rintro ⟨rest, said⟩
  rw [beginsHere, ← said] at hp
  rw [beginsHere] at hq
  cases hc : q.components with
  | nil => simp [hc] at hq
  | cons c components => simp_all

end Path

section
variable {t : Tree} {base : Path} {includes ignores : List String}

/-- A file that is spelled as the project is lies in no ignored place. -/
theorem IsFound.not_ignored {trunk : List Component} {f : Path} {names before : List String}
    (h : IsFound t base includes ignores trunk f names) (hbase : base.Follows trunk before)
    (same : f.beginsHere = base.beginsHere) {text : String} (mem : text ∈ ignores)
    (literal : hasWildcard text = false) (inner : (Path.mk text).IsInner) {ignored : Place}
    (located : t.locate (base.join ⟨text⟩) = .ok ignored) :
    ¬ ignored <+: Path.placeOf t.home trunk ++ names := by
  obtain ⟨more, follows, begins⟩ := hbase.join inner
  have stands : ignored = Path.placeOf t.home trunk ++ (before ++ more) := by
    rw [(Tree.locate_eq_ok located).2.2, follows.placeOf_eq]
  intro inside
  rw [stands, List.prefix_append_right_inj] at inside
  have starts := Path.startsWith_of_follows h.follows follows (same.trans begins.symm) inside
  have listed : base.join ⟨text⟩ ∈ (Ignores.ofList base ignores).1.literal := by
    rw [literal_ofList]
    exact List.mem_map.2 ⟨text, List.mem_filter.2 ⟨mem, by rw [literal]; rfl⟩, rfl⟩
  have covered : (Ignores.ofList base ignores).1.covers f = true := by
    rw [Ignores.covers, List.any_eq_true.2 ⟨_, listed, starts⟩, Bool.true_or]
  rw [h.covers_eq] at covered
  cases covered

/-- If the project begins with a dot, its literal ignores cover no path that does not. -/
theorem covers_of_beginsHere (hb : base.IsSpelled) (here : base.beginsHere = true)
    (inner : ∀ text ∈ ignores, hasWildcard text = false → (Path.mk text).IsInner) {f : Path}
    (hf : f.beginsHere = false) :
    (Ignores.ofList base ignores).1.covers f =
      (Ignores.ofList base (ignores.filter hasWildcard)).1.covers f := by
  have follows := hb.follows_undotted
  have uncovered : (Ignores.ofList base ignores).1.literal.any f.startsWith = false := by
    rw [literal_ofList, List.any_eq_false]
    intro p hp
    obtain ⟨text, htext, rfl⟩ := List.mem_map.1 hp
    obtain ⟨mem, literal⟩ := List.mem_filter.1 htext
    obtain ⟨more, -, begins⟩ := follows.join (inner text mem (by simpa using literal))
    rw [Path.startsWith_of_beginsHere hf (begins.trans here)]
    simp
  rw [Ignores.covers, Ignores.covers, uncovered, literal_ofList_filter, patterns_ofList_filter]
  rfl

theorem sourcesBelow_congr {ignores ignores' : Ignores} {start : Path}
    (same : ∀ found, t.walk start = .ok found →
      ∀ f node, (f, node) ∈ found → ignores.covers f = ignores'.covers f) :
    sourcesBelow t ignores start = sourcesBelow t ignores' start := by
  unfold sourcesBelow
  cases walked : t.walk start with
  | error e => rfl
  | ok found =>
    simp only [bind, Except.bind, pure, Except.pure, Except.ok.injEq]
    refine congrArg (List.map Prod.fst) (List.filter_congr ?_)
    rintro ⟨f, node⟩ met
    simp only [same found walked f node met]

/-- If the project begins with a dot and all of its includes are patterns, its literal ignores
make no difference. -/
theorem files_of_wild (wf : t.WellFormed) (hb : base.IsSpelled) (here : base.beginsHere = true)
    (below : IncludesBelow base includes) (nonempty : includes ≠ [])
    (wild : ∀ text ∈ includes, hasWildcard text = true)
    (inner : ∀ text ∈ ignores, hasWildcard text = false → (Path.mk text).IsInner) :
    (scan t base includes ignores).files =
      (scan t base includes (ignores.filter hasWildcard)).files := by
  rw [files_scan, files_scan, List.flatMap_def, List.flatMap_def]
  refine congrArg (fun found => sortPaths found.flatten)
    (List.map_congr_left fun start hstart => ?_)
  rcases mem_searchPaths.1 hstart with ⟨empty, -⟩ | ⟨text, htext, hstart⟩
  · exact absurd empty nonempty
  · obtain ⟨names, follows, begins⟩ := follows_of_wild wf hb (wild text htext)
      (below.isInner text htext) (below.staysBelow text htext (wild text htext)) hstart
    rw [sourcesBelow_congr]
    intro found walked f node met
    obtain ⟨place, more, -, rfl, isName, -⟩ := wf.exists_of_mem_walk walked met
    exact covers_of_beginsHere hb here inner ((follows.joinNames isName).2.trans begins)

/-- **A literal ignored path is honoured for all files that are spelled as the project is.** These
are all files if the project does not begin with a dot, or if no include is a pattern. What a
pattern finds does not begin with a dot: if the project does, and all includes are patterns, then
literal ignored paths make no difference. -/
theorem not_below_ignored (wf : t.WellFormed) (there : t.isDirectory base = true)
    (below : IncludesBelow base includes)
    (inner : ∀ text ∈ ignores, hasWildcard text = false → (Path.mk text).IsInner) :
    (∀ f ∈ (scan t base includes ignores).files, f.beginsHere = base.beginsHere →
      ∃ place, t.locate f = .ok place ∧ ∀ text ∈ ignores, hasWildcard text = false →
        ∀ ignored, t.locate (base.join ⟨text⟩) = .ok ignored → ¬ ignored <+: place) ∧
    ((base.beginsHere = false ∨ ∀ text ∈ includes, hasWildcard text = false) →
      ∀ f ∈ (scan t base includes ignores).files, f.beginsHere = base.beginsHere) ∧
    (base.beginsHere = true → includes ≠ [] → (∀ text ∈ includes, hasWildcard text = true) →
      (scan t base includes ignores).files =
        (scan t base includes (ignores.filter hasWildcard)).files) := by
  have hb := Tree.isSpelled_of_isDirectory there
  obtain ⟨trunk, before, follows, files⟩ := below.exists_isFound wf hb ignores
  refine ⟨?_, ?_, ?_⟩
  · intro f hf same
    obtain ⟨names, known⟩ := files f hf
    obtain ⟨node, -, stands⟩ := known.exists_node
    refine ⟨_, (Tree.find_eq_ok.1 stands).1, ?_⟩
    intro text mem literal ignored located
    exact known.not_ignored follows same mem literal (inner text mem literal) located
  · intro spelled f hf
    obtain ⟨names, known⟩ := files f hf
    exact known.beginsHere_of_literal spelled
  · intro here nonempty wild
    exact files_of_wild wf hb here below nonempty wild inner

end

theorem not_below_ignored_siteTree :
    siteTree.WellFormed ∧ siteTree.isDirectory ⟨"site"⟩ = true ∧
      IncludesBelow ⟨"site"⟩ ["inc*", "inc/old"] ∧ (Path.mk "inc/old").IsInner ∧
      ∀ f ∈ (scan siteTree ⟨"site"⟩ ["inc*", "inc/old"] ["inc/old"]).files,
        ∃ place, siteTree.locate f = .ok place ∧ ¬ ["site", "inc", "old"] <+: place := by
  have wf : siteTree.WellFormed := by decide
  have there : siteTree.isDirectory ⟨"site"⟩ = true := rfl
  have inner : (Path.mk "inc/old").IsInner := by decide
  have each : ∀ text ∈ ["inc/old"], hasWildcard text = false → (Path.mk text).IsInner := by
    intro text htext _
    rwa [List.mem_singleton.1 htext]
  refine ⟨wf, there, includesBelow_siteTree, inner, fun f hf => ?_⟩
  obtain ⟨honoured, spelled, -⟩ := not_below_ignored wf there includesBelow_siteTree each
  obtain ⟨place, located, outside⟩ := honoured f hf (spelled (.inl rfl) f hf)
  exact ⟨place, located, outside "inc/old" List.mem_cons_self (by decide) _ rfl⟩

/-- The directory is ignored, but the pattern finds it without the dot that begins the project. -/
theorem vendor_found :
    (scan vendorTree ⟨"."⟩ ["*"] ["vendor"]).files = [⟨"vendor/a.php"⟩] ∧
      vendorTree.locate ((Path.mk ".").join ⟨"vendor"⟩) = .ok ["vendor"] ∧
      vendorTree.locate ⟨"vendor/a.php"⟩ = .ok ["vendor", "a.php"] := by
  refine ⟨?_, rfl, rfl⟩
  have starts : (searchPaths vendorTree ⟨"."⟩ ["*"]).1 = [⟨"vendor"⟩] := by
    simp [searchPaths, includedPaths_vendorTree]
  have sources : sourcesBelow vendorTree (Ignores.ofList ⟨"."⟩ ["vendor"]).1 ⟨"vendor"⟩ =
      .ok [⟨"vendor/a.php"⟩] := by
    rw [sourcesBelow, walk_vendorTree]
    rfl
  rw [files_scan, starts]
  simp [sources, Except.toOption, sortPaths, dropRepeated]

end PotExtract
