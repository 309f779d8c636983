import PotExtract.Proofs.Glob.Grown
import PotExtract.Proofs.Scan.Exact

/-!
# A search in a tree that has grown

The file that a tree has grown by is no source file, so that a search finds
what it found before, if its includes cannot lead from new directories to old
ones.

* `sources_of_old`, `sources_of_new`: what is met from a path, if it was there before or not;
* `Contained`: includes that lead from no new directory to an old one;
* `Contained.files_eq`: a search finds the same files.
-/

namespace PotExtract

open Glob
open PotExtract.Path (IsName)

variable {t t' : Tree} {file : Place}

/-- No path with the extension of source files leads to a place, from a working directory. -/
def IsNoSource (home file : Place) : Prop :=
  ∀ f : Path, f.extension? = some "php" → Path.placeOf home f.components ≠ file

/-- The source files that are met from a path and not ignored. -/
def sources (t : Tree) (ignores : Ignores) (start : Path) : List Path :=
  (sourcesBelow t ignores start).toOption.getD []

theorem sources_of_directory {ignores : Ignores} {start : Path} {place : Place}
    (h : t.find start = .ok (place, .directory)) :
    sources t ignores start = ((t.below place).filter fun entry =>
      !ignores.covers (start.joinNames entry.1) && isSource (start.joinNames entry.1) entry.2).map
        fun entry => start.joinNames entry.1 := by
  unfold sources sourcesBelow Tree.walk
  simp only [h, bind, Except.bind, pure, Except.pure, Except.toOption, Option.getD_some]
  have top : (!ignores.covers start && isSource start .directory) = false := by
    simp [isSource]
  rw [List.filter_cons, top]
  simp only [Bool.false_eq_true, if_false, List.filter_map, List.map_map]
  rfl

theorem sources_of_file {ignores : Ignores} {start : Path} {place : Place} {node : Node}
    (h : t.find start = .ok (place, node)) (ne : node ≠ .directory) :
    sources t ignores start =
      if !ignores.covers start && start.extension? == some "php" then [start] else [] := by
  unfold sources sourcesBelow Tree.walk
  cases node with
  | directory => exact absurd rfl ne
  | text _ | binary =>
    simp only [h, bind, Except.bind, pure, Except.pure, Except.toOption, Option.getD_some,
      List.filter_cons, List.filter_nil, isSource]
    cases ignores.covers start <;> cases start.extension? == some "php" <;> rfl

/-- A source file below a path is not the file that a tree has grown by. -/
theorem IsNoSource.ne (none : IsNoSource t.home file) {start : Path} {place names : Place}
    {node : Node} (found : t.find start = .ok (place, node)) (isName : ∀ name ∈ names, IsName name)
    (source : (start.joinNames names).extension? = some "php") : place ++ names ≠ file := by
  obtain ⟨spelled, -, stands⟩ := Tree.locate_eq_ok (Tree.find_eq_ok.1 found).1
  have led := none _ source
  rwa [(spelled.joinNames isName).2, Path.placeOf_append_names, ← stands] at led

/-- From a path that was there before, the same source files are met. -/
theorem sources_of_old (g : Tree.Grows t t' file) (none : IsNoSource t.home file)
    {ignores : Ignores} {start : Path} (there : t.pathExists start = true) :
    sources t' ignores start = sources t ignores start := by
  obtain ⟨place, node, found⟩ := Tree.pathExists_iff.1 there
  by_cases directory : node = .directory
  · subst directory
    have found' : t'.find start = .ok (place, .directory) := by
      refine g.find ?_ found
      rintro rfl
      exact g.before (Tree.find_eq_ok.1 found).2
    rw [sources_of_directory found, sources_of_directory found',
      Tree.filter_below g.wf g.wf' place]
    -- The one file that is new is no source, so that no source is new below the directory.
    rintro ⟨names, inner⟩ picked
    simp only [isSource, Bool.and_eq_true, decide_eq_true_eq, beq_iff_eq] at picked
    obtain ⟨-, ne, source⟩ := picked
    rw [g.wf'.mem_below_iff, g.wf.mem_below_iff]
    constructor
    · rintro ⟨nonempty, there⟩
      refine ⟨nonempty, g.old (none.ne found ?_ source) there ne⟩
      exact fun name hname => g.wf'.isName_of_node? there name (List.mem_append_right _ hname)
    · rintro ⟨nonempty, there⟩
      refine ⟨nonempty, g.kept (none.ne found ?_ source) there⟩
      exact fun name hname => g.wf.isName_of_node? there name (List.mem_append_right _ hname)
  · have found' : ∃ node', t'.find start = .ok (place, node') ∧ node' ≠ .directory := by
      obtain ⟨place', node', found'⟩ := Tree.pathExists_iff.1 (g.pathExists there)
      obtain rfl : place' = place := by
        rw [(Tree.locate_eq_ok (Tree.find_eq_ok.1 found').1).2.2, g.home_eq,
          (Tree.locate_eq_ok (Tree.find_eq_ok.1 found).1).2.2]
      refine ⟨node', found', ?_⟩
      rintro rfl
      exact directory (g.directory_back (Tree.find_eq_ok.1 found).2 (Tree.find_eq_ok.1 found').2)
    obtain ⟨node', found', ne⟩ := found'
    rw [sources_of_file found directory, sources_of_file found' ne]

/-- From a path to what is new, no source file is met. -/
theorem sources_of_new (g : Tree.Grows t t' file) (none : IsNoSource t.home file)
    {ignores : Ignores} {start : Path} {place : Place} {node : Node}
    (found : t'.find start = .ok (place, node)) (new : t.node? place = Option.none) :
    sources t' ignores start = [] := by
  rw [List.eq_nil_iff_forall_not_mem]
  intro f hf
  obtain ⟨source, -⟩ := g.wf'.mem_sourcesBelow_iff.1 hf
  obtain ⟨place', names, inner, located, rfl, there, ne⟩ := source.exists_names
  obtain rfl := Except.ok.inj ((Tree.find_eq_ok.1 found).1.symm.trans located)
  have isName : ∀ name ∈ names, IsName name := fun name hname =>
    g.wf'.isName_of_node? there name (List.mem_append_right _ hname)
  rw [← g.home_eq] at none
  have old := g.old (none.ne found isName source.extension?_eq) there ne
  by_cases here : names = []
  · rw [here, List.append_nil, new] at old
    cases old
  · rw [g.wf.node?_around here old] at new
    cases new

/-! ## Includes -/

/-- The includes of a project cannot lead from new directories to old ones: no path leads up, and
none of the components of a pattern does, or else no directory is new. -/
structure Contained (t t' : Tree) (base : Path) (includes : List String) : Prop where
  base_noUp : .up ∉ base.components
  noUp : ∀ text ∈ includes, .up ∉ (Path.mk text).components
  keeps : (∀ text ∈ includes, hasWildcard text = true → (base.join ⟨text⟩).staysBelow = true) ∨
    ∀ place, t'.node? place = some .directory → t.node? place = some .directory

section
variable {base : Path} {includes : List String}

/-- No path that is included leads up. -/
theorem Contained.up_not_mem_join (h : Contained t t' base includes) (hb : base.IsSpelled)
    {text : String} (mem : text ∈ includes) : ".." ∉ (base.join ⟨text⟩).pieces := by
  have noUp : ".." ∉ (Path.mk text).pieces :=
    fun up => h.noUp text mem (Path.up_mem_components.2 up)
  cases absolute : (Path.mk text).isAbsolute with
  | true => rwa [Path.join, absolute, Bool.true_or, if_pos rfl]
  | false =>
    rw [Path.pieces_join hb.text_ne absolute, List.mem_append, not_or]
    refine ⟨fun own => h.base_noUp (Path.up_mem_components.2 ?_), noUp⟩
    exact Tree.mem_pieces_of_mem_patternPieces own

/-- What a search of a pattern goes by. -/
theorem Contained.steady (h : Contained t t' base includes) (hb : base.IsSpelled) {text : String}
    (mem : text ∈ includes) (wild : hasWildcard text = true) {patterns : List Pattern}
    (compiled : Tree.Compiled (Tree.globPieces (base.join ⟨text⟩)) patterns) :
    Steady t t' (Tree.globStart (base.join ⟨text⟩)) patterns where
  isSpelled := Tree.isSpelled_globStart _
  noSlash pattern hpattern literal said := by
    obtain ⟨piece, hpiece, known⟩ := compiled.exists_piece hpattern
    rw [Pattern.literal?_of_compile? known] at said
    split_ifs at said
    cases said
    exact Path.slash_not_mem_piece (Tree.mem_pieces_of_mem_globPieces hpiece)
  keeps := by
    refine h.keeps.imp_left fun below => ⟨?_, compiled.descends fun piece hpiece => ?_⟩
    · rw [Tree.stem_globStart]
      split_ifs <;> simp
    have own := Tree.mem_pieces_of_mem_globPieces hpiece
    refine ⟨Path.slash_not_mem_piece own, ?_⟩
    have noUp : piece ≠ ".." := by
      rintro rfl
      exact h.up_not_mem_join hb mem own
    rw [← List.takeWhile_append_dropWhile (p := fun piece => decide (IsPlain piece))
      (l := Tree.globPieces (base.join ⟨text⟩)), List.mem_append] at hpiece
    rcases hpiece with before | after
    · exact leadsUp_of_isPlain (by simpa using List.mem_takeWhile_imp before) noUp
    · simpa using List.all_eq_true.1 (below text mem wild) piece after

/-- A directory that a search finds is new, or was found before. -/
theorem Steady.new_of_mem_expandFrom {p q : Path} {patterns : List Pattern}
    (h : Steady t t' p patterns) (g : Tree.Grows t t' file) (hq : q ∈ t'.expandFrom p patterns)
    {place : Place} (found : t'.find q = .ok (place, .directory))
    (new : ¬ t.isDirectory q = true) : t.node? place = none := by
  cases hn : t.node? place with
  | none => rfl
  | some node =>
    obtain ⟨located, there⟩ := Tree.find_eq_ok.1 found
    have old : t.node? place = some .directory := by rw [hn, g.directory_back hn there]
    have steady : Steady t t' q [] := by
      refine ⟨(Tree.locate_eq_ok located).1, by simp, h.keeps.imp_left fun ⟨noUp, down⟩ => ?_⟩
      obtain ⟨names, descends, -⟩ := g.wf'.descends_of_mem_expandFrom h.isSpelled down hq
      refine ⟨?_, by simp⟩
      rw [descends.stem_eq]
      simpa using noUp
    exact absurd (steady.isDirectory_back g found old) new

variable {ignores : Ignores}

theorem flatMap_sources_of_old (g : Tree.Grows t t' file) (none : IsNoSource t.home file)
    {paths : List Path} (old : ∀ p ∈ paths, t.pathExists p = true) :
    paths.flatMap (sources t' ignores) = paths.flatMap (sources t ignores) := by
  rw [List.flatMap_def, List.flatMap_def]
  exact congrArg List.flatten (List.map_congr_left fun p hp => sources_of_old g none (old p hp))

/-- A pattern leads to the same source files. -/
theorem Contained.flatMap_wild (h : Contained t t' base includes) (g : Tree.Grows t t' file)
    (none : IsNoSource t.home file) (hb : base.IsSpelled) {text : String} (mem : text ∈ includes)
    (wild : hasWildcard text = true) :
    (includedPaths t' base text).1.flatMap (sources t' ignores) =
      (includedPaths t base text).1.flatMap (sources t ignores) := by
  unfold includedPaths
  simp only [wild, if_true]
  cases expanded : t.expand (base.join ⟨text⟩) with
  | error e =>
    cases expanded' : t'.expand (base.join ⟨text⟩) with
    | error e' => rfl
    | ok paths' =>
      obtain ⟨whole, patterns, compiled, -⟩ := Tree.expand_eq_ok_iff.1 expanded'
      rw [Tree.expand_eq_ok_iff.2 ⟨whole, patterns, compiled, rfl⟩] at expanded
      cases expanded
  | ok paths =>
    obtain ⟨whole, patterns, compiled, rfl⟩ := Tree.expand_eq_ok_iff.1 expanded
    have steady := h.steady hb mem wild compiled
    rw [Tree.expand_eq_ok_iff.2 ⟨whole, patterns, compiled, rfl⟩]
    have nothing : ∀ q ∈ (t'.expandFrom (Tree.globStart (base.join ⟨text⟩)) patterns).filter
        t'.isDirectory, ¬ t.isDirectory q = true → sources t' ignores q = [] := by
      intro q hq new
      obtain ⟨met, directory⟩ := List.mem_filter.1 hq
      obtain ⟨place, found⟩ := Tree.isDirectory_iff.1 directory
      exact sources_of_new g none found (steady.new_of_mem_expandFrom g met found new)
    dsimp only
    -- Nothing is met from a new directory, so that only the old ones count, and these are the same.
    rw [← flatMap_filter_of_nil t.isDirectory nothing, List.filter_filter]
    simp only [g.isDirectory_and]
    rw [g.findsAgain patterns _ steady]
    apply flatMap_sources_of_old g none
    intro p hp
    exact Tree.pathExists_of_isDirectory (List.mem_filter.1 hp).2

theorem Contained.up_not_mem_includePath (h : Contained t t' base includes) (hb : base.IsSpelled)
    {text : String} (mem : text ∈ includes) : ".." ∉ (includePath base text).pieces := by
  unfold includePath
  split_ifs with here
  · exact fun up => h.base_noUp (Path.up_mem_components.2 up)
  · exact h.up_not_mem_join hb mem

/-- A path leads to the same source files. -/
theorem Contained.flatMap_literal (h : Contained t t' base includes) (g : Tree.Grows t t' file)
    (none : IsNoSource t.home file) (hb : base.IsSpelled) {text : String} (mem : text ∈ includes)
    (literal : hasWildcard text = false) :
    (includedPaths t' base text).1.flatMap (sources t' ignores) =
      (includedPaths t base text).1.flatMap (sources t ignores) := by
  rw [includedPaths_literal literal, includedPaths_literal literal]
  by_cases old : t.pathExists (includePath base text) = true
  · rw [if_pos old, if_pos (g.pathExists old)]
    apply flatMap_sources_of_old g none
    intro p hp
    rwa [List.mem_singleton.1 hp]
  · rw [if_neg old]
    split_ifs with new
    · obtain ⟨place, node, found⟩ := Tree.pathExists_iff.1 new
      have noUp := h.up_not_mem_includePath hb mem
      have vacant : t.node? place = Option.none := by
        cases hn : t.node? place with
        | none => rfl
        | some n => exact absurd (Tree.pathExists_iff.2 ⟨place, n, g.find_back noUp found hn⟩) old
      simp [sources_of_new g none found vacant]
    · rfl

/-- An include leads to the same source files. -/
theorem Contained.flatMap_includedPaths (h : Contained t t' base includes)
    (g : Tree.Grows t t' file) (none : IsNoSource t.home file) (hb : base.IsSpelled)
    {text : String} (mem : text ∈ includes) :
    (includedPaths t' base text).1.flatMap (sources t' ignores) =
      (includedPaths t base text).1.flatMap (sources t ignores) := by
  cases wild : hasWildcard text with
  | true => exact h.flatMap_wild g none hb mem wild
  | false => exact h.flatMap_literal g none hb mem wild

end

section
variable {base : Path} {includes ignores : List String}

theorem flatMap_searchPaths {u : Tree} (ne : includes ≠ []) (f : Path → List Path) :
    (searchPaths u base includes).1.flatMap f =
      includes.flatMap fun text => (includedPaths u base text).1.flatMap f := by
  have nonempty : includes.isEmpty = false := by simpa using ne
  rw [searchPaths, nonempty]
  simp [List.flatMap_map, List.flatMap_assoc]

/-- A search finds the same files. -/
theorem Contained.files_eq (h : Contained t t' base includes) (g : Tree.Grows t t' file)
    (none : IsNoSource t.home file) (there : t.pathExists base = true) :
    (scan t' base includes ignores).files = (scan t base includes ignores).files := by
  rw [files_scan, files_scan]
  refine congrArg sortPaths ?_
  by_cases empty : includes = []
  · subst empty
    exact flatMap_sources_of_old g none fun p hp => by rwa [List.mem_singleton.1 hp]
  · have hb : base.IsSpelled := by
      obtain ⟨place, node, found⟩ := Tree.pathExists_iff.1 there
      exact (Tree.locate_eq_ok (Tree.find_eq_ok.1 found).1).1
    rw [flatMap_searchPaths empty, flatMap_searchPaths empty, List.flatMap_def, List.flatMap_def]
    exact congrArg List.flatten
      (List.map_congr_left fun text mem => h.flatMap_includedPaths g none hb mem)

theorem pathExists_of_mem_searchPaths (there : includes = [] → t.pathExists base = true)
    {start : Path} (h : start ∈ (searchPaths t base includes).1) : t.pathExists start = true := by
  rcases mem_searchPaths.1 h with ⟨none, rfl⟩ | ⟨text, -, hstart⟩
  · exact there none
  · cases wild : hasWildcard text with
    | true =>
      obtain ⟨-, -, -, directory⟩ := (mem_includedPaths_wild wild).1 hstart
      exact Tree.pathExists_of_isDirectory directory
    | false => exact ((mem_includedPaths_literal wild).1 hstart).2

theorem exists_sourcesBelow {ignores : Ignores} {start : Path}
    (there : t.pathExists start = true) : ∃ files, sourcesBelow t ignores start = .ok files := by
  obtain ⟨place, node, found⟩ := Tree.pathExists_iff.1 there
  unfold sourcesBelow Tree.walk
  simp only [found, bind, Except.bind, pure, Except.pure]
  cases node <;> exact ⟨_, rfl⟩

/-- A search passes over nothing if the project is there, or includes are looked up. -/
theorem skipped_eq_zero (there : includes = [] → t.pathExists base = true) :
    (scan t base includes ignores).skipped = 0 := by
  rw [scan]
  dsimp only
  rw [List.length_eq_zero_iff, List.filterMap_eq_nil_iff]
  intro entry mem
  obtain ⟨start, hstart, rfl⟩ := List.mem_map.1 mem
  obtain ⟨files, found⟩ := exists_sourcesBelow (pathExists_of_mem_searchPaths there hstart)
  rw [found]

end

end PotExtract
