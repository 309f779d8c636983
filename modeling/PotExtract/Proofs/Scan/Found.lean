import PotExtract.Proofs.Files.Expansion
import PotExtract.Proofs.Scan.Sorted

/-!
# What a search finds

All paths that a search finds say the same trunk and then names, and names
tell places apart.

* `Path.Follows`: a path says a trunk, perhaps after a dot, and then names;
* `IncludesBelow`: the includes of a project lead to what is below it;
* `IncludesBelow.exists_trunk`: where the searches of a project start;
* `IsFound`, `IncludesBelow.exists_isFound`: what is known of a file that is found.
-/

namespace PotExtract

open PotExtract.Path (Component IsName IsSpelled)

/-! ## Paths after a trunk -/

namespace Path

/-- What a path says apart from the dot that may begin it. -/
def undotted (p : Path) : List Component :=
  if p.beginsHere then p.components.tail else p.components

theorem components_eq_undotted (p : Path) :
    p.components = (if p.beginsHere then [.here] else []) ++ p.undotted := by
  rw [undotted]
  split_ifs with begins
  · obtain ⟨rest, said⟩ := List.head?_eq_some_iff.1 (beginsHere_iff_components.1 begins)
    rw [said]
    rfl
  · rfl

theorem beginsHere_eq_false {p : Path} (h : .here ∉ p.components) : p.beginsHere = false := by
  rw [← Bool.not_eq_true, beginsHere_iff_components]
  exact fun first => h (List.mem_of_mem_head? first)

/-- A path that says a trunk, perhaps after a dot, and then names. -/
structure Follows (p : Path) (trunk : List Component) (names : List String) : Prop where
  isSpelled : p.IsSpelled
  components_eq :
    p.components = (if p.beginsHere then [.here] else []) ++ (trunk ++ names.map .name)

theorem IsSpelled.follows_undotted {p : Path} (hp : p.IsSpelled) : p.Follows p.undotted [] where
  isSpelled := hp
  components_eq := by rw [List.map_nil, List.append_nil, ← components_eq_undotted]

theorem Follows.placeOf_eq {p : Path} {trunk : List Component} {names : List String}
    (h : p.Follows trunk names) (home : Place) :
    placeOf home p.components = placeOf home trunk ++ names := by
  rw [h.components_eq, placeOf_dot, placeOf_append_names]

/-- A path that says more than another begins as that does. -/
theorem Follows.extend {p q : Path} {trunk : List Component} {names more : List String}
    (h : p.Follows trunk names) (hq : q.IsSpelled)
    (said : q.components = p.components ++ more.map .name) :
    q.Follows trunk (names ++ more) ∧ q.beginsHere = p.beginsHere := by
  have begins := h.isSpelled.beginsHere_of_append said
  refine ⟨⟨hq, ?_⟩, begins⟩
  rw [said, h.components_eq, begins, List.map_append, List.append_assoc, List.append_assoc]

theorem Follows.join {p q : Path} {trunk : List Component} {names : List String}
    (h : p.Follows trunk names) (inner : q.IsInner) :
    ∃ more, (p.join q).Follows trunk (names ++ more) ∧
      (p.join q).beginsHere = p.beginsHere := by
  obtain ⟨more, said⟩ := inner.exists_names
  refine ⟨more, h.extend (h.isSpelled.join inner.isAbsolute_eq) ?_⟩
  rw [components_join h.isSpelled inner.isAbsolute_eq, said]

theorem Follows.joinNames {p : Path} {trunk : List Component} {names more : List String}
    (h : p.Follows trunk names) (isName : ∀ name ∈ more, IsName name) :
    (p.joinNames more).Follows trunk (names ++ more) ∧
      (p.joinNames more).beginsHere = p.beginsHere := by
  obtain ⟨relative, said⟩ := h.isSpelled.joinNames isName
  exact h.extend relative said

/-- Where a path begins, its search begins, apart from the dot. -/
theorem beginning_eq (p : Path) :
    p.beginning = (if p.beginsHere then [.here] else []) ++ (Tree.globStart p).stem := by
  rw [beginning, Tree.stem_globStart]
  cases absolute : p.isAbsolute with
  | true =>
    have begins : p.beginsHere = false := by
      rw [← Bool.not_eq_true, beginsHere_iff_components, isAbsolute_iff_components.1 absolute]
      simp
    rw [begins]
    rfl
  | false => cases p.beginsHere <;> rfl

/-- A path continues its trunk by names, unless it leads up after it. -/
theorem follows_trunk {base : Path} (hb : base.IsSpelled)
    (down : ∀ piece ∈ base.branch, '/' ∉ piece.toList ∧ Glob.leadsUp piece = false) :
    ∃ names, base.Follows base.trunk names := by
  have noUp : ".." ∉ base.branch := by
    intro up
    have := (down ".." up).2
    rw [Glob.leadsUp_dots] at this
    cases this
  obtain ⟨names, -, said⟩ := Path.exists_names (fun piece h => (down piece h).1) noUp
  refine ⟨names, hb, ?_⟩
  have own : base.trunk ++ names.map .name = (Tree.globStart base).stem ++ base.route := by
    rw [← Tree.filterMap_globPieces hb, trunk, ← said, branch, List.append_assoc,
      ← List.filterMap_append, List.takeWhile_append_dropWhile]
  rw [own, ← List.append_assoc, ← beginning_eq, ← base.components_eq]

end Path

/-! ## Where searches start -/

/-- The includes of a project lead to what is below it. -/
structure IncludesBelow (base : Path) (includes : List String) : Prop where
  isInner : ∀ text ∈ includes, (Path.mk text).IsInner
  staysBelow : ∀ text ∈ includes, hasWildcard text = true → (base.join ⟨text⟩).staysBelow = true

section
variable {t : Tree} {base : Path} {includes : List String}

theorem mem_searchPaths {start : Path} :
    start ∈ (searchPaths t base includes).1 ↔
      includes = [] ∧ start = base ∨
        ∃ text ∈ includes, start ∈ (includedPaths t base text).1 := by
  unfold searchPaths
  cases includes with
  | nil => simp
  | cons text includes => simp

/-- An include without wildcards leads to itself, spelled as the project is. -/
theorem follows_of_literal {trunk : List Component} {before : List String}
    (h : base.Follows trunk before) {text : String} (literal : hasWildcard text = false)
    (inner : (Path.mk text).IsInner) {start : Path}
    (hs : start ∈ (includedPaths t base text).1) :
    ∃ names, start.Follows trunk names ∧ start.beginsHere = base.beginsHere := by
  unfold includedPaths at hs
  rw [literal] at hs
  simp only [Bool.false_eq_true, if_false] at hs
  split_ifs at hs with itself
  · rw [List.mem_singleton] at hs
    exact ⟨before, hs ▸ h, hs ▸ rfl⟩
  · simp at hs
  · rw [List.mem_singleton] at hs
    obtain ⟨more, follows, begins⟩ := h.join inner
    exact ⟨before ++ more, hs ▸ follows, hs ▸ begins⟩
  · simp at hs

/-- A pattern leads to paths that do not begin with a dot. -/
theorem follows_of_wild (wf : t.WellFormed) (hb : base.IsSpelled) {text : String}
    (wild : hasWildcard text = true) (inner : (Path.mk text).IsInner)
    (below : (base.join ⟨text⟩).staysBelow = true) {start : Path}
    (hs : start ∈ (includedPaths t base text).1) :
    ∃ names, start.Follows base.trunk names ∧ start.beginsHere = false := by
  unfold includedPaths at hs
  rw [wild] at hs
  simp only [if_true] at hs
  cases found : t.expand (base.join ⟨text⟩) with
  | error e => simp [found] at hs
  | ok paths =>
    simp only [found] at hs
    obtain ⟨spelled, names, said⟩ := wf.components_of_mem_expand hb inner wild below found
      (List.mem_filter.1 hs).1
    have begins : start.beginsHere = false := by
      apply Path.beginsHere_eq_false
      simp [said, base.here_not_mem_trunk]
    refine ⟨names, ⟨spelled, ?_⟩, begins⟩
    rw [said, begins]
    rfl

theorem IncludesBelow.exists_trunk (wf : t.WellFormed) (hb : base.IsSpelled)
    (below : IncludesBelow base includes) :
    ∃ trunk before, base.Follows trunk before ∧
      ∀ text ∈ includes, ∀ start ∈ (includedPaths t base text).1,
        ∃ names, start.Follows trunk names ∧
          start.beginsHere = (!hasWildcard text && base.beginsHere) := by
  by_cases patterned : ∃ text ∈ includes, hasWildcard text = true
  · obtain ⟨text, htext, wild⟩ := patterned
    have down := Path.leadsDown_of_staysBelow hb (below.isInner text htext)
      (below.staysBelow text htext wild)
    obtain ⟨before, follows⟩ := Path.follows_trunk hb fun piece hpiece =>
      down piece (List.mem_append_left _ hpiece)
    refine ⟨base.trunk, before, follows, fun text htext start hstart => ?_⟩
    cases wild : hasWildcard text with
    | false => exact follows_of_literal follows wild (below.isInner text htext) hstart
    | true =>
      exact follows_of_wild wf hb wild (below.isInner text htext)
        (below.staysBelow text htext wild) hstart
  · have follows := hb.follows_undotted
    refine ⟨base.undotted, [], follows, fun text htext start hstart => ?_⟩
    have literal : hasWildcard text = false := by
      rw [← Bool.not_eq_true]
      exact fun wild => patterned ⟨text, htext, wild⟩
    rw [literal]
    exact follows_of_literal follows literal (below.isInner text htext) hstart

/-! ## What is found -/

theorem mem_sourcesBelow {ignores : Ignores} {start f : Path} {sources : List Path}
    (h : sourcesBelow t ignores start = .ok sources) (hf : f ∈ sources) :
    ∃ found node, t.walk start = .ok found ∧ (f, node) ∈ found ∧
      ignores.covers f = false ∧ isSource f node = true := by
  unfold sourcesBelow at h
  cases walked : t.walk start with
  | error e => simp [walked, bind, Except.bind] at h
  | ok found =>
    simp only [walked, bind, Except.bind, pure, Except.pure, Except.ok.injEq] at h
    subst h
    obtain ⟨⟨p, node⟩, kept, rfl⟩ := List.mem_map.1 hf
    obtain ⟨met, source⟩ := List.mem_filter.1 kept
    simp only [Bool.and_eq_true, Bool.not_eq_true'] at source
    exact ⟨found, node, rfl, met, source.1, source.2⟩

theorem files_scan (t : Tree) (base : Path) (includes ignores : List String) :
    (scan t base includes ignores).files =
      sortPaths ((searchPaths t base includes).1.flatMap fun start =>
        (sourcesBelow t (Ignores.ofList base ignores).1 start).toOption.getD []) := by
  simp only [scan, List.flatMap_map]

theorem mem_files {ignores : List String} {f : Path}
    (h : f ∈ (scan t base includes ignores).files) :
    ∃ start ∈ (searchPaths t base includes).1, ∃ sources,
      sourcesBelow t (Ignores.ofList base ignores).1 start = .ok sources ∧ f ∈ sources := by
  rw [files_scan] at h
  obtain ⟨start, hstart, hf⟩ := List.mem_flatMap.1 (mem_of_mem_sortPaths h)
  refine ⟨start, hstart, ?_⟩
  cases result : sourcesBelow t (Ignores.ofList base ignores).1 start with
  | error e => simp [result, Except.toOption] at hf
  | ok sources => exact ⟨sources, rfl, by simpa [result, Except.toOption] using hf⟩

/-- What is known of a file that is found: what it says, where it is, that it is not ignored, and
whether it begins with a dot. -/
structure IsFound (t : Tree) (base : Path) (includes ignores : List String)
    (trunk : List Component) (f : Path) (names : List String) : Prop where
  follows : f.Follows trunk names
  exists_node :
    ∃ node, node ≠ .directory ∧ t.find f = .ok (Path.placeOf t.home trunk ++ names, node)
  covers_eq : (Ignores.ofList base ignores).1.covers f = false
  beginsHere_eq : includes = [] ∧ f.beginsHere = base.beginsHere ∨
    ∃ text ∈ includes, f.beginsHere = (!hasWildcard text && base.beginsHere)

/-- All files that are found are spelled after one trunk, as the project is. -/
theorem IncludesBelow.exists_isFound (wf : t.WellFormed) (hb : base.IsSpelled)
    (below : IncludesBelow base includes) (ignores : List String) :
    ∃ trunk before, base.Follows trunk before ∧
      ∀ f ∈ (scan t base includes ignores).files,
        ∃ names, IsFound t base includes ignores trunk f names := by
  obtain ⟨trunk, before, follows, starts⟩ := below.exists_trunk wf hb
  refine ⟨trunk, before, follows, fun f hf => ?_⟩
  obtain ⟨start, hstart, sources, searched, hf⟩ := mem_files hf
  obtain ⟨found, node, walked, met, kept, source⟩ := mem_sourcesBelow searched hf
  obtain ⟨place, more, located, rfl, isName, there⟩ := wf.exists_of_mem_walk walked met
  have spelled : ∃ names, start.Follows trunk names ∧
      (includes = [] ∧ start.beginsHere = base.beginsHere ∨
        ∃ text ∈ includes, start.beginsHere = (!hasWildcard text && base.beginsHere)) := by
    rcases mem_searchPaths.1 hstart with ⟨empty, rfl⟩ | ⟨text, htext, hstart⟩
    · exact ⟨before, follows, .inl ⟨empty, rfl⟩⟩
    · obtain ⟨names, startFollows, begins⟩ := starts text htext start hstart
      exact ⟨names, startFollows, .inr ⟨text, htext, begins⟩⟩
  obtain ⟨names, startFollows, begins⟩ := spelled
  obtain ⟨fileFollows, same⟩ := startFollows.joinNames isName
  have stands : place = Path.placeOf t.home trunk ++ names := by
    rw [(Tree.locate_eq_ok located).2.2, startFollows.placeOf_eq]
  have file : node ≠ .directory := by
    rintro rfl
    simp [isSource] at source
  refine ⟨names ++ more, fileFollows, ⟨node, file, ?_⟩, kept, same ▸ begins⟩
  rw [there, stands, List.append_assoc]

theorem IsFound.beginsHere_of_literal {ignores : List String} {trunk : List Component} {f : Path}
    {names : List String} (h : IsFound t base includes ignores trunk f names)
    (literal : base.beginsHere = false ∨ ∀ text ∈ includes, hasWildcard text = false) :
    f.beginsHere = base.beginsHere := by
  rcases h.beginsHere_eq with ⟨-, same⟩ | ⟨text, htext, begins⟩
  · exact same
  · rcases literal with plain | literal
    · rw [begins, plain, Bool.and_false]
    · rw [begins, literal text htext]
      rfl

theorem IsFound.beginsHere_of_wild {ignores : List String} {trunk : List Component} {f : Path}
    {names : List String} (h : IsFound t base includes ignores trunk f names)
    (nonempty : includes ≠ []) (wild : ∀ text ∈ includes, hasWildcard text = true) :
    f.beginsHere = false := by
  rcases h.beginsHere_eq with ⟨empty, -⟩ | ⟨text, htext, begins⟩
  · exact absurd empty nonempty
  · rw [begins, wild text htext]
    rfl

end

/-! ## Two projects -/

/-- A project with an old directory inside of what it includes. -/
def siteTree : Tree :=
  { nodes := [(["site"], .directory), (["site", "inc"], .directory),
      (["site", "inc", "a.php"], .text ""), (["site", "inc", "old"], .directory),
      (["site", "inc", "old", "b.php"], .text "")] }

/-- The pattern and the path after it overlap. -/
theorem includesBelow_siteTree : IncludesBelow ⟨"site"⟩ ["inc*", "inc/old"] := by
  refine ⟨by decide, fun text htext wild => ?_⟩
  rcases List.mem_cons.1 htext with rfl | later
  · have down : Glob.leadsUp "inc*" = false := by decide +kernel
    rw [Path.staysBelow,
      show Tree.globPieces ((Path.mk "site").join ⟨"inc*"⟩) = ["site", "inc*"] by decide,
      show (["site", "inc*"].dropWhile fun piece => Glob.IsPlain piece) = ["inc*"] by decide]
    simp [down]
  · rw [List.mem_singleton.1 later] at wild
    exact absurd wild (by decide)

/-- A file in a directory, with the project around them. -/
def vendorTree : Tree :=
  { nodes := [(["vendor"], .directory), (["vendor", "a.php"], .text "")] }

theorem below_vendorTree :
    vendorTree.below [] = [(["vendor"], .directory), (["vendor", "a.php"], .text "")] := by
  rw [Tree.below, List.mergeSort_of_pairwise (by decide)]
  decide

/-- The directory is found by its name, and not by a dot and its name. -/
theorem includedPaths_vendorTree : (includedPaths vendorTree ⟨"."⟩ "*").1 = [⟨"vendor"⟩] := by
  have inside : vendorTree.namesBelow ⟨"."⟩ = [["vendor"], ["vendor", "a.php"]] := by
    rw [Tree.namesBelow, show vendorTree.find ⟨"."⟩ = .ok ([], .directory) from rfl]
    simp only [below_vendorTree]
    rfl
  have whole : Glob.Pattern.compile? "./*" = .ok ⟨[.char '.', .char '/', .anySequence]⟩ := by
    decide +kernel
  have dot : Glob.Pattern.compile? "." = .ok ⟨[.char '.']⟩ := by decide +kernel
  have star : Glob.Pattern.compile? "*" = .ok ⟨[.anySequence]⟩ := by decide +kernel
  have each : [".", "*"].mapM Glob.Pattern.compile? = .ok [⟨[.char '.']⟩, ⟨[.anySequence]⟩] := by
    rw [List.mapM_cons, List.mapM_cons, dot, star]
    rfl
  have found : vendorTree.expandFrom ⟨"."⟩ [⟨[.char '.']⟩, ⟨[.anySequence]⟩] = [⟨"vendor"⟩] := by
    rw [Tree.expandFrom_literal (show Glob.Pattern.literal? ⟨[.char '.']⟩ = some "." from rfl),
      if_pos (by decide), show (Path.mk ".").next "." = ⟨"."⟩ from rfl, Tree.expandFrom.eq_def]
    simp only [inside, show Glob.Pattern.literal? ⟨[.anySequence]⟩ = none from rfl]
    decide
  have expanded : vendorTree.expand ⟨"./*"⟩ = .ok [⟨"vendor"⟩] := by
    rw [Tree.expand, whole, show Tree.globPieces ⟨"./*"⟩ = [".", "*"] by decide, each]
    exact congrArg Except.ok found
  rw [includedPaths, if_pos (by decide), show (Path.mk ".").join ⟨"*"⟩ = ⟨"./*"⟩ by decide,
    expanded]
  decide

theorem walk_vendorTree : vendorTree.walk ⟨"vendor"⟩ =
    .ok [(⟨"vendor"⟩, .directory), (⟨"vendor/a.php"⟩, .text "")] := by
  have found : vendorTree.find ⟨"vendor"⟩ = .ok (["vendor"], .directory) := rfl
  have below : vendorTree.below ["vendor"] = [(["a.php"], .text "")] := by
    rw [Tree.below, List.mergeSort_of_pairwise (by decide)]
    decide
  simp only [Tree.walk, found, bind, Except.bind, below]
  rfl

end PotExtract
