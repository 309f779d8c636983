import PotExtract.Proofs.Scan.Exact
import PotExtract.Proofs.Glob.Copies
import PotExtract.Proofs.Glob.Anywhere

/-!
# Projects that are moved

A project that is moved, with all that is in it, keeps its files, unless an
ignored pattern tells the old place from the new one. Ignored patterns are
matched against whole paths, so that they see what is around the project.

* `Movable`: what the project asks for has the same meaning at both places;
* `AreCopies.exists_mem_files`: what is found at one place, is found at the other;
* `files_moved`: what is found says the same after both places;
* `files_of_inside`: nothing is found if the project is inside of a directory
  whose name is ignored everywhere.
-/

namespace PotExtract

open Glob
open PotExtract.Path (IsName Twins Component)

/-- What a project asks for has the same meaning at two places. Ignored patterns do not tell them
apart, and patterns that are included take both of them as they are spelled. -/
structure Movable (base₁ base₂ : Path) (includes ignores : List String) : Prop where
  isInner : ∀ text ∈ includes, (Path.mk text).IsInner
  literal : ∀ text ∈ ignores, hasWildcard text = false → (Path.mk text).IsInner
  alike : ∀ text ∈ ignores, hasWildcard text = true →
    ∀ pattern, Pattern.compile? text = .ok pattern → pattern.Alike base₁ base₂
  verbatim : ∀ text ∈ includes, hasWildcard text = true → base₁.IsVerbatim ∧ base₂.IsVerbatim
  down : ∀ text ∈ includes, hasWildcard text = true →
    ∀ piece ∈ Tree.patternPieces ⟨text⟩, leadsUp piece = false
  alike_globbed : ∀ inc ∈ includes, hasWildcard inc = true →
    ∀ text ∈ ignores, hasWildcard text = true →
      ∀ pattern, Pattern.compile? text = .ok pattern → pattern.Alike base₁.globbed base₂.globbed

theorem Movable.symm {base₁ base₂ : Path} {includes ignores : List String}
    (h : Movable base₁ base₂ includes ignores) : Movable base₂ base₁ includes ignores where
  isInner := h.isInner
  literal := h.literal
  alike text mem wild pattern compiled := (h.alike text mem wild pattern compiled).symm
  verbatim text mem wild := (h.verbatim text mem wild).symm
  down := h.down
  alike_globbed inc hinc special text mem wild pattern compiled :=
    (h.alike_globbed inc hinc special text mem wild pattern compiled).symm

/-- Two spellings of the places of a project, from which it is searched. -/
structure Spelled (t₁ t₂ : Tree) (base₁ base₂ : Path) (place₁ place₂ : Place)
    (ignores : List String) (b₁ b₂ : Path) : Prop where
  copies : AreCopies t₁ t₂ b₁ b₂ place₁ place₂
  same₁ : b₁.components = base₁.components
  same₂ : b₂.components = base₂.components
  alike : ∀ text ∈ ignores, hasWildcard text = true →
    ∀ pattern, Pattern.compile? text = .ok pattern → pattern.Alike b₁ b₂

section
variable {t₁ t₂ : Tree} {base₁ base₂ : Path} {place₁ place₂ : Place}
  {includes ignores : List String}

theorem twins_includePath {text : String} (inner : (Path.mk text).IsInner) :
    Twins base₁ base₂ (includePath base₁ text) (includePath base₂ text) := by
  unfold includePath
  split_ifs
  · exact .itself
  · exact .join inner

/-- Every path to search at one place has a twin at the other. -/
theorem AreCopies.exists_mem_searchPaths (copies : AreCopies t₁ t₂ base₁ base₂ place₁ place₂)
    (wf₁ : t₁.WellFormed) (wf₂ : t₂.WellFormed)
    (movable : Movable base₁ base₂ includes ignores) {start₁ : Path}
    (h : start₁ ∈ (searchPaths t₁ base₁ includes).1) :
    ∃ b₁ b₂ start₂, Spelled t₁ t₂ base₁ base₂ place₁ place₂ ignores b₁ b₂ ∧
      Twins b₁ b₂ start₁ start₂ ∧ start₂ ∈ (searchPaths t₂ base₂ includes).1 := by
  have own : Spelled t₁ t₂ base₁ base₂ place₁ place₂ ignores base₁ base₂ :=
    ⟨copies, rfl, rfl, movable.alike⟩
  rcases mem_searchPaths.1 h with ⟨none, rfl⟩ | ⟨text, mem, h⟩
  · exact ⟨_, _, base₂, own, .itself, mem_searchPaths.2 (.inl ⟨none, rfl⟩)⟩
  · cases wild : hasWildcard text with
    | false =>
      obtain ⟨rfl, there⟩ := (mem_includedPaths_literal wild).1 h
      have twins : Twins base₁ base₂ (includePath base₁ text) (includePath base₂ text) :=
        twins_includePath (movable.isInner text mem)
      refine ⟨_, _, _, own, twins, mem_searchPaths.2 (.inr ⟨text, mem, ?_⟩)⟩
      exact (mem_includedPaths_literal wild).2 ⟨rfl, copies.pathExists twins there⟩
    | true =>
      obtain ⟨paths, expanded, met, directory⟩ := (mem_includedPaths_wild wild).1 h
      obtain ⟨verbatim₁, verbatim₂⟩ := movable.verbatim text mem wild
      obtain ⟨paths₂, expanded₂, start₂, met₂, twins⟩ := copies.exists_mem_expand wf₁ wf₂
        verbatim₁ verbatim₂ (movable.isInner text mem) (movable.down text mem wild) expanded met
      have globbed := copies.globbed verbatim₁ verbatim₂
      refine ⟨_, _, start₂, ⟨globbed, ?_, ?_, ?_⟩, twins, mem_searchPaths.2 (.inr ⟨text, mem, ?_⟩)⟩
      · exact (verbatim₁.components_globbed copies.isSpelled).2
      · exact (verbatim₂.components_globbed copies.symm.isSpelled).2
      · exact movable.alike_globbed text mem wild
      · exact (mem_includedPaths_wild wild).2
          ⟨paths₂, expanded₂, met₂, globbed.isDirectory twins directory⟩

namespace Spelled

variable {b₁ b₂ f g : Path}

/-- Twins say the places of the project and then the same. -/
theorem exists_route (h : Spelled t₁ t₂ base₁ base₂ place₁ place₂ ignores b₁ b₂)
    (twins : Twins b₁ b₂ f g) :
    ∃ route, f.components = base₁.components ++ route ∧
      g.components = base₂.components ++ route := by
  rw [← h.same₁, ← h.same₂]
  cases twins with
  | itself => exact ⟨[], by simp, by simp⟩
  | @join s inner =>
    exact ⟨s.route, Path.components_join h.copies.isSpelled inner.isAbsolute_eq,
      Path.components_join h.copies.symm.isSpelled inner.isAbsolute_eq⟩

/-- What is not ignored at one place, is not ignored at the other. -/
theorem isSpared (h : Spelled t₁ t₂ base₁ base₂ place₁ place₂ ignores b₁ b₂)
    (copies : AreCopies t₁ t₂ base₁ base₂ place₁ place₂)
    (literal : ∀ text ∈ ignores, hasWildcard text = false → (Path.mk text).IsInner)
    (twins : Twins b₁ b₂ f g) (ne : f ≠ b₁) (spared : IsSpared base₁ ignores f) :
    IsSpared base₂ ignores g := by
  obtain ⟨route, saidF, saidG⟩ := h.exists_route twins
  constructor
  · intro text mem plain below
    have inner := literal text mem plain
    apply spared.not_below text mem plain
    rw [Path.components_join copies.symm.isSpelled inner.isAbsolute_eq, saidG,
      List.prefix_append_right_inj] at below
    rw [Path.components_join copies.isSpelled inner.isAbsolute_eq, saidF,
      List.prefix_append_right_inj]
    exact below
  · intro text mem special pattern compiled
    cases twins with
    | itself => exact absurd rfl ne
    | @join s inner =>
      rw [← h.alike text mem special pattern compiled s inner]
      exact spared.not_matched text mem special pattern compiled

/-- A source file below a path has a twin below the twin of the path. -/
theorem exists_isSourceBelow (h : Spelled t₁ t₂ base₁ base₂ place₁ place₂ ignores b₁ b₂)
    (wf₁ : t₁.WellFormed) {start₁ start₂ : Path} (twins : Twins b₁ b₂ start₁ start₂)
    (source : IsSourceBelow t₁ start₁ f) :
    ∃ g, Twins b₁ b₂ f g ∧ f ≠ b₁ ∧ IsSourceBelow t₂ start₂ g := by
  obtain ⟨q, n, found⟩ := Tree.pathExists_iff.1 (source.pathExists wf₁)
  obtain ⟨⟨place, names, node, located, rfl, there, file⟩, extension⟩ := source
  obtain rfl : q = place := Except.ok.inj ((Tree.find_eq_ok.1 found).1.symm.trans located)
  obtain ⟨more, rfl, found₂⟩ := h.copies.find twins found
  have isName : ∀ name ∈ names, IsName name := fun name hname =>
    wf₁.isName_of_node? there name (List.mem_append_right _ hname)
  have hb₁ := h.copies.isSpelled
  have hb₂ := h.copies.symm.isSpelled
  have fileTwins := twins.joinNames hb₁.text_ne hb₂.text_ne isName
  obtain ⟨located₁, directory⟩ := Tree.find_eq_ok.1 h.copies.find₁
  have start_place : place₁ ++ more = Path.placeOf t₁.home start₁.components :=
    (Tree.locate_eq_ok located).2.2
  have file_place :
      Path.placeOf t₁.home (start₁.joinNames names).components = place₁ ++ more ++ names := by
    rw [((twins.isSpelled hb₁).joinNames isName).2, Path.placeOf_append_names, ← start_place]
  have base_place : place₁ = Path.placeOf t₁.home b₁.components := (Tree.locate_eq_ok located₁).2.2
  have away : (start₁.joinNames names).components ≠ b₁.components := by
    intro same
    rw [same, ← base_place] at file_place
    rw [← file_place, directory, Option.some.injEq] at there
    exact file there.symm
  refine ⟨start₂.joinNames names, fileTwins, ?_,
    ⟨⟨place₂ ++ more, names, node, ?_, rfl, ?_, file⟩, ?_⟩⟩
  · exact fun same => away (congrArg _ same)
  · exact (Tree.find_eq_ok.1 found₂).1
  · rw [List.append_assoc, ← h.copies.node?_eq, ← List.append_assoc, there]
  · obtain ⟨route, saidF, saidG⟩ := h.exists_route fileTwins
    have route_ne : route ≠ [] := by
      rintro rfl
      rw [List.append_nil, ← h.same₁] at saidF
      exact away saidF
    have sameName : (start₂.joinNames names).fileName? = (start₁.joinNames names).fileName? := by
      rw [Path.fileName?, Path.fileName?, saidF, saidG, List.getLast?_append_of_ne_nil _ route_ne,
        List.getLast?_append_of_ne_nil _ route_ne]
    rw [Path.extension?, sameName]
    exact extension

end Spelled

/-- What is found at one place, is found at the other. -/
theorem AreCopies.exists_mem_files (copies : AreCopies t₁ t₂ base₁ base₂ place₁ place₂)
    (wf₁ : t₁.WellFormed) (wf₂ : t₂.WellFormed)
    (movable : Movable base₁ base₂ includes ignores) {f : Path}
    (h : f ∈ (scan t₁ base₁ includes ignores).files) :
    ∃ g ∈ (scan t₂ base₂ includes ignores).files, ∃ route,
      f.components = base₁.components ++ route ∧ g.components = base₂.components ++ route := by
  obtain ⟨start₁, hstart₁, source, spared⟩ := (wf₁.mem_files_iff base₁ includes ignores).1 f h
  obtain ⟨b₁, b₂, start₂, spelled, twins, hstart₂⟩ :=
    copies.exists_mem_searchPaths wf₁ wf₂ movable hstart₁
  obtain ⟨g, fileTwins, ne, source₂⟩ := spelled.exists_isSourceBelow wf₁ twins source
  have spared₂ := spelled.isSpared copies movable.literal fileTwins ne spared
  obtain ⟨kept, hkept, said⟩ :=
    (wf₂.mem_files_iff base₂ includes ignores).2 start₂ hstart₂ g source₂ spared₂
  obtain ⟨route, saidF, saidG⟩ := spelled.exists_route fileTwins
  exact ⟨kept, hkept, route, saidF, said.trans saidG⟩

end

/-! ## Directories that are ignored by default -/

/-- What is ignored by default is what lies below two directories, wherever these are. -/
theorem compile?_default {text : String} (mem : text ∈ ["**/vendor/**", "**/node_modules/**"]) :
    ∃ name, Pattern.compile? text = .ok (.anywhere name) ∧
      name ∈ ["vendor", "node_modules"] ∧ '/' ∉ name.toList := by
  rcases List.mem_pair.1 mem with rfl | rfl
  · exact ⟨"vendor", @compile?_anywhere "vendor" (by decide), by decide, by decide⟩
  · exact ⟨"node_modules", @compile?_anywhere "node_modules" (by decide), by decide, by decide⟩

theorem isSpared_default {base f : Path}
    (h : ∀ name ∈ ["vendor", "node_modules"], name ∉ f.pieces.dropLast) :
    IsSpared base ["**/vendor/**", "**/node_modules/**"] f := by
  constructor
  · intro text mem literal
    rcases List.mem_pair.1 mem with rfl | rfl <;> cases literal
  · intro text mem _ pattern compiled
    obtain ⟨name, known, listed, noSlash⟩ := compile?_default mem
    obtain rfl := Except.ok.inj (known.symm.trans compiled)
    rw [← Bool.not_eq_true, accepts_anywhere noSlash]
    exact h name listed

theorem alike_default {p q : Path} (hp : p.text ≠ "") (hq : q.text ≠ "")
    (same : ∀ name ∈ ["vendor", "node_modules"],
      name ∈ Tree.patternPieces p ↔ name ∈ Tree.patternPieces q) :
    ∀ text ∈ ["**/vendor/**", "**/node_modules/**"], hasWildcard text = true →
      ∀ pattern, Pattern.compile? text = .ok pattern → pattern.Alike p q := by
  intro text mem _ pattern compiled
  obtain ⟨name, known, listed, noSlash⟩ := compile?_default mem
  obtain rfl := Except.ok.inj (known.symm.trans compiled)
  exact alike_anywhere noSlash hp hq (same name listed)

/-! ## Three places -/

/-- A project with two copies of it. -/
def movedTree : Tree :=
  { nodes := [(["site"], .directory), (["site", "a.php"], .text ""),
      (["old"], .directory), (["old", "site"], .directory), (["old", "site", "a.php"], .text ""),
      (["vendor"], .directory), (["vendor", "site"], .directory),
      (["vendor", "site", "a.php"], .text "")] }

theorem node?_movedTree {place : Place}
    (h : place ∈ [["site"], ["old", "site"], ["vendor", "site"]]) (names : List String) :
    movedTree.node? (place ++ names) =
      if names = [] then some .directory
      else if names = ["a.php"] then some (.text "") else none := by
  simp only [List.mem_cons, List.not_mem_nil, or_false] at h
  by_cases here : names = []
  · rcases h with rfl | rfl | rfl <;> rw [here] <;> rfl
  · by_cases file : names = ["a.php"]
    · rcases h with rfl | rfl | rfl <;> rw [file] <;> rfl
    · rw [if_neg here, if_neg file]
      rcases h with rfl | rfl | rfl <;>
        simp [movedTree, Tree.node?, List.lookup_cons, beq_eq_false_iff_ne.2 here,
          beq_eq_false_iff_ne.2 file]

theorem copies_movedTree {place : Place} (h : place ∈ [["old", "site"], ["vendor", "site"]])
    {base : Path} (found : movedTree.find base = .ok (place, .directory)) :
    AreCopies movedTree movedTree ⟨"site"⟩ base ["site"] place where
  find₁ := rfl
  find₂ := found
  node?_eq names := by
    rw [node?_movedTree List.mem_cons_self, node?_movedTree (List.mem_cons_of_mem _ h)]

theorem exists_mem_movedTree {includes : List String} (h : "." ∈ includes) :
    ∃ f ∈ (scan movedTree ⟨"site"⟩ includes ["**/vendor/**", "**/node_modules/**"]).files,
      f.components = [.name "site", .name "a.php"] := by
  have wf : movedTree.WellFormed := by decide
  have start : ⟨"site"⟩ ∈ (searchPaths movedTree ⟨"site"⟩ includes).1 :=
    mem_searchPaths.2 (.inr ⟨".", h, (mem_includedPaths_literal (by decide)).2 ⟨rfl, rfl⟩⟩)
  have source : IsSourceBelow movedTree ⟨"site"⟩ ⟨"site/a.php"⟩ :=
    ⟨⟨["site"], ["a.php"], .text "", rfl, by decide, rfl, by decide⟩, by decide⟩
  exact (wf.mem_files_iff _ _ _).2 _ start _ source (isSpared_default (by decide))

/-! ## Places of a project -/

section
variable {t₁ t₂ : Tree} {base₁ base₂ : Path} {place₁ place₂ : Place}
  {includes ignores : List String}

/-- **A project keeps its files when it is moved**, with all that is below it, to where its
patterns mean the same. What is found says the project and then something, and after both places
the same is said. -/
theorem files_moved (wf₁ : t₁.WellFormed) (wf₂ : t₂.WellFormed)
    (copies : AreCopies t₁ t₂ base₁ base₂ place₁ place₂)
    (movable : Movable base₁ base₂ includes ignores) :
    (∀ f ∈ (scan t₁ base₁ includes ignores).files, f.startsWith base₁ = true) ∧
    (∀ g ∈ (scan t₂ base₂ includes ignores).files, g.startsWith base₂ = true) ∧
    ∀ route : List Component,
      (∃ f ∈ (scan t₁ base₁ includes ignores).files, f.components = base₁.components ++ route) ↔
      ∃ g ∈ (scan t₂ base₂ includes ignores).files, g.components = base₂.components ++ route := by
  have starts {p base : Path} {route : List Component}
      (said : p.components = base.components ++ route) : p.startsWith base = true := by
    rw [Path.startsWith, List.isPrefixOf_iff_prefix, said]
    exact List.prefix_append _ _
  refine ⟨fun f hf => ?_, fun g hg => ?_, fun route => ⟨?_, ?_⟩⟩
  · obtain ⟨-, -, route, said, -⟩ := copies.exists_mem_files wf₁ wf₂ movable hf
    exact starts said
  · obtain ⟨-, -, route, said, -⟩ := copies.symm.exists_mem_files wf₂ wf₁ movable.symm hg
    exact starts said
  · rintro ⟨f, hf, said⟩
    obtain ⟨g, hg, more, saidF, saidG⟩ := copies.exists_mem_files wf₁ wf₂ movable hf
    obtain rfl := List.append_cancel_left (saidF.symm.trans said)
    exact ⟨g, hg, saidG⟩
  · rintro ⟨g, hg, said⟩
    obtain ⟨f, hf, more, saidG, saidF⟩ := copies.symm.exists_mem_files wf₂ wf₁ movable.symm hg
    obtain rfl := List.append_cancel_left (saidG.symm.trans said)
    exact ⟨f, hf, saidF⟩

end

/-- The name of a directory around the project is no name that is ignored. -/
theorem files_moved_old :
    movedTree.WellFormed ∧
      AreCopies movedTree movedTree ⟨"site"⟩ ⟨"old/site"⟩ ["site"] ["old", "site"] ∧
      Movable ⟨"site"⟩ ⟨"old/site"⟩ [".", "inc*"] ["**/vendor/**", "**/node_modules/**"] ∧
      ∃ g ∈ (scan movedTree ⟨"old/site"⟩ [".", "inc*"]
          ["**/vendor/**", "**/node_modules/**"]).files,
        g.components = [.name "old", .name "site", .name "a.php"] := by
  have wf : movedTree.WellFormed := by decide
  have copies : AreCopies movedTree movedTree ⟨"site"⟩ ⟨"old/site"⟩ ["site"] ["old", "site"] :=
    copies_movedTree (by decide) rfl
  have down : ∀ piece ∈ Tree.patternPieces ⟨"inc*"⟩, leadsUp piece = false := by
    intro piece hpiece
    rw [show Tree.patternPieces ⟨"inc*"⟩ = ["inc*"] by decide, List.mem_singleton] at hpiece
    rw [hpiece]
    decide +kernel
  have movable : Movable ⟨"site"⟩ ⟨"old/site"⟩ [".", "inc*"]
      ["**/vendor/**", "**/node_modules/**"] := by
    refine ⟨by decide, by decide, ?_, ?_, ?_, ?_⟩
    · exact alike_default (by decide) (by decide) (by decide)
    · intro _ _ _
      exact ⟨⟨by decide, by decide, by decide⟩, ⟨by decide, by decide, by decide⟩⟩
    · intro text mem wild
      rcases List.mem_pair.1 mem with rfl | rfl
      · cases wild
      · exact down
    · intro _ _ _
      exact alike_default (by decide) (by decide) (by decide)
  obtain ⟨f, hf, said⟩ := @exists_mem_movedTree [".", "inc*"] List.mem_cons_self
  exact ⟨wf, copies, movable,
    ((files_moved wf wf copies movable).2.2 [.name "a.php"]).1 ⟨f, hf, said⟩⟩

section
variable {includes ignores : List String}

/-- **A project inside of a directory has no files if that directory's name is ignored
everywhere**, as `**/name/**` does: the directory need not be below the project. -/
theorem files_of_inside {t : Tree} {base : Path} (wf : t.WellFormed)
    (there : t.isDirectory base = true) {name : String} (plain : IsPlain name)
    (noSlash : '/' ∉ name.toList) (inside : name ∈ Tree.patternPieces base)
    (literal : ∀ text ∈ includes, hasWildcard text = false)
    (inner : ∀ text ∈ includes, (Path.mk text).IsInner)
    (ignored : "**/" ++ name ++ "/**" ∈ ignores) :
    (scan t base includes ignores).files = [] := by
  rw [List.eq_nil_iff_forall_not_mem]
  intro f hf
  obtain ⟨start, hstart, source, spared⟩ := (wf.mem_files_iff base includes ignores).1 f hf
  obtain ⟨place, found⟩ := Tree.isDirectory_iff.1 there
  have own : Spelled t t base base place place [] base base :=
    ⟨⟨found, found, fun _ => rfl⟩, rfl, rfl, by simp⟩
  have twins : Twins base base start start := by
    have listed := (mem_searchPaths_literal literal (source.pathExists wf)).1 hstart
    rw [literalStarts] at listed
    split_ifs at listed
    · rw [List.mem_singleton.1 listed]
      exact .itself
    · obtain ⟨text, mem, rfl⟩ := List.mem_map.1 listed
      exact twins_includePath (inner text mem)
  obtain ⟨g, fileTwins, ne, -⟩ := own.exists_isSourceBelow wf twins source
  cases fileTwins with
  | itself => exact ne rfl
  | @join s innerS =>
    have wild : hasWildcard ("**/" ++ name ++ "/**") = true := by
      simp [hasWildcard]
    have matched := spared.not_matched _ ignored wild _ (compile?_anywhere plain)
    rw [← Bool.not_eq_true, accepts_anywhere noSlash,
      dropLast_pieces_join (Tree.isSpelled_of_isDirectory there).text_ne innerS] at matched
    exact matched (List.mem_append_left _ inside)

end

/-- The project has a file, and none after it is moved into a directory whose name is ignored by
default. -/
theorem files_moved_vendor :
    AreCopies movedTree movedTree ⟨"site"⟩ ⟨"vendor/site"⟩ ["site"] ["vendor", "site"] ∧
      (∃ f ∈ (scan movedTree ⟨"site"⟩ ["."] ["**/vendor/**", "**/node_modules/**"]).files,
        f.components = [.name "site", .name "a.php"]) ∧
      (scan movedTree ⟨"vendor/site"⟩ ["."] ["**/vendor/**", "**/node_modules/**"]).files = [] := by
  refine ⟨copies_movedTree (by decide) rfl, exists_mem_movedTree List.mem_cons_self, ?_⟩
  have ignored : "**/" ++ "vendor" ++ "/**" ∈ ["**/vendor/**", "**/node_modules/**"] :=
    List.mem_cons_self
  exact files_of_inside (by decide) rfl (by decide) (by decide) (by decide) (by decide)
    (by decide) ignored

end PotExtract
