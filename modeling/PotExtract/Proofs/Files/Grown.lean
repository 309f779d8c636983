import PotExtract.Proofs.Files.Writing
import Mathlib.Data.List.Nodup

/-!
# Trees that have grown

A template that is saved makes a tree grow by one file and by directories
around it. What was there before is found as before.

* `Tree.WellFormed.put`, `Tree.WellFormed.write`: trees stay as a disk holds them;
* `Tree.Grows`: a tree after a file is written;
* `Tree.Grows.find`, `Tree.Grows.find_back`: paths lead to what was there before as they did;
* `Tree.filter_below`: what was below a place before is met in the same order;
* `grows_saveTemplate`: what a saved template makes of a tree.
-/

namespace PotExtract

open PotExtract.Path (Component IsName)

namespace Tree

variable {t t' : Tree}

/-! ## Trees as a disk holds them -/

theorem mem_go {nodes : List (Place × Node)} {place : Place} {node : Node} {entry : Place × Node}
    (h : entry ∈ put.go place node nodes) : entry = (place, node) ∨ entry ∈ nodes := by
  induction nodes with
  | nil => exact .inl (List.mem_singleton.1 h)
  | cons first nodes ih =>
    obtain ⟨p, n⟩ := first
    rw [put.go] at h
    split_ifs at h with here
    · rcases List.mem_cons.1 h with rfl | later
      · exact .inl (by rw [here])
      · exact .inr (List.mem_cons_of_mem _ later)
    · rcases List.mem_cons.1 h with rfl | later
      · exact .inr List.mem_cons_self
      · exact (ih later).imp id (List.mem_cons_of_mem _)

theorem nodup_go {nodes : List (Place × Node)} (h : (nodes.map Prod.fst).Nodup) (place : Place)
    (node : Node) : ((put.go place node nodes).map Prod.fst).Nodup := by
  induction nodes with
  | nil => simp [put.go]
  | cons first nodes ih =>
    obtain ⟨p, n⟩ := first
    rw [List.map_cons, List.nodup_cons] at h
    rw [put.go]
    split_ifs with here
    · exact List.nodup_cons.2 h
    · refine List.nodup_cons.2 ⟨fun again => ?_, ih h.2⟩
      obtain ⟨entry, mem, same⟩ := List.mem_map.1 again
      rcases mem_go mem with rfl | old
      · exact here same.symm
      · exact h.1 (List.mem_map.2 ⟨entry, old, same⟩)

/-- What is around a node is a directory. There is nothing around the top but itself. -/
theorem WellFormed.node?_dropLast (wf : t.WellFormed) {place : Place} {node : Node}
    (h : t.node? place = some node) : t.node? place.dropLast = some .directory := by
  by_cases top : place = []
  · rw [top]
    rfl
  · exact wf.directory_around _ ((wf.node?_eq_some_iff top).1 h)

theorem WellFormed.origin_directory (wf : t.WellFormed) (p : Path) :
    t.node? (t.origin p) = some .directory := by
  rw [origin]
  split_ifs
  · rfl
  · exact wf.home_directory

/-- A node put where a name leads from a directory. A directory is not replaced. -/
theorem WellFormed.put (wf : t.WellFormed) {place : Place} (ne : place ≠ [])
    (isName : ∀ name ∈ place, IsName name) (around : t.node? place.dropLast = some .directory)
    (vacant : t.node? place ≠ some .directory) (node : Node) : (t.put place node).WellFormed where
  nodup_places := nodup_go wf.nodup_places place node
  isName entry mem := by
    rcases mem_go mem with rfl | old
    · exact ⟨ne, isName⟩
    · exact wf.isName entry old
  directory_around entry mem := by
    rcases mem_go mem with rfl | old
    · exact (keeps_put vacant node).directory around
    · exact (keeps_put vacant node).directory (wf.directory_around entry old)
  home_directory := (keeps_put vacant node).directory wf.home_directory

/-- Where a path leads, there is a directory, or a name leads there from a directory. -/
theorem WellFormed.locateFrom_cases (wf : t.WellFormed) {place q : Place} {pieces : List String}
    (noSlash : ∀ piece ∈ pieces, '/' ∉ piece.toList) (h : t.locateFrom place pieces = .ok q)
    (start : (∀ name ∈ place, IsName name) ∧
      (t.node? place = some .directory ∨ t.node? place.dropLast = some .directory)) :
    (∀ name ∈ q, IsName name) ∧
      (t.node? q = some .directory ∨ t.node? q.dropLast = some .directory) := by
  induction pieces generalizing place with
  | nil =>
    cases h
    exact start
  | cons piece pieces ih =>
    obtain ⟨own, others⟩ := List.forall_mem_cons.1 noSlash
    rw [locateFrom] at h
    cases hn : t.node? place with
    | none => simp [hn] at h
    | some node =>
      cases node with
      | text _ | binary => simp [hn] at h
      | directory =>
        simp only [hn] at h
        split_ifs at h with quiet up
        · exact ih others h start
        · refine ih others h ⟨fun name hname => start.1 name (List.dropLast_subset _ hname), ?_⟩
          exact .inl (wf.node?_dropLast hn)
        · refine ih others h ⟨?_, .inr (by rw [List.dropLast_concat, hn])⟩
          intro name hname
          rcases List.mem_append.1 hname with old | new
          · exact start.1 name old
          · rw [List.mem_singleton.1 new]
            exact ⟨by rw [Path.component?, if_neg quiet, if_neg up], own⟩

/-- A node put where a path leads, if that is not a directory. -/
theorem WellFormed.put_located (wf : t.WellFormed) {p : Path} {place : Place}
    (located : t.locate p = .ok place) (vacant : t.node? place ≠ some .directory) (node : Node) :
    (t.put place node).WellFormed := by
  have start := wf.origin_directory p
  obtain ⟨isName, there⟩ := wf.locateFrom_cases (fun _ => p.slash_not_mem_piece)
    (locate_eq_ok located).2.1 ⟨wf.isName_of_node? start, .inl start⟩
  exact wf.put (ne_nil_of_node? vacant) isName (there.resolve_left vacant) vacant node

theorem Makes.wellFormed {paths : List Path} (h : Makes paths t t') (wf : t.WellFormed) :
    t'.WellFormed := by
  induction h with
  | nothing => exact wf
  | step _ _ made ih =>
    obtain ⟨place, located, nothing, rfl⟩ := createDirectory_eq_ok.1 made
    exact ih.put_located located (by simp [nothing]) _

theorem WellFormed.write (wf : t.WellFormed) {p : Path} {content : String}
    (h : t.write p content = .ok t') : t'.WellFormed := by
  obtain ⟨place, located, vacant, rfl⟩ := write_eq_ok h
  exact wf.put_located located vacant _

/-! ## Growth -/

/-- One tree is another after a file is written, with directories around it where there was
nothing. -/
structure Grows (t t' : Tree) (file : Place) : Prop where
  wf : t.WellFormed
  wf' : t'.WellFormed
  home_eq : t'.home = t.home
  before : t.node? file ≠ some .directory
  after : ∃ content, t'.node? file = some (.text content)
  others : ∀ place, place ≠ file → t'.node? place = t.node? place ∨
    t.node? place = none ∧ t'.node? place = some .directory ∧ place <+: file

namespace Grows

variable {file : Place}

theorem kept (g : Grows t t' file) {place : Place} {node : Node} (away : place ≠ file)
    (h : t.node? place = some node) : t'.node? place = some node := by
  rcases g.others place away with same | ⟨nothing, -⟩
  · rw [same, h]
  · rw [nothing] at h
    cases h

theorem kept_directory (g : Grows t t' file) {place : Place}
    (h : t.node? place = some .directory) : t'.node? place = some .directory := by
  refine g.kept ?_ h
  rintro rfl
  exact g.before h

theorem keeps (g : Grows t t' file) : Keeps t t' :=
  ⟨g.home_eq, g.kept_directory⟩

/-- All that is new leads to the file. -/
theorem node?_eq (g : Grows t t' file) {place : Place} (away : ¬ place <+: file) :
    t'.node? place = t.node? place := by
  rcases g.others place (fun same => away (same ▸ List.prefix_rfl)) with same | ⟨-, -, inside⟩
  · exact same
  · exact absurd inside away

/-- A file other than the one that is written was there before. -/
theorem old (g : Grows t t' file) {place : Place} {node : Node} (away : place ≠ file)
    (h : t'.node? place = some node) (ne : node ≠ .directory) : t.node? place = some node := by
  rcases g.others place away with same | ⟨-, new, -⟩
  · rw [← same, h]
  · rw [h, Option.some.injEq] at new
    exact absurd new ne

/-- What is a directory now, was one if it was anything. -/
theorem directory_back (g : Grows t t' file) {place : Place} {node : Node}
    (h : t.node? place = some node) (h' : t'.node? place = some .directory) :
    node = .directory := by
  have away : place ≠ file := by
    rintro rfl
    obtain ⟨content, after⟩ := g.after
    rw [after] at h'
    cases h'
  rw [g.kept away h, Option.some.injEq] at h'
  exact h'

end Grows

/-! ## What is found again -/

theorem WellFormed.locateFrom_back (wf : t.WellFormed) {place q : Place} {pieces : List String}
    (noSlash : ∀ piece ∈ pieces, '/' ∉ piece.toList) (noUp : ".." ∉ pieces)
    (h : t'.locateFrom place pieces = .ok q) {node : Node} (hq : t.node? q = some node)
    (same : t'.node? q = some .directory → node = .directory) :
    t.locateFrom place pieces = .ok q := by
  induction pieces generalizing place with
  | nil => exact h
  | cons piece pieces ih =>
    obtain ⟨names, -, said⟩ := Path.exists_names noSlash noUp
    have below : q = place ++ names := by
      rw [eq_of_locateFrom h, said, Path.foldl_enter_names]
    rw [List.mem_cons, not_or] at noUp
    rw [locateFrom] at h ⊢
    cases hn' : t'.node? place with
    | none => simp [hn'] at h
    | some n =>
      cases n with
      | text _ | binary => simp [hn'] at h
      | directory =>
        -- Every place on the way is around `q`, and something was there.
        have hn : t.node? place = some .directory := by
          by_cases here : names = []
          · rw [here, List.append_nil] at below
            rw [below] at hq same
            rw [hq, same hn']
          · exact wf.node?_around here (below ▸ hq)
        simp only [hn', hn, if_neg (Ne.symm noUp.1)] at h ⊢
        split_ifs at h ⊢ with quiet
        · exact ih (List.forall_mem_cons.1 noSlash).2 noUp.2 h
        · exact ih (List.forall_mem_cons.1 noSlash).2 noUp.2 h

/-- A path that does not lead up finds what has been there before, as it did. -/
theorem Grows.find_back {file : Place} (g : Grows t t' file) {p : Path} (noUp : ".." ∉ p.pieces)
    {q : Place} {node node' : Node} (h : t'.find p = .ok (q, node')) (hq : t.node? q = some node) :
    t.find p = .ok (q, node) := by
  obtain ⟨located, hq'⟩ := find_eq_ok.1 h
  obtain ⟨spelled, led, -⟩ := locate_eq_ok located
  refine find_eq_ok.2 ⟨?_, hq⟩
  rw [g.keeps.origin_eq] at led
  rw [locate_of_spelled spelled]
  exact g.wf.locateFrom_back (fun _ => p.slash_not_mem_piece) noUp led hq
    (g.directory_back hq)

namespace Grows

variable {file : Place}

theorem find (g : Grows t t' file) {p : Path} {q : Place} {node : Node} (away : q ≠ file)
    (h : t.find p = .ok (q, node)) : t'.find p = .ok (q, node) := by
  obtain ⟨located, hq⟩ := find_eq_ok.1 h
  exact find_eq_ok.2 ⟨g.keeps.locate located, g.kept away hq⟩

/-- A file other than the one that is written reads the same. -/
theorem read_eq (g : Grows t t' file) {p : Path} {q : Place} {node : Node} (away : q ≠ file)
    (h : t.find p = .ok (q, node)) : t'.read p = t.read p := by
  rw [read, read, h, g.find away h]

/-- A path that leads to nothing new leads to something if it did. -/
theorem pathExists_eq (g : Grows t t' file) {p : Path} (noUp : .up ∉ p.components)
    (old : Path.placeOf t.home p.components <+: file →
      t.node? (Path.placeOf t.home p.components) = some .directory) :
    t'.pathExists p = t.pathExists p := by
  rw [Bool.eq_iff_iff, pathExists_iff, pathExists_iff]
  constructor
  · rintro ⟨q, node, found⟩
    obtain ⟨located, there⟩ := find_eq_ok.1 found
    have stands := (locate_eq_ok located).2.2
    rw [g.home_eq] at stands
    have before : ∃ node, t.node? q = some node := by
      by_cases inside : q <+: file
      · exact ⟨.directory, stands ▸ old (stands ▸ inside)⟩
      · exact ⟨node, g.node?_eq inside ▸ there⟩
    obtain ⟨node, there⟩ := before
    exact ⟨q, node, g.find_back (fun up => noUp (Path.up_mem_components.2 up)) found there⟩
  · rintro ⟨q, node, found⟩
    obtain ⟨located, there⟩ := find_eq_ok.1 found
    have stands := (locate_eq_ok located).2.2
    have away : q ≠ file := by
      rintro rfl
      exact g.before (stands ▸ old (stands ▸ List.prefix_rfl))
    exact ⟨q, node, g.find away found⟩

end Grows

/-! ## What is below a place -/

theorem pairwise_below (t : Tree) (place : Place) :
    (t.below place).Pairwise fun a b => (List.compareLex compare a.1 b.1).isLE = true := by
  unfold below
  apply List.pairwise_mergeSort
  · intro a b c
    exact Std.TransCmp.isLE_trans
  · intro a b
    by_cases before : (List.compareLex compare a.1 b.1).isLE = true
    · rw [before, Bool.true_or]
    · rw [Std.OrientedCmp.lt_of_not_isLE before]
      simp

theorem nodup_below (wf : t.WellFormed) (place : Place) : (t.below place).Nodup := by
  unfold below
  rw [(List.mergeSort_perm _ _).nodup_iff]
  apply List.Nodup.filterMap _ (List.Nodup.of_map _ wf.nodup_places)
  rintro ⟨p, n⟩ ⟨q, m⟩ ⟨names, node⟩ hp hq
  simp only [Option.mem_def, Option.ite_none_right_eq_some, Bool.and_eq_true,
    List.isPrefixOf_iff_prefix, decide_eq_true_eq, Option.some.injEq, Prod.mk.injEq] at hp hq
  obtain ⟨⟨⟨more, rfl⟩, -⟩, rfl, rfl⟩ := hp
  obtain ⟨⟨⟨others, rfl⟩, -⟩, same, rfl⟩ := hq
  rw [List.drop_left, List.drop_left] at same
  rw [same]

/-- What is chosen below a place, and is there in both trees or in none, is met in the same
order. -/
theorem filter_below (wf : t.WellFormed) (wf' : t'.WellFormed) (place : Place)
    {chosen : Place × Node → Bool}
    (same : ∀ entry, chosen entry = true → (entry ∈ t'.below place ↔ entry ∈ t.below place)) :
    (t'.below place).filter chosen = (t.below place).filter chosen := by
  have perm : ((t'.below place).filter chosen).Perm ((t.below place).filter chosen) := by
    rw [List.perm_ext_iff_of_nodup ((nodup_below wf' place).filter _)
      ((nodup_below wf place).filter _)]
    intro entry
    rw [List.mem_filter, List.mem_filter]
    constructor
    · rintro ⟨mem, picked⟩
      exact ⟨(same entry picked).1 mem, picked⟩
    · rintro ⟨mem, picked⟩
      exact ⟨(same entry picked).2 mem, picked⟩
  refine perm.eq_of_pairwise ?_ ((pairwise_below t' place).filter _)
    ((pairwise_below t place).filter _)
  rintro ⟨names, node⟩ ⟨names', node'⟩ mem mem' before after
  have equal : List.compareLex compare names names' = .eq :=
    Std.OrientedCmp.isLE_antisymm before after
  obtain rfl : names = names' := Std.LawfulEqCmp.eq_of_compare equal
  obtain ⟨below', picked⟩ := List.mem_filter.1 mem
  obtain ⟨-, there⟩ := wf.mem_below_iff.1 ((same _ picked).1 below')
  rw [(wf.mem_below_iff.1 (List.mem_filter.1 mem').1).2, Option.some.injEq] at there
  rw [there]

end Tree

/-! ## Saved templates -/

theorem Path.prefix_foldl_enter {said : List Component} (noUp : .up ∉ said)
    (noRoot : .root ∉ said) (place : Place) : place <+: said.foldl Component.enter place := by
  induction said generalizing place with
  | nil => exact List.prefix_rfl
  | cons c said ih =>
    rw [List.mem_cons, not_or] at noUp noRoot
    refine List.IsPrefix.trans ?_ (ih noUp.2 noRoot.2 _)
    cases c with
    | name text => exact List.prefix_append _ _
    | up => exact absurd rfl noUp.1
    | root => exact absurd rfl noRoot.1
    | here => exact List.prefix_rfl

/-- A path that says the beginning of what another says leads to a place around. -/
theorem Path.placeOf_prefix {p : Path} {said : List Component} (h : said <+: p.components)
    (ne : said ≠ []) (noUp : .up ∉ p.components) (home : Place) :
    placeOf home said <+: placeOf home p.components := by
  obtain ⟨rest, own⟩ := h
  have noRoot : .root ∉ rest := by
    intro root
    apply p.root_not_mem_tail
    rw [← own, List.tail_append_of_ne_nil ne]
    exact List.mem_append_right _ root
  rw [← own] at noUp ⊢
  rw [placeOf_append]
  exact prefix_foldl_enter (fun up => noUp (List.mem_append_right _ up)) noRoot _

section
variable {t : Tree} {p : Path} {document : String}

/-- A saved template makes its tree grow, if its path does not lead up. -/
theorem grows_saveTemplate (wf : t.WellFormed) (noUp : .up ∉ p.components)
    (saved : (saveTemplate t p document).2 = .ok ()) :
    ∃ file, (saveTemplate t p document).1.find p = .ok (file, .text document) ∧
      Tree.Grows t (saveTemplate t p document).1 file := by
  obtain ⟨t₁, makes, ⟨-, written, -⟩ | ⟨e, -, failed⟩⟩ := saveTemplate_cases t p document
  · obtain ⟨home_eq, file, found, before, others⟩ := delivered_write makes.adds written
    obtain ⟨located, after⟩ := Tree.find_eq_ok.1 found
    have stands := (Tree.locate_eq_ok located).2.2
    refine ⟨file, found, wf, (makes.wellFormed wf).write written, home_eq, before,
      ⟨document, after⟩, ?_⟩
    intro place away
    refine (others place away).imp id fun added => ⟨added.before, added.after, ?_⟩
    obtain ⟨q, hq, led⟩ := added.exists_path
    obtain ⟨parent, outer, around⟩ := Path.mem_around hq
    have less := (Path.prefix_of_mem_ancestors around).trans (Path.prefix_of_parent? outer)
    obtain ⟨spelled, -, leads⟩ := Tree.locate_eq_ok led
    rw [leads, stands]
    exact Path.placeOf_prefix less spelled.components_ne_nil noUp _
  · rw [saved] at failed
    cases failed

/-- No directory is new if the one around the file was there. -/
theorem directories_saveTemplate (h : t.HasParent p) {place : Place}
    (there : (saveTemplate t p document).1.node? place = some .directory) :
    t.node? place = some .directory := by
  rw [saveTemplate, makeParent_of_hasParent h] at there
  dsimp only at there
  cases written : t.write p document with
  | error e => simpa [written] using there
  | ok t' =>
    obtain ⟨file, -, vacant, rfl⟩ := Tree.write_eq_ok written
    simp only [written] at there
    rw [Tree.node?_put (Tree.ne_nil_of_node? vacant)] at there
    split_ifs at there
    · cases there
    · exact there

end

end PotExtract
