import PotExtract.Proofs.Files.Writing
import Mathlib.Data.List.Infix

/-!
# A file beside

Two trees that are the same but for one file, which only the second has. A
path that neither leads to the file nor through it does in both what it does
in one.

* `Path.Avoids`: a path that leads neither to a place nor through it;
* `Beside`: one tree is another with a file beside;
* `Beside.locate_eq`, `Beside.createDirectory`, `Beside.write`: what such a path does;
* `Beside.saveTemplate`: a template is saved alike.
-/

namespace PotExtract

open PotExtract.Path (Component component?)

/-! ## Paths that avoid a place -/

namespace Path

/-- A path neither leads to a place nor through it, from a working directory. -/
def Avoids (home : Place) (p : Path) (place : Place) : Prop :=
  ∀ said, said <+: p.components → placeOf home said ≠ place

instance (home : Place) (p : Path) (place : Place) : Decidable (p.Avoids home place) :=
  decidable_of_iff (∀ said ∈ p.components.inits, placeOf home said ≠ place)
    (forall_congr' fun _ => by rw [List.mem_inits])

variable {p q : Path} {home place : Place}

/-- What is around a path that avoids a place avoids it. -/
theorem Avoids.of_mem_around (h : p.Avoids home place) (hq : q ∈ p.around) :
    q.Avoids home place := by
  obtain ⟨parent, outer, inside⟩ := mem_around hq
  have less := (prefix_of_mem_ancestors inside).trans (prefix_of_parent? outer)
  exact fun said hsaid => h said (hsaid.trans less)

end Path

/-! ## One more file -/

namespace Tree

/-- A tree is another with one more file, where there was nothing. -/
structure Beside (file : Place) (content : String) (t t' : Tree) : Prop where
  home_eq : t'.home = t.home
  before : t.node? file = none
  after : t'.node? file = some (.text content)
  others : ∀ place, place ≠ file → t'.node? place = t.node? place

theorem beside_put {t : Tree} {file : Place} (before : t.node? file = none) (content : String) :
    Beside file content t (t.put file (.text content)) := by
  have ne := ne_nil_of_nothing before
  refine ⟨rfl, before, by rw [node?_put ne, if_pos rfl], fun place away => ?_⟩
  rw [node?_put ne, if_neg away]

namespace Beside

variable {t t' : Tree} {file place : Place} {content : String} {p : Path}

theorem put (h : Beside file content t t') (ne : place ≠ []) (away : place ≠ file) (node : Node) :
    Beside file content (t.put place node) (t'.put place node) := by
  refine ⟨h.home_eq, ?_, ?_, fun other hother => ?_⟩
  · rw [node?_put ne, if_neg (Ne.symm away), h.before]
  · rw [node?_put ne, if_neg (Ne.symm away), h.after]
  · rw [node?_put ne, node?_put ne, h.others other hother]

/-- The directories are the same. -/
theorem directory_iff (h : Beside file content t t') :
    t'.node? place = some .directory ↔ t.node? place = some .directory := by
  by_cases here : place = file
  · simp [here, h.before, h.after]
  · rw [h.others place here]

theorem keeps (h : Beside file content t t') : Keeps t t' :=
  ⟨h.home_eq, h.directory_iff.2⟩

theorem keeps_back (h : Beside file content t t') : Keeps t' t :=
  ⟨h.home_eq.symm, h.directory_iff.1⟩

/-- Every path leads where it leads without the file. -/
theorem locate_iff (h : Beside file content t t') :
    t'.locate p = .ok place ↔ t.locate p = .ok place :=
  ⟨h.keeps_back.locate, h.keeps.locate⟩

theorem isDirectory_eq (h : Beside file content t t') : t'.isDirectory p = t.isDirectory p := by
  rw [Bool.eq_iff_iff, isDirectory_iff, isDirectory_iff]
  simp only [find_eq_ok, h.locate_iff, h.directory_iff]

/-! ## Paths that avoid the file -/

theorem locateFrom_eq (h : Beside file content t t') {pieces : List String}
    (avoids : ∀ said, said <+: pieces.filterMap component? →
      said.foldl Component.enter place ≠ file) :
    t'.locateFrom place pieces = t.locateFrom place pieces := by
  induction pieces generalizing place with
  | nil => rfl
  | cons piece pieces ih =>
    have away : place ≠ file := avoids [] List.nil_prefix
    have goOn {c : Component} (said : component? piece = some c) :
        t'.locateFrom (Component.enter place c) pieces =
          t.locateFrom (Component.enter place c) pieces := by
      refine ih fun more hmore => avoids (c :: more) ?_
      rw [List.filterMap_cons, said]
      exact List.cons_prefix_cons.2 ⟨rfl, hmore⟩
    rw [locateFrom, locateFrom, h.others place away]
    cases t.node? place with
    | none => rfl
    | some node =>
      cases node with
      | text _ | binary => rfl
      | directory =>
        dsimp only
        split_ifs with quiet up
        · refine ih fun more hmore => avoids more ?_
          rwa [List.filterMap_cons, component?, if_pos quiet]
        · exact goOn (c := .up) (by rw [component?, if_neg quiet, if_pos up])
        · exact goOn (c := .name piece) (by rw [component?, if_neg quiet, if_neg up])

/-- A path avoids the file from where it begins on. -/
theorem avoids_route (avoids : p.Avoids t.home file) :
    ∀ said, said <+: p.pieces.filterMap component? →
      said.foldl Component.enter (t.origin p) ≠ file := by
  intro said hsaid
  rw [← placeOf_beginning_append]
  apply avoids
  rw [p.components_eq, List.prefix_append_right_inj, Path.route]
  exact hsaid

/-- A path that avoids the file leads where it did, and fails as it did. -/
theorem locate_eq (h : Beside file content t t') (avoids : p.Avoids t.home file) :
    t'.locate p = t.locate p := by
  rw [locate, locate, h.keeps.origin_eq, h.locateFrom_eq (avoids_route avoids)]

theorem ne_of_locate (avoids : p.Avoids t.home file) (h : t.locate p = .ok place) :
    place ≠ file := by
  rw [(locate_eq_ok h).2.2]
  exact avoids _ List.prefix_rfl

/-- A path that avoids the file leads to what it did. -/
theorem read_eq (h : Beside file content t t') (avoids : p.Avoids t.home file) :
    t'.read p = t.read p := by
  have found : t'.find p = t.find p := by
    rw [find, find, h.locate_eq avoids]
    cases located : t.locate p with
    | error e => rfl
    | ok place =>
      simp only [bind, Except.bind]
      rw [h.others place (ne_of_locate avoids located)]
  rw [read, read, found]

/-- Two operations both give a tree, one with the file and one without, or both fail alike. -/
inductive BothEnd (file : Place) (content : String) :
    Except FileError Tree → Except FileError Tree → Prop where
  | ok {t t' : Tree} (h : Beside file content t t') : BothEnd file content (.ok t) (.ok t')
  | error (e : FileError) : BothEnd file content (.error e) (.error e)

theorem createDirectory (h : Beside file content t t') (avoids : p.Avoids t.home file) :
    BothEnd file content (t.createDirectory p) (t'.createDirectory p) := by
  rw [Tree.createDirectory, Tree.createDirectory, h.locate_eq avoids]
  cases located : t.locate p with
  | error e => exact .error e
  | ok place =>
    have away := ne_of_locate avoids located
    simp only [bind, Except.bind]
    rw [h.others place away]
    cases nothing : t.node? place with
    | some node => exact .error .alreadyExists
    | none => exact .ok (h.put (ne_nil_of_nothing nothing) away .directory)

theorem write (h : Beside file content t t') (avoids : p.Avoids t.home file) (document : String) :
    BothEnd file content (t.write p document) (t'.write p document) := by
  unfold Tree.write
  split_ifs with slash
  · -- A path that ends with a slash names no file, whether it leads somewhere or not.
    have less : (p.pieces.reverse.dropWhile (· == "")).reverse <+: p.pieces := by
      rw [← List.reverse_suffix, List.reverse_reverse]
      exact List.dropWhile_suffix _
    rw [h.keeps.origin_eq, h.locateFrom_eq fun said hsaid =>
      avoids_route avoids said (hsaid.trans (less.filterMap _))]
    cases t.locateFrom (t.origin p) (p.pieces.reverse.dropWhile (· == "")).reverse with
    | error e => exact .error e
    | ok place => exact .error .isADirectory
  · rw [h.locate_eq avoids]
    cases located : t.locate p with
    | error e => exact .error e
    | ok place =>
      have away := ne_of_locate avoids located
      simp only [bind, Except.bind]
      rw [h.others place away]
      split
      · exact .error .isADirectory
      · rename_i vacant
        exact .ok (h.put (ne_nil_of_node? vacant) away (.text document))

theorem createAll {paths : List Path} (h : Beside file content t t')
    (avoids : ∀ p ∈ paths, p.Avoids t.home file) :
    Beside file content (t.createAll paths).1 (t'.createAll paths).1 ∧
      (t'.createAll paths).2 = (t.createAll paths).2 := by
  induction paths generalizing t t' with
  | nil => exact ⟨h, rfl⟩
  | cons p outer ih =>
    obtain ⟨own, others⟩ := List.forall_mem_cons.1 avoids
    have first := h.createDirectory own
    rw [Tree.createAll, Tree.createAll]
    generalize t.createDirectory p = made, t'.createDirectory p = made' at first ⊢
    cases first with
    | ok made => exact ⟨made, rfl⟩
    | error e =>
      cases e with
      | notFound =>
        have around := ih h others
        have home := (makes_createAll t outer).1.adds.home_eq
        generalize t.createAll outer = all, t'.createAll outer = all' at around home ⊢
        obtain ⟨u, result⟩ := all
        obtain ⟨u', result'⟩ := all'
        obtain ⟨beside, same⟩ := around
        obtain rfl : result' = result := same
        cases result' with
        | error e => exact ⟨beside, rfl⟩
        | ok =>
          have second := beside.createDirectory (home ▸ own)
          dsimp only
          generalize u.createDirectory p = made, u'.createDirectory p = made' at second ⊢
          cases second with
          | ok made => exact ⟨made, rfl⟩
          | error e => exact ⟨beside, by dsimp only; rw [beside.isDirectory_eq]⟩
      | notADirectory | isADirectory | alreadyExists | invalidText =>
        exact ⟨h, by dsimp only; rw [h.isDirectory_eq]⟩

theorem makeParent (h : Beside file content t t') (avoids : p.Avoids t.home file) :
    Beside file content (makeParent t p).1 (makeParent t' p).1 ∧
      (makeParent t' p).2 = (makeParent t p).2 := by
  unfold PotExtract.makeParent
  cases outer : p.parent? with
  | none => exact ⟨h, rfl⟩
  | some parent =>
    dsimp only
    split_ifs with nowhere
    · exact ⟨h, rfl⟩
    · have around : ∀ q ∈ parent.ancestors.filter fun q => !q.text.isEmpty,
          q.Avoids t.home file := by
        intro q hq
        refine avoids.of_mem_around ?_
        rw [Path.around, outer]
        exact (List.mem_filter.1 hq).1
      obtain ⟨beside, same⟩ := h.createAll around
      exact ⟨beside, congrArg (Except.mapError _) same⟩

/-- A template whose path avoids the file is saved alike. -/
theorem saveTemplate (h : Beside file content t t') (avoids : p.Avoids t.home file)
    (document : String) :
    Beside file content (saveTemplate t p document).1 (saveTemplate t' p document).1 ∧
      (saveTemplate t' p document).2 = (saveTemplate t p document).2 := by
  have around := h.makeParent avoids
  have home := (makes_makeParent t p).1.adds.home_eq
  unfold PotExtract.saveTemplate
  generalize PotExtract.makeParent t p = made, PotExtract.makeParent t' p = made' at around home ⊢
  obtain ⟨u, result⟩ := made
  obtain ⟨u', result'⟩ := made'
  obtain ⟨beside, same⟩ := around
  obtain rfl : result' = result := same
  cases result' with
  | error e => exact ⟨beside, rfl⟩
  | ok =>
    have written := beside.write (home ▸ avoids) document
    dsimp only
    generalize u.write p document = done, u'.write p document = done' at written ⊢
    cases written with
    | ok done => exact ⟨done, rfl⟩
    | error e => exact ⟨beside, rfl⟩

end Beside

end Tree

end PotExtract
