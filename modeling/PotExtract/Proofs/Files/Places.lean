import PotExtract.Proofs.Files.Spelling
import Mathlib.Data.List.Induction

/-!
# Where paths lead

A path leads to at most one place, which depends on what it says and not on
how it is spelled.

* `Tree.locate_eq_ok`: a path leads to the place of its components, if it leads anywhere;
* `Tree.WellFormed`: a tree as a disk holds it;
* `Tree.WellFormed.find_joinNames`: names lead from a directory to what is below it;
* `Tree.WellFormed.exists_of_mem_walk`, `Tree.WellFormed.mem_walk`: what a walk meets, and by
  which path.
-/

namespace PotExtract

open PotExtract.Path (Component IsName IsSpelled)

theorem Path.foldl_enter_names (place : Place) (names : List String) :
    (names.map Component.name).foldl Component.enter place = place ++ names := by
  induction names generalizing place with
  | nil => simp
  | cons name names ih => simp [Component.enter, ih]

theorem Path.placeOf_append (home : Place) (said more : List Component) :
    placeOf home (said ++ more) = more.foldl Component.enter (placeOf home said) := by
  rw [placeOf, List.foldl_append, placeOf]

theorem Path.placeOf_append_names (home : Place) (said : List Component) (names : List String) :
    placeOf home (said ++ names.map .name) = placeOf home said ++ names := by
  rw [placeOf_append, foldl_enter_names]

/-- The dot that may begin a path leads nowhere. -/
theorem Path.placeOf_dot (home : Place) (dot : Bool) (said : List Component) :
    placeOf home ((if dot then [.here] else []) ++ said) = placeOf home said := by
  cases dot <;> rfl

namespace Tree

/-! ## Looking a path up -/

theorem locateFrom_append (t : Tree) (place : Place) (a b : List String) :
    t.locateFrom place (a ++ b) = (t.locateFrom place a).bind fun q => t.locateFrom q b := by
  induction a generalizing place with
  | nil => rfl
  | cons piece a ih =>
    simp only [List.cons_append, locateFrom]
    cases t.node? place with
    | none => rfl
    | some node =>
      cases node with
      | directory =>
        simp only [ih]
        split_ifs <;> rfl
      | text _ | binary => rfl

theorem locateFrom_append_eq_ok {t : Tree} {place q : Place} {a b : List String} :
    t.locateFrom place (a ++ b) = .ok q ↔
      ∃ m, t.locateFrom place a = .ok m ∧ t.locateFrom m b = .ok q := by
  rw [locateFrom_append]
  cases h : t.locateFrom place a with
  | error e => simp [Except.bind]
  | ok m => simp [Except.bind]

/-- Pieces lead to a directory from a directory only. -/
theorem directory_of_locateFrom {t : Tree} {place q : Place} {pieces : List String}
    (h : t.locateFrom place pieces = .ok q) (hq : t.node? q = some .directory) :
    t.node? place = some .directory := by
  cases pieces with
  | nil =>
    cases h
    exact hq
  | cons piece pieces =>
    rw [locateFrom] at h
    cases hn : t.node? place with
    | none => simp [hn] at h
    | some node =>
      cases node with
      | directory => rfl
      | text _ | binary => simp [hn] at h

/-- Pieces lead where their components lead, if they lead anywhere. -/
theorem eq_of_locateFrom {t : Tree} {place q : Place} {pieces : List String}
    (h : t.locateFrom place pieces = .ok q) :
    q = (pieces.filterMap Path.component?).foldl Component.enter place := by
  induction pieces generalizing place with
  | nil =>
    cases h
    rfl
  | cons piece pieces ih =>
    simp only [locateFrom] at h
    cases hn : t.node? place with
    | none => simp [hn] at h
    | some node =>
      cases node with
      | text _ | binary => simp [hn] at h
      | directory =>
        simp only [hn] at h
        rw [List.filterMap_cons, Path.component?]
        split_ifs at h ⊢ with quiet up
        · exact ih h
        · exact ih h
        · exact ih h

/-- What comes after the beginning of a path is followed from where the path begins. -/
theorem placeOf_beginning_append (t : Tree) (p : Path) (said : List Component) :
    Path.placeOf t.home (p.beginning ++ said) = said.foldl Component.enter (t.origin p) := by
  rw [Path.placeOf_append, Path.beginning, origin]
  split_ifs <;> rfl

theorem locate_eq_ok {t : Tree} {p : Path} {place : Place} (h : t.locate p = .ok place) :
    p.IsSpelled ∧ t.locateFrom (t.origin p) p.pieces = .ok place ∧
      place = Path.placeOf t.home p.components := by
  unfold locate at h
  split at h
  · cases h
  · rename_i nonempty
    refine ⟨⟨by simpa using nonempty⟩, h, ?_⟩
    rw [p.components_eq, placeOf_beginning_append, eq_of_locateFrom h, Path.route]

theorem locate_of_spelled {t : Tree} {p : Path} (hp : p.IsSpelled) :
    t.locate p = t.locateFrom (t.origin p) p.pieces := by
  have nonempty : p.text.isEmpty = false := by simpa using hp.text_ne
  rw [locate, nonempty]
  rfl

theorem origin_eq {t : Tree} {p q : Path} (h : q.isAbsolute = p.isAbsolute) :
    t.origin q = t.origin p := by
  rw [origin, h, origin]

theorem find_eq_ok {t : Tree} {p : Path} {place : Place} {node : Node} :
    t.find p = .ok (place, node) ↔ t.locate p = .ok place ∧ t.node? place = some node := by
  unfold find
  cases t.locate p with
  | error e => simp [bind, Except.bind]
  | ok q =>
    simp only [bind, Except.bind, Except.ok.injEq]
    cases hq : t.node? q with
    | none =>
      simp only [reduceCtorEq, false_iff, not_and]
      rintro rfl
      simp [hq]
    | some n =>
      simp only [pure, Except.pure, Except.ok.injEq, Prod.mk.injEq]
      constructor
      · rintro ⟨rfl, rfl⟩
        exact ⟨rfl, hq⟩
      · rintro ⟨rfl, hn⟩
        exact ⟨rfl, Option.some.inj (hq.symm.trans hn)⟩

theorem pathExists_iff {t : Tree} {p : Path} :
    t.pathExists p = true ↔ ∃ place node, t.find p = .ok (place, node) := by
  unfold pathExists
  cases h : t.find p with
  | error e => simp [Except.isOk, Except.toBool]
  | ok found => exact ⟨fun _ => ⟨found.1, found.2, rfl⟩, fun _ => rfl⟩

theorem isDirectory_iff {t : Tree} {p : Path} :
    t.isDirectory p = true ↔ ∃ place, t.find p = .ok (place, .directory) := by
  unfold isDirectory
  split
  · rename_i place h
    exact ⟨fun _ => ⟨place, h⟩, fun _ => rfl⟩
  · rename_i h
    constructor
    · intro no
      cases no
    · rintro ⟨place, hp⟩
      exact absurd hp (h place)

theorem isSpelled_of_isDirectory {t : Tree} {p : Path} (h : t.isDirectory p = true) :
    p.IsSpelled := by
  obtain ⟨place, found⟩ := isDirectory_iff.1 h
  exact (locate_eq_ok (find_eq_ok.1 found).1).1

theorem locateFrom_patternPieces {t : Tree} {p : Path} {place : Place}
    (h : t.locate p = .ok place) : t.locateFrom (t.origin p) (patternPieces p) = .ok place := by
  obtain ⟨-, led, -⟩ := locate_eq_ok h
  rcases p.pieces_eq_patternPieces with same | slash
  · rwa [← same]
  · rw [slash, locateFrom_append_eq_ok] at led
    obtain ⟨m, trunk, last⟩ := led
    have stays : place = m := eq_of_locateFrom last
    rwa [stays]

/-- What continues a path is looked up from where the path leads. -/
theorem locate_join {t : Tree} {p s : Path} {place : Place} (h : t.locate p = .ok place)
    (hs : s.isAbsolute = false) : t.locate (p.join s) = t.locateFrom place s.pieces := by
  have hp := (locate_eq_ok h).1
  rw [locate_of_spelled (hp.join hs), origin_eq (hp.isAbsolute_join hs),
    Path.pieces_join hp.text_ne hs, locateFrom_append, locateFrom_patternPieces h]
  rfl

/-- Pieces joined one by one lead where they lead together. -/
theorem locate_joinNames {t : Tree} {p : Path} {place q : Place} {pieces : List String}
    (h : t.locate p = .ok place) (noSlash : ∀ piece ∈ pieces, '/' ∉ piece.toList)
    (led : t.locateFrom place pieces = .ok q) : t.locate (p.joinNames pieces) = .ok q := by
  induction pieces generalizing p place with
  | nil =>
    cases led
    exact h
  | cons piece pieces ih =>
    obtain ⟨first, others⟩ := List.forall_mem_cons.1 noSlash
    rw [← List.singleton_append, locateFrom_append_eq_ok] at led
    obtain ⟨m, step, led⟩ := led
    have next : t.locate (p.join ⟨piece⟩) = .ok m := by
      rw [locate_join h (Path.isAbsolute_of_not_mem first), Path.pieces_of_not_mem first, step]
    exact ih next others led

/-- A name leads from a directory to the place of that name. -/
theorem locate_join_name {t : Tree} {p : Path} {place : Place}
    (h : t.find p = .ok (place, .directory)) {name : String} (hname : IsName name) :
    t.locate (p.join ⟨name⟩) = .ok (place ++ [name]) := by
  obtain ⟨located, node⟩ := find_eq_ok.1 h
  obtain ⟨said, noSlash⟩ := hname
  rw [locate_join located (Path.isAbsolute_of_not_mem noSlash), Path.pieces_of_not_mem noSlash]
  unfold Path.component? at said
  split_ifs at said with quiet up
  · cases said
  · simp only [locateFrom, node, if_neg quiet, if_neg up]

/-! ## Trees as a disk holds them -/

theorem lookup_eq_some_iff_of_nodup {nodes : List (Place × Node)}
    (h : (nodes.map Prod.fst).Nodup) {place : Place} {node : Node} :
    nodes.lookup place = some node ↔ (place, node) ∈ nodes := by
  induction nodes with
  | nil => simp
  | cons entry nodes ih =>
    obtain ⟨q, n⟩ := entry
    rw [List.map_cons, List.nodup_cons] at h
    rw [List.lookup_cons, List.mem_cons, Prod.mk.injEq]
    by_cases here : place = q
    · subst here
      have once : (place, node) ∉ nodes := fun later => h.1 (List.mem_map.2 ⟨_, later, rfl⟩)
      simp [once, eq_comm]
    · have differ : (place == q) = false := by simpa using here
      simp [differ, here, ih h.2]

/-- Every place is listed once and spelled by names, and what is around it is a directory. So is
the working directory. -/
structure WellFormed (t : Tree) : Prop where
  nodup_places : (t.nodes.map Prod.fst).Nodup
  isName : ∀ entry ∈ t.nodes, entry.1 ≠ [] ∧ ∀ name ∈ entry.1, IsName name
  directory_around : ∀ entry ∈ t.nodes, t.node? entry.1.dropLast = some .directory
  home_directory : t.node? t.home = some .directory

instance (t : Tree) : Decidable t.WellFormed :=
  decidable_of_iff
    ((t.nodes.map Prod.fst).Nodup ∧
      (∀ entry ∈ t.nodes, entry.1 ≠ [] ∧ ∀ name ∈ entry.1, IsName name) ∧
      (∀ entry ∈ t.nodes, t.node? entry.1.dropLast = some .directory) ∧
      t.node? t.home = some .directory)
    ⟨fun h => ⟨h.1, h.2.1, h.2.2.1, h.2.2.2⟩,
      fun h => ⟨h.nodup_places, h.isName, h.directory_around, h.home_directory⟩⟩

section
variable {t : Tree} (wf : t.WellFormed)
include wf

theorem WellFormed.node?_eq_some_iff {place : Place} (ne : place ≠ []) {node : Node} :
    t.node? place = some node ↔ (place, node) ∈ t.nodes := by
  have nonempty : place.isEmpty = false := by simpa using ne
  rw [node?, nonempty]
  exact lookup_eq_some_iff_of_nodup wf.nodup_places

/-- What is around a node is a directory, however far it is. -/
theorem WellFormed.node?_around {place names : Place} (ne : names ≠ [])
    {node : Node} (h : t.node? (place ++ names) = some node) :
    t.node? place = some .directory := by
  induction names using List.reverseRecOn generalizing node with
  | nil => contradiction
  | append_singleton names name ih =>
    have listed := (wf.node?_eq_some_iff (by simp)).1 h
    have around := wf.directory_around _ listed
    rw [← List.append_assoc, List.dropLast_concat] at around
    by_cases last : names = []
    · rwa [last, List.append_nil] at around
    · exact ih last around

theorem WellFormed.directory_of_prefix {outer place : Place} (h : outer <+: place)
    (there : t.node? place = some .directory) : t.node? outer = some .directory := by
  obtain ⟨names, rfl⟩ := h
  by_cases here : names = []
  · rwa [here, List.append_nil] at there
  · exact wf.node?_around here there

theorem WellFormed.isName_of_node? {place : Place} {node : Node} (h : t.node? place = some node) :
    ∀ name ∈ place, IsName name := by
  by_cases ne : place = []
  · simp [ne]
  · exact (wf.isName _ ((wf.node?_eq_some_iff ne).1 h)).2

/-- Names lead from a directory to what is below it. -/
theorem WellFormed.find_joinNames {p : Path} {place names : Place} {node : Node}
    (h : t.find p = .ok (place, .directory)) (hn : t.node? (place ++ names) = some node)
    (ne : names ≠ []) : t.find (p.joinNames names) = .ok (place ++ names, node) := by
  induction names generalizing p place with
  | nil => contradiction
  | cons name rest ih =>
    have isName : IsName name := wf.isName_of_node? hn name (by simp)
    have located := locate_join_name h isName
    have shifted : place ++ name :: rest = (place ++ [name]) ++ rest := by simp
    rw [shifted] at hn ⊢
    by_cases last : rest = []
    · subst last
      rw [List.append_nil] at hn ⊢
      exact find_eq_ok.2 ⟨located, hn⟩
    · exact ih (find_eq_ok.2 ⟨located, wf.node?_around last hn⟩) hn last

/-! ## Walks -/

theorem WellFormed.mem_below_iff {place names : Place} {node : Node} :
    (names, node) ∈ t.below place ↔ names ≠ [] ∧ t.node? (place ++ names) = some node := by
  rw [below, List.mem_mergeSort, List.mem_filterMap]
  constructor
  · rintro ⟨⟨q, n⟩, listed, inside⟩
    simp only [Bool.and_eq_true, List.isPrefixOf_iff_prefix, decide_eq_true_eq] at inside
    split_ifs at inside with both
    obtain ⟨⟨more, rfl⟩, longer⟩ := both
    rw [List.drop_left, Option.some.injEq, Prod.mk.injEq] at inside
    obtain ⟨rfl, rfl⟩ := inside
    have ne : more ≠ [] := by
      rintro rfl
      simp at longer
    exact ⟨ne, (wf.node?_eq_some_iff (by simp [ne])).2 listed⟩
  · rintro ⟨ne, hn⟩
    refine ⟨(place ++ names, node), (wf.node?_eq_some_iff (by simp [ne])).1 hn, ?_⟩
    have longer : 0 < names.length := List.length_pos_iff.2 ne
    simp [longer]

/-- A walk meets its start, and all that names lead to from there. -/
theorem WellFormed.exists_of_mem_walk {start : Path} {found : List (Path × Node)}
    (h : t.walk start = .ok found) {p : Path} {node : Node} (hp : (p, node) ∈ found) :
    ∃ place names, t.locate start = .ok place ∧ p = start.joinNames names ∧
      (∀ name ∈ names, IsName name) ∧ t.find p = .ok (place ++ names, node) := by
  unfold walk at h
  cases hs : t.find start with
  | error e => simp [hs, bind, Except.bind] at h
  | ok top =>
    obtain ⟨place, n⟩ := top
    have located := (find_eq_ok.1 hs).1
    have itself (same : (p, node) = (start, n)) : ∃ place names, t.locate start = .ok place ∧
        p = start.joinNames names ∧ (∀ name ∈ names, IsName name) ∧
        t.find p = .ok (place ++ names, node) := by
      cases same
      exact ⟨place, [], located, rfl, by simp, by simpa using hs⟩
    cases n with
    | text _ | binary =>
      simp only [hs, bind, Except.bind, pure, Except.pure, Except.ok.injEq] at h
      subst h
      exact itself (List.mem_singleton.1 hp)
    | directory =>
      simp only [hs, bind, Except.bind, pure, Except.pure, Except.ok.injEq] at h
      subst h
      rcases List.mem_cons.1 hp with same | below
      · exact itself same
      · obtain ⟨⟨names, n⟩, inside, same⟩ := List.mem_map.1 below
        cases same
        obtain ⟨ne, hn⟩ := wf.mem_below_iff.1 inside
        have isName : ∀ name ∈ names, IsName name := fun name hname =>
          wf.isName_of_node? hn name (List.mem_append_right _ hname)
        exact ⟨place, names, located, rfl, isName, wf.find_joinNames hs hn ne⟩

/-- A walk meets all that names lead to from its start. -/
theorem WellFormed.mem_walk {start : Path} {place names : Place} {node : Node}
    (located : t.locate start = .ok place) (hn : t.node? (place ++ names) = some node) :
    ∃ found, t.walk start = .ok found ∧ (start.joinNames names, node) ∈ found := by
  unfold walk
  by_cases here : names = []
  · subst here
    rw [List.append_nil] at hn
    rw [find_eq_ok.2 ⟨located, hn⟩]
    cases node <;> exact ⟨_, rfl, by simp [Path.joinNames]⟩
  · have top := find_eq_ok.2 ⟨located, wf.node?_around here hn⟩
    rw [top]
    refine ⟨_, rfl, List.mem_cons_of_mem _ (List.mem_map.2 ⟨(names, node), ?_, rfl⟩)⟩
    exact wf.mem_below_iff.2 ⟨here, hn⟩

end

end Tree

end PotExtract
