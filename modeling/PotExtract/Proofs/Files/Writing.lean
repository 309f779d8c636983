import PotExtract.Command
import PotExtract.Proofs.Files.Parents
import PotExtract.Proofs.Files.Places

/-!
# What writing changes

A file that is written changes its own place. Directories are made where
nothing was, and nothing is taken away.

* `Tree.node?_put`: what is where once a node is put at a place;
* `Tree.Adds`: one tree is another with directories added at some paths;
* `Tree.Makes`, `Tree.makes_createAll`: nested directories are made one after the other;
* `saveTemplate_cases`: how a template is saved;
* `Delivered`, `delivered_write`: what is there once it is.
-/

namespace PotExtract

namespace Tree

variable {t t' : Tree}

/-! ## One place -/

theorem lookup_cons_eq_ite (p other : Place) (node : Node) (nodes : List (Place × Node)) :
    ((p, node) :: nodes).lookup other = if other = p then some node else nodes.lookup other := by
  rw [List.lookup_cons]
  by_cases same : other = p
  · simp [same]
  · rw [if_neg same, beq_eq_false_iff_ne.2 same]

theorem lookup_go (nodes : List (Place × Node)) (place other : Place) (node : Node) :
    (put.go place node nodes).lookup other =
      if other = place then some node else nodes.lookup other := by
  induction nodes with
  | nil => rw [put.go, lookup_cons_eq_ite]
  | cons entry nodes ih =>
    obtain ⟨p, n⟩ := entry
    rw [put.go, lookup_cons_eq_ite p other n]
    by_cases here : p = place
    · rw [if_pos here, lookup_cons_eq_ite, here]
      split_ifs <;> rfl
    · rw [if_neg here, lookup_cons_eq_ite, ih]
      split_ifs with own same
      · exact absurd (own.symm.trans same) here
      · rfl
      · rfl
      · rfl

@[simp]
theorem home_put (t : Tree) (place : Place) (node : Node) : (t.put place node).home = t.home :=
  rfl

/-- A node put at a place is there, and all else is as it was. -/
theorem node?_put {place : Place} (ne : place ≠ []) (node : Node) (other : Place) :
    (t.put place node).node? other = if other = place then some node else t.node? other := by
  unfold node?
  by_cases top : other = []
  · subst top
    rw [if_neg (Ne.symm ne)]
    rfl
  · have nonempty : other.isEmpty = false := by simpa using top
    rw [nonempty]
    exact lookup_go t.nodes place other node

theorem go_of_lookup {nodes : List (Place × Node)} {place : Place} {node : Node}
    (h : nodes.lookup place = some node) : put.go place node nodes = nodes := by
  induction nodes with
  | nil => cases h
  | cons entry nodes ih =>
    obtain ⟨p, n⟩ := entry
    rw [lookup_cons_eq_ite] at h
    rw [put.go]
    by_cases here : place = p
    · rw [if_pos here, Option.some.injEq] at h
      rw [if_pos here.symm, h]
    · rw [if_neg here] at h
      rw [if_neg (Ne.symm here), ih h]

/-- A node put where it is already changes nothing. -/
theorem put_of_node? {place : Place} (ne : place ≠ []) {node : Node}
    (h : t.node? place = some node) : t.put place node = t := by
  have nonempty : place.isEmpty = false := by simpa using ne
  rw [node?, nonempty] at h
  rw [put, go_of_lookup h]

theorem ne_nil_of_node? {place : Place} (h : t.node? place ≠ some .directory) : place ≠ [] := by
  rintro rfl
  exact h rfl

theorem ne_nil_of_nothing {place : Place} (h : t.node? place = none) : place ≠ [] := by
  rintro rfl
  cases h

theorem createDirectory_eq_ok {p : Path} :
    t.createDirectory p = .ok t' ↔
      ∃ place, t.locate p = .ok place ∧ t.node? place = none ∧ t' = t.put place .directory := by
  unfold createDirectory
  cases t.locate p with
  | error e => simp [bind, Except.bind]
  | ok place =>
    cases h : t.node? place <;> simp [bind, Except.bind, pure, Except.pure, h, eq_comm]

theorem write_eq_ok {p : Path} {content : String} (h : t.write p content = .ok t') :
    ∃ place, t.locate p = .ok place ∧ t.node? place ≠ some .directory ∧
      t' = t.put place (.text content) := by
  unfold write at h
  split at h
  · cases hl : t.locateFrom (t.origin p) (p.pieces.reverse.dropWhile (· == "")).reverse <;>
      simp [hl, bind, Except.bind] at h
  · cases located : t.locate p with
    | error e => simp [located, bind, Except.bind] at h
    | ok place =>
      simp only [located, bind, Except.bind] at h
      split at h
      · cases h
      · rename_i there
        cases h
        exact ⟨place, rfl, there, rfl⟩

/-! ## Paths that still lead there -/

/-- Every directory of a tree is one of another with the same working directory. -/
structure Keeps (t t' : Tree) : Prop where
  home_eq : t'.home = t.home
  directory {place : Place} : t.node? place = some .directory → t'.node? place = some .directory

theorem Keeps.origin_eq (keeps : Keeps t t') (p : Path) : t'.origin p = t.origin p := by
  rw [origin, keeps.home_eq, origin]

theorem Keeps.locateFrom (keeps : Keeps t t') {place q : Place} {pieces : List String}
    (h : t.locateFrom place pieces = .ok q) : t'.locateFrom place pieces = .ok q := by
  induction pieces generalizing place with
  | nil => exact h
  | cons piece pieces ih =>
    rw [Tree.locateFrom] at h ⊢
    cases hn : t.node? place with
    | none => simp [hn] at h
    | some node =>
      cases node with
      | text _ | binary => simp [hn] at h
      | directory =>
        simp only [hn, keeps.directory hn] at h ⊢
        split_ifs at h ⊢ with quiet up
        · exact ih h
        · exact ih h
        · exact ih h

/-- As long as all directories are kept, paths lead where they led. -/
theorem Keeps.locate (keeps : Keeps t t') {p : Path} {place : Place}
    (h : t.locate p = .ok place) : t'.locate p = .ok place := by
  have spelled := (locate_eq_ok h).1
  rw [locate_of_spelled spelled] at h ⊢
  rw [keeps.origin_eq]
  exact keeps.locateFrom h

theorem Keeps.isDirectory (keeps : Keeps t t') {p : Path} (h : t.isDirectory p = true) :
    t'.isDirectory p = true := by
  obtain ⟨place, found⟩ := isDirectory_iff.1 h
  obtain ⟨located, there⟩ := find_eq_ok.1 found
  exact isDirectory_iff.2 ⟨place, find_eq_ok.2 ⟨keeps.locate located, keeps.directory there⟩⟩

/-- What is put where there is no directory takes none away. -/
theorem keeps_put {place : Place} (vacant : t.node? place ≠ some .directory) (node : Node) :
    Keeps t (t.put place node) where
  home_eq := rfl
  directory {other} there := by
    have away : other ≠ place := by
      rintro rfl
      exact vacant there
    rw [node?_put (ne_nil_of_node? vacant), if_neg away, there]

/-- A text written once more changes nothing. -/
theorem write_again {p : Path} {content : String} (h : t.write p content = .ok t') :
    Keeps t t' ∧ t'.write p content = .ok t' := by
  obtain ⟨place, located, file, rfl⟩ := write_eq_ok h
  have ne := ne_nil_of_node? file
  have keeps := keeps_put file (.text content)
  refine ⟨keeps, ?_⟩
  have there : (t.put place (.text content)).node? place = some (.text content) := by
    rw [node?_put ne, if_pos rfl]
  unfold write at h ⊢
  split_ifs at h ⊢ with slash
  · cases hl : t.locateFrom (t.origin p) (p.pieces.reverse.dropWhile (· == "")).reverse <;>
      simp [hl, bind, Except.bind] at h
  · simp [keeps.locate located, there, bind, Except.bind, pure, Except.pure,
      put_of_node? ne there]

/-! ## Added directories -/

/-- A place of one of some paths, at which there was nothing, and is a directory now. -/
structure IsAdded (t t' : Tree) (paths : List Path) (place : Place) : Prop where
  before : t.node? place = none
  after : t'.node? place = some .directory
  exists_path : ∃ p ∈ paths, t'.locate p = .ok place

/-- One tree is another with directories added at some paths. -/
structure Adds (t t' : Tree) (paths : List Path) : Prop where
  home_eq : t'.home = t.home
  node?_cases (place : Place) : t'.node? place = t.node? place ∨ IsAdded t t' paths place

theorem Adds.refl (t : Tree) (paths : List Path) : Adds t t paths :=
  ⟨rfl, fun _ => .inl rfl⟩

theorem Adds.kept {paths : List Path} (h : Adds t t' paths) {place : Place} {node : Node}
    (hn : t.node? place = some node) : t'.node? place = some node := by
  rcases h.node?_cases place with same | added
  · rw [same, hn]
  · rw [added.before] at hn
    cases hn

theorem Adds.keeps {paths : List Path} (h : Adds t t' paths) : Keeps t t' :=
  ⟨h.home_eq, h.kept⟩

theorem Adds.trans {t'' : Tree} {paths : List Path} (h : Adds t t' paths)
    (h' : Adds t' t'' paths) : Adds t t'' paths := by
  refine ⟨h'.home_eq.trans h.home_eq, fun place => ?_⟩
  rcases h'.node?_cases place with same' | added'
  · rcases h.node?_cases place with same | ⟨before, after, p, hp, located⟩
    · exact .inl (same'.trans same)
    · exact .inr ⟨before, same'.trans after, p, hp, h'.keeps.locate located⟩
  · rcases h.node?_cases place with same | added
    · exact .inr ⟨same ▸ added'.before, added'.after, added'.exists_path⟩
    · have before := added'.before
      rw [added.after] at before
      cases before

theorem adds_createDirectory {p : Path} (h : t.createDirectory p = .ok t') {paths : List Path}
    (hp : p ∈ paths) : Adds t t' paths := by
  obtain ⟨place, located, nothing, rfl⟩ := createDirectory_eq_ok.1 h
  have ne := ne_nil_of_nothing nothing
  have keeps : Keeps t (t.put place .directory) := keeps_put (by simp [nothing]) .directory
  refine ⟨rfl, fun other => ?_⟩
  rw [node?_put ne]
  by_cases same : other = place
  · subst same
    exact .inr ⟨nothing, by rw [node?_put ne, if_pos rfl], p, hp, keeps.locate located⟩
  · exact .inl (if_neg same)

theorem isDirectory_createDirectory {p : Path} (h : t.createDirectory p = .ok t') :
    t'.isDirectory p = true := by
  have adds := adds_createDirectory h (List.mem_singleton_self p)
  obtain ⟨place, located, nothing, rfl⟩ := createDirectory_eq_ok.1 h
  refine isDirectory_iff.2 ⟨place, find_eq_ok.2 ⟨adds.keeps.locate located, ?_⟩⟩
  rw [node?_put (ne_nil_of_nothing nothing), if_pos rfl]

/-! ## Nested directories -/

/-- One tree comes from another by making directories at some paths, one after the other. -/
inductive Makes (paths : List Path) (t : Tree) : Tree → Prop where
  | nothing : Makes paths t t
  | step {t' t'' : Tree} {p : Path} (makes : Makes paths t t') (mem : p ∈ paths)
      (made : t'.createDirectory p = .ok t'') : Makes paths t t''

theorem Makes.mono {paths more : List Path} (h : Makes paths t t')
    (sub : ∀ p ∈ paths, p ∈ more) : Makes more t t' := by
  induction h with
  | nothing => exact .nothing
  | step _ mem made ih => exact .step ih (sub _ mem) made

theorem Makes.adds {paths : List Path} (h : Makes paths t t') : Adds t t' paths := by
  induction h with
  | nothing => exact .refl t paths
  | step _ mem made ih => exact ih.trans (adds_createDirectory made mem)

/-- Nested directories are made one after the other. Once that is done, there is a directory at
the innermost of them. -/
theorem makes_createAll (t : Tree) (paths : List Path) :
    Makes paths t (t.createAll paths).1 ∧
      ((t.createAll paths).2 = .ok () →
        ∀ p ∈ paths.head?, (t.createAll paths).1.isDirectory p = true) := by
  induction paths with
  | nil => exact ⟨.nothing, fun _ p hp => by cases hp⟩
  | cons p outer ih =>
    have settle (t' : Tree) (e : FileError) :
        (if t'.isDirectory p then .ok () else .error e : Except FileError Unit) = .ok () →
          ∀ q ∈ (p :: outer).head?, t'.isDirectory q = true := by
      intro done q hq
      split_ifs at done with there
      cases hq
      exact there
    have made (t' t'' : Tree) (h : t'.createDirectory p = .ok t'') :
        ∀ q ∈ (p :: outer).head?, t''.isDirectory q = true := by
      intro q hq
      cases hq
      exact isDirectory_createDirectory h
    rw [createAll]
    split
    · rename_i t' first
      exact ⟨.step .nothing List.mem_cons_self first, fun _ => made _ _ first⟩
    · have wider := ih.1.mono fun q hq => List.mem_cons_of_mem p hq
      split
      · rename_i t' e failed
        rw [failed] at wider
        exact ⟨wider, fun done => by cases done⟩
      · rename_i t' around
        rw [around] at wider
        split
        · rename_i t'' last
          exact ⟨.step wider List.mem_cons_self last, fun _ => made _ _ last⟩
        · exact ⟨wider, settle _ _⟩
    · exact ⟨.nothing, settle _ _⟩

/-- Nothing is made if the innermost directory is there. -/
theorem createAll_of_isDirectory {p : Path} {outer : List Path} (h : t.isDirectory p = true) :
    t.createAll (p :: outer) = (t, .ok ()) := by
  obtain ⟨place, found⟩ := isDirectory_iff.1 h
  obtain ⟨located, there⟩ := find_eq_ok.1 found
  have present : t.createDirectory p = .error .alreadyExists := by
    rw [createDirectory, located]
    simp [bind, Except.bind, there]
  rw [createAll, present]
  simp [h]

end Tree

/-! ## Saved templates -/

/-- The directories around a path. -/
def Path.around (p : Path) : List Path :=
  (p.parent?.map Path.ancestors).getD []

/-- A document is at a path, which leads to no directory. All else is as it was, apart from
directories that were missing around it. -/
structure Delivered (t t' : Tree) (p : Path) (document : String) : Prop where
  home_eq : t'.home = t.home
  exists_place : ∃ place, t'.find p = .ok (place, .text document) ∧
    t.node? place ≠ some .directory ∧
    ∀ other, other ≠ place →
      t'.node? other = t.node? other ∨ Tree.IsAdded t t' p.around other

theorem Delivered.read_eq {t t' : Tree} {p : Path} {document : String}
    (h : Delivered t t' p document) : t'.read p = .ok document := by
  obtain ⟨place, found, -⟩ := h.exists_place
  rw [Tree.read, found]
  rfl

theorem Path.mem_around {p q : Path} (h : q ∈ p.around) :
    ∃ parent, p.parent? = some parent ∧ q ∈ parent.ancestors := by
  unfold around at h
  cases outer : p.parent? with
  | none => simp [outer] at h
  | some parent => exact ⟨parent, rfl, by simpa [outer] using h⟩

/-- A path that is not empty is the innermost directory that has to be there for it. -/
theorem Path.exists_filter_ancestors {p : Path} (h : ¬ p.text.isEmpty = true) :
    ∃ outer, (p.ancestors.filter fun q => !q.text.isEmpty) = p :: outer := by
  obtain ⟨outer, all⟩ := p.exists_ancestors
  rw [all, List.filter_cons_of_pos (by simpa using h)]
  exact ⟨_, rfl⟩

/-- The directory around a path is there, if there has to be one. -/
def Tree.HasParent (t : Tree) (p : Path) : Prop :=
  ∀ parent, p.parent? = some parent → parent.text = "" ∨ t.isDirectory parent = true

theorem makes_makeParent (t : Tree) (p : Path) :
    Tree.Makes p.around t (makeParent t p).1 ∧
      ((makeParent t p).2 = .ok () → (makeParent t p).1.HasParent p) := by
  unfold makeParent Path.around Tree.HasParent
  cases p.parent? with
  | none => exact ⟨.nothing, fun _ _ h => by cases h⟩
  | some parent =>
    dsimp only
    split_ifs with nowhere
    · exact ⟨.nothing, fun _ _ h => by cases h; exact .inl (by simpa using nowhere)⟩
    · obtain ⟨makes, done⟩ :=
        Tree.makes_createAll t (parent.ancestors.filter fun q => !q.text.isEmpty)
      refine ⟨makes.mono fun q hq => (List.mem_filter.1 hq).1, fun made q hq => .inr ?_⟩
      cases hq
      obtain ⟨outer, nested⟩ := Path.exists_filter_ancestors nowhere
      refine done ?_ parent (by rw [nested]; rfl)
      rw [Tree.createDirectories] at made
      cases all : (t.createAll (parent.ancestors.filter fun q => !q.text.isEmpty)).2 with
      | error e => simp [all, Except.mapError] at made
      | ok u => rfl

theorem makeParent_of_hasParent {t : Tree} {p : Path} (h : t.HasParent p) :
    makeParent t p = (t, .ok ()) := by
  unfold makeParent
  cases outer : p.parent? with
  | none => rfl
  | some parent =>
    dsimp only
    split_ifs with nowhere
    · rfl
    · obtain ⟨outer', nested⟩ := Path.exists_filter_ancestors nowhere
      have there := (h parent outer).resolve_left (by simpa using nowhere)
      rw [Tree.createDirectories, nested, Tree.createAll_of_isDirectory there]
      rfl

/-- Saving a template makes directories around it and then writes it, or stops on the way. -/
theorem saveTemplate_cases (t : Tree) (p : Path) (document : String) :
    ∃ t₁, Tree.Makes p.around t t₁ ∧
      ((t₁.HasParent p ∧ t₁.write p document = .ok (saveTemplate t p document).1 ∧
          (saveTemplate t p document).2 = .ok ()) ∨
        ∃ e, (saveTemplate t p document).1 = t₁ ∧ (saveTemplate t p document).2 = .error e) := by
  obtain ⟨makes, done⟩ := makes_makeParent t p
  refine ⟨_, makes, ?_⟩
  unfold saveTemplate
  cases made : makeParent t p with
  | mk t₁ result =>
    rw [made] at done
    cases result with
    | error e => exact .inr ⟨e, rfl, rfl⟩
    | ok u =>
      dsimp only
      cases written : t₁.write p document with
      | error e => exact .inr ⟨_, rfl, rfl⟩
      | ok t' => exact .inl ⟨done rfl, rfl, rfl⟩

theorem delivered_write {t t₁ t' : Tree} {p : Path} {document : String}
    (around : Tree.Adds t t₁ p.around) (h : t₁.write p document = .ok t') :
    Delivered t t' p document := by
  obtain ⟨keeps, -⟩ := Tree.write_again h
  obtain ⟨place, located, file, rfl⟩ := Tree.write_eq_ok h
  have ne := Tree.ne_nil_of_node? file
  refine ⟨keeps.home_eq.trans around.home_eq, place,
    Tree.find_eq_ok.2 ⟨keeps.locate located, ?_⟩, ?_, ?_⟩
  · rw [Tree.node?_put ne, if_pos rfl]
  · intro there
    exact file (around.kept there)
  · intro other away
    have same : (t₁.put place (.text document)).node? other = t₁.node? other := by
      rw [Tree.node?_put ne, if_neg away]
    rcases around.node?_cases other with before | ⟨before, after, q, hq, led⟩
    · exact .inl (same.trans before)
    · exact .inr ⟨before, same.trans after, q, hq, keeps.locate led⟩

/-- A template saved once more changes nothing. -/
theorem saveTemplate_again {t : Tree} {p : Path} {document : String}
    (saved : (saveTemplate t p document).2 = .ok ()) :
    saveTemplate (saveTemplate t p document).1 p document =
      ((saveTemplate t p document).1, .ok ()) := by
  obtain ⟨t₁, -, ⟨parent, written, -⟩ | ⟨e, -, failed⟩⟩ := saveTemplate_cases t p document
  · obtain ⟨keeps, again⟩ := Tree.write_again written
    have around : (saveTemplate t p document).1.HasParent p :=
      fun outer h => (parent outer h).imp id keeps.isDirectory
    rw [saveTemplate, makeParent_of_hasParent around]
    dsimp only
    rw [again]
  · rw [saved] at failed
    cases failed

end PotExtract
