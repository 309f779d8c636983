import PotExtract.Config.Find
import PotExtract.Proofs.Files.Grown

/-!
# Finding a configuration in a tree that has grown

A search for a configuration asks for two names in nested directories. What
is new bears neither name, so that the search ends where it did.

* `IsUnmarked`: a file that is new to no search for a configuration;
* `findConfig?_grown`: the same file is found;
* `loadConfig_grown`: it says the same.
-/

namespace PotExtract

open PotExtract.Path (IsName)

variable {t t' : Tree} {file : Place}

/-- What leads to a file by a name that a search for a configuration asks for is a directory
already. -/
def IsUnmarked (t : Tree) (file : Place) : Prop :=
  ∀ name ∈ [configName, repositoryMark], ∀ place, place ++ [name] <+: file →
    t.node? (place ++ [name]) = some .directory

theorem isName_mark {name : String} (mem : name ∈ [configName, repositoryMark]) : IsName name := by
  rcases List.mem_pair.1 mem with rfl | rfl <;> decide

theorem Path.components_join_name (p : Path) {name : String} (hn : IsName name) :
    (p.join ⟨name⟩).components = p.components ++ [.name name] := by
  by_cases nowhere : p.text = ""
  · obtain rfl : p = ⟨""⟩ := congrArg Path.mk nowhere
    have alone : (Path.mk "").join ⟨name⟩ = ⟨name⟩ := by simp [Path.join]
    rw [alone, hn.components_eq, Path.components_empty, List.nil_append]
  · exact (IsSpelled.joinNames ⟨nowhere⟩ (List.forall_mem_singleton.2 hn)).2

theorem Path.placeOf_join_name (p : Path) {name : String} (hn : IsName name) (home : Place) :
    placeOf home (p.join ⟨name⟩).components = placeOf home p.components ++ [name] := by
  rw [p.components_join_name hn]
  exact placeOf_append_names home p.components [name]

/-- All that is around a path that does not lead up does not lead up. -/
theorem Path.up_not_mem_of_mem_ancestors {p q : Path} (noUp : .up ∉ p.components)
    (hq : q ∈ p.ancestors) : .up ∉ q.components :=
  fun up => noUp ((prefix_of_mem_ancestors hq).subset up)

/-- What a search asks for, is there if it was. -/
theorem pathExists_mark (g : Tree.Grows t t' file) (unmarked : IsUnmarked t file) {p : Path}
    (noUp : .up ∉ p.components) {name : String} (mem : name ∈ [configName, repositoryMark]) :
    t'.pathExists (p.join ⟨name⟩) = t.pathExists (p.join ⟨name⟩) := by
  have hn := isName_mark mem
  apply g.pathExists_eq
  · rw [p.components_join_name hn]
    simpa using noUp
  · rw [p.placeOf_join_name hn]
    exact unmarked name mem _

theorem nearestConfig?_grown (g : Tree.Grows t t' file) (unmarked : IsUnmarked t file)
    {nested : List Path} (noUp : ∀ p ∈ nested, .up ∉ p.components) :
    nearestConfig? t' nested = nearestConfig? t nested := by
  induction nested with
  | nil => rfl
  | cons p outer ih =>
    obtain ⟨own, others⟩ := List.forall_mem_cons.1 noUp
    rw [nearestConfig?, nearestConfig?, ih others,
      pathExists_mark g unmarked own List.mem_cons_self,
      pathExists_mark g unmarked own (List.mem_cons_of_mem _ List.mem_cons_self)]

/-- The same configuration file is found. -/
theorem findConfig?_grown (g : Tree.Grows t t' file) (unmarked : IsUnmarked t file) {start : Path}
    (noUp : .up ∉ start.components) : findConfig? t' start = findConfig? t start :=
  nearestConfig?_grown g unmarked fun _ => Path.up_not_mem_of_mem_ancestors noUp

theorem exists_of_nearestConfig? {nested : List Path} {path : Path}
    (h : nearestConfig? t nested = some path) :
    ∃ p ∈ nested, path = p.join ⟨configName⟩ ∧ t.pathExists path = true := by
  induction nested with
  | nil => cases h
  | cons p outer ih =>
    rw [nearestConfig?] at h
    split_ifs at h with there
    · cases h
      exact ⟨p, List.mem_cons_self, rfl, there⟩
    · obtain ⟨q, hq, said⟩ := ih h
      exact ⟨q, List.mem_cons_of_mem _ hq, said⟩

/-- The configuration is the same. -/
theorem loadConfig_grown (g : Tree.Grows t t' file) (unmarked : IsUnmarked t file) {start : Path}
    (noUp : .up ∉ start.components) : loadConfig t' start = loadConfig t start := by
  rw [loadConfig, loadConfig, findConfig?_grown g unmarked noUp]
  cases found : findConfig? t start with
  | none => rfl
  | some path =>
    obtain ⟨p, hp, rfl, there⟩ := exists_of_nearestConfig? found
    obtain ⟨place, node, led⟩ := Tree.pathExists_iff.1 there
    have stands := (Tree.locate_eq_ok (Tree.find_eq_ok.1 led).1).2.2
    rw [p.placeOf_join_name (isName_mark List.mem_cons_self)] at stands
    have away : place ≠ file := by
      intro same
      apply g.before
      rw [← same, stands]
      exact unmarked configName List.mem_cons_self _ (stands ▸ same ▸ List.prefix_rfl)
    dsimp only
    rw [readConfig, readConfig, g.read_eq away led]

end PotExtract
