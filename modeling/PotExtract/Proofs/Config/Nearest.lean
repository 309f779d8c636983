import PotExtract.Config.Find
import PotExtract.Proofs.Files.Parents

/-!
# The nearest configuration

A run starts from the configuration file that comes first on the way up from
its directory, if no top of a repository comes before it.

* `IsNearest`: the file that a search is to find;
* `nearestConfig?_eq_some_iff`, `nearestConfig?_eq_none_iff`: it finds that
  file, and nothing only if every file lies beyond the top of a repository;
* `Unusable`, `Loads`: what the file that is found makes of a run;
* `config_nearest`: the search and the load of every start.
-/

namespace PotExtract

/-! ## The search -/

/-- The configuration file at a step of the way up is the nearest one: no directory before has one,
and none is the top of a repository. -/
structure IsNearest (t : Tree) (dirs : List Path) (i : Nat) (path : Path) : Prop where
  spelled : ∃ dir, dirs[i]? = some dir ∧ path = dir.join ⟨configName⟩
  there : t.pathExists path = true
  least : ∀ dir ∈ dirs.take i, t.pathExists (dir.join ⟨configName⟩) = false
  inside : ∀ dir ∈ dirs.take i, t.pathExists (dir.join ⟨repositoryMark⟩) = false

section
variable {t : Tree} {dir path : Path} {dirs : List Path}

theorem not_isNearest_nil {i : Nat} : ¬ IsNearest t [] i path := by
  intro h
  obtain ⟨dir, at_i, -⟩ := h.spelled
  cases at_i

theorem isNearest_zero : IsNearest t (dir :: dirs) 0 path ↔
    t.pathExists (dir.join ⟨configName⟩) = true ∧ dir.join ⟨configName⟩ = path := by
  constructor
  · intro h
    obtain ⟨d, at_zero, rfl⟩ := h.spelled
    cases at_zero
    exact ⟨h.there, rfl⟩
  · rintro ⟨there, rfl⟩
    exact ⟨⟨dir, rfl, rfl⟩, there, List.forall_mem_nil _, List.forall_mem_nil _⟩

theorem isNearest_succ {i : Nat} : IsNearest t (dir :: dirs) (i + 1) path ↔
    t.pathExists (dir.join ⟨configName⟩) = false ∧
      t.pathExists (dir.join ⟨repositoryMark⟩) = false ∧ IsNearest t dirs i path := by
  constructor
  · intro h
    obtain ⟨noConfig, least⟩ := List.forall_mem_cons.1 h.least
    obtain ⟨noMark, inside⟩ := List.forall_mem_cons.1 h.inside
    exact ⟨noConfig, noMark, h.spelled, h.there, least, inside⟩
  · rintro ⟨noConfig, noMark, h⟩
    exact ⟨h.spelled, h.there, List.forall_mem_cons.2 ⟨noConfig, h.least⟩,
      List.forall_mem_cons.2 ⟨noMark, h.inside⟩⟩

/-- A search finds the nearest configuration file. -/
theorem nearestConfig?_eq_some_iff :
    nearestConfig? t dirs = some path ↔ ∃ i, IsNearest t dirs i path := by
  induction dirs with
  | nil => simp [nearestConfig?, not_isNearest_nil]
  | cons dir dirs ih =>
    rw [nearestConfig?, ← Nat.or_exists_add_one]
    simp only [isNearest_zero, isNearest_succ, exists_and_left, ← ih]
    split_ifs with config mark
    · simp [config]
    · simp [config, mark]
    · simp [config, mark]

/-- A search finds nothing only if every configuration file lies beyond the top of a repository. -/
theorem nearestConfig?_eq_none_iff :
    nearestConfig? t dirs = none ↔
      ∀ i dir, dirs[i]? = some dir → t.pathExists (dir.join ⟨configName⟩) = true →
        ∃ top ∈ dirs.take i, t.pathExists (top.join ⟨repositoryMark⟩) = true := by
  induction dirs with
  | nil => simp [nearestConfig?]
  | cons dir dirs ih =>
    rw [nearestConfig?, ← Nat.and_forall_add_one]
    simp only [List.getElem?_cons_zero, List.getElem?_cons_succ, List.take_zero, List.take_succ_cons,
      Option.some.injEq, forall_eq']
    split_ifs with config mark
    · simp [config]
    · simp [config, mark]
    · simp [config, mark, ih]

end

/-! ## The load -/

/-- The configuration file of a run cannot be used. -/
inductive Unusable (t : Tree) (start : Path) : LoadError → Prop where
  | unreadable {path : Path} {e : FileError} (found : findConfig? t start = some path)
      (read : t.read path = .error e) : Unusable t start (.unreadable path e)
  | notJson {path : Path} {text : String} (found : findConfig? t start = some path)
      (read : t.read path = .ok text) (json : Json.read? text = none) :
      Unusable t start (.notJson path)
  | invalid {path : Path} {text : String} {value : Json} {e : ConfigError}
      (found : findConfig? t start = some path) (read : t.read path = .ok text)
      (json : Json.read? text = some value) (config : Config.ofJson value = .error e) :
      Unusable t start (.invalid path e)

/-- The settings that a run starts from, and whether a file says them. -/
def settings (loaded : Option Config) : Config × Bool :=
  (loaded.getD {}, loaded.isSome)

/-- What a run has to start from: what the file that is found says, or the defaults if none is
found. -/
inductive Loads (t : Tree) (start : Path) : Except LoadError (Config × Bool) → Prop where
  | defaults (nothing : findConfig? t start = none) : Loads t start (.ok ({}, false))
  | file {path : Path} {text : String} {value : Json} {c : Config}
      (found : findConfig? t start = some path) (read : t.read path = .ok text)
      (json : Json.read? text = some value) (config : Config.ofJson value = .ok c) :
      Loads t start (.ok (c, true))
  | unusable {e : LoadError} (unusable : Unusable t start e) : Loads t start (.error e)

section
variable {t : Tree} {start : Path}

theorem loads_loadConfig (t : Tree) (start : Path) :
    Loads t start ((loadConfig t start).map settings) := by
  cases found : findConfig? t start with
  | none =>
    rw [loadConfig, found]
    exact .defaults found
  | some path =>
    rw [loadConfig, found]
    dsimp only
    rw [readConfig]
    cases read : t.read path with
    | error e => exact .unusable (.unreadable found read)
    | ok text =>
      dsimp only
      cases json : Json.read? text with
      | none => exact .unusable (.notJson found read json)
      | some value =>
        dsimp only
        cases config : Config.ofJson value with
        | error e => exact .unusable (.invalid found read json config)
        | ok c => exact .file found read json config

theorem Loads.eq {result : Except LoadError (Config × Bool)} (h : Loads t start result) :
    (loadConfig t start).map settings = result := by
  cases h with
  | defaults nothing => simp only [loadConfig, nothing]; rfl
  | file found read json config => simp only [loadConfig, readConfig, found, read, json, config]; rfl
  | unusable unusable =>
    cases unusable with
    | unreadable found read => simp only [loadConfig, readConfig, found, read]; rfl
    | notJson found read json => simp only [loadConfig, readConfig, found, read, json]; rfl
    | invalid found read json config =>
      simp only [loadConfig, readConfig, found, read, json, config]
      rfl

theorem loads_iff {result : Except LoadError (Config × Bool)} :
    (loadConfig t start).map settings = result ↔ Loads t start result :=
  ⟨fun h => h ▸ loads_loadConfig t start, Loads.eq⟩

theorem loadConfig_eq_error_iff {e : LoadError} :
    loadConfig t start = .error e ↔ Unusable t start e := by
  have mapped : (loadConfig t start).map settings = .error e ↔ loadConfig t start = .error e := by
    cases loadConfig t start <;> simp [Except.map]
  rw [← mapped, loads_iff]
  constructor
  · rintro ⟨⟩
    assumption
  · exact .unusable

end

/-- **The nearest configuration.** On the way up from its start, which ends with the empty path if
the start is relative and at the top if it is absolute, a search finds the first configuration file
that comes before any top of a repository, and nothing if there is none. A run starts from what
that file says, and from the defaults only if nothing is found: a file that cannot be used is an
error, and no other file takes its place. -/
theorem config_nearest (t : Tree) (start : Path) :
    ∃ dirs, start.Climbs dirs ∧
      (start.isAbsolute = false → dirs.getLast? = some ⟨""⟩) ∧
      (start.isAbsolute = true →
        ∃ top, dirs.getLast? = some top ∧ top.components = [.root]) ∧
      (∀ path, findConfig? t start = some path ↔ ∃ i, IsNearest t dirs i path) ∧
      (findConfig? t start = none ↔
        ∀ i dir, dirs[i]? = some dir → t.pathExists (dir.join ⟨configName⟩) = true →
          ∃ top ∈ dirs.take i, t.pathExists (top.join ⟨repositoryMark⟩) = true) ∧
      ∀ result, (loadConfig t start).map settings = result ↔ Loads t start result := by
  refine ⟨start.ancestors, start.climbs_ancestors, fun relative => ?_,
    start.climbs_ancestors.exists_getLast?, fun _ => nearestConfig?_eq_some_iff,
    nearestConfig?_eq_none_iff, fun _ => loads_iff⟩
  refine start.climbs_ancestors.getLast?_eq ?_
  by_cases empty : start.text = ""
  · exact .inl (by rw [← empty])
  · exact .inr ⟨⟨empty⟩, relative⟩

/-- A file beside the mark of a repository is found, and one around the repository is not. -/
example :
    let inside : Tree := { nodes := [(["a"], .directory), (["a", "b"], .directory),
      (["a", ".git"], .directory), ([configName], .text "")] }
    findConfig? inside ⟨"a/b"⟩ = none ∧
      findConfig? (inside.put ["a", configName] .directory) ⟨"a/b"⟩ = some ⟨"a/.wppotrc.json"⟩ := by
  decide

/-- A file around the working directory is found from the absolute path of that directory, and not
from the dot, whose way up does not leave it. -/
example :
    let around : Tree := {
      nodes := [(["a"], .directory), (["a", "b"], .directory), (["a", configName], .text "")]
      home := ["a", "b"] }
    findConfig? around ⟨"/a/b"⟩ = some ⟨"/a/.wppotrc.json"⟩ ∧ findConfig? around ⟨"."⟩ = none ∧
      findConfig? around ⟨".."⟩ = some ⟨"../.wppotrc.json"⟩ := by
  decide

end PotExtract
