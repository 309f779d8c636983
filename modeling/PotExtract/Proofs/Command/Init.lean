import PotExtract.Proofs.Command.Again
import PotExtract.Proofs.Files.Beside

/-!
# A configuration file to start from

The file that a project starts from says what goes without saying. A run that
has no configuration finds the same files with it, makes the same plan and
delivers the same template.

* `loadConfig_beside`: with the file, a run still has the default configuration;
* `plan_beside`: the plan is the same;
* `Plan.perform_beside`: so is what comes of it;
* `init_neutral`: a run before and after the file is made;
* `init_not_neutral_inside`: a destination that leads through the file.
-/

namespace PotExtract

open PotExtract.Path (IsName)

variable {t t' : Tree} {file : Place} {content : String} {options : Options}

namespace Tree.Beside

theorem grows (h : Beside file content t t') (wf : t.WellFormed) (wf' : t'.WellFormed) :
    Grows t t' file where
  wf := wf
  wf' := wf'
  home_eq := h.home_eq
  before := by simp [h.before]
  after := ⟨content, h.after⟩
  others place away := .inl (h.others place away)

/-- What is there with the file and not without it, is the file. -/
theorem find_new (h : Beside file content t t') {p : Path} (there : t'.pathExists p = true)
    (new : ¬ t.pathExists p = true) : t'.find p = .ok (file, .text content) := by
  obtain ⟨place, node, found⟩ := pathExists_iff.1 there
  obtain ⟨located, own⟩ := find_eq_ok.1 found
  by_cases here : place = file
  · subst here
    rw [h.after] at own
    rw [found, ← Option.some.inj own]
  · rw [h.others place here] at own
    exact absurd (pathExists_iff.2 ⟨place, node, find_eq_ok.2 ⟨h.locate_iff.1 located, own⟩⟩) new

theorem read_new (h : Beside file content t t') {p : Path} (there : t'.pathExists p = true)
    (new : ¬ t.pathExists p = true) : t'.read p = .ok content := by
  rw [read, h.find_new there new]
  rfl

end Tree.Beside

/-! ## The configuration -/

/-- A search that found nothing finds the file or nothing. -/
theorem nearestConfig?_beside (h : Tree.Beside file content t t') (g : Tree.Grows t t' file)
    {nested : List Path} (none : nearestConfig? t nested = none) :
    nearestConfig? t' nested = Option.none ∨
      ∃ path, nearestConfig? t' nested = some path ∧ t'.read path = .ok content := by
  induction nested with
  | nil => exact .inl rfl
  | cons p outer ih =>
    rw [nearestConfig?] at none ⊢
    split_ifs at none with old repository
    · rw [if_pos (g.pathExists repository)]
      split_ifs with new
      · exact .inr ⟨_, rfl, h.read_new new old⟩
      · exact .inl rfl
    · split_ifs with new
      · exact .inr ⟨_, rfl, h.read_new new old⟩
      · exact .inl rfl
      · exact ih none

theorem findConfig?_of_loadConfig {start : Path} (h : loadConfig t start = .ok none) :
    findConfig? t start = none := by
  rw [loadConfig] at h
  cases found : findConfig? t start with
  | none => rfl
  | some path =>
    rw [found] at h
    dsimp only at h
    cases read : readConfig t path <;> simp [read] at h

/-- A text that sets what is set without it. -/
def SetsDefaults (content : String) : Prop :=
  (Json.read? content).map Config.ofJson = some (.ok {})

/-- The file that a project starts from says the defaults. -/
theorem setsDefaults_defaultText : SetsDefaults Config.defaultText := by
  have value : ((Json.read? Config.defaultText).bind fun v => (Config.ofJson v).toOption) =
      some {} := by
    -- Only the characters of the text count: put together as a string, they take long to check.
    simp only [Json.read?, Config.defaultText, Config.toJson, Json.pretty, Json.prettyAt,
      Json.prettyMembers, Json.prettyItems, Json.enclosed, Json.stringText, Json.indentation,
      optionalText, HeaderSetting.toJson, List.map_cons, List.map_nil, String.toList_append,
      String.toList_intercalate, String.toList_ofList]
    decide +kernel
  obtain ⟨v, read, config⟩ := Option.bind_eq_some_iff.1 value
  rw [SetsDefaults, read, Option.map_some, eq_ok_of_toOption config]

/-- A run without a configuration has the default one with the file too. -/
theorem loadConfig_beside (h : Tree.Beside file content t t') (g : Tree.Grows t t' file)
    (defaults : SetsDefaults content) {start : Path} (loads : loadConfig t start = .ok none) :
    ∃ loaded, loadConfig t' start = .ok loaded ∧ loaded.getD {} = {} := by
  rcases nearestConfig?_beside h g (findConfig?_of_loadConfig loads) with
    nothing | ⟨path, found, read⟩
  · exact ⟨none, by rw [loadConfig, findConfig?, nothing], rfl⟩
  · obtain ⟨value, json, config⟩ := Option.map_eq_some_iff.1 defaults
    refine ⟨some {}, ?_, rfl⟩
    rw [loadConfig, findConfig?, found]
    dsimp only
    rw [readConfig, read]
    dsimp only
    rw [json]
    dsimp only
    rw [config]
    rfl

/-! ## The plan -/

/-- The place of a configuration file in the working directory. -/
def Tree.configPlace (t : Tree) : Place :=
  t.home ++ [configName]

theorem Tree.configPlace_ne_nil (t : Tree) : t.configPlace ≠ [] :=
  List.append_ne_nil_of_right_ne_nil _ (List.cons_ne_nil _ _)

/-- No path of a source file leads to the place of a configuration file. -/
theorem isNoSource_configPlace (wf : t.WellFormed) (absent : t.node? t.configPlace = none) :
    IsNoSource t.home t.configPlace := by
  have place : Path.placeOf t.home (Path.mk configName).components = t.configPlace := by
    rw [IsName.components_eq (by decide)]
    rfl
  rw [← place]
  exact wf.isNoSource (by decide) (by decide) (by rw [place, absent]; simp)

/-- Without patterns, a search meets nothing new. -/
theorem files_beside (h : Tree.Beside file content t t') (g : Tree.Grows t t' file)
    (none : IsNoSource t.home file) {base : Path} {includes : List String} (ne : includes ≠ [])
    (literal : ∀ text ∈ includes, hasWildcard text = false) (ignores : List String) :
    (scan t' base includes ignores).files = (scan t base includes ignores).files := by
  rw [files_scan, files_scan]
  refine congrArg sortPaths ?_
  rw [flatMap_searchPaths ne, flatMap_searchPaths ne, List.flatMap_def, List.flatMap_def]
  refine congrArg List.flatten (List.map_congr_left fun text mem => ?_)
  rw [includedPaths_literal (literal text mem), includedPaths_literal (literal text mem)]
  by_cases old : t.pathExists (includePath base text) = true
  · rw [if_pos old, if_pos (g.pathExists old)]
    exact flatMap_sources_of_old g none fun p hp => by rwa [List.mem_singleton.1 hp]
  · rw [if_neg old]
    split_ifs with new
    · exact (List.flatMap_singleton _ _).trans (sources_of_new g none (h.find_new new old) h.before)
    · rfl

theorem planWith_beside (h : Tree.Beside file content t t') (g : Tree.Grows t t' file)
    (none : IsNoSource t.home file) {config : Config} (ne : config.includes ≠ [])
    (literal : ∀ text ∈ config.includes, hasWildcard text = false) (date : Option Timestamp) :
    options.planWith t' config date = options.planWith t config date := by
  have there (u : Tree) (empty : config.includes = []) : u.pathExists options.root = true :=
    absurd empty ne
  rw [Options.planWith, Options.planWith, files_beside h g none ne literal,
    skipped_eq_zero (there t), skipped_eq_zero (there t')]

/-- The settings of a run leave the default includes as they are. -/
theorem includes_applyTo (options : Options) : (options.applyTo {}).includes = ["."] := rfl

theorem plan_beside (h : Tree.Beside file content t t') (g : Tree.Grows t t' file)
    (defaults : SetsDefaults content) (none : IsNoSource t.home file)
    (loads : loadConfig t options.root = .ok Option.none) (dateSetting : Option String) :
    (plan t' options dateSetting).2 = (plan t options dateSetting).2 := by
  obtain ⟨loaded, loads', same⟩ := loadConfig_beside h g defaults loads
  have alike (date : Option Timestamp) : options.planWith t' (options.applyTo {}) date =
      options.planWith t (options.applyTo {}) date :=
    planWith_beside h g none (by simp [includes_applyTo]) (by simp [includes_applyTo, hasWildcard])
      date
  unfold plan
  rw [loads, loads']
  dsimp only
  rw [same, Option.getD_none]
  cases (options.applyTo {}).check with
  | error e => rfl
  | ok =>
    cases Epoch.read dateSetting with
    | error e => rfl
    | ok date => exact congrArg Except.ok (alike date)

/-! ## What comes of it -/

/-- A plan whose files read the same gives the same, as long as its destination avoids the file. -/
theorem Plan.perform_beside {p : Plan} (h : Tree.Beside file content t t')
    (reads : p.readFiles t' = p.readFiles t)
    (avoids : ∀ path, p.destination = some path → path.Avoids t.home file) (now : Timestamp) :
    Tree.Beside file content (p.perform t now).tree (p.perform t' now).tree ∧
      (p.perform t' now).output = (p.perform t now).output ∧
      (p.perform t' now).result = (p.perform t now).result := by
  have harvests : p.harvest t' = p.harvest t := by
    rw [harvest, harvest, reads]
  cases destination : p.destination with
  | none =>
    unfold perform
    rw [destination, reads]
    exact ⟨h, rfl, rfl⟩
  | some path =>
    obtain ⟨tree, output, result⟩ := perform_of_destination destination t now
    obtain ⟨tree', output', result'⟩ := perform_of_destination destination t' now
    rw [harvests] at tree' result'
    obtain ⟨beside, same⟩ :=
      h.saveTemplate (avoids path destination) (p.template now (p.harvest t))
    rw [tree, tree', output, output', result, result', same]
    exact ⟨beside, rfl, rfl⟩

/-- A run without a configuration gives the same with a file that says the defaults, as long as its
destination avoids that file. -/
theorem performExtract_beside (h : Tree.Beside file content t t') (g : Tree.Grows t t' file)
    (defaults : SetsDefaults content) (none : IsNoSource t.home file)
    (loads : loadConfig t options.root = .ok Option.none)
    (avoids : ∀ path, options.destination (options.applyTo {}) = some path →
      path.Avoids t.home file) (now : Timestamp) (dateSetting : Option String) :
    Tree.Beside file content (performExtract t now dateSetting options).tree
        (performExtract t' now dateSetting options).tree ∧
      (performExtract t' now dateSetting options).output =
        (performExtract t now dateSetting options).output ∧
      (performExtract t' now dateSetting options).result =
        (performExtract t now dateSetting options).result := by
  have plans := plan_beside h g defaults none loads dateSetting
  cases planned : (plan t options dateSetting).2 with
  | error e =>
    obtain ⟨tree, output, result⟩ := @performExtract_of_error t options dateSetting now e planned
    obtain ⟨tree', output', result'⟩ :=
      @performExtract_of_error t' options dateSetting now e (plans.trans planned)
    rw [tree, tree', output, output', result, result']
    exact ⟨h, rfl, rfl⟩
  | ok p =>
    obtain ⟨tree, output, result⟩ := performExtract_of_ok planned now
    obtain ⟨tree', output', result'⟩ := performExtract_of_ok (plans.trans planned) now
    rw [tree, tree', output, output', result, result']
    obtain ⟨loaded, date, loads', -, -, rfl⟩ := plan_eq_ok.1 planned
    obtain rfl := Except.ok.inj (loads.symm.trans loads')
    exact Plan.perform_beside h (readFiles_grown g none date) avoids now

/-! ## Before and after -/

theorem Tree.WellFormed.locate_config (wf : t.WellFormed) :
    t.locate ((⟨"."⟩ : Path).join ⟨configName⟩) = .ok t.configPlace :=
  locate_join_name (wf.find_of_isHere ⟨by decide⟩ (by decide)) (by decide)

theorem Tree.WellFormed.put_config (wf : t.WellFormed) (absent : t.node? t.configPlace = none)
    (content : String) : (t.put t.configPlace (.text content)).WellFormed :=
  wf.put_located wf.locate_config (by simp [absent]) _

theorem performInit_of_present (wf : t.WellFormed) (h : t.node? t.configPlace ≠ none) :
    (performInit t).tree = t ∧ (performInit t).result = .ok .present := by
  obtain ⟨node, there⟩ := Option.ne_none_iff_exists'.1 h
  have present : t.pathExists ((⟨"."⟩ : Path).join ⟨configName⟩) = true :=
    Tree.pathExists_iff.2 ⟨_, node, Tree.find_eq_ok.2 ⟨wf.locate_config, there⟩⟩
  rw [performInit, if_pos present]
  exact ⟨rfl, rfl⟩

theorem performInit_of_absent (wf : t.WellFormed) (h : t.node? t.configPlace = none) :
    (performInit t).tree = t.put t.configPlace (.text Config.defaultText) ∧
      (performInit t).result = .ok .created := by
  have absent : ¬ t.pathExists ((⟨"."⟩ : Path).join ⟨configName⟩) = true := by
    rw [Tree.pathExists_iff]
    rintro ⟨place, node, found⟩
    obtain ⟨located, there⟩ := Tree.find_eq_ok.1 found
    obtain rfl := Except.ok.inj (wf.locate_config.symm.trans located)
    rw [h] at there
    cases there
  have written : t.write ((⟨"."⟩ : Path).join ⟨configName⟩) Config.defaultText =
      .ok (t.put t.configPlace (.text Config.defaultText)) := by
    rw [Tree.write, if_neg (by decide), wf.locate_config]
    simp only [bind, Except.bind, h]
    rfl
  rw [performInit, if_neg absent, written]
  exact ⟨rfl, rfl⟩

/-- Two runs end the same: with one result, one output and one exit code. What they leave differs
at one place at most. -/
structure EndsAlike (place : Place) (done done' : Performance) : Prop where
  output_eq : done'.output = done.output
  result_eq : done'.result = done.result
  exitCode_eq : ∀ colors verbose threshold,
    (done'.ending colors verbose threshold).exitCode =
      (done.ending colors verbose threshold).exitCode
  home_eq : done'.tree.home = done.tree.home
  read_eq : ∀ path : Path, path.Avoids done.tree.home place →
    done'.tree.read path = done.tree.read path
  node?_eq : ∀ other, other ≠ place → done'.tree.node? other = done.tree.node? other

theorem EndsAlike.refl (place : Place) (done : Performance) : EndsAlike place done done :=
  ⟨rfl, rfl, fun _ _ _ => rfl, rfl, fun _ _ => rfl, fun _ _ => rfl⟩

theorem exitCode_congr {done done' : Performance} (h : done'.result = done.result)
    (colors verbose : Bool) (threshold : Option Level) :
    (done'.ending colors verbose threshold).exitCode =
      (done.ending colors verbose threshold).exitCode := by
  cases result : done.result with
  | error e =>
    rw [(done.ending_of_error colors verbose threshold result).1,
      (done'.ending_of_error colors verbose threshold (h.trans result)).1]
  | ok report =>
    rw [done.exitCode_of_ok colors verbose threshold result,
      done'.exitCode_of_ok colors verbose threshold (h.trans result)]

/-- **Making a configuration file changes no run and overwrites nothing.** If there is something at
its place, whatever it is, all stays as it is and the exit code is 1. Otherwise the file is made,
nothing else changes and the exit code is 0. In either case a run that had no configuration finds
the same files as before and gives the same template to the same destination with the same exit
code, if that destination neither is the file nor leads through it. -/
theorem init_neutral (wf : t.WellFormed) (now : Timestamp) (dateSetting : Option String)
    (options : Options) :
    let made := Command.init.perform t now dateSetting
    (t.node? t.configPlace ≠ none → made.tree = t ∧
      ∀ colors verbose threshold, (made.ending colors verbose threshold).exitCode = 1) ∧
    (t.node? t.configPlace = none →
      made.tree.home = t.home ∧
      (∀ place, made.tree.node? place =
        if place = t.configPlace then some (.text Config.defaultText) else t.node? place) ∧
      ∀ colors verbose threshold, (made.ending colors verbose threshold).exitCode = 0) ∧
    (loadConfig t options.root = .ok none →
      (∀ path, options.destination (options.applyTo {}) = some path →
        path.Avoids t.home t.configPlace) →
      EndsAlike t.configPlace ((Command.extract options).perform t now dateSetting)
        ((Command.extract options).perform made.tree now dateSetting)) := by
  intro made
  refine ⟨fun present => ?_, fun absent => ?_, fun loads avoids => ?_⟩
  · obtain ⟨tree, result⟩ := performInit_of_present wf present
    exact ⟨tree, fun colors verbose threshold =>
      made.exitCode_of_ok colors verbose threshold result⟩
  · obtain ⟨tree, result⟩ := performInit_of_absent wf absent
    have written : made.tree = t.put t.configPlace (.text Config.defaultText) := tree
    refine ⟨by rw [written, Tree.home_put], fun place => ?_, fun colors verbose threshold =>
      made.exitCode_of_ok colors verbose threshold result⟩
    rw [written]
    exact Tree.node?_put t.configPlace_ne_nil _ place
  · by_cases absent : t.node? t.configPlace = none
    · have tree : made.tree = t.put t.configPlace (.text Config.defaultText) :=
        (performInit_of_absent wf absent).1
      have beside := Tree.beside_put absent Config.defaultText
      rw [← tree] at beside
      have wf' : made.tree.WellFormed := tree ▸ wf.put_config absent Config.defaultText
      obtain ⟨trees, output, result⟩ :=
        performExtract_beside beside (beside.grows wf wf') setsDefaults_defaultText
          (isNoSource_configPlace wf absent) loads avoids now dateSetting
      exact ⟨output, result, exitCode_congr result, trees.home_eq, fun _ => trees.read_eq,
        trees.others⟩
    · rw [show made.tree = t from (performInit_of_present wf absent).1]
      exact .refl _ _

/-- A project whose template goes to a directory of its own, and one in which a directory has the
name of a configuration file. -/
theorem init_neutral_pageTree :
    let options : Options := { destFile := some ⟨"lang/x.pot"⟩ }
    let made := Command.init.perform pageTree ⟨0, .utc⟩ none
    pageTree.WellFormed ∧ pageTree.node? pageTree.configPlace = none ∧
      loadConfig pageTree options.root = .ok none ∧
      options.destination (options.applyTo {}) = some ⟨"lang/x.pot"⟩ ∧
      (Path.mk "lang/x.pot").Avoids pageTree.home pageTree.configPlace ∧
      made.tree.node? [configName] = some (.text Config.defaultText) ∧
      EndsAlike [configName] ((Command.extract options).perform pageTree ⟨0, .utc⟩ none)
        ((Command.extract options).perform made.tree ⟨0, .utc⟩ none) ∧
      blockedTree.WellFormed ∧ blockedTree.node? blockedTree.configPlace = some .directory ∧
      (Command.init.perform blockedTree ⟨0, .utc⟩ none).tree = blockedTree := by
  intro options made
  have wf : pageTree.WellFormed := by decide
  have absent : pageTree.node? pageTree.configPlace = none := by decide
  have loads : loadConfig pageTree options.root = .ok none := eq_ok_of_toOption (by decide +kernel)
  have destination : options.destination (options.applyTo {}) = some ⟨"lang/x.pot"⟩ := rfl
  have avoids : (Path.mk "lang/x.pot").Avoids pageTree.home pageTree.configPlace := by decide
  obtain ⟨-, creates, alike⟩ := init_neutral wf ⟨0, .utc⟩ none options
  have blocked : blockedTree.WellFormed := by decide
  have present : blockedTree.node? blockedTree.configPlace = some .directory := by decide
  refine ⟨wf, absent, loads, destination, avoids,
    ((creates absent).2.1 [configName]).trans (if_pos rfl),
    alike loads fun path somewhere => ?_, blocked, present,
    ((init_neutral blocked ⟨0, .utc⟩ none options).1 (by simp [present])).1⟩
  obtain rfl := Option.some.inj (destination.symm.trans somewhere)
  exact avoids

/-- A run whose template goes through the place of a configuration file. -/
def throughOptions : Options :=
  { destFile := some ⟨".wppotrc.json/x.pot"⟩ }

theorem loadConfig_pageTree : loadConfig pageTree throughOptions.root = .ok none :=
  eq_ok_of_toOption (by decide +kernel)

/-- No directory is made where the file is. -/
theorem saveTemplate_through (content document : String) :
    (saveTemplate (pageTree.put [configName] (.text content)) ⟨".wppotrc.json/x.pot"⟩ document).2 =
      .error (.createDirectory ⟨".wppotrc.json"⟩ .alreadyExists) := by
  rfl

theorem performExtract_through {content : String} (defaults : SetsDefaults content) :
    ∃ e, (performExtract (pageTree.put [configName] (.text content)) ⟨0, .utc⟩ none
      throughOptions).result = .error e := by
  have wf : pageTree.WellFormed := by decide
  have absent : pageTree.node? pageTree.configPlace = none := by decide
  have checks : (throughOptions.applyTo {}).check = .ok () := eq_ok_of_toOption (by decide +kernel)
  have planned : (plan pageTree throughOptions none).2 =
      .ok (throughOptions.planWith pageTree (throughOptions.applyTo {}) none) :=
    plan_eq_ok.2 ⟨none, none, loadConfig_pageTree, checks, rfl, rfl⟩
  have beside := Tree.beside_put absent content
  have planned' := (plan_beside beside (beside.grows wf (wf.put_config absent content)) defaults
    (isNoSource_configPlace wf absent) loadConfig_pageTree none).trans planned
  have somewhere : (throughOptions.planWith pageTree (throughOptions.applyTo {}) none).destination =
      some ⟨".wppotrc.json/x.pot"⟩ := rfl
  obtain ⟨-, -, result⟩ := performExtract_of_ok planned' ⟨0, .utc⟩
  obtain ⟨-, -, saved⟩ := Plan.perform_of_destination somewhere
    (pageTree.put [configName] (.text content)) ⟨0, .utc⟩
  rw [saveTemplate_through] at saved
  exact ⟨_, result.trans saved⟩

/-- Once the file is there, the run stops. -/
theorem exitCode_through :
    (((Command.extract throughOptions).perform
      (Command.init.perform pageTree ⟨0, .utc⟩ none).tree ⟨0, .utc⟩ none).ending
        false false none).exitCode = 2 := by
  have made : (Command.init.perform pageTree ⟨0, .utc⟩ none).tree =
      pageTree.put [configName] (.text Config.defaultText) :=
    (performInit_of_absent (by decide) (by decide)).1
  obtain ⟨e, fails⟩ := performExtract_through setsDefaults_defaultText
  rw [← made] at fails
  exact (Performance.ending_of_error _ false false none fails).1

/-- A destination that leads through the file: a directory stands there for the run alone, and
cannot be made once the file is there. -/
theorem init_not_neutral_inside :
    pageTree.WellFormed ∧ throughOptions.root.IsRelative ∧
      .up ∉ throughOptions.root.components ∧
      loadConfig pageTree throughOptions.root = .ok none ∧
      throughOptions.destination (throughOptions.applyTo {}) = some ⟨".wppotrc.json/x.pot"⟩ ∧
      Path.placeOf pageTree.home (Path.mk ".wppotrc.json/x.pot").components ≠
        pageTree.configPlace ∧
      (((Command.extract throughOptions).perform pageTree ⟨0, .utc⟩ none).ending
        false false none).exitCode = 0 ∧
      (((Command.extract throughOptions).perform
        (Command.init.perform pageTree ⟨0, .utc⟩ none).tree ⟨0, .utc⟩ none).ending
          false false none).exitCode = 2 := by
  have alone : (((Command.extract throughOptions).perform pageTree ⟨0, .utc⟩ none).ending
      false false none).exitCode = 0 := by
    decide +kernel
  exact ⟨by decide, ⟨⟨by decide⟩, by decide⟩, by decide, loadConfig_pageTree, rfl, by decide, alone,
    exitCode_through⟩

end PotExtract
