import PotExtract.Proofs.Command.Extracted
import PotExtract.Proofs.Config.Grown
import PotExtract.Proofs.Scan.Grown
import PotExtract.Proofs.Scan.Moved

/-!
# The same extraction again

A run with a set date, made again, finds the configuration and the files that
it found before, and leaves everything as it is. Its own template, and the
directories around it, are there the second time.

* `KeepsApart`, `StaysBelow`: what is asked of a run for that;
* `PlannedAlike`, `plannedAlike_perform`: all is planned as before;
* `Plan.perform_again`: the same plan, performed where it has been performed;
* `extract_again`: the second run.
-/

namespace PotExtract

open Glob
open PotExtract.Path (Component)

/-! ## Where a template lies -/

theorem Path.fileName?_eq_of_extension? {p : Path} {extension : String}
    (h : p.extension? = some extension) (home : Place) :
    p.fileName? = (placeOf home p.components).getLast? := by
  cases named : p.fileName? with
  | none => simp [extension?, named] at h
  | some name =>
    have last : p.components.getLast? = some (.name name) := by
      unfold fileName? at named
      split at named
      · rename_i text said
        cases named
        exact said
      · cases named
    obtain ⟨before, split⟩ := List.getLast?_eq_some_iff.1 last
    rw [split, ← List.map_singleton (f := Component.name), placeOf_append_names]
    simp

namespace Tree

/-- A path that does not lead up leads to names from where it begins. -/
theorem exists_placeOf (t : Tree) {p : Path} (noUp : .up ∉ p.components) :
    ∃ names : List String, p.components = p.beginning ++ names.map .name ∧
      Path.placeOf t.home p.components = t.origin p ++ names := by
  obtain ⟨names, -, said⟩ := Path.exists_said noUp
  refine ⟨names, said, ?_⟩
  rw [said, placeOf_beginning_append, Path.foldl_enter_names]

variable {t : Tree} {p : Path}

/-- A template whose extension is not that of source files is none. -/
theorem WellFormed.isNoSource (wf : t.WellFormed) (noUp : .up ∉ p.components)
    (other : p.extension? ≠ some "php")
    (vacant : t.node? (Path.placeOf t.home p.components) ≠ some .directory) :
    IsNoSource t.home (Path.placeOf t.home p.components) := by
  obtain ⟨names, said, place⟩ := t.exists_placeOf noUp
  have ne : names ≠ [] := by
    rintro rfl
    rw [place, List.append_nil] at vacant
    exact vacant (wf.origin_directory p)
  obtain ⟨before, name, rfl⟩ := (List.eq_nil_or_concat names).resolve_left ne
  intro f source same
  have named : p.fileName? = f.fileName? := by
    rw [Path.fileName?_eq_of_extension? source t.home, same, place, Path.fileName?, said]
    simp
  apply other
  rw [← source, Path.extension?, Path.extension?, named]

/-- A template whose path has no name that a search asks for is new to no search. -/
theorem WellFormed.isUnmarked (wf : t.WellFormed) (noUp : .up ∉ p.components)
    (unmarked : ∀ name ∈ [configName, repositoryMark], .name name ∉ p.components) :
    IsUnmarked t (Path.placeOf t.home p.components) := by
  obtain ⟨names, said, place⟩ := t.exists_placeOf noUp
  intro name mem outer inside
  rw [place] at inside
  have start := wf.origin_directory p
  rcases List.prefix_or_prefix_of_prefix inside (List.prefix_append _ _) with around | beyond
  · exact wf.directory_of_prefix around start
  · obtain ⟨more, own⟩ := beyond
    rw [← own, List.prefix_append_right_inj] at inside
    rcases List.eq_nil_or_concat more with rfl | ⟨before, last, rfl⟩
    · rwa [← own, List.append_nil]
    · have ends : name = last := by simpa using (congrArg List.getLast? own).symm
      refine absurd ?_ (unmarked name mem)
      rw [said, ends]
      exact List.mem_append_right _ (List.mem_map_of_mem (inside.subset (by simp)))

end Tree

/-! ## The same plan -/

/-- A run keeps its template apart: no path leads up, the template is no source file, and no path
to it has a name that decides a search for a configuration. -/
structure KeepsApart (options : Options) (config : Config) : Prop where
  root_noUp : .up ∉ options.root.components
  includes_noUp : ∀ text ∈ config.includes, .up ∉ (Path.mk text).components
  target_noUp : .up ∉ (options.target config).components
  target_noSource : (options.target config).extension? ≠ some "php"
  target_unmarked : ∀ name ∈ [configName, repositoryMark],
    .name name ∉ (options.target config).components

/-- No component of a pattern matches two dots, or else the template's directory is there. -/
def StaysBelow (t : Tree) (options : Options) (config : Config) : Prop :=
  (∀ text ∈ config.includes, hasWildcard text = true →
    (options.root.join ⟨text⟩).staysBelow = true) ∨ t.HasParent (options.target config)

section
variable {t t' : Tree} {file : Place} {options : Options} {config : Config}

theorem planWith_grown (g : Tree.Grows t t' file) (none : IsNoSource t.home file)
    (contained : Contained t t' options.root config.includes)
    (there : t.pathExists options.root = true) (date : Option Timestamp) :
    options.planWith t' config date = options.planWith t config date := by
  rw [Options.planWith, Options.planWith, contained.files_eq g none there,
    skipped_eq_zero fun _ => there, skipped_eq_zero fun _ => g.pathExists there]

theorem IsSourceBelow.exists_find (wf : t.WellFormed) {start f : Path}
    (h : IsSourceBelow t start f) : ∃ place node, t.find f = .ok (place, node) := by
  obtain ⟨place, names, node, located, rfl, there, -⟩ := h.exists_names
  by_cases here : names = []
  · subst here
    rw [List.append_nil] at there
    exact ⟨place, node, Tree.find_eq_ok.2 ⟨located, there⟩⟩
  · have outer := Tree.find_eq_ok.2 ⟨located, wf.node?_around here there⟩
    exact ⟨_, node, wf.find_joinNames outer there here⟩

/-- The files of a plan read the same. -/
theorem readFiles_grown (g : Tree.Grows t t' file) (none : IsNoSource t.home file)
    (date : Option Timestamp) :
    (options.planWith t config date).readFiles t' =
      (options.planWith t config date).readFiles t := by
  apply List.map_congr_left
  intro f hf
  obtain ⟨start, -, source, -⟩ := (g.wf.mem_files_iff _ _ _).1 f hf
  obtain ⟨place, node, found⟩ := source.exists_find g.wf
  have away : place ≠ file := by
    rw [(Tree.locate_eq_ok (Tree.find_eq_ok.1 found).1).2.2]
    exact none f source.extension?_eq
  rw [SourceFile.read, SourceFile.read, g.read_eq away found]

end

/-! ## The same template -/

namespace Plan

variable {p : Plan} {t : Tree}

theorem saved_of_map {saved : Except CommandError Unit} {report report' : Report}
    (h : saved.map (fun _ => report') = .ok report) : saved = .ok () := by
  cases saved with
  | ok u => rfl
  | error e => cases h

/-- The template of a plan that is performed is at its destination. -/
theorem read_destination {path : Path} (h : p.destination = some path) {now : Timestamp}
    {report : Report} (ok : (p.perform t now).result = .ok report) :
    (p.perform t now).tree.read path = .ok (p.template now (p.harvest t)) := by
  rcases p.perform_cases t now with ⟨nowhere, -⟩ |
    ⟨path', somewhere, -, ⟨-, delivered⟩ | ⟨e, fails, -⟩⟩
  · rw [h] at nowhere
    cases nowhere
  · obtain rfl := Option.some.inj (h.symm.trans somewhere)
    exact delivered.read_eq
  · rw [ok] at fails
    cases fails

/-- A plan with a set date does not ask for the time. -/
theorem perform_of_pinned {date : Timestamp} (pinned : p.date = some date) (now now' : Timestamp) :
    p.perform t now' = p.perform t now := by
  unfold perform template
  rw [pinned]
  rfl

/-- A plan with a set date, performed where it has been performed, changes nothing if its files
read the same. -/
theorem perform_again {now date : Timestamp} {report : Report} (pinned : p.date = some date)
    (ok : (p.perform t now).result = .ok report)
    (reads : p.readFiles (p.perform t now).tree = p.readFiles t) (now' : Timestamp) :
    (p.perform (p.perform t now).tree now').tree = (p.perform t now).tree ∧
      (p.perform (p.perform t now).tree now').output = (p.perform t now).output ∧
      (p.perform (p.perform t now).tree now').result = .ok report := by
  rw [perform_of_pinned pinned now now']
  cases destination : p.destination with
  | none =>
    have stays : (p.perform t now).tree = t := by
      rw [perform, destination]
    rw [stays]
    exact ⟨stays, rfl, ok⟩
  | some path =>
    have harvests : p.harvest (p.perform t now).tree = p.harvest t := by
      rw [harvest, harvest, reads]
    obtain ⟨tree, output, result⟩ := perform_of_destination destination t now
    obtain ⟨tree', output', result'⟩ :=
      perform_of_destination destination (p.perform t now).tree now
    have saved := saved_of_map (result.symm.trans ok)
    have again := saveTemplate_again saved
    rw [← tree] at again
    rw [harvests, again] at tree' result'
    refine ⟨tree', output'.trans output.symm, ?_⟩
    rw [result', ← ok, result, saved]

end Plan

section
variable {t : Tree} {options : Options} {config : Config}

/-- A run finds in two trees the same configuration and makes the same plan, whose files read the
same. -/
structure PlannedAlike (t t' : Tree) (options : Options) (config : Config)
    (date : Option Timestamp) : Prop where
  findConfig?_eq : findConfig? t' options.root = findConfig? t options.root
  loadConfig_eq : loadConfig t' options.root = loadConfig t options.root
  planWith_eq : options.planWith t' config date = options.planWith t config date
  readFiles_eq : (options.planWith t config date).readFiles t' =
    (options.planWith t config date).readFiles t

theorem PlannedAlike.refl (t : Tree) (options : Options) (config : Config)
    (date : Option Timestamp) : PlannedAlike t t options config date :=
  ⟨rfl, rfl, rfl, rfl⟩

/-- Once a template is saved, all is planned as before. -/
theorem plannedAlike_saveTemplate (wf : t.WellFormed) (there : t.pathExists options.root = true)
    (apart : KeepsApart options config) (below : StaysBelow t options config) {document : String}
    (saved : (saveTemplate t (options.target config) document).2 = .ok ())
    (date : Option Timestamp) :
    PlannedAlike t (saveTemplate t (options.target config) document).1 options config date := by
  obtain ⟨file, found, g⟩ := grows_saveTemplate wf apart.target_noUp saved
  obtain rfl : file = Path.placeOf t.home (options.target config).components := by
    rw [(Tree.locate_eq_ok (Tree.find_eq_ok.1 found).1).2.2, g.home_eq]
  have none := wf.isNoSource apart.target_noUp apart.target_noSource g.before
  have unmarked := wf.isUnmarked apart.target_noUp apart.target_unmarked
  have contained : Contained t (saveTemplate t (options.target config) document).1 options.root
      config.includes :=
    ⟨apart.root_noUp, apart.includes_noUp,
      below.imp_right fun parent _ => directories_saveTemplate parent⟩
  exact ⟨findConfig?_grown g unmarked apart.root_noUp, loadConfig_grown g unmarked apart.root_noUp,
    planWith_grown g none contained there date, readFiles_grown g none date⟩

/-- Once a plan is performed, all is planned as before. -/
theorem plannedAlike_perform (wf : t.WellFormed) (there : t.pathExists options.root = true)
    (apart : KeepsApart options config) (below : StaysBelow t options config)
    {date : Option Timestamp} {now : Timestamp} {report : Report}
    (ok : ((options.planWith t config date).perform t now).result = .ok report) :
    PlannedAlike t ((options.planWith t config date).perform t now).tree options config date := by
  rcases (options.planWith t config date).perform_cases t now with ⟨-, stays, -⟩ |
    ⟨path, somewhere, -⟩
  · rw [stays]
    exact .refl t options config date
  · obtain ⟨-, rfl⟩ := Options.eq_target somewhere
    obtain ⟨tree, -, result⟩ := Plan.perform_of_destination somewhere t now
    rw [tree]
    exact plannedAlike_saveTemplate wf there apart below
      (Plan.saved_of_map (result.symm.trans ok)) date

end

section
variable {t : Tree} {options : Options} {dateSetting : Option String} {loaded : Option Config}
  {date : Timestamp}

/-- **A run with a set date, made again, changes nothing.** No path leads up, the template is no
source file and lies in nothing that decides the search for a configuration. If a first run
succeeds, then a second one on what it leaves finds the same configuration in the same place and
makes the same plan, files included. All is left as it is, the template at its destination with it,
and the result and the output are the same, whatever the time is. -/
theorem extract_again (wf : t.WellFormed) (pinned : Epoch.read dateSetting = .ok (some date))
    (there : t.pathExists options.root = true)
    (loads : loadConfig t options.root = .ok loaded)
    (apart : KeepsApart options (options.applyTo (loaded.getD {})))
    (below : StaysBelow t options (options.applyTo (loaded.getD {}))) {now : Timestamp}
    {report : Report}
    (ok : ((Command.extract options).perform t now dateSetting).result = .ok report)
    (now' : Timestamp) :
    let done := (Command.extract options).perform t now dateSetting
    let again := (Command.extract options).perform done.tree now' dateSetting
    findConfig? done.tree options.root = findConfig? t options.root ∧
      loadConfig done.tree options.root = loadConfig t options.root ∧
      (∃ p, (plan t options dateSetting).2 = .ok p ∧
        (plan done.tree options dateSetting).2 = .ok p ∧
        ∀ path, p.destination = some path →
          done.tree.read path = .ok (p.template now (p.harvest t))) ∧
      again.tree = done.tree ∧ again.output = done.output ∧ again.result = .ok report := by
  intro done again
  cases planned : (plan t options dateSetting).2 with
  | error e =>
    rw [Command.perform, (performExtract_of_error planned).2.2] at ok
    cases ok
  | ok p =>
    obtain ⟨loaded', date', loads', checks, dates, rfl⟩ := plan_eq_ok.1 planned
    obtain rfl := Except.ok.inj (loads.symm.trans loads')
    obtain rfl := Except.ok.inj (pinned.symm.trans dates)
    obtain ⟨tree, output, result⟩ := performExtract_of_ok planned now
    have performed := result.symm.trans ok
    have alike := plannedAlike_perform wf there apart below performed
    obtain ⟨stays, writes, reports⟩ := Plan.perform_again rfl performed alike.readFiles_eq now'
    -- The tree that is left is that of the plan: from here on both runs are runs of one plan.
    have left : done.tree = _ := tree
    rw [← left] at alike stays writes reports
    have planned' := plan_eq_ok.2
      ⟨loaded, some date, alike.loadConfig_eq.trans loads, checks, pinned, alike.planWith_eq.symm⟩
    obtain ⟨tree', output', result'⟩ := performExtract_of_ok planned' now'
    refine ⟨alike.findConfig?_eq, alike.loadConfig_eq,
      ⟨_, rfl, planned', fun path somewhere => ?_⟩, ?_, ?_, ?_⟩
    · rw [left]
      exact Plan.read_destination somewhere performed
    · exact tree'.trans stays
    · exact output'.trans (writes.trans output.symm)
    · exact result'.trans reports

end

/-- A project with one page. -/
def pageTree : Tree :=
  { nodes := [(["a.php"], .text "<?php __('A');")] }

/-- The template is new inside of what is searched, and so is its directory. -/
theorem extract_again_pageTree :
    let options : Options := { destFile := some ⟨"lang/x.pot"⟩ }
    let done := (Command.extract options).perform pageTree ⟨0, .utc⟩ (some "0")
    pageTree.WellFormed ∧ Epoch.read (some "0") = .ok (some ⟨0, .utc⟩) ∧
      pageTree.pathExists options.root = true ∧ loadConfig pageTree options.root = .ok none ∧
      KeepsApart options {} ∧ StaysBelow pageTree options {} ∧
      (∃ report, done.result = .ok report) ∧
      ((Command.extract options).perform done.tree ⟨1, .utc⟩ (some "0")).tree = done.tree := by
  intro options done
  have wf : pageTree.WellFormed := by decide
  have pinned : Epoch.read (some "0") = .ok (some ⟨0, .utc⟩) :=
    eq_ok_of_toOption (by decide +kernel)
  have there : pageTree.pathExists options.root = true := by
    change pageTree.pathExists ⟨"."⟩ = true
    decide
  have loads : loadConfig pageTree options.root = .ok none := eq_ok_of_toOption (by decide +kernel)
  have checks : ({} : Config).check = .ok () := eq_ok_of_toOption (by decide +kernel)
  have apart : KeepsApart options {} :=
    ⟨by decide, by decide, by decide, by decide, by decide⟩
  have below : StaysBelow pageTree options {} := by
    refine .inl fun text mem wild => ?_
    rw [List.mem_singleton.1 mem] at wild
    cases wild
  have saves (document : String) : (saveTemplate pageTree ⟨"lang/x.pot"⟩ document).2 = .ok () := by
    rfl
  have planned := (@plan_eq_ok pageTree options (some "0") _).2
    ⟨none, some ⟨0, .utc⟩, loads, checks, pinned, rfl⟩
  obtain ⟨-, report, -, ok⟩ := exists_saved planned rfl saves ⟨0, .utc⟩
  exact ⟨wf, pinned, there, loads, apart, below, ⟨report, ok⟩,
    (extract_again wf pinned there loads apart below ok ⟨1, .utc⟩).2.2.2.1⟩

/-- A project whose include leads up from a directory that only its template makes. -/
def dotsTree : Tree :=
  { nodes := [(["a.php"], .text "<?php __('A');"), ([".wppotrc.json"],
      .text "\x7b\"includes\":[\"n*/.*\"],\"destFile\":\"new/x.pot\"\x7d")] }

/-- The same project with its template. -/
def dotsTreeWith (document : String) : Tree :=
  { nodes := dotsTree.nodes ++ [(["new"], .directory), (["new", "x.pot"], .text document)] }

theorem wellFormed_dotsTree : dotsTree.WellFormed := by
  decide

theorem saveTemplate_dotsTree (document : String) :
    saveTemplate dotsTree ⟨"./new/x.pot"⟩ document = (dotsTreeWith document, .ok ()) := by
  rfl

theorem grows_dotsTree (document : String) :
    Tree.Grows dotsTree (dotsTreeWith document) ["new", "x.pot"] := by
  have saved := saveTemplate_dotsTree document
  obtain ⟨file, found, g⟩ := grows_saveTemplate wellFormed_dotsTree
    (show .up ∉ (Path.mk "./new/x.pot").components by decide) (congrArg Prod.snd saved)
  rw [saved] at found g
  cases found
  exact g

theorem isDirectory_here {u : Tree} (wf : u.WellFormed) : u.isDirectory ⟨"."⟩ = true :=
  Tree.isDirectory_iff.2 ⟨_, wf.find_of_isHere ⟨by decide⟩ (by decide)⟩

theorem expand_dots {u : Tree} (wf : u.WellFormed) : u.expand ⟨"./n*/.*"⟩ =
    .ok (u.expandFrom ⟨"."⟩ [⟨[.char 'n', .anySequence]⟩, ⟨[.char '.', .anySequence]⟩]) := by
  have whole : Pattern.compile? "./n*/.*" = .ok ⟨[.char '.', .char '/', .char 'n', .anySequence,
      .char '/', .char '.', .anySequence]⟩ := by
    decide +kernel
  have dot : Pattern.compile? "." = .ok ⟨[.char '.']⟩ := by decide +kernel
  have new : Pattern.compile? "n*" = .ok ⟨[.char 'n', .anySequence]⟩ := by decide +kernel
  have dots : Pattern.compile? ".*" = .ok ⟨[.char '.', .anySequence]⟩ := by decide +kernel
  have each : [".", "n*", ".*"].mapM Pattern.compile? =
      .ok [⟨[.char '.']⟩, ⟨[.char 'n', .anySequence]⟩, ⟨[.char '.', .anySequence]⟩] := by
    rw [List.mapM_cons, List.mapM_cons, List.mapM_cons, dot, new, dots]
    rfl
  have here : u.hasNext ⟨"."⟩ "." = true := by
    rw [Tree.hasNext, if_pos (.inl rfl), isDirectory_here wf]
  have literal : Pattern.literal? ⟨[.char '.']⟩ = some "." := rfl
  rw [Tree.expand, whole, show Tree.globPieces ⟨"./n*/.*"⟩ = [".", "n*", ".*"] by decide, each,
    show Tree.globStart ⟨"./n*/.*"⟩ = ⟨"."⟩ by decide]
  refine congrArg Except.ok ?_
  rw [Tree.expandFrom_literal literal, if_pos here]
  rfl

theorem files_dotsTree (ignores : List String) :
    (scan dotsTree ⟨"."⟩ ["n*/.*"] ignores).files = [] := by
  have nothing : dotsTree.expandFrom ⟨"."⟩
      [⟨[.char 'n', .anySequence]⟩, ⟨[.char '.', .anySequence]⟩] = [] := by
    rw [Tree.expandFrom_names rfl (by decide), if_pos (isDirectory_here wellFormed_dotsTree),
      List.flatMap_eq_nil_iff]
    intro q hq
    rcases List.mem_append.1 hq with dotted | named
    · obtain ⟨dot, mem, -⟩ := List.mem_map.1 dotted
      cases mem
    · obtain ⟨met, accepted⟩ := List.mem_filter.1 named
      obtain ⟨names, mem, rfl⟩ := List.mem_map.1 met
      obtain ⟨place, node, found, ne, there⟩ :=
        wellFormed_dotsTree.mem_namesBelow_iff.1 (List.mem_filter.1 mem).1
      cases found
      have listed := (wellFormed_dotsTree.node?_eq_some_iff ne).1 there
      simp only [dotsTree, List.mem_cons, Prod.mk.injEq, List.not_mem_nil, or_false] at listed
      rcases listed with ⟨rfl, -⟩ | ⟨rfl, -⟩ <;> exact absurd accepted (by decide)
  rw [List.eq_nil_iff_forall_not_mem]
  intro f hf
  obtain ⟨start, hstart, -⟩ := (wellFormed_dotsTree.mem_files_iff _ _ _).1 f hf
  rcases mem_searchPaths.1 hstart with ⟨none, -⟩ | ⟨text, mem, hstart⟩
  · cases none
  · rw [List.mem_singleton.1 mem] at hstart
    obtain ⟨paths, expanded, met, -⟩ := (mem_includedPaths_wild (by decide)).1 hstart
    rw [show (Path.mk ".").join ⟨"n*/.*"⟩ = ⟨"./n*/.*"⟩ by decide,
      expand_dots wellFormed_dotsTree, nothing] at expanded
    cases expanded
    cases met

theorem exists_mem_files_dotsTreeWith (document : String) :
    ∃ f ∈ (scan (dotsTreeWith document) ⟨"."⟩ ["n*/.*"]
        ["**/vendor/**", "**/node_modules/**"]).files,
      f.components = [.name "new", .up, .name "a.php"] := by
  have wf := (grows_dotsTree document).wf'
  have inside : ["new"] ∈ (dotsTreeWith document).namesBelow ⟨"."⟩ :=
    wf.mem_namesBelow_iff.2 ⟨[], .directory, rfl, by decide, rfl⟩
  have met : ⟨"new/.."⟩ ∈ (dotsTreeWith document).expandFrom ⟨"."⟩
      [⟨[.char 'n', .anySequence]⟩, ⟨[.char '.', .anySequence]⟩] := by
    rw [Tree.expandFrom_names rfl (by decide), if_pos (isDirectory_here wf)]
    refine List.mem_flatMap.2 ⟨⟨"new"⟩, List.mem_append_right _ (List.mem_filter.2 ⟨?_, ?_⟩), ?_⟩
    · exact List.mem_map.2 ⟨["new"], List.mem_filter.2 ⟨inside, rfl⟩, rfl⟩
    · decide
    · rw [Tree.expandFrom_names rfl (by decide),
        if_pos (show (dotsTreeWith document).isDirectory ⟨"new"⟩ = true from rfl)]
      refine List.mem_flatMap.2 ⟨⟨"new/.."⟩, List.mem_append_left _ ?_, ?_⟩
      · decide
      · simp [Tree.expandFrom]
  have start : ⟨"new/.."⟩ ∈ (searchPaths (dotsTreeWith document) ⟨"."⟩ ["n*/.*"]).1 := by
    refine mem_searchPaths.2 (.inr ⟨"n*/.*", List.mem_cons_self, ?_⟩)
    exact (mem_includedPaths_wild (by decide)).2 ⟨_, expand_dots wf, met, rfl⟩
  have source : IsSourceBelow (dotsTreeWith document) ⟨"new/.."⟩ ⟨"new/../a.php"⟩ :=
    ⟨⟨[], ["a.php"], _, rfl, by decide, rfl, by decide⟩, by decide⟩
  exact (wf.mem_files_iff _ _ _).2 _ start _ source (isSpared_default (by decide))

/-- What its configuration file says. -/
def dotsConfig : Config :=
  { includes := ["n*/.*"], destFile := "new/x.pot" }

/-- The first run finds no file and makes a directory. The second finds a file by way of it. -/
theorem extract_again_dotsTree :
    let done := (Command.extract {}).perform dotsTree ⟨1700000000, .utc⟩ (some "1700000000")
    dotsTree.WellFormed ∧ Epoch.read (some "1700000000") = .ok (some ⟨1700000000, .utc⟩) ∧
      dotsTree.pathExists ⟨"."⟩ = true ∧ loadConfig dotsTree ⟨"."⟩ = .ok (some dotsConfig) ∧
      KeepsApart {} dotsConfig ∧ (∃ report, done.result = .ok report) ∧
      ∃ p again, (plan dotsTree {} (some "1700000000")).2 = .ok p ∧
        (plan done.tree {} (some "1700000000")).2 = .ok again ∧
        p.files = [] ∧ again.files ≠ [] := by
  intro done
  have pinned : Epoch.read (some "1700000000") = .ok (some ⟨1700000000, .utc⟩) :=
    eq_ok_of_toOption (by decide +kernel)
  have loads : loadConfig dotsTree ⟨"."⟩ = .ok (some dotsConfig) :=
    eq_ok_of_toOption (by decide +kernel)
  have checks : dotsConfig.check = .ok () := eq_ok_of_toOption (by decide +kernel)
  have applied : ({} : Options).applyTo ((some dotsConfig).getD {}) = dotsConfig := by decide
  have target : ({} : Options).target dotsConfig = ⟨"./new/x.pot"⟩ := by decide
  have saves (document : String) :
      saveTemplate dotsTree (({} : Options).target dotsConfig) document =
        (dotsTreeWith document, .ok ()) := by
    rw [target, saveTemplate_dotsTree]
  have plans {u : Tree} (h : loadConfig u ⟨"."⟩ = .ok (some dotsConfig)) :
      (plan u {} (some "1700000000")).2 =
        .ok (({} : Options).planWith u dotsConfig (some ⟨1700000000, .utc⟩)) :=
    plan_eq_ok.2 ⟨some dotsConfig, _, h, by rw [applied, checks], pinned, by rw [applied]⟩
  obtain ⟨document, report, tree, ok⟩ :=
    exists_saved (plans loads) rfl (fun document => congrArg Prod.snd (saves document))
      ⟨1700000000, .utc⟩
  have left : done.tree = dotsTreeWith document := tree.trans (congrArg Prod.fst (saves document))
  have unmarked : IsUnmarked dotsTree ["new", "x.pot"] :=
    wellFormed_dotsTree.isUnmarked (p := ⟨"./new/x.pot"⟩) (by decide) (by decide)
  have loads' : loadConfig (dotsTreeWith document) ⟨"."⟩ = .ok (some dotsConfig) :=
    (loadConfig_grown (grows_dotsTree document) unmarked (by decide)).trans loads
  obtain ⟨f, hf, -⟩ := exists_mem_files_dotsTreeWith document
  have apart : KeepsApart {} dotsConfig := ⟨by decide, by decide, by decide, by decide, by decide⟩
  refine ⟨wellFormed_dotsTree, pinned, by decide, loads, apart, ⟨report, ok⟩, _, _, plans loads,
    left ▸ plans loads', ?_, ?_⟩
  · exact files_dotsTree dotsConfig.ignores
  · rw [left]
    exact List.ne_nil_of_mem hf

end PotExtract
