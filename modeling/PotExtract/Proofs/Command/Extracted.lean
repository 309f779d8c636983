import PotExtract.Proofs.Command.Planned
import PotExtract.Proofs.Files.Writing
import PotExtract.Proofs.Template.HeaderNames

/-!
# What an extraction leaves

A run that is refused leaves everything as it was. Any other run has one
document, which goes to standard output or to one file.

* `performExtract_of_ok`, `performExtract_of_error`: a run performs its plan, if it has one;
* `Plan.perform_cases`: what a planned run leaves;
* `performExtract_stdout`, `performExtract_file`: with either kind of destination;
* `extract_refused_or_delivered`: what is on the disk and on the terminal after any run.
-/

namespace PotExtract

section
variable {t : Tree} {options : Options} {dateSetting : Option String} {now : Timestamp}

/-- The file that the template of a run goes to. -/
def Options.target (options : Options) (config : Config) : Path :=
  options.destFile.getD (options.root.join ⟨config.destFile⟩)

theorem Options.destination_eq_none_iff {config : Config} :
    options.destination config = none ↔ options.stdout = true := by
  unfold destination
  split_ifs with std <;> simp [std]

theorem Options.eq_target {config : Config} {path : Path}
    (h : options.destination config = some path) :
    options.stdout = false ∧ path = options.target config := by
  unfold destination at h
  split_ifs at h with std
  exact ⟨Bool.eq_false_iff.2 std, (Option.some.inj h).symm⟩

theorem performExtract_of_error {e : PlanError}
    (h : (plan t options dateSetting).2 = .error e) :
    (performExtract t now dateSetting options).tree = t ∧
      (performExtract t now dateSetting options).output = "" ∧
      (performExtract t now dateSetting options).result = .error (.plan e) := by
  unfold performExtract
  cases planned : plan t options dateSetting with
  | mk events result =>
    rw [planned] at h
    obtain rfl : result = .error e := h
    exact ⟨rfl, rfl, rfl⟩

theorem performExtract_of_ok {p : Plan} (h : (plan t options dateSetting).2 = .ok p)
    (now : Timestamp) :
    (performExtract t now dateSetting options).tree = (p.perform t now).tree ∧
      (performExtract t now dateSetting options).output = (p.perform t now).output ∧
      (performExtract t now dateSetting options).result = (p.perform t now).result := by
  unfold performExtract
  cases planned : plan t options dateSetting with
  | mk events result =>
    rw [planned] at h
    obtain rfl : result = .ok p := h
    exact ⟨rfl, rfl, rfl⟩

end

/-- A plan with a destination saves its template there. -/
theorem Plan.perform_of_destination {p : Plan} {path : Path} (h : p.destination = some path)
    (t : Tree) (now : Timestamp) :
    let saved := saveTemplate t path (p.template now (p.harvest t))
    (p.perform t now).tree = saved.1 ∧ (p.perform t now).output = "" ∧
      (p.perform t now).result = saved.2.map fun _ => .extracted p (p.harvest t) := by
  unfold Plan.perform
  rw [h]
  exact ⟨rfl, rfl, rfl⟩

/-- What a planned run leaves. Without a destination its output is the template. With one, the
template is there, or it could not be saved. -/
theorem Plan.perform_cases (p : Plan) (t : Tree) (now : Timestamp) :
    (p.destination = none ∧ (p.perform t now).tree = t ∧
      (p.perform t now).output = p.template now (p.harvest t) ∧
      (p.perform t now).result = .ok (.extracted p (p.harvest t))) ∨
    ∃ path, p.destination = some path ∧ (p.perform t now).output = "" ∧
      ((p.perform t now).result = .ok (.extracted p (p.harvest t)) ∧
          Delivered t (p.perform t now).tree path (p.template now (p.harvest t)) ∨
        ∃ e, (p.perform t now).result = .error e ∧
          Tree.Adds t (p.perform t now).tree path.around) := by
  unfold Plan.perform
  cases destination : p.destination with
  | none => exact .inl ⟨rfl, rfl, rfl, rfl⟩
  | some path =>
    refine .inr ⟨path, rfl, rfl, ?_⟩
    obtain ⟨t₁, makes, ⟨-, written, saved⟩ | ⟨e, stays, failed⟩⟩ :=
      saveTemplate_cases t path (p.template now (p.harvest t))
    · exact .inl ⟨congrArg (Except.map _) saved, delivered_write makes.adds written⟩
    · refine .inr ⟨e, congrArg (Except.map _) failed, ?_⟩
      rw [← stays] at makes
      exact makes.adds

namespace Performance

variable (done : Performance) (colors verbose : Bool) (threshold : Option Level)

theorem ending_of_error {e : CommandError} (h : done.result = .error e) :
    (done.ending colors verbose threshold).exitCode = 2 ∧
      (done.ending colors verbose threshold).stdout = done.output := by
  rw [ending, h]
  exact ⟨rfl, rfl⟩

theorem exitCode_of_ok {report : Report} (h : done.result = .ok report) :
    (done.ending colors verbose threshold).exitCode = if report.failed then 1 else 0 := by
  rw [ending, h]
  dsimp only
  split_ifs <;> rfl

theorem exitCode_of_extracted {p : Plan} {t : Tree}
    (h : done.result = .ok (.extracted p (p.harvest t))) :
    (p.IsComplete t ∧ (done.ending colors verbose threshold).exitCode = 0) ∨
      (¬ p.IsComplete t ∧ (done.ending colors verbose threshold).exitCode = 1) := by
  rw [exitCode_of_ok done colors verbose threshold h, ← Plan.failed_eq_false_iff]
  cases (Report.extracted p (p.harvest t)).failed <;> simp

theorem stdout_of_ok {report : Report} (h : done.result = .ok report)
    (shares : report.sharesOutput = true) :
    (done.ending colors verbose threshold).stdout = done.output := by
  rw [ending, h]
  simp [shares]

end Performance

/-! ## Runs with a plan -/

section
variable {t : Tree} {options : Options} {dateSetting : Option String} {now : Timestamp} {p : Plan}

theorem destination_of_plan (planned : (plan t options dateSetting).2 = .ok p) :
    p.destination = options.destination p.config := by
  obtain ⟨loaded, date, -, -, -, rfl⟩ := plan_eq_ok.1 planned
  rfl

/-- A planned run that succeeds reports what it has found. -/
theorem Plan.eq_extracted {report : Report} (ok : (p.perform t now).result = .ok report) :
    report = .extracted p (p.harvest t) := by
  rcases p.perform_cases t now with ⟨-, -, -, succeeds⟩ |
    ⟨path, -, -, ⟨succeeds, -⟩ | ⟨e, fails, -⟩⟩
  · exact Except.ok.inj (ok.symm.trans succeeds)
  · exact Except.ok.inj (ok.symm.trans succeeds)
  · rw [ok] at fails
    cases fails

variable (planned : (plan t options dateSetting).2 = .ok p) (colors verbose : Bool)
  (threshold : Option Level)
include planned

theorem exitCode_of_plan {report : Report}
    (ok : (performExtract t now dateSetting options).result = .ok report) :
    (p.IsComplete t ∧ ((performExtract t now dateSetting options).ending
        colors verbose threshold).exitCode = 0) ∨
      (¬ p.IsComplete t ∧ ((performExtract t now dateSetting options).ending
        colors verbose threshold).exitCode = 1) := by
  obtain ⟨-, -, result⟩ := performExtract_of_ok planned now
  obtain rfl := Plan.eq_extracted (result.symm.trans ok)
  exact Performance.exitCode_of_extracted _ colors verbose threshold ok

/-- A planned run whose template can be saved succeeds, and saves it. -/
theorem exists_saved (file : options.stdout = false)
    (saves : ∀ document, (saveTemplate t (options.target p.config) document).2 = .ok ())
    (now : Timestamp) :
    ∃ document report,
      (performExtract t now dateSetting options).tree =
        (saveTemplate t (options.target p.config) document).1 ∧
      (performExtract t now dateSetting options).result = .ok report := by
  have somewhere : p.destination = some (options.target p.config) := by
    rw [destination_of_plan planned, Options.destination, file]
    rfl
  obtain ⟨tree, -, result⟩ := performExtract_of_ok planned now
  obtain ⟨tree', -, result'⟩ := Plan.perform_of_destination somewhere t now
  exact ⟨_, _, tree.trans tree', result.trans (by rw [result', saves]; rfl)⟩

/-- With the template on standard output, a planned run succeeds. It writes the template there and
nothing on the disk. -/
theorem performExtract_stdout (std : options.stdout = true) :
    (performExtract t now dateSetting options).tree = t ∧
      ((performExtract t now dateSetting options).ending colors verbose threshold).stdout =
        p.template now (p.harvest t) ∧
      ∃ report, (performExtract t now dateSetting options).result = .ok report := by
  have nowhere : p.destination = none :=
    (destination_of_plan planned).trans (Options.destination_eq_none_iff.2 std)
  obtain ⟨tree, output, result⟩ := performExtract_of_ok planned now
  rcases p.perform_cases t now with ⟨-, keeps, writes, succeeds⟩ | ⟨path, somewhere, -⟩
  · have ok := result.trans succeeds
    have shares : (Report.extracted p (p.harvest t)).sharesOutput = true := by
      rw [Report.sharesOutput, nowhere]
      rfl
    refine ⟨tree.trans keeps, ?_, _, ok⟩
    rw [Performance.stdout_of_ok _ colors verbose threshold ok shares, output, writes]
  · rw [nowhere] at somewhere
    cases somewhere

/-- With a file for the template, a planned run delivers it there, or it stops and has added
directories at most. -/
theorem performExtract_file (file : options.stdout = false) :
    (∀ report, (performExtract t now dateSetting options).result = .ok report →
      Delivered t (performExtract t now dateSetting options).tree (options.target p.config)
        (p.template now (p.harvest t))) ∧
    ∀ e, (performExtract t now dateSetting options).result = .error e →
      ((performExtract t now dateSetting options).ending colors verbose threshold).exitCode = 2 ∧
        Tree.Adds t (performExtract t now dateSetting options).tree
          (options.target p.config).around := by
  have known := destination_of_plan planned
  obtain ⟨tree, -, result⟩ := performExtract_of_ok planned now
  rw [tree]
  rcases p.perform_cases t now with ⟨nowhere, -⟩ | ⟨path, somewhere, -, outcome⟩
  · rw [known, Options.destination_eq_none_iff, file] at nowhere
    cases nowhere
  · obtain ⟨-, rfl⟩ := Options.eq_target (known.symm.trans somewhere)
    refine ⟨fun report ok => ?_, fun e fails => ⟨?_, ?_⟩⟩
    · rcases outcome with ⟨-, delivered⟩ | ⟨e, fails, -⟩
      · exact delivered
      · rw [result, fails] at ok
        cases ok
    · exact (Performance.ending_of_error _ colors verbose threshold fails).1
    · rcases outcome with ⟨succeeds, -⟩ | ⟨e, -, adds⟩
      · rw [result, succeeds] at fails
        cases fails
      · exact adds

end

/-- **A run that is refused touches nothing, and any other run delivers its document.** If the
configuration file cannot be used, the settings are not in order or the date is none, everything
on the disk is as it was, the exit code is 2 and nothing is written to standard output. Otherwise
there is a plan. With the template on standard output, the disk is as it was and the output is the
document. Else, if the run succeeds, the document is in its file and all else is as it was, apart
from directories that were missing around the file; if it does not, the exit code is 2 and nothing
but such directories is added. The exit code of a run that succeeds is 0 if there is something to
translate and all files could be read, and 1 otherwise. -/
theorem extract_refused_or_delivered (t : Tree) (now : Timestamp) (dateSetting : Option String)
    (options : Options) (colors verbose : Bool) (threshold : Option Level) :
    let done := (Command.extract options).perform t now dateSetting
    let ending := done.ending colors verbose threshold
    (Refused t options dateSetting →
      done.tree = t ∧ ending.exitCode = 2 ∧ ending.stdout = "") ∧
    (¬ Refused t options dateSetting → ∃ loaded date,
      loadConfig t options.root = .ok loaded ∧ Epoch.read dateSetting = .ok date ∧
      let config := options.applyTo (loaded.getD {})
      let p := options.planWith t config date
      let document := Template.render config.header (date.getD now) (p.harvest t).collection.catalog
      (options.stdout = true →
        done.tree = t ∧ ending.stdout = document ∧ ∃ report, done.result = .ok report) ∧
      (options.stdout = false →
        (∀ report, done.result = .ok report →
          Delivered t done.tree (options.target config) document) ∧
        ∀ e, done.result = .error e →
          ending.exitCode = 2 ∧ Tree.Adds t done.tree (options.target config).around) ∧
      ∀ report, done.result = .ok report →
        (p.IsComplete t ∧ ending.exitCode = 0) ∨ (¬ p.IsComplete t ∧ ending.exitCode = 1)) := by
  intro done ending
  rcases exists_plan_or_refused t options dateSetting with ⟨p, planned, fine⟩ | ⟨e, failed, refused⟩
  · refine ⟨fun refused => absurd refused fine, fun _ => ?_⟩
    obtain ⟨loaded, date, loads, -, dates, rfl⟩ := plan_eq_ok.1 planned
    exact ⟨loaded, date, loads, dates, performExtract_stdout planned colors verbose threshold,
      performExtract_file planned colors verbose threshold,
      fun _ => exitCode_of_plan planned colors verbose threshold⟩
  · refine ⟨fun _ => ?_, fun fine => absurd refused fine⟩
    obtain ⟨tree, output, result⟩ := performExtract_of_error failed
    obtain ⟨code, stdout⟩ := done.ending_of_error colors verbose threshold result
    exact ⟨tree, code, stdout.trans output⟩

/-- A directory has the name of a configuration file. A project beside it is the top of a
repository. -/
def blockedTree : Tree :=
  { nodes := [([configName], .directory), (["site"], .directory),
      (["site", repositoryMark], .directory), (["site", "a.php"], .text "<?php __('A');")] }

/-- The directory cannot be read, and no default takes its place. The project has the defaults, and
a run there delivers its template, whose directory is new. -/
theorem extract_refused_or_delivered_blockedTree :
    let options : Options := { sourceRoot := some ⟨"/site"⟩, destFile := some ⟨"lang/x.pot"⟩ }
    let blocked := (Command.extract {}).perform blockedTree ⟨0, .utc⟩ none
    let done := (Command.extract options).perform blockedTree ⟨0, .utc⟩ none
    (Refused blockedTree {} none ∧ blocked.tree = blockedTree ∧
      (blocked.ending false false none).exitCode = 2 ∧
      (blocked.ending false false none).stdout = "") ∧
    ¬ Refused blockedTree options none ∧
      ∃ document report, done.result = .ok report ∧
        Delivered blockedTree done.tree ⟨"lang/x.pot"⟩ document := by
  intro options blocked done
  have found : findConfig? blockedTree ⟨"."⟩ = some ⟨"./.wppotrc.json"⟩ := by decide +kernel
  have refused : Refused blockedTree {} none := .unusable (.unreadable found rfl)
  have loads : loadConfig blockedTree ⟨"/site"⟩ = .ok none := eq_ok_of_toOption (by decide +kernel)
  have checks : ({} : Config).check = .ok () := eq_ok_of_toOption (by decide +kernel)
  have planned := (@plan_eq_ok blockedTree options none _).2 ⟨none, none, loads, checks, rfl, rfl⟩
  have fine : ¬ Refused blockedTree options none := by
    rcases exists_plan_or_refused blockedTree options none with ⟨-, -, fine⟩ | ⟨e, failed, -⟩
    · exact fine
    · rw [planned] at failed
      cases failed
  have saves (document : String) :
      (saveTemplate blockedTree ⟨"lang/x.pot"⟩ document).2 = .ok () := by
    rfl
  obtain ⟨-, report, -, ok⟩ := exists_saved planned rfl saves ⟨0, .utc⟩
  obtain ⟨loaded, date, loads', -, -, delivers, -⟩ :=
    (extract_refused_or_delivered blockedTree ⟨0, .utc⟩ none options false false none).2 fine
  exact ⟨⟨refused,
      (extract_refused_or_delivered blockedTree ⟨0, .utc⟩ none {} false false none).1 refused⟩,
    fine, _, report, ok, (delivers rfl).1 report ok⟩

end PotExtract
