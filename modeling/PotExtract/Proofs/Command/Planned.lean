import PotExtract.Proofs.Catalog.Balance
import PotExtract.Proofs.Config.Nearest
import PotExtract.Report

/-!
# Runs that are refused and runs that are planned

Everything that can be wrong with what a run is given is found before the
first source file is read.

* `Refused`: the faults of a run;
* `plan_eq_ok`: the plan of a run that has none;
* `exists_plan_or_refused`: every run has a plan or a fault, and not both;
* `Plan.IsComplete`: a planned run finds entries and can read all of its files.
-/

namespace PotExtract

/-! ## Faults -/

/-- A fault of a run: its configuration file cannot be used, its settings are not in order once
they are put together, or its date is no date. -/
inductive Refused (t : Tree) (options : Options) (dateSetting : Option String) : Prop where
  | unusable {e : LoadError} (unusable : Unusable t options.root e)
  | unchecked {loaded : Option Config} {e : ConfigError}
      (loads : loadConfig t options.root = .ok loaded)
      (fails : (options.applyTo (loaded.getD {})).check = .error e)
  | date {e : Epoch.Error} (fails : Epoch.read dateSetting = .error e)

/-! ## Plans -/

/-- The plan of a run with these settings and this date. -/
def Options.planWith (options : Options) (t : Tree) (config : Config) (date : Option Timestamp) :
    Plan where
  config := config
  root := options.root
  files := (scan t options.root config.includes config.ignores).files
  skippedPaths := (scan t options.root config.includes config.ignores).skipped
  destination := options.destination config
  date := date

section
variable {t : Tree} {options : Options} {dateSetting : Option String}

theorem plan_eq_ok {p : Plan} :
    (plan t options dateSetting).2 = .ok p ↔
      ∃ loaded date, loadConfig t options.root = .ok loaded ∧
        (options.applyTo (loaded.getD {})).check = .ok () ∧
        Epoch.read dateSetting = .ok date ∧
        p = options.planWith t (options.applyTo (loaded.getD {})) date := by
  unfold plan
  cases loads : loadConfig t options.root with
  | error e => simp
  | ok loaded =>
    cases checks : (options.applyTo (loaded.getD {})).check with
    | error e => simp [checks]
    | ok u =>
      cases dates : Epoch.read dateSetting with
      | error e => simp [checks]
      | ok date =>
        simp only [checks, Except.ok.injEq, exists_and_left, exists_eq_left', true_and]
        exact ⟨fun h => h.symm, fun h => h.symm⟩

/-- A run has a plan or a fault, and not both. -/
theorem exists_plan_or_refused (t : Tree) (options : Options) (dateSetting : Option String) :
    (∃ p, (plan t options dateSetting).2 = .ok p ∧ ¬ Refused t options dateSetting) ∨
      ∃ e, (plan t options dateSetting).2 = .error e ∧ Refused t options dateSetting := by
  cases planned : (plan t options dateSetting).2 with
  | ok p =>
    refine .inl ⟨p, rfl, ?_⟩
    obtain ⟨loaded, date, loads, checks, dates, -⟩ := plan_eq_ok.1 planned
    rintro (unusable | ⟨loads', fails⟩ | fails)
    · rw [loadConfig_eq_error_iff.2 unusable] at loads
      cases loads
    · obtain rfl := Except.ok.inj (loads.symm.trans loads')
      rw [fails] at checks
      cases checks
    · rw [fails] at dates
      cases dates
  | error e =>
    refine .inr ⟨e, rfl, ?_⟩
    cases loads : loadConfig t options.root with
    | error cause => exact .unusable (loadConfig_eq_error_iff.1 loads)
    | ok loaded =>
      cases checks : (options.applyTo (loaded.getD {})).check with
      | error cause => exact .unchecked loads checks
      | ok u =>
        cases dates : Epoch.read dateSetting with
        | error cause => exact .date dates
        | ok date =>
          rw [plan_eq_ok.2 ⟨loaded, date, loads, checks, dates, rfl⟩] at planned
          cases planned

end

/-! ## Complete runs -/

namespace Plan

/-- A run finds something to translate and can read all of its files. -/
structure IsComplete (p : Plan) (t : Tree) : Prop where
  nonempty : (p.harvest t).entries ≠ #[]
  readable : ∀ file ∈ p.files, ∃ text, t.read file = .ok text

theorem readFailures_eq_nil_iff {p : Plan} {t : Tree} :
    (p.harvest t).readFailures = [] ↔ ∀ file ∈ p.files, ∃ text, t.read file = .ok text := by
  have known := Harvest.accounted_ofFiles p.config.filter (p.readFiles t)
  rw [Plan.harvest, known.readFailures_eq, p.filterMap_failure?_readFiles t, unreadable,
    List.filterMap_eq_nil_iff]
  apply forall₂_congr
  intro file _
  cases t.read file <;> simp

/-- A command fails if its run is not complete. -/
theorem failed_eq_false_iff {p : Plan} {t : Tree} :
    (Report.extracted p (p.harvest t)).failed = false ↔ p.IsComplete t := by
  rw [Report.failed, Bool.or_eq_false_iff, Bool.not_eq_false', List.isEmpty_iff,
    readFailures_eq_nil_iff, ← Bool.not_eq_true, Array.isEmpty_iff]
  exact ⟨fun h => ⟨h.2, h.1⟩, fun h => ⟨h.readable, h.nonempty⟩⟩

end Plan

end PotExtract
