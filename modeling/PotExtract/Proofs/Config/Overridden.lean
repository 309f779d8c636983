import PotExtract.Proofs.Catalog.Grouping
import PotExtract.Proofs.Command.Planned
import PotExtract.Proofs.Config.Read
import Mathlib.Data.List.Induction

/-!
# A configuration with the settings of a run

What is given for a run takes the place of what the project sets. A custom
name of the project keeps its place, and a new one stands where it is first
given; the last value that is given counts.

* `merged`: the custom names and values of a project and of a run;
* `merged_concat_of_mem`, `merged_concat_of_not_mem`: one name more;
* `foldl_putMember`: names that are put in one after the other are merged;
* `merged_again`: what is given once more changes nothing;
* `hasDistinctNames_of_plan`: no plan has a custom name twice;
* `Overridden`: what a configuration has of a run and what of the project;
* `applyTo_overridden`: the settings of a run, given once or twice.
-/

namespace PotExtract

/-! ## Custom names -/

section
variable {α : Type} {own given : List (String × α)}

/-- The value that is given last for a name. -/
def lastValue? (given : List (String × α)) (name : String) : Option α :=
  given.reverse.lookup name

/-- The names that are given and not there, each where it first appears. -/
def newNames (own given : List (String × α)) : List String :=
  ((given.map Prod.fst).filter (· ∉ own.map Prod.fst)).eraseDups

/-- Names and values with others that are given: each name that is there has the last value given
for it, if there is one, and the new names follow, each with its last value. -/
def merged (own given : List (String × α)) : List (String × α) :=
  own.map (fun field => (field.1, (lastValue? given field.1).getD field.2)) ++
    (newNames own given).filterMap fun name => (lastValue? given name).map (name, ·)

theorem lastValue?_concat (given : List (String × α)) (field : String × α) (name : String) :
    lastValue? (given ++ [field]) name =
      if name = field.1 then some field.2 else lastValue? given name := by
  rw [lastValue?, List.reverse_concat, List.lookup_cons]
  split_ifs with h
  · rw [beq_iff_eq.2 h]
  · rw [beq_eq_false_iff_ne.2 h, lastValue?]

theorem lastValue?_append_self (given : List (String × α)) (name : String) :
    lastValue? (given ++ given) name = lastValue? given name := by
  rw [lastValue?, List.reverse_append, List.lookup_append, Option.or_self, lastValue?]

theorem exists_lastValue? {name : String} (h : name ∈ given.map Prod.fst) :
    ∃ value, lastValue? given name = some value := by
  obtain ⟨field, hfield, rfl⟩ := List.mem_map.1 h
  exact Option.isSome_iff_exists.1
    (List.lookup_isSome_iff.2 ⟨field, List.mem_reverse.2 hfield, beq_self_eq_true _⟩)

theorem mem_newNames {name : String} :
    name ∈ newNames own given ↔ name ∈ given.map Prod.fst ∧ name ∉ own.map Prod.fst := by
  rw [newNames, List.mem_eraseDups, List.mem_filter, decide_eq_true_iff]

theorem newNames_concat (own given : List (String × α)) (field : String × α) :
    newNames own (given ++ [field]) =
      if field.1 ∈ own.map Prod.fst ++ newNames own given then newNames own given
      else newNames own given ++ [field.1] := by
  by_cases there : field.1 ∈ own.map Prod.fst
  · have nothing : [field.1].filter (· ∉ own.map Prod.fst) = [] :=
      List.filter_cons_of_neg (by simpa using there)
    rw [if_pos (List.mem_append_left _ there), newNames, List.map_append, List.map_singleton,
      List.filter_append, nothing, List.append_nil, newNames]
  · have one : [field.1].filter (· ∉ own.map Prod.fst) = [field.1] :=
      List.filter_cons_of_pos (by simpa using there)
    have known : field.1 ∈ own.map Prod.fst ++ newNames own given ↔
        field.1 ∈ (given.map Prod.fst).filter (· ∉ own.map Prod.fst) := by
      rw [List.mem_append, newNames, List.mem_eraseDups, or_iff_right there]
    rw [if_congr known rfl rfl, newNames, List.map_append, List.map_singleton,
      List.filter_append, one, Catalog.eraseDups_concat, newNames]

theorem newNames_append_self (own given : List (String × α)) :
    newNames own (given ++ given) = newNames own given := by
  have again (names : List String) : names.removeAll names = [] := by
    simp [List.removeAll]
  rw [newNames, List.map_append, List.filter_append, List.eraseDups_append, again, newNames,
    List.eraseDups_nil, List.append_nil]

theorem map_fst_merged (own given : List (String × α)) :
    (merged own given).map Prod.fst = own.map Prod.fst ++ newNames own given := by
  have later : ∀ name ∈ newNames own given,
      ((lastValue? given name).map (name, ·)).map Prod.fst = some name := by
    intro name hname
    obtain ⟨value, hvalue⟩ := exists_lastValue? (mem_newNames.1 hname).1
    rw [hvalue]
    rfl
  rw [merged, List.map_append, List.map_map, List.map_filterMap, List.filterMap_congr later,
    List.filterMap_some]
  rfl

/-- A name that is there takes the value where it stands. -/
theorem merged_concat_of_mem {field : String × α}
    (h : field.1 ∈ own.map Prod.fst ++ newNames own given) :
    merged own (given ++ [field]) =
      (merged own given).map fun m => (m.1, if m.1 = field.1 then field.2 else m.2) := by
  rw [merged, merged, List.map_append, List.map_map, List.map_filterMap, newNames_concat, if_pos h]
  congr 1
  · apply List.map_congr_left
    intro old _
    rw [Function.comp_apply, lastValue?_concat]
    split_ifs <;> rfl
  · apply List.filterMap_congr
    intro name hname
    obtain ⟨value, hvalue⟩ := exists_lastValue? (mem_newNames.1 hname).1
    rw [lastValue?_concat, hvalue, Option.map_map]
    split_ifs with here <;> simp [here]

/-- A name that is not there comes last. -/
theorem merged_concat_of_not_mem {field : String × α}
    (h : field.1 ∉ own.map Prod.fst ++ newNames own given) :
    merged own (given ++ [field]) = merged own given ++ [field] := by
  have other {name : String} (hname : name ∈ own.map Prod.fst ++ newNames own given) :
      lastValue? (given ++ [field]) name = lastValue? given name := by
    rw [lastValue?_concat, if_neg]
    rintro rfl
    exact h hname
  have last : [field.1].filterMap (fun name => (lastValue? (given ++ [field]) name).map (name, ·)) =
      [field] := by
    rw [List.filterMap_cons, lastValue?_concat, if_pos rfl]
    rfl
  rw [merged, merged, newNames_concat, if_neg h, List.filterMap_append, last, ← List.append_assoc]
  congr 2
  · apply List.map_congr_left
    intro old hold
    rw [other (List.mem_append_left _ (List.mem_map_of_mem hold))]
  · apply List.filterMap_congr
    intro name hname
    rw [other (List.mem_append_right _ hname)]

theorem putMember_merged (distinct : ((merged own given).map Prod.fst).Nodup)
    (field : String × α) :
    putMember field.1 field.2 (merged own given) = merged own (given ++ [field]) := by
  have names := map_fst_merged own given
  by_cases h : field.1 ∈ (merged own given).map Prod.fst
  · rw [putMember_of_mem distinct h, merged_concat_of_mem (names ▸ h)]
  · rw [putMember_of_not_mem h, merged_concat_of_not_mem (names ▸ h)]

/-- Names and values that are put in one after the other are merged, and no name is there twice. -/
theorem foldl_putMember (distinct : (own.map Prod.fst).Nodup) (given : List (String × α)) :
    given.foldl (fun fields field => putMember field.1 field.2 fields) own = merged own given ∧
      ((merged own given).map Prod.fst).Nodup := by
  -- The last one that is given is put into what those before it have made.
  induction given using List.reverseRecOn with
  | nil => simpa [merged, lastValue?, newNames] using distinct
  | append_singleton given field ih =>
    obtain ⟨put, names⟩ := ih
    rw [List.foldl_concat, put, putMember_merged names, ← putMember_merged names]
    exact ⟨rfl, nodup_putMember names⟩

/-- What is given once more changes nothing. -/
theorem merged_again (distinct : (own.map Prod.fst).Nodup) (given : List (String × α)) :
    merged (merged own given) given = merged own given := by
  obtain ⟨put, names⟩ := foldl_putMember distinct given
  calc merged (merged own given) given
      = given.foldl (fun fields field => putMember field.1 field.2 fields) (merged own given) :=
        (foldl_putMember names given).1.symm
    _ = (given ++ given).foldl (fun fields field => putMember field.1 field.2 fields) own := by
        rw [List.foldl_append, put]
    _ = merged own (given ++ given) := (foldl_putMember distinct _).1
    _ = merged own given := by
        simp only [merged, lastValue?_append_self, newNames_append_self]

end

/-! ## Settings -/

/-- A setting is the one that a run sets; where it sets none, the project's own stays. -/
structure Takes {α : Type} (run : Option α) (own now : α) : Prop where
  ofRun : ∀ value, run = some value → now = value
  ofOwn : run = none → now = own

theorem takes_getD {α : Type} (run : Option α) (own : α) : Takes run own (run.getD own) where
  ofRun := by rintro value rfl; rfl
  ofOwn := by rintro rfl; rfl

theorem takes_orElse {α : Type} (run own : Option α) : Takes (run.map some) own (run <|> own) := by
  cases run with
  | none => exact ⟨nofun, fun _ => rfl⟩
  | some value => exact ⟨by rintro _ ⟨⟩; rfl, nofun⟩

/-- What a configuration has of a run, and what of the project. -/
structure Overridden (o : Options) (c now : Config) : Prop where
  domain : Takes (o.domain.map some) c.domain now.domain
  package : Takes (o.package.map some) c.package now.package
  bugReport : Takes o.bugReport c.bugReport now.bugReport
  lastTranslator : Takes o.lastTranslator c.lastTranslator now.lastTranslator
  team : Takes o.team c.team now.team
  /-- Only the core of the header, if that is wanted; else custom names are merged. -/
  headers : now.headers =
    if o.noHeaders then .enabled false
    else if o.headers = [] then c.headers
    else .custom (merged c.customHeaders o.headers)
  destFile : now.destFile = c.destFile
  includes : now.includes = c.includes
  ignores : now.ignores = c.ignores

namespace Config.HasDistinctNames

variable {c : Config}

theorem headerSetting_eq (distinct : c.HasDistinctNames) (o : Overrides) : o.headerSetting c =
    if o.noHeaders then .enabled false
    else if o.headers = [] then c.headers
    else .custom (merged c.customHeaders o.headers) := by
  rw [Overrides.headerSetting, (foldl_putMember distinct o.headers).1]
  simp only [List.isEmpty_iff]

theorem applyTo (distinct : c.HasDistinctNames) (o : Overrides) :
    (o.applyTo c).HasDistinctNames := by
  have setting : (o.applyTo c).headers = _ := distinct.headerSetting_eq o
  rw [HasDistinctNames, customHeaders, setting]
  split_ifs
  · exact List.nodup_nil
  · exact distinct
  · exact (foldl_putMember distinct o.headers).2

/-- What is set once more, is set already. -/
theorem headerSetting_again (distinct : c.HasDistinctNames) (o : Overrides) :
    o.headerSetting (o.applyTo c) = o.headerSetting c := by
  have setting : (o.applyTo c).headers = _ := distinct.headerSetting_eq o
  rw [(distinct.applyTo o).headerSetting_eq, distinct.headerSetting_eq, customHeaders, setting]
  split_ifs
  · rfl
  · rfl
  · exact congrArg HeaderSetting.custom (merged_again distinct o.headers)

end Config.HasDistinctNames

/-- No plan has a custom name twice. -/
theorem hasDistinctNames_of_plan {t : Tree} {options : Options} {dateSetting : Option String}
    {p : Plan} (h : (plan t options dateSetting).2 = .ok p) : p.config.HasDistinctNames := by
  obtain ⟨loaded, date, loads, -, -, rfl⟩ := plan_eq_ok.1 h
  exact (hasDistinctNames_of_loadConfig loads).applyTo options.toOverrides

/-- **What is given for a run takes the place of what the project sets,** and what is given once
more changes nothing. -/
theorem applyTo_overridden (o : Options) (c : Config) (distinct : c.HasDistinctNames) :
    Overridden o c (o.applyTo c) ∧ o.applyTo (o.applyTo c) = o.applyTo c := by
  have own : Overridden o c (o.applyTo c) :=
    { domain := takes_orElse o.domain c.domain
      package := takes_orElse o.package c.package
      bugReport := takes_getD o.bugReport c.bugReport
      lastTranslator := takes_getD o.lastTranslator c.lastTranslator
      team := takes_getD o.team c.team
      headers := distinct.headerSetting_eq o.toOverrides
      destFile := rfl
      includes := rfl
      ignores := rfl }
  have orElse {α : Type} (run own : Option α) : (run <|> (run <|> own)) = (run <|> own) := by
    cases run <;> rfl
  have getD {α : Type} (run : Option α) (own : α) : run.getD (run.getD own) = run.getD own := by
    cases run <;> rfl
  refine ⟨own, ?_⟩
  rw [Overrides.applyTo, distinct.headerSetting_again]
  simp only [Overrides.applyTo, orElse, getD]

/-- A project with custom names. -/
def shopConfig : Config :=
  { team := "Shop", headers := .custom [("A", "1"), ("X-Shop", "2")], includes := ["lib"] }

/-- A run that sets a name of the project, and a new one twice. -/
def shopOptions : Options :=
  { domain := some "shop", destFile := some ⟨"out.pot"⟩,
    headers := [("X-New", "a"), ("A", "3"), ("X-New", "b"), ("a", "4")] }

theorem applyTo_overridden_shop :
    shopConfig.HasDistinctNames ∧
      (Overridden shopOptions shopConfig (shopOptions.applyTo shopConfig) ∧
        shopOptions.applyTo (shopOptions.applyTo shopConfig) = shopOptions.applyTo shopConfig) ∧
      shopOptions.applyTo shopConfig =
        { shopConfig with
          domain := some "shop"
          headers := .custom [("A", "3"), ("X-Shop", "2"), ("X-New", "b"), ("a", "4")] } :=
  ⟨by decide, applyTo_overridden shopOptions shopConfig (by decide), by decide⟩

end PotExtract
