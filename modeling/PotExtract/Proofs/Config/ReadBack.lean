import PotExtract.Proofs.Config.Shown
import PotExtract.Proofs.Json.ReadBack

/-!
# Configurations read back

A configuration that is in order is read from what is written of it as it was,
each setting by its own name.

* `Config.ofJson_toJson`: the configuration of its value;
* `Config.legible_toJson`: its text is read as its value;
* `Config.ofJson_written`: the configuration of its text.
-/

namespace PotExtract

open Template

theorem string?_optionalText (text : Option String) : (optionalText text).string? = text := by
  cases text <;> rfl

theorem filterMap_string? (texts : List String) :
    (texts.map Json.string).filterMap Json.string? = texts := by
  rw [List.filterMap_map]
  exact List.filterMap_some ..

theorem listError?_texts (texts : List String) :
    listError? (.array (texts.map Json.string)) = none := by
  simp [listError?, stringError?]

namespace Config

/-- The settings of a configuration, by their names. -/
def settings (c : Config) : List (String × Json) := [
  ("domain", optionalText c.domain),
  ("package", optionalText c.package),
  ("bugReport", .string c.bugReport),
  ("lastTranslator", .string c.lastTranslator),
  ("team", .string c.team),
  ("headers", c.headers.toJson),
  ("destFile", .string c.destFile),
  ("includes", .array (c.includes.map Json.string)),
  ("ignores", .array (c.ignores.map Json.string))]

theorem toJson_eq_settings (c : Config) : c.toJson = .object c.settings := rfl

theorem sound_settings (c : Config) : ∀ m ∈ c.settings, memberError? m.1 m.2 = none := by
  have domain : memberError? "domain" (optionalText c.domain) = none := by
    cases c.domain <;> rfl
  have package : memberError? "package" (optionalText c.package) = none := by
    cases c.package <;> rfl
  have headers : memberError? "headers" c.headers.toJson = none := by
    cases c.headers <;> rfl
  have includes : memberError? "includes" (.array (c.includes.map Json.string)) = none :=
    listError?_texts c.includes
  have ignores : memberError? "ignores" (.array (c.ignores.map Json.string)) = none :=
    listError?_texts c.ignores
  simp only [settings, List.forall_mem_cons]
  exact ⟨domain, package, rfl, rfl, rfl, headers, rfl, includes, ignores, nofun⟩

/-- The settings of a header are read as they were, if no custom name is reserved. -/
theorem readHeaderSetting_toJson {c : Config} (h : c.check = .ok ()) :
    readHeaderSetting (some c.headers.toJson) = .ok c.headers := by
  have names := isReserved_of_check h
  cases hheaders : c.headers with
  | enabled full => rfl
  | custom fields =>
    rw [customHeaders, hheaders] at names
    have read : readHeaders (fields.map textMember) = .ok fields :=
      readHeaders_eq_ok_iff.2 ⟨rfl, names⟩
    exact congrArg (HeaderSetting.custom <$> ·) read

/-- The configuration of its value. -/
theorem ofJson_toJson {c : Config} (h : c.check = .ok ()) : ofJson c.toJson = .ok c := by
  have sound : c.settings.findSome? (fun m => memberError? m.1 m.2) = none :=
    List.findSome?_eq_none_iff.2 c.sound_settings
  have domain : stringAt? c.settings "domain" = c.domain := string?_optionalText c.domain
  have package : stringAt? c.settings "package" = c.package := string?_optionalText c.package
  have headers : readHeaderSetting (c.settings.lookup "headers") = .ok c.headers :=
    readHeaderSetting_toJson h
  have includes : listAt? c.settings "includes" = some c.includes :=
    congrArg some (filterMap_string? c.includes)
  have ignores : listAt? c.settings "ignores" = some c.ignores :=
    congrArg some (filterMap_string? c.ignores)
  have bugReport : stringAt? c.settings "bugReport" = some c.bugReport := rfl
  have lastTranslator : stringAt? c.settings "lastTranslator" = some c.lastTranslator := rfl
  have team : stringAt? c.settings "team" = some c.team := rfl
  have destFile : stringAt? c.settings "destFile" = some c.destFile := rfl
  simp only [toJson_eq_settings, ofJson, ofMembers]
  split
  · rename_i error wrong
    cases sound.symm.trans wrong
  · rw [headers, domain, package, bugReport, lastTranslator, team, destFile, includes, ignores]
    change (c.check >>= fun _ => .ok c) = .ok c
    rw [h]
    rfl

/-- The value of a configuration is nested twice at most, and its names are distinct. -/
theorem legible_toJson {c : Config} (distinct : c.HasDistinctNames) :
    c.toJson.Legible Json.greatestDepth := by
  have text {depth : Nat} (s : Option String) : (optionalText s).Legible depth := by
    cases s with
    | none => exact .null
    | some s => exact .string s
  have list {depth : Nat} (texts : List String) :
      (Json.array (texts.map Json.string)).Legible (depth + 1) := by
    refine .array fun v hv => ?_
    obtain ⟨s, -, rfl⟩ := List.mem_map.1 hv
    exact .string s
  have headers {depth : Nat} : c.headers.toJson.Legible (depth + 1) := by
    cases hheaders : c.headers with
    | enabled full => exact .bool full
    | custom fields =>
      rw [HasDistinctNames, customHeaders, hheaders] at distinct
      refine .object (by simpa [Function.comp_def] using distinct) fun m hm => ?_
      obtain ⟨field, -, rfl⟩ := List.mem_map.1 hm
      exact .string field.2
  change Json.Legible (126 + 1) (.object c.settings)
  refine .object (by simp [settings]) ?_
  simp only [settings, List.forall_mem_cons]
  exact ⟨text _, text _, .string _, .string _, .string _, headers, .string _, list _, list _,
    List.forall_mem_nil _⟩

end Config

/-- **A configuration survives being written and read.** From its value a configuration that is in
order is read with every setting as it was, the custom fields in their order. So it is from the
text of its value, in which no name may be there twice. -/
theorem ofJson_written (c : Config) (ordered : c.check = .ok ()) :
    Config.ofJson c.toJson = .ok c ∧
      (c.HasDistinctNames →
        ∃ value, Json.read? c.toJson.pretty = some value ∧ Config.ofJson value = .ok c) := by
  have read := Config.ofJson_toJson ordered
  refine ⟨read, ?_⟩
  intro distinct
  exact ⟨c.toJson, Json.read?_pretty (Config.legible_toJson distinct), read⟩

/-- A configuration whose texts have marks, control characters and wide characters, with custom
fields that are not in the order of their names. -/
def markedConfig : Config :=
  { domain := some "", bugReport := "\"\\\u0001\n", team := "Übersetzer ✓",
    headers := .custom [("Z", ""), ("A: b", "\t"), ("", "/*")], includes := [],
    ignores := ["**/x"] }

theorem ofJson_written_marked :
    markedConfig.check = .ok () ∧ markedConfig.HasDistinctNames ∧
      Config.ofJson markedConfig.toJson = .ok markedConfig ∧
      ∃ value, Json.read? markedConfig.toJson.pretty = some value ∧
        Config.ofJson value = .ok markedConfig := by
  have ordered : markedConfig.check = .ok () := eq_ok_of_toOption (by decide +kernel)
  have distinct : markedConfig.HasDistinctNames := by decide
  obtain ⟨read, text⟩ := ofJson_written markedConfig ordered
  exact ⟨ordered, distinct, read, text distinct⟩

end PotExtract
