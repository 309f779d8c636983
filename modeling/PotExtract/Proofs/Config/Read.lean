import PotExtract.Config.Find
import PotExtract.Proofs.Json.Distinct

/-!
# Configurations that are read

A configuration holds what its object says, and the object has no name twice.

* `Config.ofJson_eq_ok`: the header setting of a configuration that is read,
  and that it is in order;
* `Config.HasDistinctNames`: no custom name is there twice;
* `hasDistinctNames_of_loadConfig`: no configuration that is found has one
  twice.
-/

namespace PotExtract

namespace Config

/-- No custom name is there twice. -/
def HasDistinctNames (c : Config) : Prop :=
  (c.customHeaders.map Prod.fst).Nodup

instance (c : Config) : Decidable c.HasDistinctNames :=
  inferInstanceAs (Decidable (c.customHeaders.map Prod.fst).Nodup)

theorem ofJson_eq_ok {json : Json} {c : Config} (h : ofJson json = .ok c) :
    ∃ members, json = .object members ∧
      readHeaderSetting (members.lookup "headers") = .ok c.headers ∧ c.check = .ok () := by
  cases json with
  | object members =>
    refine ⟨members, rfl, ?_⟩
    simp only [ofJson, ofMembers] at h
    split at h
    · cases h
    · cases hheaders : readHeaderSetting (members.lookup "headers") with
      | error e => simp [hheaders, bind, Except.bind] at h
      | ok headers =>
        simp only [hheaders, bind, Except.bind] at h
        split at h
        · cases h
        · rename_i hcheck
          cases h
          exact ⟨rfl, hcheck⟩
  | _ => cases h

end Config

/-! ## Names -/

/-- Custom names are the names of the object, in its order. -/
theorem map_fst_of_readHeaders {members : List (String × Json)} {fields : List (String × String)}
    (h : readHeaders members = .ok fields) : fields.map Prod.fst = members.map Prod.fst := by
  induction members generalizing fields with
  | nil =>
    cases h
    rfl
  | cons m members ih =>
    obtain ⟨name, value⟩ := m
    simp only [readHeaders] at h
    split at h
    · cases h
    · rename_i text _
      cases checked : Config.checkName name with
      | error e => simp [checked, bind, Except.bind] at h
      | ok u =>
        cases later : readHeaders members with
        | error e => simp [checked, later, bind, Except.bind] at h
        | ok rest =>
          simp only [checked, later, bind, Except.bind, pure, Except.pure] at h
          cases h
          rw [List.map_cons, List.map_cons, ih later]

theorem readHeaderSetting_eq_custom {value : Option Json} {fields : List (String × String)}
    (h : readHeaderSetting value = .ok (.custom fields)) :
    ∃ members, value = some (.object members) ∧ readHeaders members = .ok fields := by
  unfold readHeaderSetting at h
  split at h
  · cases h
  · rename_i members
    refine ⟨members, rfl, ?_⟩
    cases hread : readHeaders members with
    | error e => simp [hread] at h
    | ok said =>
      rw [hread] at h
      cases h
      rfl
  · cases h

theorem Config.hasDistinctNames_of_ofJson {json : Json} (distinct : json.Distinct) {c : Config}
    (h : ofJson json = .ok c) : c.HasDistinctNames := by
  obtain ⟨members, rfl, hset, -⟩ := ofJson_eq_ok h
  rw [HasDistinctNames, customHeaders]
  cases hheaders : c.headers with
  | enabled full => exact List.nodup_nil
  | custom fields =>
    rw [hheaders] at hset
    obtain ⟨said, hlookup, hread⟩ := readHeaderSetting_eq_custom hset
    cases distinct with
    | object names each =>
      obtain ⟨before, after, rfl, -⟩ := List.lookup_eq_some_iff.1 hlookup
      have inner := each ("headers", .object said) (by simp)
      cases inner with
      | object names each => rwa [map_fst_of_readHeaders hread]

/-! ## Files -/

section
variable {t : Tree}

theorem hasDistinctNames_of_readConfig {path : Path} {c : Config}
    (h : readConfig t path = .ok c) : c.HasDistinctNames := by
  unfold readConfig at h
  split at h
  · cases h
  · split at h
    · cases h
    · rename_i value hvalue
      cases hc : Config.ofJson value with
      | error e => simp [hc, Except.mapError] at h
      | ok said =>
        rw [hc] at h
        cases h
        exact Config.hasDistinctNames_of_ofJson (Json.distinct_of_read? hvalue) hc

/-- No configuration that is found has a custom name twice, nor has the one that stands for it. -/
theorem hasDistinctNames_of_loadConfig {start : Path} {loaded : Option Config}
    (h : loadConfig t start = .ok loaded) : (loaded.getD {}).HasDistinctNames := by
  unfold loadConfig at h
  split at h
  · cases h
    exact List.nodup_nil
  · rename_i path _
    cases hread : readConfig t path with
    | error e => simp [hread] at h
    | ok c =>
      rw [hread] at h
      cases h
      exact hasDistinctNames_of_readConfig hread

end

end PotExtract
