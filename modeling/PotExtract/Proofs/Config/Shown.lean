import PotExtract.Config.Write
import PotExtract.Proofs.Template.HeaderNames

/-!
# Custom fields in a header

A header shows a custom field only if its value is a text and its name is not
reserved. A configuration that is accepted has no other ones, so that its
header shows them all; an object with other ones is refused.

* `shown?`: what a header shows of a member;
* `readHeaders_eq`: an object is read whole, or refused for the first member
  that no header shows;
* `Config.metadata_of_check`: the header of a configuration that is in order;
* `Config.headers_of_ofJson`: an accepted configuration has the header setting
  that its object says;
* `Config.ofJson_of_hidden`: what an object is refused for;
* `shown_or_refused`: no custom field is lost.
-/

namespace PotExtract

open Template

/-! ## Members of an object -/

/-- What a header shows of a member: a text, under a name that is not reserved. -/
def shown? (m : String × Json) : Option (String × String) :=
  if isReserved m.1 then none else m.2.string?.map (m.1, ·)

/-- A member that no header shows. -/
def isHidden (m : String × Json) : Bool :=
  (shown? m).isNone

/-- Why a member that no header shows is refused: for its value, or else for its name. -/
def hiddenError (m : String × Json) : ConfigError :=
  if m.2.string?.isNone then .invalidHeader m.1 else .reservedHeader m.1

theorem string?_eq_some_iff {value : Json} {text : String} :
    value.string? = some text ↔ value = .string text := by
  cases value <;> simp [Json.string?]

theorem shown?_eq_some_iff {m : String × Json} {field : String × String} :
    shown? m = some field ↔ isReserved m.1 = false ∧ m = (field.1, .string field.2) := by
  obtain ⟨name, value⟩ := m
  obtain ⟨name', text⟩ := field
  unfold shown?
  split <;> simp_all [string?_eq_some_iff, and_comm]

/-- An object is read whole, or refused for its first member that no header shows. -/
theorem readHeaders_eq (members : List (String × Json)) :
    readHeaders members =
      match members.find? isHidden with
      | some m => .error (hiddenError m)
      | none => .ok (members.filterMap shown?) := by
  induction members with
  | nil => rfl
  | cons m members ih =>
    obtain ⟨name, value⟩ := m
    rw [readHeaders, ih]
    cases hvalue : value.string? with
    | none =>
      have hidden : isHidden (name, value) = true := by
        simp [isHidden, shown?, hvalue]
      simp [List.find?_cons_of_pos, hidden, hiddenError, hvalue]
    | some text =>
      cases hname : isReserved name with
      | true =>
        have hidden : isHidden (name, value) = true := by
          simp [isHidden, shown?, hname]
        simp [List.find?_cons_of_pos, hidden, hiddenError, hvalue, Config.checkName, hname, bind,
          Except.bind]
      | false =>
        have shown : shown? (name, value) = some (name, text) := by
          simp [shown?, hname, hvalue]
        have seen : isHidden (name, value) = false := by
          simp [isHidden, shown]
        rw [List.find?_cons_of_neg (by simp [seen]), List.filterMap_cons_some shown]
        cases members.find? isHidden <;>
          simp [Config.checkName, hname, bind, Except.bind, pure, Except.pure]

/-- A name and a text as a member of an object. -/
def textMember (field : String × String) : String × Json :=
  (field.1, .string field.2)

/-- An object is read whole: each member is a custom field, at its place. -/
theorem readHeaders_eq_ok_iff {members : List (String × Json)} {fields : List (String × String)} :
    readHeaders members = .ok fields ↔
      members = fields.map textMember ∧ ∀ field ∈ fields, isReserved field.1 = false := by
  rw [readHeaders_eq]
  constructor
  · intro h
    cases hfind : members.find? isHidden with
    | some m => simp [hfind] at h
    | none =>
      simp only [hfind, Except.ok.injEq] at h
      subst h
      have each : ∀ m ∈ members, ∃ field, shown? m = some field := by
        intro m hm
        have seen := List.find?_eq_none.1 hfind m hm
        exact Option.ne_none_iff_exists'.1 (by simpa [isHidden] using seen)
      constructor
      · have same : ∀ m ∈ members, (shown? m).map textMember = some m := by
          intro m hm
          obtain ⟨field, hfield⟩ := each m hm
          rw [hfield, (shown?_eq_some_iff.1 hfield).2]
          rfl
        rw [List.map_filterMap, List.filterMap_congr same, List.filterMap_some]
      · intro field hfield
        obtain ⟨m, -, hm⟩ := List.mem_filterMap.1 hfield
        obtain ⟨name, rfl⟩ := shown?_eq_some_iff.1 hm
        exact name
  · rintro ⟨rfl, names⟩
    have shown : ∀ field ∈ fields, shown? (textMember field) = some field := by
      intro field hfield
      exact shown?_eq_some_iff.2 ⟨names field hfield, rfl⟩
    have none : (fields.map textMember).find? isHidden = none := by
      rw [List.find?_eq_none]
      intro m hm
      obtain ⟨field, hfield, rfl⟩ := List.mem_map.1 hm
      simp [isHidden, shown field hfield]
    simp only [none, List.filterMap_map, Except.ok.injEq]
    exact (List.filterMap_congr shown).trans (List.filterMap_some ..)

/-! ## Objects that are accepted or refused -/

namespace Config

variable {members : List (String × Json)}

theorem sound_of_ofJson {c : Config} (h : ofJson (.object members) = .ok c) :
    ∀ m ∈ members, memberError? m.1 m.2 = none := by
  rw [← List.findSome?_eq_none_iff]
  simp only [ofJson, ofMembers] at h
  split at h
  · cases h
  · rename_i hnone
    exact Option.eq_none_iff_forall_ne_some.2 hnone

/-- The header setting of an accepted configuration is the one that its object says, the custom
fields in their order; an object that says nothing gets the full header. -/
theorem headers_of_ofJson {c : Config} (h : ofJson (.object members) = .ok c) :
    members.lookup "headers" = some c.headers.toJson ∨
      members.lookup "headers" = none ∧ c.headers = .enabled true := by
  obtain ⟨said, hsaid, setting, -⟩ := ofJson_eq_ok h
  cases hsaid
  cases hlookup : members.lookup "headers" with
  | none =>
    rw [hlookup] at setting
    exact .inr ⟨rfl, (Except.ok.inj setting).symm⟩
  | some value =>
    left
    obtain ⟨before, after, rfl, -⟩ := List.lookup_eq_some_iff.1 hlookup
    have typed : headersError? value = none :=
      sound_of_ofJson h ("headers", value) (by simp)
    rw [hlookup] at setting
    cases value with
    | bool full => rw [← Except.ok.inj setting, HeaderSetting.toJson]
    | object said =>
      cases hread : readHeaders said with
      | error e => simp [readHeaderSetting, hread] at setting
      | ok fields =>
        rw [readHeaderSetting, hread] at setting
        rw [← Except.ok.inj setting, (readHeaders_eq_ok_iff.1 hread).1]
        rfl
    | _ => cases typed

/-- An object is refused for its first member that no header shows, if its members have the right
types. -/
theorem ofJson_of_hidden (sound : ∀ m ∈ members, memberError? m.1 m.2 = none)
    {said : List (String × Json)} (object : members.lookup "headers" = some (.object said))
    {m : String × Json} (first : said.find? isHidden = some m) :
    ofJson (.object members) = .error (hiddenError m) := by
  have fine : members.findSome? (fun m => memberError? m.1 m.2) = none :=
    List.findSome?_eq_none_iff.2 sound
  simp only [ofJson, ofMembers]
  split
  · rename_i error wrong
    cases fine.symm.trans wrong
  · simp [object, readHeaderSetting, readHeaders_eq, first, bind, Except.bind]

/-- The header of a configuration has the core or all of the fixed fields, and then every custom
field. -/
structure ShowsAll (c : Config) (date : Timestamp) : Prop where
  core : c.headers = .enabled false → c.header.metadata date = c.header.coreFields date
  full : c.headers ≠ .enabled false → c.header.metadata date =
    c.header.coreFields date ++ Header.editorFields ++ c.customHeaders
  coreNames : (c.header.coreFields date).map Prod.fst = reservedNames.take 9
  fixedNames : (c.header.coreFields date ++ Header.editorFields).map Prod.fst = reservedNames

theorem showsAll_of_check {c : Config} (h : c.check = .ok ()) (date : Timestamp) :
    c.ShowsAll date where
  core minimal := by simp only [Header.metadata, header, minimal]
  full full := metadata_of_check h full date
  coreNames := rfl
  fixedNames := names_fixed c.header date

end Config

/-- **No custom field is lost.** A configuration that is in order, with or without the settings of
a run, has all its custom fields in its header. An object that is accepted gives a configuration
with the fields that it says, and one with a member that no header shows is refused for the first
such member. -/
theorem shown_or_refused :
    (∀ c : Config, c.check = .ok () → ∀ date, c.ShowsAll date) ∧
    (∀ json c, Config.ofJson json = .ok c → ∃ members, json = .object members ∧
      c.check = .ok () ∧
      (members.lookup "headers" = some c.headers.toJson ∨
        members.lookup "headers" = none ∧ c.headers = .enabled true)) ∧
    ∀ members said m, (∀ m ∈ members, memberError? m.1 m.2 = none) →
      members.lookup "headers" = some (.object said) → said.find? isHidden = some m →
        Config.ofJson (.object members) = .error (hiddenError m) := by
  refine ⟨fun c h date => Config.showsAll_of_check h date, ?_, ?_⟩
  · intro json c h
    obtain ⟨members, rfl, -, checked⟩ := Config.ofJson_eq_ok h
    exact ⟨members, rfl, checked, Config.headers_of_ofJson h⟩
  · intro members said m sound object first
    exact Config.ofJson_of_hidden sound object first

/-- Two custom fields are shown; with a number among them, the object is refused. -/
theorem shown_or_refused_shop :
    (∃ c, Config.ofJson (.object [("team", .string "Shop"),
        ("headers", .object [("X-Shop", .string "1"), ("a", .string "")])]) = .ok c ∧
      (c.header.metadata ⟨1700000000, .utc⟩).drop 14 = [("X-Shop", "1"), ("a", "")]) ∧
    Config.ofJson (.object [("headers", .object [("X-Shop", .string "1"),
        ("x-textdomain-support", .number (.integer 3)), ("MIME-version", .string "2")])]) =
      .error (.invalidHeader "x-textdomain-support") := by
  obtain ⟨shown, -, refused⟩ := shown_or_refused
  have accepted : Config.ofJson (.object [("team", .string "Shop"),
      ("headers", .object [("X-Shop", .string "1"), ("a", .string "")])]) =
        .ok { team := "Shop", headers := .custom [("X-Shop", "1"), ("a", "")] } :=
    eq_ok_of_toOption (by decide +kernel)
  constructor
  · refine ⟨_, accepted, ?_⟩
    obtain ⟨-, -, -, checked⟩ := Config.ofJson_eq_ok accepted
    rw [(shown _ checked _).full (by decide)]
    rfl
  · refine refused _ _ ("x-textdomain-support", .number (.integer 3)) ?_ rfl ?_
    · simp [memberError?, headersError?]
    · rfl

end PotExtract
