import PotExtract.Config.Basic
import PotExtract.Json.Read
import PotExtract.Text.Quoted

/-!
# Reading a configuration

A configuration is a JSON object. Members that are not settings are ignored,
and settings that are absent have their defaults.

* `Config.ofJson`: the configuration of a value.
-/

namespace PotExtract

/-- The kind of a value in words. Numbers and texts are shown. -/
def Json.kindText : Json → String
  | .null => "null"
  | .bool b => "boolean `" ++ (if b then "true" else "false") ++ "`"
  | .number (.integer n) => "integer `" ++ toString n ++ "`"
  | .number (.double negative magnitude) =>
    "floating point `" ++ (if negative then "-" else "") ++ magnitude.text ++ "`"
  | .string s => "string " ++ quotedText s
  | .array _ => "sequence"
  | .object _ => "map"

/-- The text of a value that is one. -/
def Json.string? : Json → Option String
  | .string s => some s
  | _ => none

/-- What is wrong with a value that has to be a text. -/
def stringError? (value : Json) : Option MemberError :=
  match value with
  | .string _ => none
  | other => some (.expectedString other.kindText)

/-- What is wrong with a value that has to be a list of texts. -/
def listError? (value : Json) : Option MemberError :=
  match value with
  | .array items => items.findSome? stringError?
  | other => some (.expectedList other.kindText)

/-- What is wrong with a value that has to be a truth value or an object. -/
def headersError? (value : Json) : Option MemberError :=
  match value with
  | .bool _ | .object _ => none
  | _ => some .unknownHeaders

/-- What is wrong with a member of a configuration. -/
def memberError? (name : String) (value : Json) : Option MemberError :=
  match name, value with
  | "domain", .null | "package", .null => none
  | "domain", _ | "package", _ | "bugReport", _ | "lastTranslator", _ | "team", _
  | "destFile", _ => stringError? value
  | "headers", _ => headersError? value
  | "includes", _ | "ignores", _ => listError? value
  | _, _ => none

/-- The custom names and values of an object, in its order. -/
def readHeaders : List (String × Json) → Except ConfigError (List (String × String))
  | [] => .ok []
  | (name, value) :: rest => do
    match value.string? with
    | none => .error (.invalidHeader name)
    | some text =>
      Config.checkName name
      let fields ← readHeaders rest
      return (name, text) :: fields

/-- The header setting of a value, which defaults to the full header. -/
def readHeaderSetting : Option Json → Except ConfigError HeaderSetting
  | some (.bool full) => .ok (.enabled full)
  | some (.object members) => HeaderSetting.custom <$> readHeaders members
  | _ => .ok (.enabled true)

/-- The text at a name. -/
def stringAt? (members : List (String × Json)) (name : String) : Option String :=
  (members.lookup name).bind Json.string?

/-- The texts of the list at a name. -/
def listAt? (members : List (String × Json)) (name : String) : Option (List String) :=
  match members.lookup name with
  | some (.array items) => some (items.filterMap Json.string?)
  | _ => none

namespace Config

/-- The configuration of an object's members. The first member that cannot be read decides. -/
def ofMembers (members : List (String × Json)) : Except ConfigError Config := do
  if let some error := members.findSome? fun (name, value) => memberError? name value then
    throw (.invalid error)
  let headers ← readHeaderSetting (members.lookup "headers")
  let defaults : Config := {}
  let config : Config := {
    domain := stringAt? members "domain"
    package := stringAt? members "package"
    bugReport := (stringAt? members "bugReport").getD defaults.bugReport
    lastTranslator := (stringAt? members "lastTranslator").getD defaults.lastTranslator
    team := (stringAt? members "team").getD defaults.team
    headers
    destFile := (stringAt? members "destFile").getD defaults.destFile
    includes := (listAt? members "includes").getD defaults.includes
    ignores := (listAt? members "ignores").getD defaults.ignores }
  config.check
  return config

/-- The configuration of a value. -/
def ofJson : Json → Except ConfigError Config
  | .object members => ofMembers members
  | _ => .error .notAnObject

end Config

end PotExtract
