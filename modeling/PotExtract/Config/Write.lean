import PotExtract.Config.Basic
import PotExtract.Json.Write

/-!
# Writing a configuration

* `Config.toJson`: a configuration with every setting, in a fixed order;
* `Config.defaultText`: the file that a project starts from.
-/

namespace PotExtract

/-- A header setting as a value. -/
def HeaderSetting.toJson : HeaderSetting → Json
  | .enabled full => .bool full
  | .custom fields => .object (fields.map fun (name, value) => (name, .string value))

/-- A text that may be absent. -/
def optionalText : Option String → Json
  | none => .null
  | some s => .string s

namespace Config

/-- A configuration as a value. -/
def toJson (c : Config) : Json :=
  .object [
    ("domain", optionalText c.domain),
    ("package", optionalText c.package),
    ("bugReport", .string c.bugReport),
    ("lastTranslator", .string c.lastTranslator),
    ("team", .string c.team),
    ("headers", c.headers.toJson),
    ("destFile", .string c.destFile),
    ("includes", .array (c.includes.map Json.string)),
    ("ignores", .array (c.ignores.map Json.string))]

/-- The text of the default configuration. -/
def defaultText : String :=
  ({} : Config).toJson.pretty

end Config

end PotExtract
