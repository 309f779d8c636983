import PotExtract.Config.Basic
import PotExtract.Json.Value

/-!
# Settings given for one run

What is given for a run takes the place of what the project sets.

* `Overrides.applyTo`: a configuration with these settings.
-/

namespace PotExtract

/-- Settings for one run; those that are absent are left to the project. -/
structure Overrides where
  domain : Option String := none
  package : Option String := none
  bugReport : Option String := none
  lastTranslator : Option String := none
  team : Option String := none
  /-- Only the core of the header is wanted. -/
  noHeaders : Bool := false
  /-- Custom names and values, as they were given; a later value replaces an earlier one. -/
  headers : List (String × String) := []
  deriving DecidableEq, Repr

namespace Overrides

/-- The header setting of a run. Custom names are added to those of the project. -/
def headerSetting (o : Overrides) (c : Config) : HeaderSetting :=
  if o.noHeaders then .enabled false
  else if o.headers.isEmpty then c.headers
  else .custom (o.headers.foldl (fun fields field => putMember field.1 field.2 fields)
    c.customHeaders)

/-- A configuration with the settings of a run. -/
def applyTo (o : Overrides) (c : Config) : Config :=
  { c with
    domain := o.domain <|> c.domain
    package := o.package <|> c.package
    bugReport := o.bugReport.getD c.bugReport
    lastTranslator := o.lastTranslator.getD c.lastTranslator
    team := o.team.getD c.team
    headers := o.headerSetting c }

end Overrides

end PotExtract
