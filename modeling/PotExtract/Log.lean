import PotExtract.Event

/-!
# The log

Which events are logged. A setting names the least level that counts, for all
programs or for this one.

* `logThreshold`: the least level that is logged;
* `logText`: the log of some events.
-/

namespace PotExtract

/-- The name under which this program logs. -/
def logName : String := "wp_pot"

/-- The level that a word names, by its name or its number. The inner `none` means that nothing is
logged. -/
def readLevel? (word : String) : Option (Option Level) :=
  match String.ofList (word.toList.map Char.toLower) with
  | "off" | "0" => some none
  | "error" | "1" | "" => some (some .error)
  | "warn" | "2" => some (some .warn)
  | "info" | "3" => some (some .info)
  | "debug" | "4" => some (some .debug)
  | "trace" | "5" => some (some .trace)
  | _ => none

/-- The level that is logged without a setting. -/
def defaultThreshold (verbose : Bool) : Level :=
  if verbose then .debug else .warn

/-- The least level that is logged, if anything is. A setting is a level, or the beginning of a
program's name, with a level or for every level; a setting that names no level counts as
absent. -/
def logThreshold (setting : Option String) (verbose : Bool) : Option Level :=
  match setting.map fun text => (text.toList.takeWhile (· != '='), text.toList.dropWhile (· != '='))
  with
  | none => some (defaultThreshold verbose)
  | some (word, []) =>
    match readLevel? (String.ofList word) with
    | some threshold => threshold
    | none => if word.isPrefixOf logName.toList then some .trace else none
  | some (name, _ :: level) =>
    match readLevel? (String.ofList level) with
    | none => some (defaultThreshold verbose)
    | some threshold =>
      if name.isEmpty then some (defaultThreshold verbose)
      else if name.isPrefixOf logName.toList then threshold
      else none

/-- Whether an event is logged. -/
def Event.isLogged (threshold : Option Level) (e : Event) : Bool :=
  match threshold with
  | none => false
  | some least => least.rank ≤ e.level.rank

/-- The log of some events. -/
def logText (threshold : Option Level) (events : List Event) : String :=
  String.join ((events.filter (Event.isLogged threshold)).map fun e => e.line ++ "\n")

end PotExtract
