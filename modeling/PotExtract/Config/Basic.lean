import PotExtract.Catalog
import PotExtract.Glob.Pattern
import PotExtract.Template.Header

/-!
# Configuration

What a project sets for its template, with defaults for all of it.

* `Config.check`: the settings that the types leave open are in order;
* `ConfigError.chain`: an error in words, with what caused it.
-/

namespace PotExtract

open Glob Template

/-- Which header a template gets. -/
inductive HeaderSetting where
  /-- The full header, or only its core. -/
  | enabled (full : Bool)
  /-- The full header with more names and values. -/
  | custom (fields : List (String × String))
  deriving DecidableEq, Repr

/-- The settings of a project. -/
structure Config where
  /-- The domain whose calls are wanted; all calls without it. -/
  domain : Option String := none
  package : Option String := none
  bugReport : String := "http://example.com"
  lastTranslator : String := "FULL NAME <EMAIL@ADDRESS>"
  team : String := "LANGUAGE <EMAIL@ADDRESS>"
  headers : HeaderSetting := .enabled true
  /-- Where to write the template. -/
  destFile : String := "translations.pot"
  /-- The directories and files to search. -/
  includes : List String := ["."]
  /-- What to leave out. -/
  ignores : List String := ["**/vendor/**", "**/node_modules/**"]
  deriving DecidableEq, Repr

/-- The two lists of paths. -/
inductive PathList where
  | includes
  | ignores
  deriving DecidableEq, Repr

/-- A list as the configuration names it. -/
def PathList.name : PathList → String
  | .includes => "includes"
  | .ignores => "ignores"

/-- Why a member of a configuration cannot be read. The kind of value that was found is given in
words. -/
inductive MemberError where
  | expectedString (found : String)
  | expectedList (found : String)
  | unknownHeaders
  deriving DecidableEq, Repr

/-- An error in words. -/
def MemberError.message : MemberError → String
  | .expectedString found => "invalid type: " ++ found ++ ", expected a string"
  | .expectedList found => "invalid type: " ++ found ++ ", expected a sequence"
  | .unknownHeaders => "data did not match any variant of untagged enum HeadersOption"

/-- Why a configuration is refused. -/
inductive ConfigError where
  | notAnObject
  | invalid (error : MemberError)
  /-- A custom header has a value that is no text. -/
  | invalidHeader (name : String)
  /-- A custom header has a name that templates give themselves. -/
  | reservedHeader (name : String)
  | invalidPattern (list : PathList) (pattern : String) (error : PatternError)
  deriving DecidableEq, Repr

/-- An error in words. -/
def ConfigError.message : ConfigError → String
  | .notAnObject => "Require a argument of type object."
  | .invalid error => "Invalid configuration: " ++ error.message
  | .invalidHeader name => "Invalid value for header \"" ++ name ++ "\": expected a string"
  | .reservedHeader name =>
    "Header \"" ++ name ++ "\" is written by wp-pot and cannot be set as a custom header"
  | .invalidPattern list pattern _ =>
    "Invalid glob pattern in '" ++ list.name ++ "': \"" ++ pattern ++ "\""

/-- An error and its causes in words, the outermost first. -/
def ConfigError.chain (e : ConfigError) : List String :=
  match e with
  | .invalid error => [e.message, error.message]
  | .invalidPattern _ _ error => [e.message, error.message]
  | _ => [e.message]

/-- A path with stars or question marks is a pattern. -/
def hasWildcard (path : String) : Bool :=
  path.toList.any fun c => c == '*' || c == '?'

namespace Config

/-- The name of the project. -/
def packageName (c : Config) : String :=
  (c.package <|> c.domain).getD "unnamed project"

/-- Which domains are wanted. -/
def filter (c : Config) : DomainFilter :=
  .ofDomain c.domain

/-- The header of the project's template. -/
def header (c : Config) : Header where
  package := c.packageName
  bugReport := c.bugReport
  lastTranslator := c.lastTranslator
  team := c.team
  fields :=
    match c.headers with
    | .enabled true => .full []
    | .enabled false => .core
    | .custom fields => .full fields

/-- The custom names and values. -/
def customHeaders (c : Config) : List (String × String) :=
  match c.headers with
  | .enabled _ => []
  | .custom fields => fields

/-- A path that has to be a pattern is one. -/
def checkPattern (list : PathList) (pattern : String) : Except ConfigError Unit :=
  match Pattern.compile? pattern with
  | .ok _ => .ok ()
  | .error error => .error (.invalidPattern list pattern error)

/-- No custom name is reserved. -/
def checkName (name : String) : Except ConfigError Unit :=
  if isReserved name then .error (.reservedHeader name) else .ok ()

/-- The settings are in order: names first, then what to leave out, then what to search, where
only paths with wildcards are patterns. The first fault decides. -/
def check (c : Config) : Except ConfigError Unit := do
  c.customHeaders.forM fun field => checkName field.1
  c.ignores.forM (checkPattern .ignores)
  (c.includes.filter hasWildcard).forM (checkPattern .includes)

end Config

end PotExtract
