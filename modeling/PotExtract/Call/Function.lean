/-!
# Translation functions

The functions whose calls carry translatable text, and what each of their
arguments means.

* `Function.all`: every function, in the order in which they are listed;
* `Function.required`: how many arguments a call must have;
* `keywordList`: the functions as translation editors expect them.
-/

namespace PotExtract

/-- What an argument of a translation function means. -/
inductive Role where
  /-- The text to translate, in the singular. -/
  | text
  /-- The text to translate, in the plural. -/
  | plural
  /-- The number that selects a plural form. -/
  | count
  /-- What tells two uses of one text apart. -/
  | context
  /-- The name under which translations are loaded. -/
  | domain
  deriving DecidableEq, Repr

/-- The roles whose argument has to be a literal. -/
def Role.needsLiteral : Role → Bool
  | .text | .plural | .context => true
  | .count | .domain => false

/-- A role as messages name it. -/
def Role.name : Role → String
  | .text => "text"
  | .plural => "plural"
  | .count => "count"
  | .context => "context"
  | .domain => "domain"

/-- A translation function and the roles of its arguments. -/
structure Function where
  name : String
  roles : List Role
  deriving DecidableEq, Repr

namespace Function

/-- A text and its domain. -/
def plain (name : String) : Function :=
  ⟨name, [.text, .domain]⟩

/-- A text with a context. -/
def contextual (name : String) : Function :=
  ⟨name, [.text, .context, .domain]⟩

/-- Every translation function. Names are told apart by case. -/
def all : List Function := [
  plain "__",
  plain "_e",
  contextual "_x",
  contextual "_ex",
  ⟨"_n", [.text, .plural, .count, .domain]⟩,
  ⟨"_nx", [.text, .plural, .count, .context, .domain]⟩,
  ⟨"_n_noop", [.text, .plural, .domain]⟩,
  ⟨"_nx_noop", [.text, .plural, .context, .domain]⟩,
  plain "esc_attr__",
  plain "esc_attr_e",
  contextual "esc_attr_x",
  plain "esc_html__",
  plain "esc_html_e",
  contextual "esc_html_x"]

/-- The function of a name. -/
def named? (name : String) : Option Function :=
  all.find? fun f => f.name == name

/-- A call needs every argument up to the last that has to be a literal. -/
def required (f : Function) : Nat :=
  (f.roles.reverse.dropWhile fun role => !role.needsLiteral).length

/-- The places of the roles from number `place` on, counted from one: a context is marked with a
`c`, and arguments that are not translated have none. -/
def keywordPlaces (place : Nat) : List Role → List String
  | [] => []
  | role :: roles =>
    match role with
    | .text | .plural => toString place :: keywordPlaces (place + 1) roles
    | .context => (toString place ++ "c") :: keywordPlaces (place + 1) roles
    | .count | .domain => keywordPlaces (place + 1) roles

/-- A function as a keyword: its name, and the places of its texts unless the first argument is
the only one. -/
def keyword (f : Function) : String :=
  match keywordPlaces 1 f.roles with
  | [] | [_] => f.name
  | places => f.name ++ ":" ++ String.intercalate "," places

end Function

/-- The keywords of all functions. -/
def keywordList : String :=
  String.intercalate ";" (Function.all.map Function.keyword)

end PotExtract
