import PotExtract.Call.Function
import PotExtract.Source.Arguments
import PotExtract.Source.Line
import PotExtract.Source.Literal
import PotExtract.Source.Parens

/-!
# What a call says

The arguments of a translation call, read by their roles.

* `Function.read`: the message of an argument list, or why there is none;
* `Record` and `Skipped`: a call that was read, and one that was not.
-/

namespace PotExtract

open Source

/-- What a call asks to translate. -/
structure Message where
  text : String
  plural : Option String
  context : Option String
  /-- The domain argument as written, without quotation marks if it is a literal. -/
  domain : Option String
  deriving DecidableEq, Repr

/-- A message and the place of its call. -/
structure Record extends Message where
  location : Location
  deriving DecidableEq, Repr

/-- Why a call has no message. -/
inductive SkipReason where
  /-- A parenthesis or a literal of the call is never closed. -/
  | unbalanced
  /-- The call ends before a required argument. -/
  | missing (role : Role)
  /-- An argument that has to be a literal is something else. -/
  | notLiteral (role : Role)
  deriving DecidableEq, Repr

/-- A reason in words. -/
def SkipReason.message : SkipReason → String
  | .unbalanced => "unbalanced parentheses or unterminated string literal"
  | .missing role => "missing " ++ role.name ++ " argument"
  | .notLiteral role => role.name ++ " argument is not a string literal"

/-- A call that has no message. -/
structure Skipped where
  location : Location
  function : Function
  reason : SkipReason
  deriving DecidableEq, Repr

/-- An argument read for its role. Texts and contexts are decoded; a domain is kept as written,
less the quotation marks of a literal. -/
def Role.read (role : Role) (arg : List Char) : Except SkipReason String :=
  match role, Literal.parse? (unwrap arg) with
  | .text, none | .plural, none | .context, none => .error (.notLiteral role)
  | .text, some literal | .plural, some literal | .context, some literal =>
    .ok (String.ofList literal.decode)
  | .count, _ => .ok (String.ofList arg)
  | .domain, some literal => .ok (String.ofList literal.body)
  | .domain, none => .ok (String.ofList (unwrap arg))

/-- The arguments that have a role, each read for it; the first that cannot be read decides. -/
def readRoles : List Role → List (List Char) → Except SkipReason (List (Role × String))
  | role :: roles, arg :: args => do
    let value ← role.read arg
    let values ← readRoles roles args
    return (role, value) :: values
  | _, _ => .ok []

/-- The message of an argument list. Arguments past the last role are ignored. -/
def Function.read (f : Function) (args : List (List Char)) : Except SkipReason Message :=
  if args.length < f.required then
    .error (.missing (f.roles.getD args.length .text))
  else do
    let values ← readRoles f.roles args
    match values.lookup .text with
    | none => .error (.missing .text)
    | some text =>
      return {
        text
        plural := values.lookup .plural
        context := values.lookup .context
        domain := values.lookup .domain }

/-- The message of a call, given the text after its opening parenthesis. -/
def Function.readCall (f : Function) (s : List Char) : Except SkipReason Message :=
  match closeParen? s with
  | none => .error .unbalanced
  | some (inside, _) => f.read (arguments inside)

end PotExtract
