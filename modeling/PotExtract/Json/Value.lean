import PotExtract.Decimal.Shortest

/-!
# JSON values

Values as they are read: an object keeps its members in the order in which
their names first appear, and the last value given to each.
-/

namespace PotExtract

/-- A number: an integer of 64 bits, with or without a sign, or a double. -/
inductive Number where
  | integer (n : Int)
  | double (negative : Bool) (magnitude : Binary64)
  deriving DecidableEq, Repr

/-- A JSON value. -/
inductive Json where
  | null
  | bool (b : Bool)
  | number (n : Number)
  | string (s : String)
  | array (items : List Json)
  | object (members : List (String × Json))
  deriving Repr, Inhabited

/-- The members of an object with one more: a name that is there keeps its place and takes the
new value. -/
def putMember {α : Type} (name : String) (value : α) :
    List (String × α) → List (String × α)
  | [] => [(name, value)]
  | (n, v) :: rest =>
    if n = name then (n, value) :: rest else (n, v) :: putMember name value rest

end PotExtract
