import PotExtract.Json.Token

/-!
# Reading JSON

A text is read token by token, with a stack of the arrays and objects that
are still open.

* `Json.read?`: the value of a text, if it is one.
-/

namespace PotExtract.Json

/-- An array or object that is still open. -/
inductive Frame where
  /-- The items so far, last one first. -/
  | array (items : List Json)
  /-- The members so far, and the name of the one being read. -/
  | object (members : List (String × Json)) (name : String)

/-- What the next token may be. -/
inductive Expected where
  /-- A value, or the end of an empty array. -/
  | firstItem
  /-- A value. -/
  | value
  /-- A name, or the end of an empty object. -/
  | firstName
  /-- A name. -/
  | name
  /-- The colon after a name. -/
  | colon
  /-- A comma, or the end of what is open. -/
  | afterValue
  deriving DecidableEq

/-- How far a text is read. -/
structure Reader where
  stack : List Frame
  expected : Expected
  /-- The value of the whole text, once it is complete. -/
  result : Option Json

/-- Arrays and objects may be open up to this depth. -/
def greatestDepth : Nat := 127

/-- Nothing is read yet. -/
def Reader.start : Reader := ⟨[], .value, none⟩

/-- An array or object opened. -/
def Reader.push (r : Reader) (frame : Frame) (expected : Expected) : Option Reader :=
  if r.stack.length < greatestDepth then some { r with stack := frame :: r.stack, expected }
  else none

/-- A complete value put where it belongs. -/
def Reader.put (stack : List Frame) (v : Json) : Reader :=
  match stack with
  | [] => ⟨[], .afterValue, some v⟩
  | .array items :: outer => ⟨.array (v :: items) :: outer, .afterValue, none⟩
  | .object members name :: outer =>
    ⟨.object (putMember name v members) name :: outer, .afterValue, none⟩

/-- One token read where a value may stand. -/
def Reader.readValue (r : Reader) : Token → Option Reader
  | .scalar v => some (Reader.put r.stack v)
  | .mark '[' => r.push (.array []) .firstItem
  | .mark '\x7b' => r.push (.object [] "") .firstName
  | .mark _ => none

/-- One token read where a name may stand. -/
def Reader.readName (r : Reader) : Token → Option Reader
  | .scalar (.string name) =>
    match r.stack with
    | .object members _ :: outer =>
      some { r with stack := .object members name :: outer, expected := .colon }
    | _ => none
  | _ => none

/-- One token read. -/
def Reader.step (r : Reader) (t : Token) : Option Reader :=
  match r.expected, t, r.stack with
  | .firstItem, .mark ']', .array _ :: outer => some (Reader.put outer (.array []))
  | .firstItem, t, _ => r.readValue t
  | .value, t, _ => r.readValue t
  | .firstName, .mark '\x7d', .object _ _ :: outer => some (Reader.put outer (.object []))
  | .firstName, t, _ => r.readName t
  | .name, t, _ => r.readName t
  | .colon, .mark ':', _ => some { r with expected := .value }
  | .colon, _, _ => none
  | .afterValue, .mark ',', .array _ :: _ => some { r with expected := .value }
  | .afterValue, .mark ',', .object _ _ :: _ => some { r with expected := .name }
  | .afterValue, .mark ']', .array items :: outer =>
    some (Reader.put outer (.array items.reverse))
  | .afterValue, .mark '\x7d', .object members _ :: outer =>
    some (Reader.put outer (.object members))
  | .afterValue, _, _ => none

/-- The value of a text. -/
def read? (text : String) : Option Json := do
  let ts ← tokens? text.toList
  let reader ← ts.foldlM Reader.step Reader.start
  if reader.stack.isEmpty then reader.result else none

end PotExtract.Json
