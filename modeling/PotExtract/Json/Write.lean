import PotExtract.Json.Value

/-!
# Writing JSON

Values on several lines, indented by two blanks for each level.

* `Json.pretty`: the text of a value.
-/

namespace PotExtract.Json

/-- A character as it stands in a JSON string. -/
def escapeChar (c : Char) : List Char :=
  match c with
  | '"' => ['\\', '"']
  | '\\' => ['\\', '\\']
  | '\x08' => ['\\', 'b']
  | '\x0c' => ['\\', 'f']
  | '\n' => ['\\', 'n']
  | '\r' => ['\\', 'r']
  | '\t' => ['\\', 't']
  | c =>
    if c.toNat < 0x20 then
      ['\\', 'u', '0', '0', Nat.digitChar (c.toNat / 16), Nat.digitChar (c.toNat % 16)]
    else [c]

/-- A text as a JSON string. -/
def stringText (s : String) : String :=
  String.ofList ('"' :: s.toList.flatMap escapeChar ++ ['"'])

/-- A number as it is written. -/
def numberText : Number → String
  | .integer n => toString n
  | .double negative magnitude => (if negative then "-" else "") ++ magnitude.text

/-- The blanks before a line at a level. -/
def indentation (level : Nat) : String :=
  String.ofList (List.replicate (2 * level) ' ')

/-- Parts between an opening and a closing mark, each on a line of its own. -/
def enclosed (opening closing : String) (level : Nat) (parts : List String) : String :=
  match parts with
  | [] => opening ++ closing
  | parts =>
    let indented := parts.map (indentation (level + 1) ++ ·)
    opening ++ "\n" ++ String.intercalate ",\n" indented ++ "\n" ++ indentation level ++ closing

mutual

/-- The text of a value at a level. -/
def prettyAt (level : Nat) : Json → String
  | .null => "null"
  | .bool b => if b then "true" else "false"
  | .number n => numberText n
  | .string s => stringText s
  | .array items => enclosed "[" "]" level (prettyItems (level + 1) items)
  | .object members => enclosed "\x7b" "\x7d" level (prettyMembers (level + 1) members)

/-- The texts of the items of an array. -/
def prettyItems (level : Nat) : List Json → List String
  | [] => []
  | item :: items => prettyAt level item :: prettyItems level items

/-- The texts of the members of an object. -/
def prettyMembers (level : Nat) : List (String × Json) → List String
  | [] => []
  | (name, value) :: members =>
    (stringText name ++ ": " ++ prettyAt level value) :: prettyMembers level members

end

/-- The text of a value. -/
def pretty (value : Json) : String :=
  prettyAt 0 value

end PotExtract.Json
