import PotExtract.Source.Bytes
import PotExtract.Source.Token
import PotExtract.Text.Blank

/-!
# Matching parentheses

The parenthesis that closes an open one. Parentheses in comments and literals
do not count, and a literal that nothing closes leaves every parenthesis
before it open.

* `insideParens`: the tokens between an open parenthesis and its partner;
* `matchingParen?`: the same search at a byte offset of a text;
* `unwrap`: an argument without the parentheses around it.
-/

namespace PotExtract.Source

/-- The tokens before the parenthesis that closes the one just passed, and the text after it.
`depth` counts the parentheses opened since; `seen` holds the tokens passed, last one first. -/
def insideParens (depth : Nat) (seen : List Token) (s : List Char) :
    Option (List Token × List Char) :=
  match _ : next? s with
  | none => none
  | some (.unclosed _, _) => none
  | some (.char '(', rest) => insideParens (depth + 1) (.char '(' :: seen) rest
  | some (.char ')', rest) =>
    match depth with
    | 0 => some (seen.reverse, rest)
    | outer + 1 => insideParens outer (.char ')' :: seen) rest
  | some (t, rest) => insideParens depth (t :: seen) rest
termination_by s.length
decreasing_by all_goals exact length_next? ‹_›

/-- The text between a parenthesis just passed and its partner, and the text after that. -/
def closeParen? (s : List Char) : Option (List Char × List Char) :=
  (insideParens 0 [] s).map fun (inside, rest) => (inside.flatMap Token.text, rest)

/-- The byte offset of the partner of the parenthesis at byte offset `opens`. -/
def matchingParen? (text : List Char) (opens : Nat) : Option Nat :=
  match dropBytes opens text with
  | some ('(' :: r) => (closeParen? r).map fun (inside, _) => opens + 1 + byteSize inside
  | _ => none

/-- An argument without one layer of parentheses around all of it, nor the blanks inside them. -/
def unwrap (arg : List Char) : List Char :=
  match arg with
  | '(' :: r =>
    match closeParen? r with
    | some (inside, []) => trimBlanks inside
    | _ => arg
  | _ => arg

end PotExtract.Source
