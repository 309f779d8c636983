import PotExtract.Source.Token

/-!
# Argument lists

The text between a call's parentheses, cut at its top-level commas. Each
argument runs from its first to its last significant token; blanks and
comments around it are left out.

* `arguments`: the arguments of a list, in order. A comma at the end adds
  none, and a list with no significant token has none.
-/

namespace PotExtract.Source

/-- Comments and blanks say nothing. -/
def Token.isSignificant : Token → Bool
  | .comment _ => false
  | .char c => !isSpace c
  | _ => true

/-- The nesting depth after a token. A closing mark with no partner is passed over. -/
def Token.depthAfter (depth : Nat) : Token → Nat
  | .char c =>
    if c = '(' || c = '[' then depth + 1
    else if c = ')' || c = ']' then depth - 1
    else depth
  | _ => depth

/-- The arguments still to come. `arg` is the argument being read, up to its last significant
token, and `gap` what was passed since; both have their last character first. -/
def argumentsFrom (depth : Nat) (arg gap : List Char) : List Token → List (List Char)
  | [] => if arg.isEmpty then [] else [arg.reverse]
  | t :: ts =>
    if depth = 0 ∧ t = .char ',' then
      arg.reverse :: argumentsFrom 0 [] [] ts
    else if t.isSignificant then
      let before := if arg.isEmpty then [] else gap ++ arg
      argumentsFrom (t.depthAfter depth) (t.text.reverse ++ before) [] ts
    else
      argumentsFrom depth arg (t.text.reverse ++ gap) ts

/-- The arguments in the text between a call's parentheses. -/
def arguments (inside : List Char) : List (List Char) :=
  argumentsFrom 0 [] [] (tokens inside)

end PotExtract.Source
