import PotExtract.Source.Token

/-!
# Quoted literals

A literal is written in single or in double quotes, and each style takes the
backslash away from other characters.

* `Literal.parse?`: a text read as exactly one literal;
* `Literal.decode`: the text a literal stands for.
-/

namespace PotExtract.Source

/-- The two ways to quote a literal. -/
inductive QuoteStyle where
  | single
  | double
  deriving DecidableEq, Repr

/-- The style a quotation mark opens. -/
def QuoteStyle.ofMark? : Char → Option QuoteStyle
  | '\'' => some .single
  | '"' => some .double
  | _ => none

/-- The quotation mark of a style. -/
def QuoteStyle.mark : QuoteStyle → Char
  | .single => '\''
  | .double => '"'

/-- The characters that lose the backslash before them. -/
def QuoteStyle.escapes (style : QuoteStyle) (c : Char) : Bool :=
  c == style.mark || (style == .single && c == '\\')

/-- A quoted literal. -/
structure Literal where
  style : QuoteStyle
  /-- What is written between the quotation marks. -/
  body : List Char
  deriving DecidableEq, Repr

/-- Reads a text that is one literal from its first character to its last. -/
def Literal.parse? (s : List Char) : Option Literal :=
  match next? s with
  | some (.literal quote body, []) => (QuoteStyle.ofMark? quote).map (⟨·, body⟩)
  | _ => none

/-- The text a body stands for. A backslash goes with the character after it, and is dropped
before those the style escapes. -/
def unescape (style : QuoteStyle) : List Char → List Char
  | [] => []
  | '\\' :: c :: r =>
    if style.escapes c then c :: unescape style r else '\\' :: c :: unescape style r
  | c :: r => c :: unescape style r

/-- The text a literal stands for. -/
def Literal.decode (literal : Literal) : List Char :=
  unescape literal.style literal.body

end PotExtract.Source
