/-!
# Styled text

Text for a terminal, which may have colours or not.

* `Span.render`: a piece of text between the codes of its style.
-/

namespace PotExtract

/-- How a piece of text looks. -/
inductive Style where
  | plain
  | bold
  | cyan
  | green
  | red
  | boldRed
  | boldYellow
  deriving DecidableEq, Repr

/-- The code that begins a style. Plain text has none. -/
def Style.code? : Style → Option String
  | .plain => none
  | .bold => some "\x1b[1m"
  | .cyan => some "\x1b[36m"
  | .green => some "\x1b[32m"
  | .red => some "\x1b[31m"
  | .boldRed => some "\x1b[1;31m"
  | .boldYellow => some "\x1b[1;33m"

/-- The code that ends every style. -/
def resetCode : String := "\x1b[0m"

/-- A piece of text with its style. -/
structure Span where
  style : Style
  text : String
  deriving DecidableEq, Repr

/-- A piece of text as it is written. A style is taken up again wherever the text itself ends
it. -/
def Span.render (colors : Bool) (span : Span) : String :=
  match colors, span.style.code? with
  | true, some code => code ++ span.text.replace resetCode (resetCode ++ code) ++ resetCode
  | _, _ => span.text

/-- A line as it is written. -/
def renderLine (colors : Bool) (line : List Span) : String :=
  String.join (line.map (Span.render colors)) ++ "\n"

end PotExtract
