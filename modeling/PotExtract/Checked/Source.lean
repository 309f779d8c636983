import PotExtract.Checked.Bytes
import PotExtract.Source.Literal
import PotExtract.Text.Blank

/-!
# Source texts in bytes

Comments, literals, parentheses and arguments, found by scans that go over the
bytes of a text by index. Every read, every slice and every step down in depth
can fail, and so can a loop that gets no further.

* `skipComment`, `skipLiteral`: the place after a comment or a literal;
* `traceBody`: the scan of a literal, with the bytes that it takes along;
* `findParen`: the partner of a parenthesis;
* `split`, `unwrap`, `parse?`: the arguments of a list, an argument without
  its parentheses, and one that is a literal.
-/

namespace PotExtract.Checked

open Source

/-! ## Comments and literals -/

/-- The quotation marks. -/
def isQuoteByte (b : UInt8) : Bool :=
  b == '\''.toUInt8 || b == '"'.toUInt8

/-- The place after the mark that closes a literal; the search goes on at `i`. -/
def skipBody (bytes : List UInt8) (quote : UInt8) (i : Nat) : Checked (Option Nat) :=
  if i < bytes.length then do
    let b ← byteAt bytes i
    if b = '\\'.toUInt8 then skipBody bytes quote (i + 2)
    else if b = quote then return some (i + 1)
    else skipBody bytes quote (i + 1)
  else return none
termination_by bytes.length - i

/-- The place after the literal that begins at `i`. -/
def skipLiteral (bytes : List UInt8) (i : Nat) : Checked (Option Nat) := do
  let quote ← byteAt bytes i
  skipBody bytes quote (i + 1)

/-- The place after the mark that closes a literal, and the offsets of the backslashes that took
the next byte along; the search goes on at `i`. -/
def traceBody (bytes : List UInt8) (quote : UInt8) (i : Nat) :
    Checked (List Nat × Option Nat) :=
  if i < bytes.length then do
    let b ← byteAt bytes i
    if b = '\\'.toUInt8 then do
      let (taken, stop) ← traceBody bytes quote (i + 2)
      return (i :: taken, stop)
    else if b = quote then return ([], some (i + 1))
    else traceBody bytes quote (i + 1)
  else return ([], none)
termination_by bytes.length - i

/-- The place after a block comment; the search goes on at `i`. -/
def blockEnd (bytes : List UInt8) (i : Nat) : Checked Nat :=
  if i + 1 < bytes.length then do
    let b ← byteAt bytes i
    if b = '*'.toUInt8 then
      let next ← byteAt bytes (i + 1)
      if next = '/'.toUInt8 then return i + 2 else blockEnd bytes (i + 1)
    else blockEnd bytes (i + 1)
  else return bytes.length
termination_by bytes.length - i

/-- The place after a line comment; the search goes on at `i`. -/
def lineEnd (bytes : List UInt8) (i : Nat) : Checked Nat :=
  if i < bytes.length then do
    let b ← byteAt bytes i
    if b = '\n'.toUInt8 ∨ b = '?'.toUInt8 ∧ bytes[i + 1]? = some '>'.toUInt8 then return i
    else lineEnd bytes (i + 1)
  else return bytes.length
termination_by bytes.length - i

/-- The place after the comment that begins at `i`, if one does. -/
def skipComment (bytes : List UInt8) (i : Nat) : Checked (Option Nat) := do
  let next := bytes[i + 1]?
  let b ← byteAt bytes i
  if b = '/'.toUInt8 ∧ next = some '*'.toUInt8 then some <$> blockEnd bytes (i + 2)
  else if b = '/'.toUInt8 ∧ next = some '/'.toUInt8 then some <$> lineEnd bytes (i + 2)
  else if b = '#'.toUInt8 ∧ next ≠ some '['.toUInt8 then some <$> lineEnd bytes (i + 1)
  else return none

/-! ## Parentheses -/

/-- The parenthesis that brings the depth to zero; the search goes on at `i`. -/
def closeFrom (bytes : List UInt8) (depth i : Nat) : Checked (Option Nat) :=
  if i < bytes.length then do
    match ← skipComment bytes i with
    | some stop =>
      let ⟨next, _⟩ ← advance i stop
      closeFrom bytes depth next
    | none =>
      let b ← byteAt bytes i
      if isQuoteByte b then
        match ← skipLiteral bytes i with
        | none => return none
        | some stop =>
          let ⟨next, _⟩ ← advance i stop
          closeFrom bytes depth next
      else if b = '('.toUInt8 then closeFrom bytes (depth + 1) (i + 1)
      else if b = ')'.toUInt8 then
        let outer ← lower depth
        if outer = 0 then return some i else closeFrom bytes outer (i + 1)
      else closeFrom bytes depth (i + 1)
  else return none
termination_by bytes.length - i

/-- The partner of the parenthesis at a byte offset. -/
def findParen (text : List Char) (opens : Nat) : Checked (Option Nat) :=
  if (utf8 text)[opens]? = some '('.toUInt8 then closeFrom (utf8 text) 0 opens else return none

/-! ## Arguments -/

/-- A span that goes on, or begins, with a token between two offsets. -/
def stretch (span : Option (Nat × Nat)) (start stop : Nat) : Option (Nat × Nat) :=
  some ((span.map Prod.fst).getD start, stop)

/-- The text of a span. -/
def spanned (text : List Char) : Option (Nat × Nat) → Checked (List Char)
  | none => .ok []
  | some (start, stop) => slice text start stop

/-- The argument that a list ends with, if one is being read. -/
def lastArgument (text : List Char) : Option (Nat × Nat) → Checked (List (List Char))
  | none => .ok []
  | some (start, stop) => do
    let arg ← slice text start stop
    return [arg]

/-- The nesting depth after a byte. -/
def depthAfter (depth : Nat) (b : UInt8) : Nat :=
  if b = '('.toUInt8 ∨ b = '['.toUInt8 then depth + 1
  else if b = ')'.toUInt8 ∨ b = ']'.toUInt8 then depth - 1
  else depth

/-- The arguments still to come; `span` is that of the argument being read, and the scan goes on at
`i`. -/
def splitFrom (text : List Char) (depth : Nat) (span : Option (Nat × Nat)) (i : Nat) :
    Checked (List (List Char)) :=
  if i < (utf8 text).length then do
    match ← skipComment (utf8 text) i with
    | some stop =>
      let ⟨next, _⟩ ← advance i stop
      splitFrom text depth span next
    | none =>
      let b ← byteAt (utf8 text) i
      if isQuoteByte b then
        let stop ← skipLiteral (utf8 text) i
        let ⟨next, _⟩ ← advance i (stop.getD (utf8 text).length)
        splitFrom text depth (stretch span i next) next
      else if depth = 0 ∧ b = ','.toUInt8 then
        let arg ← spanned text span
        let args ← splitFrom text depth none (i + 1)
        return arg :: args
      else if isSpaceByte b then splitFrom text depth span (i + 1)
      else splitFrom text (depthAfter depth b) (stretch span i (i + 1)) (i + 1)
  else lastArgument text span
termination_by (utf8 text).length - i
decreasing_by all_goals omega

/-- The arguments in the text between a call's parentheses. -/
def split (inside : List Char) : Checked (List (List Char)) :=
  splitFrom inside 0 none 0

/-- An argument without one layer of parentheses around all of it, nor the blanks inside them. -/
def unwrap (arg : List Char) : Checked (List Char) :=
  if arg.head? = some '(' then do
    let close ← findParen arg 0
    let last ← lower (byteSize arg)
    if close = some last then
      let inside ← slice arg 1 last
      return trimBlanks inside
    else return arg
  else return arg

/-- The style that a byte opens. -/
def styleOf? (b : UInt8) : Option QuoteStyle :=
  if b = '\''.toUInt8 then some .single
  else if b = '"'.toUInt8 then some .double
  else none

/-- Reads a text that is one literal from its first byte to its last. -/
def parse? (token : List Char) : Checked (Option Literal) :=
  match (utf8 token)[0]?.bind styleOf? with
  | none => return none
  | some style => do
    match ← skipLiteral (utf8 token) 0 with
    | none => return none
    | some stop =>
      if stop = (utf8 token).length then
        let last ← lower stop
        let body ← slice token 1 last
        return some ⟨style, body⟩
      else return none

end PotExtract.Checked
