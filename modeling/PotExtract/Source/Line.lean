/-!
# Lines and locations

Line numbers of a source text, and how a place in a file is written.

* `LineIndex.lineOf`: the line of a byte offset, found by bisection in the
  list of the places where lines begin.
-/

namespace PotExtract.Source

/-- A line of a file. -/
structure Location where
  path : String
  /-- Lines are counted from one. -/
  line : Nat
  deriving DecidableEq, Repr, Inhabited

/-- A path with slashes between its components. -/
def forwardSlashes (path : String) : String :=
  path.map fun c => if c = '\\' then '/' else c

/-- A location as a template refers to it. -/
def Location.reference (l : Location) : String :=
  forwardSlashes l.path ++ ":" ++ toString l.line

/-- A location as messages name it. -/
def Location.display (l : Location) : String :=
  l.path ++ ":" ++ toString l.line

/-- The byte offsets at which the lines of a text begin, in order. -/
structure LineIndex where
  starts : Array Nat
  deriving Repr

/-- The offsets right after the line feeds of a text that begins at `offset`, added to
`starts`. -/
def lineStarts (starts : Array Nat) (offset : Nat) : List Char → Array Nat
  | [] => starts
  | c :: r =>
    let next := offset + c.utf8Size
    lineStarts (if c = '\n' then starts.push next else starts) next r

/-- The index of a text; its first line begins at offset zero. -/
def LineIndex.ofText (s : List Char) : LineIndex :=
  ⟨lineStarts #[0] 0 s⟩

/-- How many of the sorted `starts` from `low` to `high` are at most `offset`, those below `low`
counted in. -/
def countUpTo (starts : Array Nat) (offset low high : Nat) : Nat :=
  if low < high then
    let middle := (low + high) / 2
    if starts.getD middle 0 ≤ offset then countUpTo starts offset (middle + 1) high
    else countUpTo starts offset low middle
  else low
termination_by high - low

/-- The line that holds a byte offset; an offset past the end is on the last line. -/
def LineIndex.lineOf (index : LineIndex) (offset : Nat) : Nat :=
  countUpTo index.starts offset 0 index.starts.size

end PotExtract.Source
