import PotExtract.Call.Extract
import PotExtract.Checked.Source

/-!
# Extraction in bytes

The scan for calls, with every byte it reads, every slice it takes and every
role it looks up.

* `extractCall`: the message of the call at a parenthesis;
* `scan`, `extract`: the calls from an offset on, and those of a text.
-/

namespace PotExtract.Checked

open Source

/-! ## The scans -/

/-- The place after a run of bytes of a class that begins at `i`. -/
def runEnd (q : UInt8 → Bool) (bytes : List UInt8) (i : Nat) : Checked Nat :=
  if i < bytes.length then do
    let b ← byteAt bytes i
    if q b then runEnd q bytes (i + 1) else return i
  else return i
termination_by bytes.length - i

/-- The place of the parenthesis that comes at `i` or after blanks there. -/
def openAfter (bytes : List UInt8) (i : Nat) : Checked (Option Nat) := do
  let opens ← runEnd isSpaceByte bytes i
  return if bytes[opens]? = some '('.toUInt8 then some opens else none

/-- An argument read for its role. -/
def readRole (role : Role) (raw : List Char) : Checked (Except SkipReason String) := do
  let arg ← unwrap raw
  match role with
  | .text | .plural | .context =>
    match ← parse? arg with
    | none => return .error (.notLiteral role)
    | some literal => return .ok (String.ofList literal.decode)
  | .count => return .ok (String.ofList raw)
  | .domain =>
    match ← parse? arg with
    | none => return .ok (String.ofList arg)
    | some literal => return .ok (String.ofList literal.body)

/-- The arguments that have a role, each read for it, up to one that cannot be read. -/
def readAll : List Role → List (List Char) → Checked (Except SkipReason (List (Role × String)))
  | role :: roles, raw :: args => do
    match ← readRole role raw with
    | .error reason => return .error reason
    | .ok value => do
      let values ← readAll roles args
      return values.map ((role, value) :: ·)
  | _, _ => return .ok []

/-- The message of an argument list. -/
def readMessage (f : Function) (args : List (List Char)) : Checked (Except SkipReason Message) :=
  if args.length < f.required then
    match f.roles[args.length]? with
    | none => .error (.role args.length)
    | some role => return .error (.missing role)
  else do
    match ← readAll f.roles args with
    | .error reason => return .error reason
    | .ok values =>
      match values.lookup .text with
      | none => .error .noText
      | some text =>
        return .ok {
          text
          plural := values.lookup .plural
          context := values.lookup .context
          domain := values.lookup .domain }

/-- The message of the call whose parenthesis opens at a byte offset. -/
def extractCall (text : List Char) (f : Function) (opens : Nat) :
    Checked (Except SkipReason Message) := do
  match ← findParen text opens with
  | none => return .error .unbalanced
  | some close => do
    let inside ← slice text (opens + 1) close
    let args ← split inside
    readMessage f args

/-- Whether a name that begins at `i` continues no other and is no variable's. -/
def mayBegin (bytes : List UInt8) (i : Nat) : Checked Bool :=
  if i = 0 then return true
  else do
    let before ← lower i
    let b ← byteAt bytes before
    return !(isWordByte b || b == '$'.toUInt8)

/-- The line of a byte offset. -/
def lineAt (lines : LineIndex) (offset : Nat) : Checked Nat :=
  let line := lines.lineOf offset
  if line = 0 then .error (.line offset) else .ok line

/-- The call whose name stands between two byte offsets, if there is one. -/
def callBetween (path : String) (text : List Char) (lines : LineIndex) (start stop : Nat) :
    Checked (Option (Except Skipped Record)) := do
  if ← mayBegin (utf8 text) start then
    -- A name that is no text is none of a function, and nothing has gone wrong.
    match (slice text start stop).toOption.bind (Function.named? ∘ String.ofList) with
    | none => return none
    | some f =>
      match ← openAfter (utf8 text) stop with
      | none => return none
      | some opens =>
        let line ← lineAt lines start
        match ← extractCall text f opens with
        | .ok message => return some (.ok { message with location := ⟨path, line⟩ })
        | .error reason => return some (.error ⟨⟨path, line⟩, f, reason⟩)
  else return none

/-- The bytes that can begin a name. -/
def isWordStartByte (b : UInt8) : Bool :=
  ('A'.toUInt8 ≤ b && b ≤ 'Z'.toUInt8) || ('a'.toUInt8 ≤ b && b ≤ 'z'.toUInt8) ||
    b == '_'.toUInt8 || 0x80 ≤ b

/-- The calls from a byte offset on. -/
def scan (path : String) (text : List Char) (lines : LineIndex) (i : Nat) :
    Checked (List (Except Skipped Record)) :=
  if i < (utf8 text).length then do
    let b ← byteAt (utf8 text) i
    if isWordStartByte b then
      let stop ← runEnd isWordByte (utf8 text) i
      let result? ← callBetween path text lines i stop
      -- The scan goes on right after the name, so it finds calls within this one.
      let ⟨next, _⟩ ← advance i stop
      let results ← scan path text lines next
      return result?.toList ++ results
    else scan path text lines (i + 1)
  else return []
termination_by (utf8 text).length - i
decreasing_by all_goals omega

/-- The messages of a source text. -/
def extract (path : String) (text : List Char) : Checked Extraction := do
  let results ← scan path text (LineIndex.ofText text) 0
  return {
    records := results.filterMap Except.toOption
    skipped := results.filterMap fun result =>
      match result with
      | .ok _ => none
      | .error skipped => some skipped }

end PotExtract.Checked
