import PotExtract.Call.Record

/-!
# Calls in a source text

A call is the name of a translation function, blanks, and a parenthesis. It
counts wherever it stands, within the arguments of another call and within
comments and literals too.

* `callSites`: the calls of a text, in order;
* `extract`: the message of each call, or the reason why it has none.
-/

namespace PotExtract

open Source

/-- The characters of names. Every character outside ASCII is one. -/
def isWordChar (c : Char) : Bool :=
  c.isAlphanum || c == '_' || 0x80 ≤ c.toNat

/-- The characters that can begin a name. -/
def isWordStart (c : Char) : Bool :=
  c.isAlpha || c == '_' || 0x80 ≤ c.toNat

/-- A name may begin after this character: it does not continue a name, nor make a variable of
what follows. -/
def endsWord (c : Char) : Bool :=
  !(isWordChar c || c == '$')

/-- The place of a call in a source text. -/
structure CallSite where
  /-- The byte offset of the function's name. -/
  offset : Nat
  function : Function
  /-- The text after the opening parenthesis. -/
  rest : List Char
  deriving DecidableEq, Repr

/-- The translation function whose call begins a text, and what follows its parenthesis. -/
def callAt? (s : List Char) : Option (Function × List Char) :=
  match Function.named? (String.ofList (s.takeWhile isWordChar)) with
  | none => none
  | some f =>
    match (s.dropWhile isWordChar).dropWhile isSpace with
    | '(' :: rest => some (f, rest)
    | _ => none

/-- The calls of a text that stands at a byte offset, added to `found`, whose last is first.
`fresh` says that a name may begin here. -/
def callSitesFrom (found : List CallSite) (offset : Nat) (fresh : Bool) :
    List Char → List CallSite
  | [] => found.reverse
  | c :: r =>
    let site? := if fresh && isWordStart c then callAt? (c :: r) else none
    let found :=
      match site? with
      | some (f, rest) => ⟨offset, f, rest⟩ :: found
      | none => found
    callSitesFrom found (offset + c.utf8Size) (endsWord c) r

/-- The calls of a source text. -/
def callSites (s : List Char) : List CallSite :=
  callSitesFrom [] 0 true s

/-- The calls of a file that were read, and those that were not, both in order. -/
structure Extraction where
  records : List Record
  skipped : List Skipped
  deriving DecidableEq, Repr

/-- A call read at its place. -/
def CallSite.read (site : CallSite) (location : Location) : Except Skipped Record :=
  match site.function.readCall site.rest with
  | .ok message => .ok { message with location }
  | .error reason => .error ⟨location, site.function, reason⟩

/-- The messages of a source text. -/
def extract (path : String) (text : List Char) : Extraction :=
  let lines := LineIndex.ofText text
  let results := (callSites text).map fun site => site.read ⟨path, lines.lineOf site.offset⟩
  { records := results.filterMap Except.toOption
    skipped := results.filterMap fun result =>
      match result with
      | .ok _ => none
      | .error skipped => some skipped }

end PotExtract
