/-!
# Glob patterns

Patterns over the characters of a path, in which `?`, `*`, `**` and bracketed
classes stand for others.

* `Pattern.compile?`: a pattern in its parts, or where and why it is none;
* `Pattern.accepts`: whether a whole text matches. Every part may match a
  slash; `**` matches nothing, or up to a slash, or up to the end.
-/

namespace PotExtract.Glob

/-- One member of a bracketed class. -/
inductive ClassItem where
  | char (c : Char)
  /-- All characters from one to another; none if they are out of order. -/
  | range (low high : Char)
  deriving DecidableEq, Repr

/-- Whether a class item holds a character. -/
def ClassItem.accepts (c : Char) : ClassItem → Bool
  | .char d => c == d
  | .range low high => low ≤ c && c ≤ high

/-- One part of a pattern. -/
inductive Part where
  | char (c : Char)
  | anyChar
  /-- One of the characters of a class, or one of all others if it is negated. -/
  | oneOf (negated : Bool) (items : List ClassItem)
  | anySequence
  /-- Any directories, with the slash after them. -/
  | anyDirectories
  deriving DecidableEq, Repr

/-- Why a text is no pattern. -/
inductive Fault where
  /-- More than two stars in a row. -/
  | tooManyStars
  /-- Two stars that are not a whole component. -/
  | partialComponent
  /-- A class that nothing closes, or that is empty. -/
  | invalidClass
  deriving DecidableEq, Repr

/-- What is wrong with a pattern, and at which of its characters. -/
structure PatternError where
  position : Nat
  fault : Fault
  deriving DecidableEq, Repr

/-- A fault in words. -/
def Fault.message : Fault → String
  | .tooManyStars => "wildcards are either regular `*` or recursive `**`"
  | .partialComponent => "recursive wildcards must form a single path component"
  | .invalidClass => "invalid range pattern"

/-- An error in words. -/
def PatternError.message (e : PatternError) : String :=
  "Pattern syntax error near position " ++ toString e.position ++ ": " ++ e.fault.message

/-- The items between the brackets of a class. -/
def classItems : List Char → List ClassItem
  | low :: '-' :: high :: r => .range low high :: classItems r
  | c :: r => .char c :: classItems r
  | [] => []

/-- The class that begins with these characters, and what follows it. The first of them is never
the closing bracket. -/
def classOf? (negated : Bool) : List Char → Option (Part × List Char)
  | [] => none
  | first :: r =>
    match r.dropWhile (· != ']') with
    | [] => none
    | _ :: rest =>
      some (.oneOf negated (classItems (first :: r.takeWhile (· != ']'))), rest)

/-- The class after its opening bracket, and what follows it. An exclamation mark negates. -/
def bracketed? : List Char → Option (Part × List Char)
  | '!' :: r => classOf? true r
  | s => classOf? false s

theorem length_classOf? {negated : Bool} {s rest : List Char} {part : Part}
    (h : classOf? negated s = some (part, rest)) : rest.length < s.length := by
  cases s with
  | nil => simp [classOf?] at h
  | cons first r =>
    have := (List.dropWhile_sublist (l := r) (· != ']')).length_le
    simp only [classOf?] at h
    split at h <;> simp_all
    omega

theorem length_bracketed? {s rest : List Char} {part : Part}
    (h : bracketed? s = some (part, rest)) : rest.length < s.length := by
  unfold bracketed? at h
  split at h
  · exact Nat.lt_succ_of_lt (length_classOf? h)
  · exact length_classOf? h

/-- The parts of the pattern from a position on; `before` is the character there, and `parts`
what is already compiled, last part first. Two parts for directories in a row, not at the start
of the pattern, are one. -/
def compileFrom (position : Nat) (before : Option Char) (parts : List Part) (s : List Char) :
    Except PatternError (List Part) :=
  match s with
  | [] => .ok parts.reverse
  | '*' :: '*' :: '*' :: _ => .error ⟨position + 2, .tooManyStars⟩
  | '*' :: '*' :: r =>
    if before ≠ none ∧ before ≠ some '/' then .error ⟨position - 1, .partialComponent⟩
    else
      let parts :=
        match parts with
        | .anyDirectories :: _ :: _ => parts
        | _ => .anyDirectories :: parts
      match r with
      | [] => .ok parts.reverse
      | '/' :: r => compileFrom (position + 3) (some '/') parts r
      | _ => .error ⟨position + 2, .partialComponent⟩
  | '*' :: r => compileFrom (position + 1) (some '*') (.anySequence :: parts) r
  | '?' :: r => compileFrom (position + 1) (some '?') (.anyChar :: parts) r
  | '[' :: r =>
    match _ : bracketed? r with
    | none => .error ⟨position, .invalidClass⟩
    | some (part, rest) =>
      compileFrom (position + 1 + (r.length - rest.length)) (some ']') (part :: parts) rest
  | c :: r => compileFrom (position + 1) (some c) (.char c :: parts) r
termination_by s.length
decreasing_by
  all_goals simp only [List.length_cons]
  all_goals try omega
  exact Nat.lt_succ_of_lt (length_bracketed? ‹_›)

/-- A compiled pattern. -/
structure Pattern where
  parts : List Part
  deriving DecidableEq, Repr

/-- A text compiled as a pattern. -/
def Pattern.compile? (text : String) : Except PatternError Pattern :=
  (compileFrom 0 none [] text.toList).map Pattern.mk

/-- A text and all that is left of it after each of its characters. -/
def suffixes : List Char → List (List Char)
  | [] => [[]]
  | c :: r => (c :: r) :: suffixes r

/-- What is left of a text after each of its slashes. -/
def afterSlashes : List Char → List (List Char)
  | [] => []
  | c :: r => if c = '/' then r :: afterSlashes r else afterSlashes r

/-- Whether the parts match a whole text. -/
def acceptsParts : List Part → List Char → Bool
  | [], s => s.isEmpty
  | .anySequence :: parts, s => (suffixes s).any (acceptsParts parts)
  | .anyDirectories :: parts, s =>
    acceptsParts parts [] || (s :: afterSlashes s).any (acceptsParts parts)
  | .anyChar :: parts, s =>
    match s with
    | [] => false
    | _ :: r => acceptsParts parts r
  | .oneOf negated items :: parts, s =>
    match s with
    | [] => false
    | c :: r => (items.any (·.accepts c) != negated) && acceptsParts parts r
  | .char d :: parts, s =>
    match s with
    | [] => false
    | c :: r => c == d && acceptsParts parts r

/-- Whether the pattern matches a whole text. -/
def Pattern.accepts (pattern : Pattern) (text : String) : Bool :=
  acceptsParts pattern.parts text.toList

/-- The pattern stands for any directories, at any depth. -/
def Pattern.isRecursive (pattern : Pattern) : Bool :=
  pattern.parts.contains .anyDirectories

end PotExtract.Glob
