import PotExtract.Files.Tree
import PotExtract.Glob.Pattern

/-!
# Paths that match a pattern

A pattern is taken apart at its slashes, and each component is looked up in
the directories that match those before it. The search starts at the top or in
the working directory; paths found from there begin with a slash or a name.

* `Tree.expand`: the paths that match, in the order in which a search from
  the top meets them.
-/

namespace PotExtract

open Glob

/-- The text a pattern stands for, if it has no wildcards. -/
def Glob.Pattern.literal? (pattern : Pattern) : Option String :=
  String.ofList <$> pattern.parts.mapM fun part =>
    match part with
    | .char c => some c
    | _ => none

/-- A path whose name matches a component. -/
def Glob.Pattern.acceptsName (pattern : Pattern) (p : Path) : Bool :=
  match p.fileName? with
  | some name => pattern.accepts name
  | none => false

/-- The dots that a component matches if it begins with one; they are no names in a
directory. -/
def Glob.Pattern.dots (pattern : Pattern) : List String :=
  if pattern.parts.head? = some (.char '.') then ["..", "."].filter pattern.accepts else []

/-- The path is the working directory, spelled with a dot. -/
def Path.isHere (p : Path) : Bool :=
  p.components == [.here]

/-- A path continued by names; the working directory is not spelled. -/
def Path.continueBy (p : Path) (names : List String) : Path :=
  match names with
  | [] => p
  | name :: rest => (if p.isHere then ⟨name⟩ else p.join ⟨name⟩ : Path).joinNames rest

namespace Tree

/-- Everything under a directory, by the names that lead there from it. -/
def namesBelow (t : Tree) (p : Path) : List (List String) :=
  match t.find p with
  | .ok (place, .directory) => (t.below place).map Prod.fst
  | _ => []

/-- The paths that continue `p` and match the components. -/
def expandFrom (t : Tree) (p : Path) : List Pattern → List Path
  | [] => [p]
  | pattern :: rest =>
    match pattern.literal? with
    | some text =>
      let next : Path := if p.isHere then ⟨text⟩ else p.join ⟨text⟩
      let found :=
        if text = "." ∨ text = ".." then t.isDirectory p else t.pathExists next
      if found then t.expandFrom next rest else []
    | none =>
      let inside := t.namesBelow p
      if pattern.isRecursive then
        match rest with
        | [] => (inside.map p.continueBy).filter t.isDirectory
        | next :: rest =>
          if next.isRecursive then t.expandFrom p (next :: rest)
          else (inside.map p.continueBy).flatMap fun q =>
            if next.acceptsName q then t.expandFrom q rest else []
      else if t.isDirectory p then
        let dots := pattern.dots.map fun dot => p.join ⟨dot⟩
        let names := (inside.filter fun names => names.length = 1).map p.continueBy
        (dots ++ names.filter pattern.acceptsName).flatMap fun q => t.expandFrom q rest
      else []

/-- The components of a pattern; a slash at its end adds none. -/
def patternPieces (p : Path) : List String :=
  if p.pieces.getLast? = some "" then p.pieces.dropLast else p.pieces

/-- The components of a pattern that are looked up. What stands before the slash that begins it is
none. -/
def globPieces (p : Path) : List String :=
  if p.isAbsolute then (patternPieces p).tail else patternPieces p

/-- Where the components of a pattern are looked up. -/
def globStart (p : Path) : Path :=
  if p.isAbsolute then ⟨"/"⟩ else ⟨"."⟩

/-- The paths that match a pattern. The whole of it has to be a pattern, and each of its
components too. -/
def expand (t : Tree) (pattern : Path) : Except PatternError (List Path) := do
  let _ ← Pattern.compile? pattern.text
  let components ← (globPieces pattern).mapM Pattern.compile?
  return t.expandFrom (globStart pattern) components

end Tree

end PotExtract
