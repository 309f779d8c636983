/-!
# Paths

A path is a text whose slashes separate components. Empty components, and
dots that do not begin the path, say nothing.

* `Path.components`: what a path says, by which paths are compared;
* `Path.join`, `Path.parent?`, `Path.relativeTo?`: operations that keep the
  spelling of what they leave.
-/

namespace PotExtract

/-- A path as it is spelled. -/
structure Path where
  text : String
  deriving DecidableEq, Repr

namespace Path

/-- One component of a path. -/
inductive Component where
  /-- The slash that begins a path. -/
  | root
  /-- The dot that begins a path. -/
  | here
  /-- Two dots. -/
  | up
  | name (text : String)
  deriving DecidableEq, Repr

/-- The place of a kind of component in the order. -/
def Component.rank : Component → Nat
  | .root => 0
  | .here => 1
  | .up => 2
  | .name _ => 3

/-- Names come last and in the order of their characters. -/
def Component.compare : Component → Component → Ordering
  | .name a, .name b => Ord.compare a b
  | a, b => Ord.compare a.rank b.rank

/-- The pieces of a text between slashes. -/
def splitSlashes : List Char → List (List Char)
  | [] => [[]]
  | c :: r =>
    if c = '/' then [] :: splitSlashes r
    else
      match splitSlashes r with
      | [] => [[c]]
      | piece :: pieces => (c :: piece) :: pieces

/-- The pieces of a path between its slashes; there is at least one. -/
def pieces (p : Path) : List String :=
  (splitSlashes p.text.toList).map String.ofList

/-- Pieces put together again. -/
def ofPieces (pieces : List String) : Path :=
  ⟨String.intercalate "/" pieces⟩

/-- What a piece after the first says. -/
def component? (piece : String) : Option Component :=
  if piece = "" ∨ piece = "." then none
  else if piece = ".." then some .up
  else some (.name piece)

/-- What the first piece says, with at least one slash after it if `more` holds. -/
def firstComponent? (piece : String) (more : Bool) : Option Component :=
  if piece = "" then (if more then some .root else none)
  else if piece = "." then some .here
  else component? piece

/-- What a path says. -/
def components (p : Path) : List Component :=
  match p.pieces with
  | [] => []
  | first :: rest => (firstComponent? first !rest.isEmpty).toList ++ rest.filterMap component?

/-- Paths by their components, from the first on. -/
def compareComponents : List Component → List Component → Ordering
  | [], [] => .eq
  | [], _ :: _ => .lt
  | _ :: _, [] => .gt
  | a :: as, b :: bs => (a.compare b).then (compareComponents as bs)

/-- The path begins with a slash. -/
def isAbsolute (p : Path) : Bool :=
  p.text.toList.head? == some '/'

/-- A path continued by another. An absolute path stands for itself. -/
def join (p q : Path) : Path :=
  if q.isAbsolute || p.text.isEmpty then q
  else if p.text.toList.getLast? = some '/' then ⟨p.text ++ q.text⟩
  else ⟨p.text ++ "/" ++ q.text⟩

/-- A path continued by names. -/
def joinNames (p : Path) (names : List String) : Path :=
  names.foldl (fun p name => p.join ⟨name⟩) p

/-- Pieces without those at the end that say nothing. -/
def trimEnd (pieces : List String) : List String :=
  (pieces.reverse.dropWhile fun piece => (component? piece).isNone).reverse

/-- The path without its last component. A path with no component, and a slash alone, have no
parent. -/
def parent? (p : Path) : Option Path :=
  match p.pieces with
  | [] => none
  | first :: rest =>
    match trimEnd rest with
    | [] => if first = "" then none else some ⟨""⟩
    | rest =>
      match first, trimEnd rest.dropLast with
      | "", [] => some ⟨"/"⟩
      | first, rest => some (ofPieces (first :: rest))

/-- A path and its parents, the path first. A path has fewer parents than pieces. -/
def ancestors (p : Path) : List Path :=
  go (p.pieces.length + 1) p
where
  go : Nat → Path → List Path
    | 0, _ => []
    | n + 1, p =>
      match p.parent? with
      | none => [p]
      | some parent => p :: go n parent

/-- The name that a path ends with. -/
def fileName? (p : Path) : Option String :=
  match p.components.getLast? with
  | some (.name text) => some text
  | _ => none

/-- The part of the name after its last dot, unless that dot begins the name. -/
def extension? (p : Path) : Option String :=
  match p.fileName? with
  | none => none
  | some name =>
    let after := name.toList.reverse.takeWhile (· != '.')
    match name.toList.reverse.drop after.length with
    | [] | ['.'] => none
    | _ => some (String.ofList after.reverse)

/-- One path continues another. -/
def startsWith (p base : Path) : Bool :=
  base.components.isPrefixOf p.components

/-- Pieces after the first without their first `n` components, and what says nothing after
them. -/
def dropComponents : Nat → List String → List String
  | _, [] => []
  | n, piece :: rest =>
    match component? piece, n with
    | none, n => dropComponents n rest
    | some _, 0 => piece :: rest
    | some _, n + 1 => dropComponents n rest

/-- What a path says after another that it continues. -/
def relativeTo? (p base : Path) : Option Path :=
  if p.startsWith base then
    match base.components.length, p.pieces with
    | 0, _ => some p
    | n + 1, _ :: rest => some (ofPieces (dropComponents n rest))
    | _ + 1, [] => some ⟨""⟩
  else none

end Path

end PotExtract
