import PotExtract.Files.Path

/-!
# File trees

All files and directories, and the one among them that is the working
directory. A place in the tree is the list of the names that lead to it from
the top.

* `Path.placeOf`: the place that what a path says leads to;
* `Tree.locate`: the place a path leads to in a tree;
* `Tree.read`, `Tree.write`, `Tree.createDirectories`: what programs do with
  paths, or the system's reason why it cannot be done;
* `Tree.walk`: everything at and below a path.
-/

namespace PotExtract

/-- The names that lead to a place. -/
abbrev Place := List String

/-- The place that a component leads to. Two dots lead from the top to itself. -/
def Path.Component.enter (place : Place) : Path.Component → Place
  | .root => []
  | .here => place
  | .up => place.dropLast
  | .name text => place ++ [text]

/-- The place that components lead to from a working directory, if there is a directory wherever
one is needed. -/
def Path.placeOf (home : Place) (said : List Path.Component) : Place :=
  said.foldl Component.enter home

/-- What is at a place. -/
inductive Node where
  | directory
  | text (content : String)
  /-- A file whose bytes are not UTF-8. -/
  | binary
  deriving DecidableEq, Repr

/-- A file with these bytes. -/
def Node.ofBytes (bytes : ByteArray) : Node :=
  match String.fromUTF8? bytes with
  | some content => .text content
  | none => .binary

/-- Why an operation on a path fails. -/
inductive FileError where
  | notFound
  | notADirectory
  | isADirectory
  | alreadyExists
  | invalidText
  deriving DecidableEq, Repr

/-- An error in the words of the system. -/
def FileError.message : FileError → String
  | .notFound => "No such file or directory (os error 2)"
  | .notADirectory => "Not a directory (os error 20)"
  | .isADirectory => "Is a directory (os error 21)"
  | .alreadyExists => "File exists (os error 17)"
  | .invalidText => "stream did not contain valid UTF-8"

/-- All files and directories, each at its place, apart from the top itself. -/
structure Tree where
  nodes : List (Place × Node)
  /-- The working directory, where relative paths start. -/
  home : Place := []
  deriving DecidableEq, Repr

namespace Tree

/-- A working directory at the top, with nothing in it. -/
def empty : Tree := { nodes := [] }

/-- What is at a place. -/
def node? (t : Tree) (place : Place) : Option Node :=
  if place.isEmpty then some .directory else t.nodes.lookup place

/-- The place that pieces of a path lead to. Every piece needs a directory to start from. Two dots
lead from the top to itself. -/
def locateFrom (t : Tree) (place : Place) : List String → Except FileError Place
  | [] => .ok place
  | piece :: rest =>
    match t.node? place with
    | none => .error .notFound
    | some .directory =>
      if piece = "" ∨ piece = "." then t.locateFrom place rest
      else if piece = ".." then t.locateFrom place.dropLast rest
      else t.locateFrom (place ++ [piece]) rest
    | some _ => .error .notADirectory

/-- The directory in which a path starts: the top, or the working directory. -/
def origin (t : Tree) (p : Path) : Place :=
  if p.isAbsolute then [] else t.home

/-- The place a path leads to, at which there may be nothing yet. -/
def locate (t : Tree) (p : Path) : Except FileError Place :=
  if p.text.isEmpty then .error .notFound else t.locateFrom (t.origin p) p.pieces

/-- What a path leads to, and where that is. -/
def find (t : Tree) (p : Path) : Except FileError (Place × Node) := do
  let place ← t.locate p
  match t.node? place with
  | none => .error .notFound
  | some node => return (place, node)

/-- There is something at the path. -/
def pathExists (t : Tree) (p : Path) : Bool :=
  (t.find p).isOk

/-- There is a directory at the path. -/
def isDirectory (t : Tree) (p : Path) : Bool :=
  match t.find p with
  | .ok (_, .directory) => true
  | _ => false

/-- The text of the file at a path. -/
def read (t : Tree) (p : Path) : Except FileError String := do
  match ← t.find p with
  | (_, .text content) => return content
  | (_, .binary) => .error .invalidText
  | (_, .directory) => .error .isADirectory

/-- The tree with a node put at a place. -/
def put (t : Tree) (place : Place) (node : Node) : Tree :=
  { t with nodes := go t.nodes }
where
  go : List (Place × Node) → List (Place × Node)
    | [] => [(place, node)]
    | (p, n) :: rest => if p = place then (p, node) :: rest else (p, n) :: go rest

/-- A text written to the file at a path, which is created if it is not there. A path that ends
with a slash names no file. -/
def write (t : Tree) (p : Path) (content : String) : Except FileError Tree :=
  if p.pieces.length > 1 && p.pieces.getLast? == some "" then do
    let _ ← t.locateFrom (t.origin p) (p.pieces.reverse.dropWhile (· == "")).reverse
    .error .isADirectory
  else do
    let place ← t.locate p
    match t.node? place with
    | some .directory => .error .isADirectory
    | _ => return t.put place (.text content)

/-- A directory made at a path where there is nothing. -/
def createDirectory (t : Tree) (p : Path) : Except FileError Tree := do
  let place ← t.locate p
  match t.node? place with
  | some _ => .error .alreadyExists
  | none => return t.put place .directory

/-- The first of some nested paths, innermost first, made a directory together with those around
it that are missing. What is made stays if the rest cannot be made. -/
def createAll (t : Tree) : List Path → Tree × Except FileError Unit
  | [] => (t, .ok ())
  | p :: outer =>
    match t.createDirectory p with
    | .ok t => (t, .ok ())
    | .error .notFound =>
      match t.createAll outer with
      | (t, .error e) => (t, .error e)
      | (t, .ok ()) =>
        match t.createDirectory p with
        | .ok t => (t, .ok ())
        | .error e => (t, if t.isDirectory p then .ok () else .error e)
    | .error e => (t, if t.isDirectory p then .ok () else .error e)

/-- A directory at a path, with the directories around it. -/
def createDirectories (t : Tree) (p : Path) : Tree × Except FileError Unit :=
  t.createAll (p.ancestors.filter fun q => !q.text.isEmpty)

/-- A node put at a place, together with the directories that lead to it. -/
def insert (t : Tree) (place : Place) (node : Node) : Tree :=
  let outer := (List.range place.length).map fun n => place.take n
  let missing := outer.filter fun p => (t.node? p).isNone
  (missing.foldl (fun t p => t.put p .directory) t).put place node

/-- What is under a place, by the names that lead there from it, in the order of these names. -/
def below (t : Tree) (place : Place) : List (Place × Node) :=
  let inside := t.nodes.filterMap fun (p, node) =>
    if place.isPrefixOf p && place.length < p.length then some (p.drop place.length, node)
    else none
  inside.mergeSort fun a b => (List.compareLex compare a.1 b.1).isLE

/-- Everything at and below a path, as it is reached from there. -/
def walk (t : Tree) (start : Path) : Except FileError (List (Path × Node)) := do
  let (place, node) ← t.find start
  match node with
  | .directory =>
    return (start, node) :: (t.below place).map fun (names, node) => (start.joinNames names, node)
  | node => return [(start, node)]

end Tree

end PotExtract
