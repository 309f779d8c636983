/-!
# Fields of a template

A field is a keyword and a quoted text. A text with line feeds is written as
one quoted line for each of its lines, after an empty one.
-/

namespace PotExtract.Template

/-- A character as it stands between quotation marks. -/
def escapeChar (c : Char) : List Char :=
  match c with
  | '\\' => ['\\', '\\']
  | '"' => ['\\', '"']
  | '\t' => ['\\', 't']
  | '\r' => ['\\', 'r']
  | '\n' => ['\\', 'n']
  | c => [c]

/-- A text as it stands between quotation marks. -/
def escape (s : String) : String :=
  String.ofList (s.toList.flatMap escapeChar)

/-- A text between quotation marks. -/
def quote (s : String) : String :=
  "\"" ++ escape s ++ "\""

/-- The lines of a text, each with the line feed that ends it. -/
def segments : List Char → List (List Char)
  | [] => []
  | c :: r =>
    if c = '\n' then [c] :: segments r
    else
      match segments r with
      | [] => [[c]]
      | line :: lines => (c :: line) :: lines

/-- The lines of a field, without the line feeds that end them. -/
def fieldLines (keyword text : String) : List String :=
  if '\n' ∈ text.toList then
    (keyword ++ " " ++ quote "") ::
      (segments text.toList).map fun line => quote (String.ofList line)
  else [keyword ++ " " ++ quote text]

/-- Lines as a text; a line feed ends each. -/
def unlines (lines : List String) : String :=
  String.join (lines.map (· ++ "\n"))

theorem unlines_cons (line : String) (lines : List String) :
    unlines (line :: lines) = line ++ "\n" ++ unlines lines := by
  simp [unlines]

theorem unlines_append (lines more : List String) :
    unlines (lines ++ more) = unlines lines ++ unlines more := by
  rw [unlines, List.map_append, String.join_append]
  rfl

theorem count_unlines (lines : List String) :
    (unlines lines).toList.count '\n' =
      lines.length + (lines.flatMap String.toList).count '\n' := by
  induction lines with
  | nil => rfl
  | cons line lines ih =>
    have whole : (unlines (line :: lines)).toList =
        line.toList ++ '\n' :: (unlines lines).toList := by
      simp [unlines]
    rw [whole, List.count_append, List.count_cons_self, ih, List.flatMap_cons, List.count_append,
      List.length_cons]
    omega

end PotExtract.Template
