import PotExtract.Catalog
import PotExtract.Template.Header

/-!
# The template of a catalog

The header, then the entries in the order of the catalog. An empty line comes
before each entry.
-/

namespace PotExtract.Template

/-- The comment that says where an entry was found. -/
def referenceLine (e : Entry) : String :=
  "#: " ++ String.intercalate " " (e.occurrences.map Source.Location.reference)

/-- The fields of an entry: its texts, and a place for each form of the translation. -/
def entryFields (e : Entry) : List String :=
  (e.context.map (fieldLines "msgctxt")).getD [] ++ fieldLines "msgid" e.msgid ++
    match e.plural with
    | some plural =>
      fieldLines "msgid_plural" plural ++ ["msgstr[0] " ++ quote "", "msgstr[1] " ++ quote ""]
    | none => ["msgstr " ++ quote ""]

/-- The lines of an entry. -/
def entryLines (e : Entry) : List String :=
  referenceLine e :: entryFields e

/-- The template of a catalog. -/
def render (header : Header) (date : Timestamp) (catalog : Catalog) : String :=
  unlines (header.lines date ++ catalog.entries.toList.flatMap fun e => "" :: entryLines e)

end PotExtract.Template
