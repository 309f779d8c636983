import PotExtract.Proofs.Catalog.Reached
import PotExtract.Proofs.Template.Reader
import PotExtract.Template.Document

/-!
# Templates read back

A template says what its catalog holds: a reader finds the header and then the
entries, in their order, with the texts they were given.

* `headerItem`, `entryItem`: what is to be found;
* `isBlock_header`, `isBlock_entry`: the lines of each are read as it;
* `read?_render`: the template of a run is read as the run's catalog.
-/

namespace PotExtract.Template

open Source (Location forwardSlashes)

/-- The header's entry: no text, and the named values as its translation. -/
def headerItem (header : Header) (date : Timestamp) : Item where
  comments := header.preamble date
  context := none
  msgid := ""
  plural := none
  translations :=
    [String.join ((header.metadata date).map fun field => field.1 ++ ": " ++ field.2 ++ "\n")]

/-- An entry, with no translation for any of its forms. -/
def entryItem (e : Entry) : Item where
  comments := [referenceLine e]
  context := e.context
  msgid := e.msgid
  plural := e.plural
  translations := if e.plural.isSome then ["", ""] else [""]

/-! ## Comments -/

theorem lineFeed_not_mem_toDigits (n : Nat) : '\n' ∉ Nat.toDigits 10 n := by
  intro h
  cases Nat.isDigit_of_mem_toDigits (by decide) (by decide) h

theorem lineFeed_not_mem_repr (n : Int) : '\n' ∉ n.repr.toList := by
  cases n with
  | ofNat n =>
    have digits := lineFeed_not_mem_toDigits n
    simpa [Int.repr] using digits
  | negSucc n =>
    have digits := lineFeed_not_mem_toDigits (n + 1)
    simpa [Int.repr] using digits

theorem preamble_isComment (header : Header) (date : Timestamp)
    (hpackage : '\n' ∉ header.package.toList) :
    ∀ line ∈ header.preamble date, isComment line = true ∧ '\n' ∉ line.toList := by
  have year := lineFeed_not_mem_repr date.date.year
  intro line hline
  simp only [Header.preamble, List.mem_cons, List.not_mem_nil, or_false] at hline
  rcases hline with rfl | rfl
  · simp [isComment, year, hpackage]
  · simp [isComment, hpackage]

theorem lineFeed_not_mem_reference {l : Location} (h : '\n' ∉ l.path.toList) :
    '\n' ∉ l.reference.toList := by
  have path : '\n' ∉ (forwardSlashes l.path).toList := by
    intro hn
    simp only [forwardSlashes, String.toList_map, List.mem_map] at hn
    obtain ⟨c, hc, heq⟩ := hn
    split at heq
    · cases heq
    · exact h (heq ▸ hc)
  have line := lineFeed_not_mem_toDigits l.line
  simp [Location.reference, path, line]

theorem not_mem_intercalate {c : Char} {sep : String} {l : List String} (hsep : c ∉ sep.toList)
    (h : ∀ s ∈ l, c ∉ s.toList) : c ∉ (sep.intercalate l).toList := by
  induction l with
  | nil => simp
  | cons s l ih =>
    have first := h s List.mem_cons_self
    have more := ih fun t ht => h t (List.mem_cons_of_mem s ht)
    cases l with
    | nil => simpa using first
    | cons t l =>
      rw [String.intercalate_cons_cons]
      simp only [String.toList_append, List.mem_append, not_or]
      exact ⟨⟨first, hsep⟩, more⟩

theorem referenceLine_isComment {e : Entry}
    (h : ∀ l ∈ e.occurrences, '\n' ∉ l.path.toList) :
    isComment (referenceLine e) = true ∧ '\n' ∉ (referenceLine e).toList := by
  have references :
      '\n' ∉ (String.intercalate " " (e.occurrences.map Location.reference)).toList := by
    apply not_mem_intercalate (by decide)
    intro s hs
    obtain ⟨l, hl, rfl⟩ := List.mem_map.1 hs
    exact lineFeed_not_mem_reference (h l hl)
  constructor
  · simp [isComment, referenceLine]
  · rw [referenceLine, String.toList_append, List.mem_append]
    rintro (hn | hn)
    · revert hn
      decide
    · exact references hn

/-! ## Blocks -/

theorem fieldLine_eq (field : String × String) :
    Header.fieldLine field = quote (field.1 ++ ": " ++ field.2 ++ "\n") := by
  rw [← String.toList_inj]
  simp [Header.fieldLine, quote, escape, escapeChar]

theorem writes_slot (keyword : String) (h : IsKeyword keyword) :
    Writes [keyword ++ " " ++ quote ""] [⟨keyword, ""⟩] := by
  have all := writes_continued h "" []
  simpa using all

/-- The header's entry is read as two fields. -/
theorem writes_header (header : Header) (date : Timestamp) :
    Writes (["msgid " ++ quote ""] ++
        ("msgstr " ++ quote "") :: (header.metadata date).map Header.fieldLine)
      [⟨"msgid", ""⟩, ⟨"msgstr", String.join ((header.metadata date).map fun field =>
        field.1 ++ ": " ++ field.2 ++ "\n")⟩] := by
  have values : (header.metadata date).map Header.fieldLine =
      ((header.metadata date).map fun field => field.1 ++ ": " ++ field.2 ++ "\n").map quote := by
    rw [List.map_map]
    exact List.map_congr_left fun field _ => fieldLine_eq field
  have msgid : Writes ["msgid " ++ quote ""] [⟨"msgid", ""⟩] :=
    writes_slot "msgid" ⟨by decide, by decide⟩
  have msgstr : Writes (("msgstr " ++ quote "") :: (header.metadata date).map Header.fieldLine)
      [⟨"msgstr", String.join ((header.metadata date).map fun field =>
        field.1 ++ ": " ++ field.2 ++ "\n")⟩] := by
    have keyword : IsKeyword "msgstr" := ⟨by decide, by decide⟩
    have all := writes_continued keyword "" ((header.metadata date).map fun field =>
      field.1 ++ ": " ++ field.2 ++ "\n")
    rw [values]
    simpa using all
  exact msgid.append msgstr

theorem isBlock_header (header : Header) (date : Timestamp)
    (hpackage : '\n' ∉ header.package.toList) :
    IsBlock (header.lines date) (headerItem header date) := by
  have block : IsBlock (header.preamble date ++ (["msgid " ++ quote ""] ++
      ("msgstr " ++ quote "") :: (header.metadata date).map Header.fieldLine))
      (headerItem header date) :=
    .of_writes (preamble_isComment header date hpackage) (writes_header header date)
      (List.cons_ne_nil _ _) rfl
  simpa [Header.lines] using block

/-- The fields of an entry. -/
def itemFields (e : Entry) : List Field :=
  (e.context.map (Field.mk "msgctxt")).toList ++ [⟨"msgid", e.msgid⟩] ++
    match e.plural with
    | some plural => [⟨"msgid_plural", plural⟩, ⟨"msgstr[0]", ""⟩, ⟨"msgstr[1]", ""⟩]
    | none => [⟨"msgstr", ""⟩]

theorem writes_entryFields (e : Entry) : Writes (entryFields e) (itemFields e) := by
  have context : Writes ((e.context.map (fieldLines "msgctxt")).getD [])
      (e.context.map (Field.mk "msgctxt")).toList := by
    cases e.context with
    | none => exact .nil
    | some context => exact writes_fieldLines ⟨by decide, by decide⟩ context
  have msgid : Writes (fieldLines "msgid" e.msgid) [⟨"msgid", e.msgid⟩] :=
    writes_fieldLines ⟨by decide, by decide⟩ e.msgid
  apply (context.append msgid).append
  cases e.plural with
  | none => exact writes_slot "msgstr" ⟨by decide, by decide⟩
  | some plural =>
    have first : Writes ["msgstr[0] " ++ quote ""] [⟨"msgstr[0]", ""⟩] :=
      writes_slot "msgstr[0]" ⟨by decide, by decide⟩
    have second : Writes ["msgstr[1] " ++ quote ""] [⟨"msgstr[1]", ""⟩] :=
      writes_slot "msgstr[1]" ⟨by decide, by decide⟩
    have text : Writes (fieldLines "msgid_plural" plural) [⟨"msgid_plural", plural⟩] :=
      writes_fieldLines ⟨by decide, by decide⟩ plural
    exact text.append (first.append second)

theorem ofFields?_itemFields (e : Entry) :
    Item.ofFields? [referenceLine e] (itemFields e) = some (entryItem e) := by
  obtain ⟨context, msgid, plural, occurrences⟩ := e
  cases context <;> cases plural <;> rfl

theorem isBlock_entry {e : Entry} (h : ∀ l ∈ e.occurrences, '\n' ∉ l.path.toList) :
    IsBlock (entryLines e) (entryItem e) := by
  have comment : ∀ line ∈ [referenceLine e], isComment line = true ∧ '\n' ∉ line.toList := by
    intro line hline
    obtain rfl := List.mem_singleton.1 hline
    exact referenceLine_isComment h
  have ne : entryFields e ≠ [] := by
    unfold entryFields
    cases e.plural <;> simp
  exact .of_writes comment (writes_entryFields e) ne (ofFields?_itemFields e)

/-! ## The template of a run -/

/-- **A template reads back as its catalog.** For a package and paths on one line, a reader finds
the header with its named values, and then each entry with its texts, in order. The header alone
has no text. -/
theorem read?_render (header : Header) (date : Timestamp) {catalog : Catalog}
    (hpackage : '\n' ∉ header.package.toList)
    (hcatalog : catalog.Reached fun r => '\n' ∉ r.location.path.toList) :
    read? (render header date catalog) =
        some (headerItem header date :: catalog.entries.toList.map entryItem) ∧
      ∀ item ∈ catalog.entries.toList.map entryItem, item.msgid ≠ "" := by
  have paths : ∀ e ∈ catalog.entries, ∀ l ∈ e.occurrences, '\n' ∉ l.path.toList := by
    intro e he l hl
    obtain ⟨r, hr, rfl⟩ := hcatalog.exists_record he hl
    exact hr
  constructor
  · apply read?_unlines (isBlock_header header date hpackage)
    intro e he
    exact isBlock_entry (paths e (Array.mem_toList_iff.1 he))
  · intro item hitem
    obtain ⟨e, he, rfl⟩ := List.mem_map.1 hitem
    exact hcatalog.msgid_ne_empty (Array.mem_toList_iff.1 he)

/-- A record whose texts look like lines of a template. -/
def lookalike : Record :=
  ⟨⟨"\nmsgid \"\"\n", some "#\n", some "", none⟩, ⟨"a\\b", 3⟩⟩

theorem read?_render_lookalike :
    (read? (render {} ⟨1700000000, .utc⟩ (Catalog.empty.ingest .any lookalike).2)).map List.tail =
      some [⟨["#: a/b:3"], some "", "\nmsgid \"\"\n", some "#\n", ["", ""]⟩] := by
  have allowed : '\n' ∉ lookalike.location.path.toList := by decide
  have found := read?_render {} ⟨1700000000, .utc⟩ (by decide) (.ingest .empty .any allowed)
  have entries : (Catalog.empty.ingest .any lookalike).2.entries.toList =
      [⟨some "", "\nmsgid \"\"\n", some "#\n", [⟨"a\\b", 3⟩]⟩] := rfl
  have reference : Location.reference ⟨"a\\b", 3⟩ = "a/b:3" := by
    have digits : Nat.toDigits 10 3 = ['3'] := by decide
    rw [← String.toList_inj]
    simp [Location.reference, forwardSlashes, digits]
  rw [found.1, entries]
  simp [entryItem, referenceLine, reference]

end PotExtract.Template
