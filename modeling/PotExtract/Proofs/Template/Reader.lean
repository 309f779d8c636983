import PotExtract.Template.Field
import PotExtract.Source.Token

/-!
# A reader of templates

Templates as a translation editor reads them. Blank lines separate entries, a
line that begins with a number sign is a comment, and a field is a keyword with
a quoted text that further quoted lines go on with.

* `read?`: the entries of a template;
* `unquote?_quote`: a quoted text is read back;
* `Writes`: some lines are read as some fields;
* `read?_unlines`: a template is read entry by entry.
-/

namespace PotExtract.Template

open Source (isSpace)

/-! ## The reader -/

/-- The character that is written with a backslash before this one. -/
def unescapeChar? : Char → Option Char
  | '\\' => some '\\'
  | '"' => some '"'
  | 't' => some '\t'
  | 'r' => some '\r'
  | 'n' => some '\n'
  | _ => none

/-- The text up to the quotation mark that ends a line. -/
def unquoteRest? : List Char → Option (List Char)
  | [] => none
  | ['"'] => some []
  | '\\' :: c :: r => do
    let c ← unescapeChar? c
    let text ← unquoteRest? r
    return c :: text
  | c :: r => if c = '\\' ∨ c = '"' then none else (c :: ·) <$> unquoteRest? r

/-- The text of a line that is quoted. -/
def unquote? : List Char → Option String
  | '"' :: r => String.ofList <$> unquoteRest? r
  | _ => none

/-- A keyword and the text that follows it. -/
structure Field where
  keyword : String
  text : String
  deriving DecidableEq, Repr

/-- One more line after some fields, the last of which is first. -/
def addLine? (fields : List Field) (line : String) : Option (List Field) :=
  match line.toList, fields with
  | '"' :: _, [] => none
  | '"' :: r, field :: fields => do
    let text ← unquote? ('"' :: r)
    return { field with text := field.text ++ text } :: fields
  | s, fields => do
    let text ← unquote? ((s.dropWhile fun c => !isSpace c).dropWhile isSpace)
    return ⟨String.ofList (s.takeWhile fun c => !isSpace c), text⟩ :: fields

/-- An entry as its reader finds it. -/
structure Item where
  comments : List String
  context : Option String
  msgid : String
  plural : Option String
  translations : List String
  deriving DecidableEq, Repr

/-- The entry of some fields after its context. -/
def Item.ofTexts? (comments : List String) (context : Option String) : List Field → Option Item
  | [⟨"msgid", msgid⟩, ⟨"msgstr", translation⟩] =>
    some ⟨comments, context, msgid, none, [translation]⟩
  | ⟨"msgid", msgid⟩ :: ⟨"msgid_plural", plural⟩ :: form :: forms =>
    let numbers := (List.range (forms.length + 1)).map fun i => "msgstr[" ++ toString i ++ "]"
    if (form :: forms).map Field.keyword = numbers then
      some ⟨comments, context, msgid, some plural, (form :: forms).map Field.text⟩
    else none
  | _ => none

/-- The entry of some fields. -/
def Item.ofFields? (comments : List String) : List Field → Option Item
  | ⟨"msgctxt", context⟩ :: fields => Item.ofTexts? comments (some context) fields
  | fields => Item.ofTexts? comments none fields

def isBlankLine (line : String) : Bool :=
  line.toList.all isSpace

def isComment (line : String) : Bool :=
  line.toList.head? == some '#'

/-- The entry of a block of lines. -/
def readBlock? (lines : List String) : Option Item := do
  let fields ← (lines.filter fun line => !isComment line).foldlM addLine? []
  Item.ofFields? (lines.filter isComment) fields.reverse

/-- The lines of a text. What follows the last line feed is a line too. -/
def textLines (text : String) : List String :=
  (text.toList.splitOn '\n').map String.ofList

/-- The entries of a template. A block with nothing but comments has none. -/
def read? (text : String) : Option (List Item) :=
  let blocks := (textLines text).splitOnP isBlankLine
  (blocks.filter fun block => block.any fun line => !isComment line).mapM readBlock?

/-! ## Quoted texts -/

theorem unquoteRest?_cons {c : Char} (hb : c ≠ '\\') (hq : c ≠ '"') (r : List Char) :
    unquoteRest? (c :: r) = (c :: ·) <$> unquoteRest? r := by
  rw [unquoteRest?.eq_def]
  split
  · contradiction
  · simp_all
  · simp_all
  · simp_all

theorem unquoteRest?_escape (s : List Char) :
    unquoteRest? (s.flatMap escapeChar ++ ['"']) = some s := by
  induction s with
  | nil => rfl
  | cons c s ih =>
    rw [List.flatMap_cons, List.append_assoc]
    fun_cases escapeChar c with
    | case6 c hb hq =>
      rw [List.singleton_append, unquoteRest?_cons hb hq, ih]
      rfl
    | _ => simp [unquoteRest?, unescapeChar?, ih]

theorem toList_quote (s : String) :
    (quote s).toList = '"' :: (s.toList.flatMap escapeChar ++ ['"']) := by
  simp [quote, escape]

theorem unquote?_quote (s : String) : unquote? (quote s).toList = some s := by
  rw [toList_quote, unquote?, unquoteRest?_escape]
  simp

/-! ## Fields -/

theorem lineFeed_not_mem_escape (s : List Char) : '\n' ∉ s.flatMap escapeChar := by
  intro h
  obtain ⟨c, -, hc⟩ := List.mem_flatMap.1 h
  revert hc
  fun_cases escapeChar c with
  | case6 c _ _ _ _ hn =>
    intro hc
    exact hn (List.mem_singleton.1 hc).symm
  | _ => decide

/-- What reading needs to know of the lines of a field. -/
structure IsFieldLine (line : String) : Prop where
  noFeed : '\n' ∉ line.toList
  notBlank : isBlankLine line = false
  notComment : isComment line = false

theorem IsFieldLine.quote (s : String) : IsFieldLine (quote s) where
  noFeed := by
    rw [toList_quote]
    have := lineFeed_not_mem_escape s.toList
    simp [this]
  notBlank := by
    have : isSpace '"' = false := rfl
    simp [isBlankLine, toList_quote, this]
  notComment := by
    simp [isComment, toList_quote]

/-- A line that begins with a keyword is neither quoted nor a comment, and the keyword ends where
a blank comes. -/
structure IsKeyword (keyword : String) : Prop where
  noSpace : keyword.toList.all (fun c => !isSpace c) = true
  first : keyword.toList.head?.any (fun c => c != '"' && c != '#') = true

theorem IsKeyword.exists_first {keyword : String} (h : IsKeyword keyword) :
    ∃ c r, keyword.toList = c :: r ∧ c ≠ '"' ∧ c ≠ '#' ∧ isSpace c = false := by
  obtain ⟨c, hc, hp⟩ := Option.any_eq_true _ _ |>.1 h.first
  obtain ⟨r, hr⟩ := List.head?_eq_some_iff.1 hc
  simp only [Bool.and_eq_true, bne_iff_ne, ne_eq] at hp
  have notSpace := List.all_eq_true.1 h.noSpace c (by rw [hr]; exact List.mem_cons_self)
  exact ⟨c, r, hr, hp.1, hp.2, by simpa using notSpace⟩

theorem IsFieldLine.keyword {keyword : String} (h : IsKeyword keyword) (s : String) :
    IsFieldLine (keyword ++ " " ++ Template.quote s) := by
  obtain ⟨c, r, hk, -, notHash, notSpace⟩ := h.exists_first
  have noFeed : '\n' ∉ keyword.toList := fun hn => by cases List.all_eq_true.1 h.noSpace _ hn
  constructor
  · have := (IsFieldLine.quote s).noFeed
    simp [noFeed, this]
  · simp [isBlankLine, hk, notSpace]
  · simp [isComment, hk, notHash]

theorem addLine?_quote (field : Field) (fields : List Field) (s : String) :
    addLine? (field :: fields) (quote s) =
      some ({ field with text := field.text ++ s } :: fields) := by
  have text := unquote?_quote s
  rw [toList_quote] at text
  simp [addLine?, toList_quote, text]

theorem addLine?_keyword {keyword : String} (h : IsKeyword keyword) (fields : List Field)
    (s : String) : addLine? fields (keyword ++ " " ++ quote s) = some (⟨keyword, s⟩ :: fields) := by
  have whole : (keyword ++ " " ++ quote s).toList = keyword.toList ++ ' ' :: (quote s).toList := by
    simp
  have noSpace : ∀ c ∈ keyword.toList, (!isSpace c) = true := List.all_eq_true.1 h.noSpace
  have word : (keyword.toList ++ ' ' :: (quote s).toList).takeWhile (fun c => !isSpace c) =
      keyword.toList := by
    rw [List.takeWhile_append_of_pos noSpace]
    simp [show isSpace ' ' = true from rfl]
  have rest : ((keyword.toList ++ ' ' :: (quote s).toList).dropWhile fun c => !isSpace c).dropWhile
      isSpace = (quote s).toList := by
    rw [List.dropWhile_append_of_pos noSpace, toList_quote]
    rfl
  have notQuoted : ∀ r, (keyword ++ " " ++ quote s).toList ≠ '"' :: r := by
    obtain ⟨c, t, hk, notQuote, -⟩ := h.exists_first
    intro r hr
    rw [whole, hk] at hr
    exact notQuote (List.cons.inj hr).1
  unfold addLine?
  split
  · exact absurd ‹_› (notQuoted _)
  · exact absurd ‹_› (notQuoted _)
  · rw [whole, word, rest, unquote?_quote]
    simp

/-- Some lines are read as some fields, after any others. -/
structure Writes (lines : List String) (fields : List Field) : Prop where
  reads : ∀ found, lines.foldlM addLine? found = some (fields.reverse ++ found)
  isFieldLine : ∀ line ∈ lines, IsFieldLine line

theorem Writes.nil : Writes [] [] :=
  ⟨fun _ => rfl, by simp⟩

theorem Writes.append {lines more : List String} {fields others : List Field}
    (first : Writes lines fields) (second : Writes more others) :
    Writes (lines ++ more) (fields ++ others) := by
  constructor
  · intro found
    rw [List.foldlM_append, first.reads]
    simp [second.reads]
  · intro line hline
    rcases List.mem_append.1 hline with h | h
    · exact first.isFieldLine line h
    · exact second.isFieldLine line h

/-- A keyword with a quoted text, and quoted lines that go on with it. -/
theorem writes_continued {keyword : String} (h : IsKeyword keyword) (text : String)
    (more : List String) :
    Writes ((keyword ++ " " ++ quote text) :: more.map quote)
      [⟨keyword, text ++ String.join more⟩] := by
  constructor
  · intro found
    have continued (text : String) : (more.map quote).foldlM addLine? (⟨keyword, text⟩ :: found) =
        some (⟨keyword, text ++ String.join more⟩ :: found) := by
      induction more generalizing text with
      | nil => simp
      | cons s more ih =>
        simp only [List.map_cons, List.foldlM_cons, addLine?_quote]
        simp [ih, String.append_assoc]
    rw [List.foldlM_cons, addLine?_keyword h]
    exact continued text
  · intro line hline
    rcases List.mem_cons.1 hline with rfl | hline
    · exact .keyword h text
    · obtain ⟨s, -, rfl⟩ := List.mem_map.1 hline
      exact .quote s

theorem flatten_segments (s : List Char) : (segments s).flatten = s := by
  induction s with
  | nil => rfl
  | cons c s ih =>
    unfold segments
    split
    · simp [ih]
    · split
      · simp_all
      · simp_all

/-- A field is read back, on one line and on several. -/
theorem writes_fieldLines {keyword : String} (h : IsKeyword keyword) (text : String) :
    Writes (fieldLines keyword text) [⟨keyword, text⟩] := by
  unfold fieldLines
  split
  · have all := writes_continued h "" ((segments text.toList).map String.ofList)
    have whole : "" ++ String.join ((segments text.toList).map String.ofList) = text := by
      rw [← String.toList_inj]
      simp [String.toList_join, List.flatMap_map, flatten_segments]
    rwa [List.map_map, whole] at all
  · have all := writes_continued h text []
    simpa using all

/-! ## Entries -/

theorem readBlock?_append {comments lines : List String} {fields : List Field}
    (hc : ∀ line ∈ comments, isComment line = true) (h : Writes lines fields) :
    readBlock? (comments ++ lines) = Item.ofFields? comments fields := by
  have left : (comments ++ lines).filter isComment = comments := by
    rw [List.filter_append, List.filter_eq_self.2 hc, List.filter_eq_nil_iff.2, List.append_nil]
    intro line hline
    simp [(h.isFieldLine line hline).notComment]
  have right : (comments ++ lines).filter (fun line => !isComment line) = lines := by
    rw [List.filter_append, List.filter_eq_nil_iff.2, List.filter_eq_self.2, List.nil_append]
    · intro line hline
      simp [(h.isFieldLine line hline).notComment]
    · intro line hline
      simp [hc line hline]
  rw [readBlock?, left, right, h.reads]
  simp

/-- Some lines are read as an entry. -/
structure IsBlock (lines : List String) (item : Item) : Prop where
  noFeed : ∀ line ∈ lines, '\n' ∉ line.toList
  notBlank : ∀ line ∈ lines, isBlankLine line = false
  hasField : lines.any (fun line => !isComment line) = true
  reads : readBlock? lines = some item

theorem IsBlock.of_writes {comments lines : List String} {fields : List Field} {item : Item}
    (hc : ∀ line ∈ comments, isComment line = true ∧ '\n' ∉ line.toList) (h : Writes lines fields)
    (ne : lines ≠ []) (reads : Item.ofFields? comments fields = some item) :
    IsBlock (comments ++ lines) item where
  noFeed := by
    intro line hline
    rcases List.mem_append.1 hline with hline | hline
    · exact (hc line hline).2
    · exact (h.isFieldLine line hline).noFeed
  notBlank := by
    intro line hline
    rcases List.mem_append.1 hline with hline | hline
    · have hash := (hc line hline).1
      rw [isComment, beq_iff_eq, List.head?_eq_some_iff] at hash
      obtain ⟨r, hr⟩ := hash
      have : isSpace '#' = false := rfl
      simp [isBlankLine, hr, this]
    · exact (h.isFieldLine line hline).notBlank
  hasField := by
    obtain ⟨line, more, rfl⟩ := List.exists_cons_of_ne_nil ne
    have := (h.isFieldLine line List.mem_cons_self).notComment
    simp [this]
  reads := by
    rw [readBlock?_append (fun line hline => (hc line hline).1) h, reads]

/-! ## Templates -/

/-- Pieces that a separator ends are told apart by it. -/
theorem splitOnP_flatMap_concat {α : Type} {p : α → Bool} {sep : α} (hsep : p sep = true)
    {pieces : List (List α)} (h : ∀ piece ∈ pieces, ∀ a ∈ piece, p a = false) :
    (pieces.flatMap (· ++ [sep])).splitOnP p = pieces ++ [[]] := by
  induction pieces with
  | nil => simp
  | cons piece pieces ih =>
    have hpiece := h piece List.mem_cons_self
    have more := ih fun q hq => h q (List.mem_cons_of_mem piece hq)
    rw [List.flatMap_cons, List.append_assoc, List.singleton_append,
      List.splitOnP_append_cons_of_forall_mem hpiece sep hsep, more, List.cons_append]

theorem textLines_unlines {lines : List String} (h : ∀ line ∈ lines, '\n' ∉ line.toList) :
    textLines (unlines lines) = lines ++ [""] := by
  have whole : (unlines lines).toList = (lines.map String.toList).flatMap (· ++ ['\n']) := by
    simp [unlines, String.toList_join, List.flatMap_map]
  have cut : (unlines lines).toList.splitOn '\n' = lines.map String.toList ++ [[]] := by
    rw [whole, List.splitOn_eq_splitOnP, splitOnP_flatMap_concat (by simp)]
    intro piece hpiece c hc
    obtain ⟨line, hline, rfl⟩ := List.mem_map.1 hpiece
    rw [beq_eq_false_iff_ne]
    rintro rfl
    exact h line hline hc
  rw [textLines, cut]
  simp [Function.comp_def]

theorem mapM_map_eq_some {α β γ : Type} {f : β → Option γ} {g : α → β} {k : α → γ} {l : List α}
    (h : ∀ a ∈ l, f (g a) = some (k a)) : (l.map g).mapM f = some (l.map k) := by
  induction l with
  | nil => rfl
  | cons a l ih =>
    have more := ih fun b hb => h b (List.mem_cons_of_mem a hb)
    simp [List.mapM_cons, h a List.mem_cons_self, more]

/-- Pieces with separators between them and one at the end. -/
theorem append_flatMap_concat {α β : Type} (first : List α) (more : List β) (piece : β → List α)
    (sep : α) :
    first ++ (more.flatMap fun b => sep :: piece b) ++ [sep] =
      (first :: more.map piece).flatMap (· ++ [sep]) := by
  induction more generalizing first with
  | nil => simp
  | cons b more ih =>
    have rest := ih (first ++ sep :: piece b)
    simpa using rest

/-- A template is read entry by entry. -/
theorem read?_unlines {α : Type} {first : List String} {item : Item} (hfirst : IsBlock first item)
    {more : List α} {lines : α → List String} {items : α → Item}
    (hmore : ∀ a ∈ more, IsBlock (lines a) (items a)) :
    read? (unlines (first ++ more.flatMap fun a => "" :: lines a)) =
      some (item :: more.map items) := by
  have each : ∀ block ∈ first :: more.map lines, ∃ item, IsBlock block item := by
    intro block hblock
    rcases List.mem_cons.1 hblock with rfl | hblock
    · exact ⟨item, hfirst⟩
    · obtain ⟨a, ha, rfl⟩ := List.mem_map.1 hblock
      exact ⟨items a, hmore a ha⟩
  have noFeed : ∀ line ∈ first ++ more.flatMap fun a => "" :: lines a, '\n' ∉ line.toList := by
    intro line hline
    rcases List.mem_append.1 hline with hline | hline
    · exact hfirst.noFeed line hline
    · obtain ⟨a, ha, hline⟩ := List.mem_flatMap.1 hline
      rcases List.mem_cons.1 hline with rfl | hline
      · simp
      · exact (hmore a ha).noFeed line hline
  have blocks : (textLines (unlines (first ++ more.flatMap fun a => "" :: lines a))).splitOnP
      isBlankLine = first :: more.map lines ++ [[]] := by
    rw [textLines_unlines noFeed, append_flatMap_concat, splitOnP_flatMap_concat rfl]
    intro block hblock
    obtain ⟨item, h⟩ := each block hblock
    exact h.notBlank
  have kept :
      (first :: more.map lines).filter (fun block => block.any fun line => !isComment line) =
        first :: more.map lines := by
    rw [List.filter_eq_self]
    intro block hblock
    obtain ⟨item, h⟩ := each block hblock
    exact h.hasField
  have items := mapM_map_eq_some fun a ha => (hmore a ha).reads
  rw [read?, blocks, List.filter_append, kept]
  simp [List.mapM_cons, hfirst.reads, items]

end PotExtract.Template
