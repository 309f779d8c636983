import PotExtract.Proofs.Call.Neighbours
import PotExtract.Proofs.Config.Read
import PotExtract.Proofs.Template.ReadBack

/-!
# Names in a header

A reader takes the header's translation apart: a value on each line, and
before the first colon its name. A configuration is refused for a custom name
that is reserved, but not for a text that only becomes a line or a name of its
own when it is read.

* `Config.isReserved_of_check`: a configuration that is in order has no
  reserved custom name;
* `Config.metadata_of_check`: its header has all custom fields;
* `translation?_eq`: what a reader finds as the header's translation;
* `length_headerLines_iff`: when lines come apart as they were put together;
* `lines_header`: the names of a header's lines;
* `reserved_once_iff`: when there is one line for each field, and one field
  for each reserved name.
-/

namespace PotExtract

open Template

/-! ## Accepted configurations -/

theorem forM_eq_ok {ε α : Type} {l : List α} {f : α → Except ε Unit} :
    l.forM f = .ok () ↔ ∀ a ∈ l, f a = .ok () := by
  induction l with
  | nil => simp [pure, Except.pure]
  | cons a l ih =>
    have step : (a :: l).forM f = (f a >>= fun _ => l.forM f) := rfl
    rw [step, List.forall_mem_cons, ← ih]
    cases f a with
    | error e => simp [bind, Except.bind]
    | ok u => simp [bind, Except.bind]

namespace Config

/-- A configuration that is in order has no reserved custom name. -/
theorem isReserved_of_check {config : Config} (h : config.check = .ok ()) :
    ∀ field ∈ config.customHeaders, isReserved field.1 = false := by
  rw [check] at h
  cases hnames : config.customHeaders.forM fun field => checkName field.1 with
  | error e => simp [hnames, bind, Except.bind] at h
  | ok u =>
    intro field hfield
    have name := forM_eq_ok.1 hnames field hfield
    rw [checkName] at name
    split at name
    · cases name
    · simpa using ‹¬ isReserved field.1 = true›

/-- The full header of a configuration that is in order has all custom fields. -/
theorem metadata_of_check {config : Config} (h : config.check = .ok ())
    (full : config.headers ≠ .enabled false) (date : Timestamp) :
    config.header.metadata date =
      config.header.coreFields date ++ Header.editorFields ++ config.customHeaders := by
  have kept : config.customHeaders.filter (fun field => !isReserved field.1) =
      config.customHeaders := by
    rw [List.filter_eq_self]
    intro field hfield
    simp [isReserved_of_check h field hfield]
  rcases hheaders : config.headers with (_ | _) | fields
  · exact absurd hheaders full
  · simp [Header.metadata, header, customHeaders, hheaders]
  · simp only [customHeaders, hheaders] at kept
    simp only [Header.metadata, header, customHeaders, hheaders, kept]

theorem metadata_header {json : Json} {config : Config} (h : ofJson json = .ok config)
    (full : config.headers ≠ .enabled false) (date : Timestamp) :
    config.header.metadata date =
      config.header.coreFields date ++ Header.editorFields ++ config.customHeaders := by
  obtain ⟨-, -, -, checked⟩ := ofJson_eq_ok h
  exact metadata_of_check checked full date

end Config

namespace Template

/-! ## Lines and names -/

/-- The translation of the header's entry, as a reader finds it. -/
def Header.translation? (h : Header) (date : Timestamp) : Option String := do
  let fields ← ((h.lines date).drop (h.preamble date).length).foldlM addLine? []
  let field ← fields.head?
  return field.text

/-- The lines of a text in which a line feed ends each. -/
def headerLines (text : String) : List String :=
  (textLines text).dropLast

/-- The name that a line gives, in lower case: what is before the first colon, without the blanks
around it. -/
def lineName (line : String) : List Char :=
  (trimBlanks (line.toList.takeWhile (· != ':'))).map Char.toLower

/-- A field of the header in a line of its own. -/
def fieldText (field : String × String) : String :=
  field.1 ++ ": " ++ field.2

theorem translation?_eq (header : Header) (date : Timestamp) :
    header.translation? date = some (unlines ((header.metadata date).map fieldText)) := by
  have entry : (header.lines date).drop (header.preamble date).length =
      ["msgid " ++ quote ""] ++
        ("msgstr " ++ quote "") :: (header.metadata date).map Header.fieldLine := by
    rw [Header.lines, List.append_assoc, List.drop_left]
    rfl
  have joined : unlines ((header.metadata date).map fieldText) =
      String.join ((header.metadata date).map fun field => field.1 ++ ": " ++ field.2 ++ "\n") := by
    rw [unlines, List.map_map]
    rfl
  rw [Header.translation?, entry, (writes_header header date).reads, joined]
  rfl

theorem lineName_fieldText (field : String × String) :
    lineName (fieldText field) = lineName field.1 := by
  have colon : (':' != ':') = false := rfl
  have whole : (fieldText field).toList = field.1.toList ++ ':' :: ' ' :: field.2.toList := by
    simp [fieldText]
  rw [lineName, whole, takeWhile_append_stop (p := (· != ':')) colon, lineName]

theorem length_splitOn (c : Char) (s : List Char) : (s.splitOn c).length = s.count c + 1 := by
  rw [List.splitOn_eq_splitOnP]
  induction s with
  | nil => rfl
  | cons d s ih =>
    rw [List.splitOnP_cons_eq_if_modifyHead, List.count_cons]
    cases hd : d == c <;> simp [ih]

/-- Lines come apart as they were put together if none has a line feed of its own, and only
then are they as many. -/
theorem length_headerLines_iff (lines : List String) :
    (headerLines (unlines lines)).length = lines.length ↔ ∀ line ∈ lines, '\n' ∉ line.toList := by
  have feeds : (headerLines (unlines lines)).length = (unlines lines).toList.count '\n' := by
    simp [headerLines, textLines, length_splitOn]
  rw [feeds, count_unlines, Nat.add_eq_left, List.count_eq_zero, List.mem_flatMap]
  simp

theorem headerLines_unlines {lines : List String} (h : ∀ line ∈ lines, '\n' ∉ line.toList) :
    headerLines (unlines lines) = lines := by
  rw [headerLines, textLines_unlines h, List.dropLast_concat]

/-! ## Fields of a full header -/

theorem lineFeed_not_mem_padded (width : Nat) (n : Int) : '\n' ∉ (padded width n).toList := by
  have digits := lineFeed_not_mem_toDigits n.natAbs
  have sign : '\n' ∉ (if n < 0 then ['-'] else []) := by
    split <;> decide
  simp [padded, digits, sign]

theorem lineFeed_not_mem_date (date : Timestamp) : '\n' ∉ date.text.toList := by
  have sign : '\n' ∉ (if date.offset.total < 0 then "-" else "+").toList := by
    split <;> decide
  simp [Timestamp.text, lineFeed_not_mem_padded, sign]

theorem names_fixed (header : Header) (date : Timestamp) :
    (header.coreFields date ++ Header.editorFields).map Prod.fst = reservedNames := rfl

theorem lineName_reserved {name : String} (h : name ∈ reservedNames) :
    lineName name = foldCase name := by
  have each : ∀ name ∈ reservedNames, lineName name = foldCase name := by decide +kernel
  exact each name h

/-- The names of a full header's lines: the reserved ones, then what the custom names are read
as. -/
theorem lineNames_eq (header : Header) (date : Timestamp) (custom : List (String × String)) :
    ((header.coreFields date ++ Header.editorFields ++ custom).map fieldText).map lineName =
      reservedNames.map foldCase ++ custom.map fun field => lineName field.1 := by
  have names (fields : List (String × String)) :
      (fields.map fieldText).map lineName = (fields.map Prod.fst).map lineName := by
    simp [lineName_fieldText, Function.comp_def]
  rw [List.map_append, List.map_append, names, names, names_fixed, List.map_map,
    List.map_congr_left fun name hname => lineName_reserved hname]
  rfl

/-- Each reserved name is the name of one of the fields that a full header always has. -/
theorem count_reserved {name : String} (h : name ∈ reservedNames) (names : List (List Char)) :
    (reservedNames.map foldCase ++ names).count (foldCase name) = 1 ↔ foldCase name ∉ names := by
  have once : (reservedNames.map foldCase).Nodup := by decide +kernel
  rw [List.count_append, once.count, if_pos (List.mem_map_of_mem h), Nat.add_eq_left,
    List.count_eq_zero]

end Template

/-- What a header repeats of a configuration has no line feed. -/
structure Config.OnOneLine (c : Config) : Prop where
  package : '\n' ∉ c.packageName.toList
  bugReport : '\n' ∉ c.bugReport.toList
  lastTranslator : '\n' ∉ c.lastTranslator.toList
  team : '\n' ∉ c.team.toList
  custom : ∀ field ∈ c.customHeaders, '\n' ∉ field.1.toList ∧ '\n' ∉ field.2.toList

theorem Config.onOneLine_iff (config : Config) (date : Timestamp) :
    config.OnOneLine ↔ ∀ line ∈ (config.header.coreFields date ++ Header.editorFields ++
      config.customHeaders).map fieldText, '\n' ∉ line.toList := by
  have keywords : '\n' ∉ keywordList.toList := by decide +kernel
  have created := lineFeed_not_mem_date date
  have parts (field : String × String) :
      '\n' ∉ (fieldText field).toList ↔ '\n' ∉ field.1.toList ∧ '\n' ∉ field.2.toList := by
    simp [fieldText]
  have fields : config.OnOneLine ↔ '\n' ∉ config.packageName.toList ∧
      '\n' ∉ config.bugReport.toList ∧ '\n' ∉ config.lastTranslator.toList ∧
        '\n' ∉ config.team.toList ∧
          ∀ field ∈ config.customHeaders, '\n' ∉ field.1.toList ∧ '\n' ∉ field.2.toList :=
    ⟨fun ⟨a, b, c, d, e⟩ => ⟨a, b, c, d, e⟩, fun ⟨a, b, c, d, e⟩ => ⟨a, b, c, d, e⟩⟩
  rw [fields, List.forall_mem_map]
  simp only [parts, List.forall_mem_append]
  simp [Header.coreFields, Header.editorFields, keywords, created, header, and_assoc]

theorem lines_header {json : Json} {config : Config} (h : Config.ofJson json = .ok config)
    (full : config.headers ≠ .enabled false) (oneLine : config.OnOneLine) (date : Timestamp) :
    ∃ text, config.header.translation? date = some text ∧
      (headerLines text).map lineName =
        reservedNames.map foldCase ++ config.customHeaders.map fun field => lineName field.1 := by
  refine ⟨_, translation?_eq config.header date, ?_⟩
  rw [config.metadata_header h full date,
    headerLines_unlines ((config.onOneLine_iff date).1 oneLine), lineNames_eq]

/-- **A header has each reserved name once and each field on a line of its own, exactly if its
configuration keeps it so.** A configuration is accepted for its names as they are written. Its
header says what was meant if no text in it has a line feed, and no custom name is reserved when
it is cut at a colon and the blanks around it are gone; otherwise there are too many lines, or
there is a reserved name with another value. -/
theorem reserved_once_iff {json : Json} {config : Config} (h : Config.ofJson json = .ok config)
    (full : config.headers ≠ .enabled false) (date : Timestamp) :
    ∃ text, config.header.translation? date = some text ∧
      (((∀ name ∈ reservedNames,
            ((headerLines text).map lineName).count (foldCase name) = 1) ∧
          (headerLines text).length = 14 + config.customHeaders.length) ↔
        config.OnOneLine ∧ ∀ field ∈ config.customHeaders, ∀ name ∈ reservedNames,
          lineName field.1 ≠ foldCase name) := by
  have found := translation?_eq config.header date
  rw [config.metadata_header h full date] at found
  refine ⟨_, found, ?_⟩
  have apart : (headerLines (unlines ((config.header.coreFields date ++ Header.editorFields ++
      config.customHeaders).map fieldText))).length = 14 + config.customHeaders.length ↔
        config.OnOneLine := by
    rw [config.onOneLine_iff date, ← length_headerLines_iff, List.length_map, List.length_append]
    rfl
  rw [apart, and_comm]
  refine and_congr_right fun oneLine => ?_
  obtain ⟨text, htext, names⟩ := lines_header h full oneLine date
  obtain rfl := Option.some.inj (found.symm.trans htext)
  rw [names]
  constructor
  · intro once field hfield name hname heq
    exact (count_reserved hname _).1 (once name hname) (heq ▸ List.mem_map_of_mem hfield)
  · intro unreserved name hname
    refine (count_reserved hname _).2 fun hmem => ?_
    obtain ⟨field, hfield, heq⟩ := List.mem_map.1 hmem
    exact unreserved field hfield name hname heq

theorem eq_ok_of_toOption {ε α : Type} {x : Except ε α} {a : α} (h : x.toOption = some a) :
    x = .ok a := by
  cases x with
  | error e => cases h
  | ok b => exact congrArg Except.ok (Option.some.inj h)

/-- A custom name that begins with a reserved one is a name of its own. -/
theorem reserved_once_similar :
    ∃ config, Config.ofJson (.object [("headers",
        .object [("Content-Type-Options", .string "a: b")])]) = .ok config ∧
      config.headers ≠ .enabled false ∧
      ∃ text, config.header.translation? ⟨1700000000, .utc⟩ = some text ∧
        (∀ name ∈ reservedNames, ((headerLines text).map lineName).count (foldCase name) = 1) ∧
        (headerLines text).length = 15 := by
  have accepted : Config.ofJson (.object [("headers",
      .object [("Content-Type-Options", .string "a: b")])]) =
        .ok { headers := .custom [("Content-Type-Options", "a: b")] } :=
    eq_ok_of_toOption (by decide +kernel)
  obtain ⟨text, found, exactly⟩ := reserved_once_iff accepted (by decide) ⟨1700000000, .utc⟩
  have oneLine : Config.OnOneLine { headers := .custom [("Content-Type-Options", "a: b")] } :=
    ⟨by decide, by decide, by decide, by decide, by decide⟩
  obtain ⟨once, many⟩ := exactly.2 ⟨oneLine, by decide⟩
  exact ⟨_, accepted, by decide, text, found, once, many⟩

/-- A colon after a reserved name is enough to be accepted and to give it a second value. -/
theorem reserved_twice_colon :
    ∃ config, Config.ofJson (.object [("headers",
        .object [("Content-Type: text/html; a", .string "b")])]) = .ok config ∧
      config.headers ≠ .enabled false ∧
      ∃ text, config.header.translation? ⟨1700000000, .utc⟩ = some text ∧
        "Content-Type" ∈ reservedNames ∧
        ((headerLines text).map lineName).count (foldCase "Content-Type") = 2 := by
  have accepted : Config.ofJson (.object [("headers",
      .object [("Content-Type: text/html; a", .string "b")])]) =
        .ok { headers := .custom [("Content-Type: text/html; a", "b")] } :=
    eq_ok_of_toOption (by decide +kernel)
  have oneLine : Config.OnOneLine { headers := .custom [("Content-Type: text/html; a", "b")] } :=
    ⟨by decide, by decide, by decide, by decide, by decide⟩
  obtain ⟨text, found, names⟩ := lines_header accepted (by decide) oneLine ⟨1700000000, .utc⟩
  refine ⟨_, accepted, by decide, text, found, by decide, ?_⟩
  rw [names]
  decide

end PotExtract
