import PotExtract.Proofs.Template.HeaderNames

/-!
# The lines before the header

A template opens with two comment lines that name the package. The name stands
there as it is, while the header's translation quotes it: a name with line
feeds makes lines of its own, and these need not be comments.

* `render_eq_opening`: what comes before the header's entry;
* `length_opening`: how many lines that are;
* `firstItem?_render`: for a name on one line, a reader finds the header first;
* `opening_iff`: only then is the opening two comment lines;
* `firstItem?_forged`: what a reader finds first instead.
-/

namespace PotExtract

open Template

/-- Every text is accepted as the name of the package. -/
theorem Config.ofJson_package (name : String) :
    Config.ofJson (.object [("package", .string name)]) = .ok { package := some name } := by
  have read : Config.ofJson (.object [("package", .string name)]) =
      ({ package := some name } : Config).check >>= fun _ => .ok { package := some name } := rfl
  have same : ({ package := some name } : Config).check = ({} : Config).check := rfl
  have defaults : ({} : Config).check = .ok () := eq_ok_of_toOption (by decide +kernel)
  rw [read, same, defaults]
  rfl

namespace Template

/-- What a template has before the entry of its header. -/
def Header.opening (h : Header) (date : Timestamp) : String :=
  unlines (h.preamble date)

/-- The opening, and the line that begins the header's entry. -/
theorem render_eq_opening (header : Header) (date : Timestamp) (catalog : Catalog) :
    ∃ after, render header date catalog = header.opening date ++ "msgid \"\"\n" ++ after := by
  refine ⟨unlines (("msgstr " ++ quote "") :: (header.metadata date).map Header.fieldLine ++
    catalog.entries.toList.flatMap fun e => "" :: entryLines e), ?_⟩
  have msgid : unlines ["msgid " ++ quote ""] = "msgid \"\"\n" := rfl
  rw [Header.opening, ← msgid, ← unlines_append, ← unlines_append]
  rfl

/-! ## How many lines -/

/-- Each line feed of the name makes two lines more. -/
theorem length_opening (h : Header) (date : Timestamp) :
    (headerLines (h.opening date)).length = 2 + 2 * h.package.toList.count '\n' := by
  have feeds : (headerLines (h.opening date)).length = (h.opening date).toList.count '\n' := by
    simp [headerLines, textLines, length_splitOn]
  have year : (toString date.date.year).toList.count '\n' = 0 :=
    List.count_eq_zero.2 (lineFeed_not_mem_repr date.date.year)
  have fixed : "# Copyright (C) ".toList.count '\n' = 0 ∧ " ".toList.count '\n' = 0 ∧
      "# This file is distributed under the same license as the ".toList.count '\n' = 0 ∧
        " package.".toList.count '\n' = 0 := by decide
  obtain ⟨copyright, blank, license, package⟩ := fixed
  have names : ((h.preamble date).flatMap String.toList).count '\n' =
      2 * h.package.toList.count '\n' := by
    simp only [Header.preamble, List.flatMap_cons, List.flatMap_nil, List.append_nil,
      String.toList_append, List.count_append, year, copyright, blank, license, package]
    omega
  rw [feeds, Header.opening, count_unlines, names]
  rfl

theorem headerLines_opening {h : Header} (package : '\n' ∉ h.package.toList) (date : Timestamp) :
    headerLines (h.opening date) = h.preamble date :=
  headerLines_unlines fun line hline => (preamble_isComment h date package line hline).2

/-! ## What a reader finds first -/

/-- The first entry that a reader finds. -/
def firstItem? (text : String) : Option Item :=
  (((textLines text).splitOnP isBlankLine).find? fun block =>
    block.any fun line => !isComment line).bind readBlock?

/-- Lines with no line feed of their own stay lines, whatever comes after them. -/
theorem textLines_unlines_append {lines : List String} (h : ∀ line ∈ lines, '\n' ∉ line.toList)
    (more : List String) :
    textLines (unlines (lines ++ more)) = lines ++ textLines (unlines more) := by
  induction lines with
  | nil => rfl
  | cons line lines ih =>
    have rest := ih fun l hl => h l (List.mem_cons_of_mem line hl)
    have first : ∀ c ∈ line.toList, (c == '\n') = false := by
      intro c hc
      rw [beq_eq_false_iff_ne]
      rintro rfl
      exact h line List.mem_cons_self hc
    have whole : (unlines (line :: (lines ++ more))).toList =
        line.toList ++ '\n' :: (unlines (lines ++ more)).toList := by
      simp [unlines_cons]
    rw [textLines, List.splitOn_eq_splitOnP] at rest
    rw [List.cons_append, textLines, whole, List.splitOn_eq_splitOnP,
      List.splitOnP_append_cons_of_forall_mem first '\n' (by simp), List.map_cons, rest]
    simp

/-- A reader of a text that begins with the lines of an entry finds that entry. -/
theorem firstItem?_unlines {lines more : List String} {item : Item} (block : IsBlock lines item)
    (blank : ∀ line ∈ more.head?, line = "") :
    firstItem? (unlines (lines ++ more)) = some item := by
  obtain ⟨rest, hrest⟩ : ∃ rest, textLines (unlines more) = "" :: rest := by
    cases more with
    | nil => exact ⟨[], rfl⟩
    | cons line more =>
      obtain rfl := blank line rfl
      exact ⟨_, @textLines_unlines_append [""] (by simp) more⟩
  have found : (lines :: rest.splitOnP isBlankLine).find? (fun block =>
      block.any fun line => !isComment line) = some lines :=
    List.find?_cons_of_pos block.hasField
  rw [firstItem?, textLines_unlines_append block.noFeed, hrest,
    List.splitOnP_append_cons_of_forall_mem block.notBlank "" rfl, found, Option.bind_some,
    block.reads]

theorem firstItem?_render {header : Header} (package : '\n' ∉ header.package.toList)
    (date : Timestamp) (catalog : Catalog) :
    firstItem? (render header date catalog) = some (headerItem header date) := by
  apply firstItem?_unlines (isBlock_header header date package)
  cases catalog.entries.toList with
  | nil => simp
  | cons e entries => simp

/-- **The opening is two comment lines, and a reader finds the header after them, exactly if the
name of the package is on one line.** -/
theorem opening_iff (config : Config) (date : Timestamp) (catalog : Catalog) :
    ∃ after,
      render config.header date catalog = config.header.opening date ++ "msgid \"\"\n" ++ after ∧
      (((headerLines (config.header.opening date)).length = 2 ∧
          (∀ line ∈ headerLines (config.header.opening date), ['#', ' '] <+: line.toList) ∧
          firstItem? (render config.header date catalog) = some (headerItem config.header date)) ↔
        '\n' ∉ config.packageName.toList) := by
  obtain ⟨after, whole⟩ := render_eq_opening config.header date catalog
  refine ⟨after, whole, ?_⟩
  have name : config.header.package = config.packageName := rfl
  constructor
  · rintro ⟨two, -, -⟩
    rw [length_opening, name] at two
    exact List.count_eq_zero.1 (by omega)
  · intro package
    refine ⟨?_, ?_, firstItem?_render package date catalog⟩
    · rw [headerLines_opening package]
      rfl
    · rw [headerLines_opening package]
      simp [Header.preamble]

/-! ## Names that make lines -/

/-- The lines of a name are lines of the text it stands in. -/
theorem unlines_forged (before name : String) (lines more : List String) :
    unlines ((before ++ (name ++ "\n" ++ unlines lines ++ "\n#")) :: more) =
      unlines (([before ++ name] ++ lines) ++ "" :: "#" :: more) := by
  have hash : "\n#" = "\n" ++ "#" := rfl
  have none : unlines [] = "" := rfl
  simp only [unlines_cons, unlines_append, hash, none, String.append_assoc, List.cons_append,
    String.empty_append]

/-- The copyright line of a name. -/
def copyrightLine (date : Timestamp) (name : String) : String :=
  "# Copyright (C) " ++ toString date.date.year ++ " " ++ name

/-- A name that goes on with the lines of an entry puts that entry before the header. -/
theorem firstItem?_forged {header : Header} {name : String} {lines : List String}
    {fields : List Field} {item : Item} (date : Timestamp) (catalog : Catalog)
    (hname : '\n' ∉ name.toList) (h : Writes lines fields) (ne : lines ≠ [])
    (reads : Item.ofFields? [copyrightLine date name] fields = some item)
    (package : header.package = name ++ "\n" ++ unlines lines ++ "\n#") :
    firstItem? (render header date catalog) = some item := by
  have comment : ∀ line ∈ [copyrightLine date name],
      isComment line = true ∧ '\n' ∉ line.toList := by
    intro line hline
    obtain rfl := List.mem_singleton.1 hline
    exact preamble_isComment { package := name } date hname _ List.mem_cons_self
  have block : IsBlock ([copyrightLine date name] ++ lines) item := .of_writes comment h ne reads
  obtain ⟨more, hmore⟩ : ∃ more, header.lines date ++
      (catalog.entries.toList.flatMap fun e => "" :: entryLines e) =
        copyrightLine date header.package :: more := ⟨_, rfl⟩
  have whole : render header date catalog =
      unlines (([copyrightLine date name] ++ lines) ++ "" :: "#" :: more) := by
    rw [render, hmore, package]
    exact unlines_forged _ name lines more
  rw [whole]
  exact firstItem?_unlines block (by simp)

theorem writes_line {keyword : String} (h : IsKeyword keyword) (text : String) :
    Writes [keyword ++ " " ++ quote text] [⟨keyword, text⟩] := by
  have all := writes_continued h text []
  simpa using all

/-- An accepted name with which the opening has ten lines, and a reader finds an entry before the
header. -/
theorem opening_forged :
    ∃ config, Config.ofJson (.object [("package",
        .string "p\nmsgid \"a\"\nmsgstr \"b\"\n\n#")]) = .ok config ∧
      (headerLines (config.header.opening ⟨1700000000, .utc⟩)).length = 10 ∧
      (firstItem? (render config.header ⟨1700000000, .utc⟩ .empty)).map Item.msgid = some "a" := by
  refine ⟨_, Config.ofJson_package _, ?_, ?_⟩
  · rw [length_opening]
    decide
  · have msgid : IsKeyword "msgid" := ⟨by decide, by decide⟩
    have msgstr : IsKeyword "msgstr" := ⟨by decide, by decide⟩
    have fields := (writes_line msgid "a").append (writes_line msgstr "b")
    have oneLine : '\n' ∉ "p".toList := by decide
    rw [firstItem?_forged _ _ oneLine fields (List.cons_ne_nil _ _) rfl]
    · rfl
    · decide +kernel

end Template

end PotExtract
