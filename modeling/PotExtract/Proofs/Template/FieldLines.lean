import PotExtract.Proofs.Source.Escapes
import PotExtract.Proofs.Template.Reader

/-!
# The lines of a field

A text is escaped as a whole on one line, and part by part on several. Both
ways write the same, since each character is escaped by itself.

* `Segmented`: a text cut after each of its line feeds;
* `units_escapePart`: an escaped text falls into one unit for each character;
* `IsLaidOut`: what stands between the quotation marks of a field;
* `exists_isLaidOut`: every field is laid out so.
-/

namespace PotExtract.Template

open Source (EscapeUnit units units_flatMap_text)

/-! ## Segments -/

/-- A text cut after each of its line feeds. -/
inductive Segmented : List Char → List (List Char) → Prop where
  | nil : Segmented [] []
  /-- What no line feed ends. -/
  | last {part : List Char} (ne : part ≠ []) (noFeed : '\n' ∉ part) : Segmented part [part]
  | feed {part rest : List Char} {parts : List (List Char)} (noFeed : '\n' ∉ part)
      (more : Segmented rest parts) :
      Segmented (part ++ '\n' :: rest) ((part ++ ['\n']) :: parts)

theorem Segmented.cons {c : Char} (hc : c ≠ '\n') {s part : List Char} {parts : List (List Char)}
    (h : Segmented s (part :: parts)) : Segmented (c :: s) ((c :: part) :: parts) := by
  cases h with
  | last ne noFeed =>
    exact .last (List.cons_ne_nil _ _) (List.not_mem_cons_of_ne_of_not_mem hc.symm noFeed)
  | feed noFeed more =>
    exact .feed (List.not_mem_cons_of_ne_of_not_mem hc.symm noFeed) more

theorem segmented_segments (s : List Char) : Segmented s (segments s) := by
  fun_induction segments s with
  | case1 => exact .nil
  | case2 r ih => exact .feed List.not_mem_nil ih
  | case3 c r hc none ih =>
    rw [none] at ih
    cases ih
    exact .last (List.cons_ne_nil c []) (List.not_mem_cons_of_ne_of_not_mem (Ne.symm hc) (by simp))
  | case4 c r hc line lines some ih =>
    rw [some] at ih
    exact ih.cons hc

section
variable {s : List Char} {parts : List (List Char)}

theorem Segmented.getLast?_eq (h : Segmented s parts) :
    ∀ part ∈ parts.dropLast, part.getLast? = some '\n' := by
  induction h with
  | nil | last => simp
  | @feed part rest parts noFeed more ih =>
    cases parts with
    | nil => simp
    | cons next parts =>
      rw [List.dropLast_cons_cons]
      exact List.forall_mem_cons.2 ⟨List.getLast?_concat, ih⟩

theorem Segmented.ne_nil (h : Segmented s parts) : [] ∉ parts := by
  induction h with
  | nil => exact List.not_mem_nil
  | last ne noFeed => simpa using Ne.symm ne
  | feed noFeed more ih => simpa using ih

theorem Segmented.noFeed_dropLast (h : Segmented s parts) :
    ∀ part ∈ parts, '\n' ∉ part.dropLast := by
  induction h with
  | nil => simp
  | last ne noFeed =>
    exact List.forall_mem_singleton.2 fun feed => noFeed ((List.dropLast_sublist _).subset feed)
  | feed noFeed more ih =>
    refine List.forall_mem_cons.2 ⟨?_, ih⟩
    rwa [List.dropLast_concat]

theorem Segmented.eq_nil (h : Segmented s []) : s = [] := by
  cases h
  rfl

end

/-! ## Units of an escaped text -/

/-- What a character is between quotation marks. -/
def escapeUnit (c : Char) : EscapeUnit :=
  match c with
  | '\\' => .pair '\\'
  | '"' => .pair '"'
  | '\t' => .pair 't'
  | '\r' => .pair 'r'
  | '\n' => .pair 'n'
  | c => .plain c

/-- What may stand between the quotation marks of a field: the escape pairs, and the characters
that have none. -/
def IsQuotable : EscapeUnit → Prop
  | .plain c => c ∉ ['\\', '"', '\t', '\r', '\n']
  | .pair c => c ∈ ['\\', '"', 't', 'r', 'n']
  | .dangling => False

theorem text_escapeUnit (c : Char) : (escapeUnit c).text = escapeChar c := by
  fun_cases escapeUnit c with
  | case6 c backslash mark tab ret feed => rw [escapeChar.eq_6 c backslash mark tab ret feed]; rfl
  | _ => rfl

theorem isQuotable_escapeUnit (c : Char) : IsQuotable (escapeUnit c) := by
  fun_cases escapeUnit c with
  | case6 c backslash mark tab ret feed => simp_all [IsQuotable]
  | _ => simp [IsQuotable]

theorem isWhole_escapeUnit (c : Char) : (escapeUnit c).IsWhole := by
  fun_cases escapeUnit c with
  | case6 c backslash => exact backslash
  | _ => trivial

theorem escapeUnit_eq_feed {c : Char} : escapeUnit c = .pair 'n' ↔ c = '\n' := by
  fun_cases escapeUnit c with
  | case6 c _ _ _ _ feed => simpa using feed
  | _ => decide

/-- A part of a text as it stands between quotation marks. -/
def escapePart (part : List Char) : String :=
  escape (String.ofList part)

/-- An escaped text falls into one unit for each character. -/
theorem units_escapePart (s : List Char) :
    units (escapePart s).toList = s.map escapeUnit := by
  have text : (escapePart s).toList = (s.map escapeUnit).flatMap EscapeUnit.text := by
    rw [List.flatMap_map, escapePart, escape, String.toList_ofList, String.toList_ofList]
    exact List.flatMap_congr fun c _ => (text_escapeUnit c).symm
  rw [text]
  exact units_flatMap_text (List.forall_mem_map.2 fun c _ => isWhole_escapeUnit c)

theorem feed_mem_map {s : List Char} : .pair 'n' ∈ s.map escapeUnit ↔ '\n' ∈ s := by
  simp only [List.mem_map, escapeUnit_eq_feed, exists_eq_right]

/-! ## Fields -/

/-- A quoted text by what stands between its quotation marks. -/
def marked (body : String) : String :=
  "\"" ++ body ++ "\""

/-- What stands between the quotation marks of a field, on its first line and on the lines after
it. -/
structure IsLaidOut (keyword text first : String) (more : List String) : Prop where
  fieldLines_eq : fieldLines keyword text = (keyword ++ " " ++ marked first) :: more.map marked
  /-- The lines of a field are lines of the template, a keyword with line feeds apart. -/
  count_eq : (unlines (fieldLines keyword text)).toList.count '\n' =
    keyword.toList.count '\n' + (more.length + 1)
  /-- One after another, the quoted texts are the escaped text. -/
  join_eq : String.join (first :: more) = escape text
  single_iff : more = [] ↔ '\n' ∉ text.toList
  /-- Several lines hold nothing on the first, and then the parts of the text. -/
  parts : '\n' ∈ text.toList → first = "" ∧ ∃ parts : List (List Char),
    Segmented text.toList parts ∧ more = parts.map escapePart
  /-- Every later line but possibly the last ends with an escaped line feed. -/
  ended : ∀ body ∈ more.dropLast, (units body.toList).getLast? = some (.pair 'n')
  /-- There is no escaped line feed anywhere else. -/
  inner : .pair 'n' ∉ units first.toList ∧
    ∀ body ∈ more, .pair 'n' ∉ (units body.toList).dropLast
  nonempty : "" ∉ more
  /-- Backslashes and quotation marks are parts of escape pairs. -/
  quotable : ∀ body ∈ first :: more, ∀ u ∈ units body.toList, IsQuotable u
  /-- No line feed, tab or carriage return stands as itself. -/
  escaped : ∀ body ∈ first :: more, ∀ c ∈ body.toList, c ∉ ['\n', '\t', '\r']

theorem isQuotable_of_mem_units {s : List Char} {u : EscapeUnit}
    (h : u ∈ units (escapePart s).toList) : IsQuotable u := by
  rw [units_escapePart] at h
  obtain ⟨c, -, rfl⟩ := List.mem_map.1 h
  exact isQuotable_escapeUnit c

theorem IsQuotable.not_mem {u : EscapeUnit} (h : IsQuotable u) {c : Char} (hc : c ∈ u.text) :
    c ∉ ['\n', '\t', '\r'] := by
  cases u with
  | plain d =>
    obtain rfl := List.mem_singleton.1 hc
    exact fun raw => h ((by decide : ['\n', '\t', '\r'] ⊆ ['\\', '"', '\t', '\r', '\n']) raw)
  | pair d =>
    rcases List.mem_pair.1 hc with rfl | rfl
    · decide
    · simp only [IsQuotable, List.mem_cons, List.not_mem_nil, or_false] at h
      rcases h with rfl | rfl | rfl | rfl | rfl <;> decide
  | dangling => exact absurd h id

/-- Units that may stand between quotation marks are written with no line feed, tab or carriage
return. -/
theorem not_mem_of_forall_units {body : List Char} (h : ∀ u ∈ units body, IsQuotable u) :
    ∀ c ∈ body, c ∉ ['\n', '\t', '\r'] := by
  intro c hc
  rw [← Source.flatMap_text_units body] at hc
  obtain ⟨u, hu, hc⟩ := List.mem_flatMap.1 hc
  exact (h u hu).not_mem hc

theorem join_escapePart (parts : List (List Char)) :
    String.join (parts.map escapePart) = escapePart parts.flatten := by
  induction parts with
  | nil => rfl
  | cons part parts ih =>
    rw [List.map_cons, String.join_cons, ih, ← String.toList_inj]
    simp [escapePart, escape]

/-- A field whose quoted texts are escaped parts: a head without line feeds, and the rest of the
text cut after each of its line feeds. -/
theorem isLaidOut_of_parts {keyword text : String} (head : List Char) (parts : List (List Char))
    (lines : fieldLines keyword text =
      (keyword ++ " " ++ marked (escapePart head)) :: (parts.map escapePart).map marked)
    (whole : head ++ parts.flatten = text.toList) (noFeed : '\n' ∉ head)
    (cut : Segmented parts.flatten parts) (single : parts = [] ↔ '\n' ∉ text.toList)
    (several : '\n' ∈ text.toList → head = []) :
    IsLaidOut keyword text (escapePart head) (parts.map escapePart) := by
  have quotable : ∀ body ∈ (head :: parts).map escapePart, ∀ u ∈ units body.toList,
      IsQuotable u :=
    List.forall_mem_map.2 fun _ _ _ => isQuotable_of_mem_units
  have escaped : ∀ body ∈ (head :: parts).map escapePart, ∀ c ∈ body.toList,
      c ∉ ['\n', '\t', '\r'] :=
    fun body hbody => not_mem_of_forall_units (quotable body hbody)
  have oneLine : ∀ body ∈ (head :: parts).map escapePart, '\n' ∉ body.toList :=
    fun body hbody feed => escaped body hbody _ feed (by decide)
  obtain ⟨own, others⟩ := List.forall_mem_cons.1 oneLine
  refine { fieldLines_eq := lines, count_eq := ?count, join_eq := ?join, single_iff := ?single,
           parts := ?parts, ended := ?ended, inner := ⟨?first, ?more⟩, nonempty := ?nonempty,
           quotable, escaped }
  case count =>
    have later : (((parts.map escapePart).map marked).flatMap String.toList).count '\n' = 0 := by
      rw [List.count_eq_zero, List.mem_flatMap]
      rintro ⟨line, hline, feed⟩
      obtain ⟨body, hbody, rfl⟩ := List.mem_map.1 hline
      exact others body hbody (by simpa [marked] using feed)
    rw [lines, count_unlines, List.flatMap_cons, List.count_append, later]
    simp [marked, List.count_eq_zero.2 own, Nat.add_comm]
  case join =>
    have joined := join_escapePart (head :: parts)
    rwa [List.flatten_cons, whole, escapePart, String.ofList_toList] at joined
  case single => rw [List.map_eq_nil_iff, single]
  case parts =>
    intro feed
    obtain rfl := several feed
    exact ⟨rfl, parts, whole ▸ cut, rfl⟩
  case ended =>
    rw [← List.map_dropLast]
    refine List.forall_mem_map.2 fun part hpart => ?_
    rw [units_escapePart, List.getLast?_map, cut.getLast?_eq part hpart]
    rfl
  case first => rwa [units_escapePart, feed_mem_map]
  case more =>
    refine List.forall_mem_map.2 fun part hpart => ?_
    rw [units_escapePart, ← List.map_dropLast, feed_mem_map]
    exact cut.noFeed_dropLast part hpart
  case nonempty =>
    intro nothing
    obtain ⟨part, hpart, empty⟩ := List.mem_map.1 nothing
    have fallen := units_escapePart part
    rw [empty] at fallen
    obtain rfl := List.map_eq_nil_iff.1 fallen.symm
    exact cut.ne_nil hpart

/-- **The two forms of a field agree.** On one line or on several, the quoted texts of a field make
up the escaped text. A field has several lines if its text has line feeds: the first is empty then,
and each part of the text that a line feed ends has a line of its own, so that escaped line feeds
stand at the ends of lines and nowhere else. -/
theorem exists_isLaidOut (keyword text : String) :
    ∃ first more, IsLaidOut keyword text first more := by
  by_cases feed : '\n' ∈ text.toList
  · have cut := segmented_segments text.toList
    have several : segments text.toList ≠ [] := by
      intro none
      rw [none] at cut
      rw [cut.eq_nil] at feed
      exact List.not_mem_nil feed
    have lines : fieldLines keyword text = (keyword ++ " " ++ marked (escapePart [])) ::
        ((segments text.toList).map escapePart).map marked := by
      rw [fieldLines, if_pos feed, List.map_map]
      rfl
    refine ⟨_, _, isLaidOut_of_parts [] (segments text.toList) lines ?_ List.not_mem_nil ?_
      (iff_of_false several (not_not_intro feed)) fun _ => rfl⟩
    · rw [List.nil_append, flatten_segments]
    · rwa [flatten_segments]
  · have lines : fieldLines keyword text =
        (keyword ++ " " ++ marked (escapePart text.toList)) :: ([].map escapePart).map marked := by
      rw [fieldLines, if_neg feed, escapePart, String.ofList_toList]
      rfl
    exact ⟨_, _, isLaidOut_of_parts text.toList [] lines (List.append_nil _) feed .nil
      (iff_of_true rfl feed) fun contrary => absurd contrary feed⟩

/-- A backslash before a line feed, and a line feed after a line feed. -/
example : fieldLines "msgid" "a\\\n\n\"b\"" =
    ["msgid \"\"", "\"a\\\\\\n\"", "\"\\n\"", "\"\\\"b\\\"\""] := by
  decide

end PotExtract.Template
