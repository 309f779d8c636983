import PotExtract.Proofs.Catalog.Valid
import PotExtract.Proofs.Template.HeaderNames
import Mathlib.Data.List.DropRight

/-!
# References read back

The comment of an entry names the places where it was found, with a space
between two of them. A path stands in it as it is, so a reader that cuts at
spaces finds the places again unless a path has a space of its own.

* `readReferences?`: a reader that cuts at spaces, and each piece at its last
  colon;
* `readReference?_reference`: one place read back;
* `length_pieces`: how many pieces a reader finds;
* `readReferences?_iff`: the comment of an entry of a run, read back, or not.
-/

namespace PotExtract.Template

open Source (Location forwardSlashes)

/-! ## The reader -/

/-- A path and a line with the last colon between them. -/
def readReference? (s : List Char) : Option Location :=
  let line := s.rtakeWhile (· != ':')
  if ':' ∈ s ∧ line ≠ [] ∧ line.all Char.isDigit then
    some ⟨String.ofList (s.rdropWhile (· != ':')).dropLast, Nat.ofDigitChars 10 line 0⟩
  else none

/-- The places that a text names, with a space between two of them. -/
def readReferences? (text : String) : Option (List Location) :=
  (text.toList.splitOn ' ').mapM readReference?

/-- A place, with slashes in its path. -/
def forward (l : Location) : Location :=
  { l with path := forwardSlashes l.path }

/-! ## One place -/

theorem toList_reference (l : Location) :
    l.reference.toList = (forwardSlashes l.path).toList ++ [':'] ++ Nat.toDigits 10 l.line := by
  simp [Location.reference]

theorem not_mem_toDigits {c : Char} (hc : c.isDigit = false) (n : Nat) : c ∉ Nat.toDigits 10 n := by
  intro h
  rw [Nat.isDigit_of_mem_toDigits (by decide) (by decide) h] at hc
  cases hc

section
variable {α : Type} {p : α → Bool} {a : α}

theorem rtakeWhile_append_stop (ha : p a = false) (s : List α) {t : List α}
    (ht : ∀ b ∈ t, p b = true) : (s ++ [a] ++ t).rtakeWhile p = t := by
  induction t using List.reverseRecOn with
  | nil => simp [ha]
  | append_singleton t b ih =>
    have first := ih fun c hc => ht c (List.mem_append_left _ hc)
    rw [← List.append_assoc, List.rtakeWhile_concat, if_pos (ht b (by simp)), first]

theorem rdropWhile_append_stop (ha : p a = false) (s : List α) {t : List α}
    (ht : ∀ b ∈ t, p b = true) : (s ++ [a] ++ t).rdropWhile p = s ++ [a] := by
  induction t using List.reverseRecOn with
  | nil => simp [ha]
  | append_singleton t b ih =>
    have first := ih fun c hc => ht c (List.mem_append_left _ hc)
    rw [← List.append_assoc, List.rdropWhile_concat, if_pos (ht b (by simp)), first]

end

/-- A place is read back, whatever its path is: no colon comes after the last one. -/
theorem readReference?_reference (l : Location) :
    readReference? l.reference.toList = some (forward l) := by
  have colon : (':' != ':') = false := rfl
  have digits : ∀ c ∈ Nat.toDigits 10 l.line, (c != ':') = true := by
    intro c hc
    rw [bne_iff_ne]
    rintro rfl
    exact not_mem_toDigits rfl l.line hc
  have all : (Nat.toDigits 10 l.line).all Char.isDigit = true :=
    List.all_eq_true.2 fun c hc => Nat.isDigit_of_mem_toDigits (by decide) (by decide) hc
  simp only [readReference?, toList_reference]
  rw [rtakeWhile_append_stop (p := (· != ':')) colon _ digits,
    rdropWhile_append_stop (p := (· != ':')) colon _ digits,
    if_pos ⟨by simp, Nat.toDigits_ne_nil, all⟩,
    Nat.ofDigitChars_toDigits (by decide) (by decide)]
  simp [forward]

/-! ## A row of places -/

theorem space_mem_reference {l : Location} : ' ' ∈ l.reference.toList ↔ ' ' ∈ l.path.toList := by
  have line := not_mem_toDigits (c := ' ') rfl l.line
  have path : ' ' ∈ (forwardSlashes l.path).toList ↔ ' ' ∈ l.path.toList := by
    simp only [forwardSlashes, String.toList_map, List.mem_map]
    constructor
    · rintro ⟨c, hc, heq⟩
      split at heq
      · cases heq
      · exact heq ▸ hc
    · intro h
      exact ⟨' ', h, rfl⟩
  rw [toList_reference]
  simp [line, path]

theorem mapM_eq_some_length {α β : Type} {f : α → Option β} {l : List α} {m : List β}
    (h : l.mapM f = some m) : m.length = l.length := by
  induction l generalizing m with
  | nil =>
    cases h
    rfl
  | cons a l ih =>
    rw [List.mapM_cons] at h
    obtain ⟨b, -, h⟩ := Option.bind_eq_some_iff.1 h
    obtain ⟨rest, hrest, h⟩ := Option.bind_eq_some_iff.1 h
    cases h
    simp [ih hrest]

/-- A reader finds one piece for each place, and one more for each space in a path. -/
theorem length_pieces {refs : List (List Char)} (ne : refs ≠ []) :
    (([' '].intercalate refs).splitOn ' ').length = refs.length + refs.flatten.count ' ' := by
  rw [length_splitOn]
  induction refs with
  | nil => exact absurd rfl ne
  | cons r refs ih =>
    cases refs with
    | nil => simp [Nat.add_comm]
    | cons s refs =>
      have more := ih (List.cons_ne_nil _ _)
      rw [List.intercalate_cons_cons, List.count_append, List.count_append, List.flatten_cons,
        List.count_append, List.length_cons]
      simp only [List.count_singleton_self]
      omega

/-- A reader finds the places of an entry again exactly if none has a space. -/
theorem readReferences?_intercalate {places : List Location} (ne : places ≠ []) :
    readReferences? (String.intercalate " " (places.map Location.reference)) =
        some (places.map forward) ↔ ∀ l ∈ places, ' ' ∉ l.path.toList := by
  have refs : (places.map fun l => l.reference.toList) ≠ [] := by simpa using ne
  have whole : (String.intercalate " " (places.map Location.reference)).toList =
      [' '].intercalate (places.map fun l => l.reference.toList) := by
    rw [String.toList_intercalate, List.map_map]
    rfl
  rw [readReferences?, whole]
  constructor
  · intro h l hl hspace
    have lengths := mapM_eq_some_length h
    rw [length_pieces refs, List.length_map, List.length_map] at lengths
    have none : (places.map fun l => l.reference.toList).flatten.count ' ' = 0 := by omega
    rw [List.count_eq_zero] at none
    exact none (List.mem_flatten.2
      ⟨_, List.mem_map_of_mem hl, space_mem_reference.2 hspace⟩)
  · intro h
    have apart : ∀ r ∈ places.map fun l => l.reference.toList, ' ' ∉ r := by
      intro r hr
      obtain ⟨l, hl, rfl⟩ := List.mem_map.1 hr
      exact fun hspace => h l hl (space_mem_reference.1 hspace)
    rw [List.splitOn_intercalate ' ' apart refs]
    exact mapM_map_eq_some fun l _ => readReference?_reference l

/-- **The comment of an entry is one line, and a reader that cuts it at spaces finds the places
where the entry was found, exactly if no path has a space.** -/
theorem readReferences?_iff {allowed : Record → Prop} {catalog : Catalog}
    (hcatalog : catalog.Reached allowed) {e : Entry} (he : e ∈ catalog.entries)
    (paths : ∀ l ∈ e.occurrences, '\n' ∉ l.path.toList) :
    '\n' ∉ (referenceLine e).toList ∧
      ∃ references, referenceLine e = "#: " ++ references ∧
        (readReferences? references = some (e.occurrences.map forward) ↔
          ∀ l ∈ e.occurrences, ' ' ∉ l.path.toList) :=
  ⟨(referenceLine_isComment paths).2, _, rfl,
    readReferences?_intercalate (hcatalog.valid.wellFormed e he).found⟩

/-- An entry found in a file whose path has a backslash and a colon, and in another one. -/
def foundTwice : Catalog :=
  ((Catalog.empty.ingest .any ⟨⟨"Name", none, none, none⟩, ⟨"inc\\b:2.php", 12⟩⟩).2.ingest .any
    ⟨⟨"Name", none, none, none⟩, ⟨"a.php", 1⟩⟩).2

theorem readReferences?_foundTwice :
    ∃ e ∈ foundTwice.entries, ∃ references, referenceLine e = "#: " ++ references ∧
      readReferences? references = some [⟨"inc/b:2.php", 12⟩, ⟨"a.php", 1⟩] := by
  have reached : foundTwice.Reached fun _ => True := .ingest (.ingest .empty _ trivial) _ trivial
  have mem : ⟨none, "Name", none, [⟨"inc\\b:2.php", 12⟩, ⟨"a.php", 1⟩]⟩ ∈ foundTwice.entries := by
    have entries : foundTwice.entries.toList =
        [⟨none, "Name", none, [⟨"inc\\b:2.php", 12⟩, ⟨"a.php", 1⟩]⟩] := rfl
    rw [← Array.mem_toList_iff, entries]
    exact List.mem_cons_self
  obtain ⟨-, references, whole, exactly⟩ := readReferences?_iff reached mem (by decide)
  have slashes : forwardSlashes "inc\\b:2.php" = "inc/b:2.php" := by decide +kernel
  have same : forwardSlashes "a.php" = "a.php" := by decide +kernel
  have found := exactly.2 (by decide)
  simp only [List.map_cons, List.map_nil, forward, slashes, same] at found
  exact ⟨_, mem, references, whole, found⟩

/-- An entry found in a file whose path has a space. -/
def foundApart : Catalog :=
  (Catalog.empty.ingest .any ⟨⟨"Name", none, none, none⟩, ⟨"a b.php", 1⟩⟩).2

theorem readReferences?_foundApart :
    foundApart.Reached (fun r => '\n' ∉ r.location.path.toList) ∧
      ∃ e ∈ foundApart.entries, e.occurrences = [⟨"a b.php", 1⟩] ∧
        ∃ references, referenceLine e = "#: " ++ references ∧
          readReferences? references ≠ some (e.occurrences.map forward) := by
  have reached : foundApart.Reached (fun r => '\n' ∉ r.location.path.toList) :=
    .ingest .empty _ (by decide)
  have mem : ⟨none, "Name", none, [⟨"a b.php", 1⟩]⟩ ∈ foundApart.entries := by
    have entries : foundApart.entries.toList = [⟨none, "Name", none, [⟨"a b.php", 1⟩]⟩] := rfl
    rw [← Array.mem_toList_iff, entries]
    exact List.mem_cons_self
  refine ⟨reached, _, mem, rfl, _, rfl, ?_⟩
  rw [ne_eq, readReferences?_intercalate (List.cons_ne_nil _ _)]
  decide

end PotExtract.Template
