import PotExtract.Json.Write
import PotExtract.Proofs.Json.Distinct

/-!
# JSON texts read back

A value that is written is read as itself, if it is not nested too deeply and
no object in it has a name twice. Numbers are left out.

* `Legible`: such a value;
* `tokensOf`: the tokens of a value;
* `ReadsAs`: a text is read as some tokens;
* `readsAs_pretty`: a value is written as its tokens;
* `run_tokensOf`: from its tokens the value is put together again;
* `read?_pretty`: a value that is written is read as itself.
-/

namespace PotExtract.Json

/-! ## Strings -/

theorem hexUnit?_control : ∀ n < 0x20,
    hexUnit? '0' '0' (Nat.digitChar (n / 16)) (Nat.digitChar (n % 16)) = some n := by
  decide

/-- A character that stands for itself. -/
theorem stringBody?_cons (seen : List Char) {c : Char} (mark : c ≠ '"') (backslash : c ≠ '\\')
    (printable : ¬ c.toNat < 0x20) (r : List Char) :
    stringBody? seen (c :: r) = stringBody? (c :: seen) r := by
  rw [stringBody?.eq_def]
  split
  case h_5 c' r' _ _ _ heq =>
    cases heq
    exact if_neg (not_or.2 ⟨printable, backslash⟩)
  all_goals simp_all

theorem stringBody?_escapeChar (seen : List Char) (c : Char) (r : List Char) :
    stringBody? seen (escapeChar c ++ r) = stringBody? (c :: seen) r := by
  fun_cases escapeChar c with
  | case8 c _ _ _ _ _ _ _ control =>
    have unit := hexUnit?_control c.toNat control
    simp only [List.cons_append, List.nil_append, stringBody?, unit]
    rw [if_neg (by omega), Char.ofNat_toNat]
  | case9 c mark backslash _ _ _ _ _ printable =>
    exact stringBody?_cons seen mark backslash printable r
  | _ => simp [stringBody?, shortEscape?]

/-- A text that is written as a JSON string is read as it was. -/
theorem stringBody?_escape (seen s r : List Char) :
    stringBody? seen (s.flatMap escapeChar ++ '"' :: r) = some (seen.reverse ++ s, r) := by
  induction s generalizing seen with
  | nil => simp [stringBody?]
  | cons c s ih =>
    rw [List.flatMap_cons, List.append_assoc, stringBody?_escapeChar, ih]
    simp

/-! ## Tokens -/

/-- A text that does not go on with a word. -/
def EndsWord (rest : List Char) : Prop :=
  ∀ c ∈ rest.head?, c.isAlpha = false

theorem endsWord_cons {c : Char} (hc : c.isAlpha = false) (s : List Char) : EndsWord (c :: s) := by
  rintro _ ⟨⟩
  exact hc

/-- A text is read as some tokens, whatever comes after it that does not go on with a word. -/
def ReadsAs (s : List Char) (ts : List Token) : Prop :=
  ∀ rest, EndsWord rest → tokens? (s ++ rest) = (ts ++ ·) <$> tokens? rest

theorem tokens?_of_next? {s rest : List Char} {t : Token}
    (h : next? (s.dropWhile isSpace) = some (t, rest)) :
    tokens? s = (t :: ·) <$> tokens? rest := by
  rw [tokens?, if_neg]
  · split
    · simp_all
    · simp_all
  · intro empty
    rw [List.isEmpty_iff.1 empty] at h
    cases h

theorem tokens?_blank {c : Char} (hc : isSpace c = true) (s : List Char) :
    tokens? (c :: s) = tokens? s := by
  have same : (c :: s).dropWhile isSpace = s.dropWhile isSpace :=
    List.dropWhile_cons_of_pos hc
  rw [tokens?, tokens?]
  generalize (c :: s).dropWhile isSpace = begun at same ⊢
  rw [same]

theorem readsAs_nil : ReadsAs [] [] := by
  intro rest _
  simp

section
variable {s : List Char} {ts : List Token}

theorem ReadsAs.append {s' : List Char} {ts' : List Token} (h : ReadsAs s ts)
    (h' : ReadsAs s' ts') (ends : EndsWord s') : ReadsAs (s ++ s') (ts ++ ts') := by
  intro rest hrest
  have next : EndsWord (s' ++ rest) := by
    cases s' with
    | nil => exact hrest
    | cons c s' => exact ends
  rw [List.append_assoc, h _ next, h' rest hrest]
  simp [Function.comp_def]

theorem ReadsAs.blank {c : Char} (hc : isSpace c = true) (h : ReadsAs s ts) :
    ReadsAs (c :: s) ts := by
  intro rest hrest
  rw [List.cons_append, tokens?_blank hc]
  exact h rest hrest

theorem ReadsAs.indented (level : Nat) (h : ReadsAs s ts) :
    ReadsAs ((indentation level).toList ++ s) ts := by
  have blanks : ∀ n, ReadsAs (List.replicate n ' ' ++ s) ts := by
    intro n
    induction n with
    | zero => exact h
    | succ n ih => exact ih.blank rfl
  simpa [indentation] using blanks (2 * level)

theorem ReadsAs.mark {c : Char} (hc : c ∈ ['[', ']', '\x7b', '\x7d', ':', ',']) (h : ReadsAs s ts) :
    ReadsAs (c :: s) (.mark c :: ts) := by
  intro rest hrest
  have marks : ['[', ']', '\x7b', '\x7d', ':', ','].any isSpace = false := by decide
  have first : next? ((c :: (s ++ rest)).dropWhile isSpace) = some (.mark c, s ++ rest) := by
    rw [List.dropWhile_cons_of_neg (List.any_eq_false.1 marks c hc), next?, if_pos hc]
  rw [List.cons_append, tokens?_of_next? first, h rest hrest]
  simp [Function.comp_def]

theorem ReadsAs.quoted (text : String) (h : ReadsAs s ts) :
    ReadsAs ((stringText text).toList ++ s) (.scalar (.string text) :: ts) := by
  intro rest hrest
  have body := stringBody?_escape [] text.toList (s ++ rest)
  have whole : (stringText text).toList ++ s ++ rest =
      '"' :: (text.toList.flatMap escapeChar ++ '"' :: (s ++ rest)) := by
    simp [stringText]
  have first : next? (((stringText text).toList ++ s ++ rest).dropWhile isSpace) =
      some (.scalar (.string text), s ++ rest) := by
    rw [whole, List.dropWhile_cons_of_neg (by decide), next?, if_neg (by decide), if_pos rfl, body]
    simp
  rw [tokens?_of_next? first, h rest hrest]
  simp [Function.comp_def]

end

/-- A word that is a value is read up to its end. -/
theorem readsAs_word {c : Char} {r : List Char} {v : Json} (word : (c :: r).all Char.isAlpha = true)
    (reads : scalar? (c :: r) = some v) : ReadsAs (c :: r) [.scalar v] := by
  intro rest hrest
  obtain ⟨hc, hr⟩ := List.forall_mem_cons.1 (List.all_eq_true.1 word)
  have others : ['[', ']', '\x7b', '\x7d', ':', ',', '"', ' ', '\t', '\n', '\r'].any
      Char.isAlpha = false := by decide
  have apart : c ∉ ['[', ']', '\x7b', '\x7d', ':', ',', '"', ' ', '\t', '\n', '\r'] :=
    fun mem => List.any_eq_false.1 others c mem hc
  have ends : rest.takeWhile Char.isAlpha = [] ∧ rest.dropWhile Char.isAlpha = rest := by
    cases rest with
    | nil => exact ⟨rfl, rfl⟩
    | cons d rest =>
      have hd := hrest d rfl
      exact ⟨List.takeWhile_cons_of_neg (by simp [hd]), List.dropWhile_cons_of_neg (by simp [hd])⟩
  apply tokens?_of_next?
  rw [List.cons_append, List.dropWhile_cons_of_neg (by simp_all [isSpace]), next?,
    if_neg (by simp_all), if_neg (by simp_all), continuesScalar, if_pos hc,
    List.takeWhile_append_of_pos hr, List.dropWhile_append_of_pos hr, ends.1, ends.2,
    List.append_nil, reads]
  rfl

/-! ## Arrays and objects -/

/-- Parts on lines of their own are read one after the other, with a comma between two of them. -/
theorem readsAs_separated {parts : List String} {tss : List (List Token)}
    (each : List.Forall₂ (fun part ts => ReadsAs part.toList ts) parts tss) (level : Nat) :
    ReadsAs (String.intercalate ",\n" (parts.map (indentation level ++ ·))).toList
      ([.mark ','].intercalate tss) := by
  rw [String.toList_intercalate, List.map_map]
  induction each with
  | nil => exact readsAs_nil
  | @cons part ts parts tss first rest ih =>
    have here := first.indented level
    cases rest with
    | nil => simpa using here
    | cons second rest =>
      have comma := (ih.blank (c := '\n') rfl).mark (c := ',') (by decide)
      have more := here.append comma (endsWord_cons rfl _)
      simpa using more

theorem readsAs_enclosed {opening closing : String} {o c : Char}
    (ho : o ∈ ['[', ']', '\x7b', '\x7d', ':', ',']) (hopening : opening.toList = [o])
    (hc : c ∈ ['[', ']', '\x7b', '\x7d', ':', ',']) (hclosing : closing.toList = [c])
    {parts : List String} {tss : List (List Token)}
    (each : List.Forall₂ (fun part ts => ReadsAs part.toList ts) parts tss) (level : Nat) :
    ReadsAs (enclosed opening closing level parts).toList
      (.mark o :: ([.mark ','].intercalate tss ++ [.mark c])) := by
  have close := readsAs_nil.mark hc
  cases parts with
  | nil =>
    cases each
    simpa [enclosed, hopening, hclosing] using close.mark ho
  | cons part parts =>
    have lines := (readsAs_separated each (level + 1)).append
      ((close.indented level).blank (c := '\n') rfl) (endsWord_cons rfl _)
    simpa [enclosed, hopening, hclosing] using (lines.blank (c := '\n') rfl).mark ho

mutual

/-- The tokens of a value. -/
def tokensOf : Json → List Token
  | .array items => .mark '[' :: ([.mark ','].intercalate (itemTokens items) ++ [.mark ']'])
  | .object members =>
    .mark '\x7b' :: ([.mark ','].intercalate (memberTokens members) ++ [.mark '\x7d'])
  | value => [.scalar value]

/-- The tokens of the items of an array. -/
def itemTokens : List Json → List (List Token)
  | [] => []
  | item :: items => tokensOf item :: itemTokens items

/-- The tokens of the members of an object. -/
def memberTokens : List (String × Json) → List (List Token)
  | [] => []
  | (name, value) :: members =>
    (.scalar (.string name) :: .mark ':' :: tokensOf value) :: memberTokens members

end

theorem memberTokens_cons (m : String × Json) (members : List (String × Json)) :
    memberTokens (m :: members) =
      (.scalar (.string m.1) :: .mark ':' :: tokensOf m.2) :: memberTokens members := by
  obtain ⟨name, value⟩ := m
  rw [memberTokens]

/-- A value without numbers that is nested up to some depth, and in which no object has a name
twice. -/
inductive Legible : Nat → Json → Prop where
  | null {depth : Nat} : Legible depth .null
  | bool {depth : Nat} (b : Bool) : Legible depth (.bool b)
  | string {depth : Nat} (s : String) : Legible depth (.string s)
  | array {depth : Nat} {items : List Json} (each : ∀ v ∈ items, Legible depth v) :
    Legible (depth + 1) (.array items)
  | object {depth : Nat} {members : List (String × Json)} (names : (members.map Prod.fst).Nodup)
    (each : ∀ m ∈ members, Legible depth m.2) : Legible (depth + 1) (.object members)

theorem readsAs_items {items : List Json} (level : Nat)
    (each : ∀ v ∈ items, ReadsAs (prettyAt level v).toList (tokensOf v)) :
    List.Forall₂ (fun part ts => ReadsAs part.toList ts) (prettyItems level items)
      (itemTokens items) := by
  induction items with
  | nil => exact .nil
  | cons item items ih =>
    obtain ⟨here, later⟩ := List.forall_mem_cons.1 each
    exact .cons here (ih later)

theorem readsAs_members {members : List (String × Json)} (level : Nat)
    (each : ∀ m ∈ members, ReadsAs (prettyAt level m.2).toList (tokensOf m.2)) :
    List.Forall₂ (fun part ts => ReadsAs part.toList ts) (prettyMembers level members)
      (memberTokens members) := by
  induction members with
  | nil => exact .nil
  | cons m members ih =>
    obtain ⟨here, later⟩ := List.forall_mem_cons.1 each
    refine .cons ?_ (ih later)
    have value := ((here.blank (c := ' ') rfl).mark (c := ':') (by decide)).quoted m.1
    simpa using value

/-- A value is written as its tokens. -/
theorem readsAs_pretty {depth : Nat} {v : Json} (h : Legible depth v) (level : Nat) :
    ReadsAs (prettyAt level v).toList (tokensOf v) := by
  induction h generalizing level with
  | null =>
    have word := readsAs_word (c := 'n') (r := ['u', 'l', 'l']) (by decide) rfl
    simpa [prettyAt, tokensOf] using word
  | bool b =>
    cases b with
    | true =>
      have word := readsAs_word (c := 't') (r := ['r', 'u', 'e']) (by decide) rfl
      simpa [prettyAt, tokensOf] using word
    | false =>
      have word := readsAs_word (c := 'f') (r := ['a', 'l', 's', 'e']) (by decide) rfl
      simpa [prettyAt, tokensOf] using word
  | string s => simpa [prettyAt, tokensOf] using readsAs_nil.quoted s
  | array each ih =>
    rw [prettyAt, tokensOf]
    have parts := readsAs_items (level + 1) fun v hv => ih v hv (level + 1)
    exact readsAs_enclosed (by decide) rfl (by decide) rfl parts level
  | object names each ih =>
    rw [prettyAt, tokensOf]
    have parts := readsAs_members (level + 1) fun m hm => ih m hm (level + 1)
    exact readsAs_enclosed (by decide) rfl (by decide) rfl parts level

/-! ## Reading the tokens of a value -/

/-- A value may come next. -/
def Reader.AwaitsValue (r : Reader) : Prop :=
  r.expected = .value ∨ r.expected = .firstItem

theorem Reader.AwaitsValue.scalar {r : Reader} (h : r.AwaitsValue) (v : Json) :
    r.step (.scalar v) = some (Reader.put r.stack v) := by
  rcases h with h | h <;> simp [Reader.step, h, Reader.readValue]

theorem Reader.AwaitsValue.opened {r : Reader} (h : r.AwaitsValue)
    (room : r.stack.length < greatestDepth) :
    r.step (.mark '[') = some { r with stack := .array [] :: r.stack, expected := .firstItem } ∧
    r.step (.mark '\x7b') =
      some { r with stack := .object [] "" :: r.stack, expected := .firstName } := by
  rcases h with h | h <;> simp [Reader.step, h, Reader.readValue, Reader.push, room]

/-- Items and commas, in an array that has some items already. -/
theorem run_items {outer : List Frame} (item : Json) (items : List Json)
    (each : ∀ v ∈ item :: items, ∀ r : Reader, r.AwaitsValue →
      (∃ seen, r.stack = .array seen :: outer) →
        (tokensOf v).foldlM Reader.step r = some (Reader.put r.stack v))
    {r : Reader} (h : r.AwaitsValue) {seen : List Json} (hstack : r.stack = .array seen :: outer) :
    ([.mark ','].intercalate (itemTokens (item :: items))).foldlM Reader.step r =
      some ⟨.array (items.reverse ++ item :: seen) :: outer, .afterValue, none⟩ := by
  induction items generalizing item seen r with
  | nil =>
    have first := each item List.mem_cons_self r h ⟨seen, hstack⟩
    simpa [itemTokens, hstack, Reader.put] using first
  | cons next items ih =>
    obtain ⟨here, later⟩ := List.forall_mem_cons.1 each
    have first := here r h ⟨seen, hstack⟩
    have rest := ih next later (r := ⟨.array (item :: seen) :: outer, .value, none⟩) (.inl rfl) rfl
    rw [itemTokens, itemTokens, List.intercalate_cons_cons]
    rw [itemTokens] at rest
    simp [List.foldlM_append, first, hstack, Reader.put, Reader.step, rest]

/-- A name may come next. -/
def Reader.AwaitsName (r : Reader) : Prop :=
  r.expected = .name ∨ r.expected = .firstName

theorem Reader.AwaitsName.named {r : Reader} (h : r.AwaitsName) {outer : List Frame}
    {before : List (String × Json)} {old : String} (hstack : r.stack = .object before old :: outer)
    (name : String) :
    [.scalar (.string name), .mark ':'].foldlM Reader.step r =
      some { r with stack := .object before name :: outer, expected := .value } := by
  rcases h with h | h <;> simp [Reader.step, h, Reader.readName, hstack]

/-- A member of a name that is not there yet is put after the others. -/
theorem run_member {outer : List Frame} {m : String × Json}
    (value : ∀ r : Reader, r.AwaitsValue → (∃ before name, r.stack = .object before name :: outer) →
      (tokensOf m.2).foldlM Reader.step r = some (Reader.put r.stack m.2))
    {r : Reader} (h : r.AwaitsName) {before : List (String × Json)} {old : String}
    (hstack : r.stack = .object before old :: outer) (new : m.1 ∉ before.map Prod.fst) :
    (.scalar (.string m.1) :: .mark ':' :: tokensOf m.2).foldlM Reader.step r =
      some ⟨.object (before ++ [m]) m.1 :: outer, .afterValue, none⟩ := by
  have name := h.named hstack m.1
  have run := value { r with stack := .object before m.1 :: outer, expected := .value } (.inl rfl)
    ⟨_, _, rfl⟩
  have parts : Token.scalar (.string m.1) :: .mark ':' :: tokensOf m.2 =
      [.scalar (.string m.1), .mark ':'] ++ tokensOf m.2 := rfl
  rw [parts, List.foldlM_append, name, Option.bind_eq_bind, Option.bind_some, run, Reader.put,
    putMember_of_not_mem new]

theorem not_mem_of_nodup {before members : List (String × Json)} {m : String × Json}
    (names : ((before ++ m :: members).map Prod.fst).Nodup) : m.1 ∉ before.map Prod.fst := by
  intro there
  rw [List.map_append] at names
  exact (List.nodup_append.1 names).2.2 m.1 there m.1 (by simp) rfl

/-- Members and commas, in an object that has some members already. -/
theorem run_members {outer : List Frame} (m : String × Json) (members : List (String × Json))
    (each : ∀ m' ∈ m :: members, ∀ r : Reader, r.AwaitsValue →
      (∃ before name, r.stack = .object before name :: outer) →
        (tokensOf m'.2).foldlM Reader.step r = some (Reader.put r.stack m'.2))
    {r : Reader} (h : r.AwaitsName) {before : List (String × Json)} {old : String}
    (hstack : r.stack = .object before old :: outer)
    (names : ((before ++ m :: members).map Prod.fst).Nodup) :
    ∃ last, ([.mark ','].intercalate (memberTokens (m :: members))).foldlM Reader.step r =
      some ⟨.object (before ++ m :: members) last :: outer, .afterValue, none⟩ := by
  induction members generalizing m before old r with
  | nil =>
    refine ⟨m.1, ?_⟩
    rw [memberTokens_cons, memberTokens, List.intercalate_singleton]
    exact run_member (each m List.mem_cons_self) h hstack (not_mem_of_nodup names)
  | cons next members ih =>
    obtain ⟨here, later⟩ := List.forall_mem_cons.1 each
    have first := run_member here h hstack (not_mem_of_nodup names)
    rw [List.append_cons] at names
    obtain ⟨last, rest⟩ := ih next later
      (r := ⟨.object (before ++ [m]) m.1 :: outer, .name, none⟩) (.inl rfl) rfl names
    refine ⟨last, ?_⟩
    rw [memberTokens_cons, memberTokens_cons, List.intercalate_cons_cons, ← memberTokens_cons,
      List.foldlM_append, List.foldlM_append, first]
    have comma : [Token.mark ','].foldlM Reader.step
        ⟨.object (before ++ [m]) m.1 :: outer, .afterValue, none⟩ =
          some ⟨.object (before ++ [m]) m.1 :: outer, .name, none⟩ := rfl
    simp only [Option.bind_eq_bind, Option.bind_some, comma]
    rw [rest, ← List.append_cons]

/-- From its tokens a value is put together again. -/
theorem run_tokensOf {depth : Nat} {v : Json} (h : Legible depth v) {r : Reader}
    (awaits : r.AwaitsValue) (room : r.stack.length + depth ≤ greatestDepth) :
    (tokensOf v).foldlM Reader.step r = some (Reader.put r.stack v) := by
  -- A value inside an array or object is read with one more of them open.
  induction h generalizing r with
  | null => simpa [tokensOf] using awaits.scalar .null
  | bool b => simpa [tokensOf] using awaits.scalar (.bool b)
  | string s => simpa [tokensOf] using awaits.scalar (.string s)
  | @array depth items each ih =>
    have opening := (awaits.opened (by omega)).1
    rw [tokensOf, List.foldlM_cons, opening, Option.bind_eq_bind, Option.bind_some,
      List.foldlM_append]
    cases items with
    | nil => rfl
    | cons item items =>
      have inner : ∀ v ∈ item :: items, ∀ r' : Reader, r'.AwaitsValue →
          (∃ seen, r'.stack = .array seen :: r.stack) →
            (tokensOf v).foldlM Reader.step r' = some (Reader.put r'.stack v) := by
        rintro v hv r' awaits' ⟨seen, hstack⟩
        refine ih v hv awaits' ?_
        rw [hstack, List.length_cons]
        omega
      rw [run_items item items inner (.inr rfl) rfl]
      simp [Reader.step]
  | @object depth members names each ih =>
    have opening := (awaits.opened (by omega)).2
    rw [tokensOf, List.foldlM_cons, opening, Option.bind_eq_bind, Option.bind_some,
      List.foldlM_append]
    cases members with
    | nil => rfl
    | cons m members =>
      have inner : ∀ m' ∈ m :: members, ∀ r' : Reader, r'.AwaitsValue →
          (∃ before name, r'.stack = .object before name :: r.stack) →
            (tokensOf m'.2).foldlM Reader.step r' = some (Reader.put r'.stack m'.2) := by
        rintro m' hm r' awaits' ⟨before, name, hstack⟩
        refine ih m' hm awaits' ?_
        rw [hstack, List.length_cons]
        omega
      obtain ⟨last, run⟩ := run_members m members inner
        (r := { r with stack := .object [] "" :: r.stack, expected := .firstName }) (.inr rfl) rfl
        names
      rw [run]
      simp [Reader.step]

/-- A value that is written is read as itself. -/
theorem read?_pretty {v : Json} (h : Legible greatestDepth v) : read? v.pretty = some v := by
  have written := readsAs_pretty h 0 [] (by rintro _ ⟨⟩)
  have none : tokens? [] = some [] := by rw [tokens?]; rfl
  have start : Reader.start.AwaitsValue := .inl rfl
  have run := run_tokensOf h start (Nat.le_refl _)
  rw [List.append_nil, none] at written
  simp only [read?, pretty, written, Option.map_eq_map, Option.map_some, List.append_nil,
    Option.bind_eq_bind, Option.bind_some, run]
  rfl

end PotExtract.Json
