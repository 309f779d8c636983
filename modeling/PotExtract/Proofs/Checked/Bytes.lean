import PotExtract.Checked.Bytes
import PotExtract.Proofs.Source.Bytes

/-!
# Bytes and the characters they belong to

A byte is read and a slice is taken without fault where a character begins and
the text is cut between characters.

* `byteAt_lead`: between two characters, the first byte of the next one is
  read;
* `slice_append`: a text is cut between characters;
* `pass_character`: a scan that passes bytes outside ASCII one by one gets
  past the character they belong to.
-/

namespace PotExtract.Checked

open Source

/-! ## Slices -/

/-- The size of a text that begins with a character, as the two cuts take it apart. -/
theorem exists_byteSize_cons (c : Char) (s : List Char) :
    ∃ n, byteSize (c :: s) = n + 1 ∧ c.utf8Size ≤ n + 1 ∧ n + 1 - c.utf8Size = byteSize s := by
  have pos := c.utf8Size_pos
  refine ⟨c.utf8Size + byteSize s - 1, ?_, ?_, ?_⟩
  · rw [byteSize_cons]
    omega
  · omega
  · omega

theorem dropBytes_append (pre rest : List Char) :
    dropBytes (byteSize pre) (pre ++ rest) = some rest := by
  induction pre with
  | nil => simp [dropBytes]
  | cons c pre ih =>
    obtain ⟨n, size, fits, more⟩ := exists_byteSize_cons c pre
    rw [size, List.cons_append, dropBytes, if_pos fits, more, ih]

/-- An offset between two characters is the size of the text before it. -/
theorem dropBytes_eq_some_iff {n : Nat} {s rest : List Char} :
    dropBytes n s = some rest ↔ ∃ pre, s = pre ++ rest ∧ byteSize pre = n := by
  constructor
  · intro h
    induction s generalizing n with
    | nil =>
      cases n with
      | zero =>
        cases h
        exact ⟨[], rfl, rfl⟩
      | succ n => cases h
    | cons c s ih =>
      cases n with
      | zero =>
        cases h
        exact ⟨[], rfl, rfl⟩
      | succ n =>
        rw [dropBytes, Option.ite_none_right_eq_some] at h
        obtain ⟨pre, rfl, size⟩ := ih h.2
        exact ⟨c :: pre, rfl, by rw [byteSize_cons, size]; omega⟩
  · rintro ⟨pre, rfl, rfl⟩
    exact dropBytes_append pre rest

theorem takeBytes_append (inside rest : List Char) :
    takeBytes (byteSize inside) (inside ++ rest) = some inside := by
  induction inside with
  | nil => simp [takeBytes]
  | cons c inside ih =>
    obtain ⟨n, size, fits, more⟩ := exists_byteSize_cons c inside
    rw [size, List.cons_append, takeBytes, if_pos fits, more, ih]
    rfl

theorem slice_append {s pre inside rest : List Char} (hs : s = pre ++ inside ++ rest) :
    slice s (byteSize pre) (byteSize (pre ++ inside)) = .ok inside := by
  have size : byteSize (pre ++ inside) - byteSize pre = byteSize inside := by simp
  rw [slice, if_pos (by simp), size, hs, List.append_assoc, dropBytes_append, Option.bind_some,
    takeBytes_append]

/-! ## The first byte of a character -/

/-- The first byte of a character. -/
def lead (c : Char) : UInt8 :=
  (String.utf8EncodeChar c).head String.utf8EncodeChar_ne_nil

theorem lead_mem (c : Char) : lead c ∈ String.utf8EncodeChar c :=
  List.head_mem _

/-- A class that every byte of a character decides is told by the first. -/
theorem apply_lead {p : Char → Bool} {q : UInt8 → Bool} (h : ByteClass p q) (c : Char) :
    q (lead c) = p c :=
  h c _ (lead_mem c)

/-- The byte of an ASCII character occurs in no other character. -/
theorem byteClass_ascii {d : Char} (hd : d.toNat < 128) : ByteClass (· == d) (· == d.toUInt8) := by
  have small : d.toUInt8.toNat = d.toNat := by
    have same : d.toUInt8.toNat = d.toNat % 256 := rfl
    omega
  have char : ∀ n < 128, (Char.ofNat n).toNat = n := by decide
  apply ByteClass.of_ascii false
  · intro n hn
    rw [Bool.eq_iff_iff, beq_iff_eq, beq_iff_eq, ← UInt8.toNat_inj, ← Char.toNat_inj, small,
      char n hn, UInt8.toNat_ofNat', Nat.mod_eq_of_lt (by omega)]
  · intro c hc
    rw [beq_eq_false_iff_ne]
    rintro rfl
    omega
  · intro b hb
    rw [beq_eq_false_iff_ne]
    rintro rfl
    omega

theorem lead_eq_iff {d : Char} (hd : d.toNat < 128) {c : Char} : lead c = d.toUInt8 ↔ c = d := by
  have told := apply_lead (byteClass_ascii hd) c
  rw [Bool.eq_iff_iff, beq_iff_eq, beq_iff_eq] at told
  exact told

/-- No byte outside ASCII is that of an ASCII character. -/
theorem ne_of_high {b : UInt8} (high : 128 ≤ b.toNat) {d : Char} (hd : d.toNat < 128) :
    b ≠ d.toUInt8 := by
  rintro rfl
  have same : d.toUInt8.toNat = d.toNat % 256 := rfl
  omega

theorem drop_utf8 (pre r : List Char) : (utf8 (pre ++ r)).drop (byteSize pre) = utf8 r := by
  rw [utf8_append, ← length_utf8, List.drop_left]

theorem head?_utf8 (r : List Char) : (utf8 r).head? = r.head?.map lead := by
  cases r with
  | nil => rfl
  | cons c r =>
    obtain ⟨b, bs, hb⟩ := List.exists_cons_of_ne_nil (String.utf8EncodeChar_ne_nil (c := c))
    simp [lead, hb]

section
variable {s pre r : List Char} {c : Char}

/-- Between two characters, the byte is the first of the next one. -/
theorem getElem?_utf8 (hs : s = pre ++ r) : (utf8 s)[byteSize pre]? = r.head?.map lead := by
  rw [hs, ← List.head?_drop, drop_utf8, head?_utf8]

theorem byteAt_lead (hs : s = pre ++ c :: r) : byteAt (utf8 s) (byteSize pre) = .ok (lead c) := by
  rw [byteAt, getElem?_utf8 hs]
  rfl

theorem utf8Size_of_ascii (hc : c.toNat < 128) : c.utf8Size = 1 := by
  have one := congrArg List.length (utf8EncodeChar_of_ascii hc)
  simpa using one

/-- The size of a text between two ASCII characters. -/
theorem byteSize_between {a b : Char} (ha : a.toNat < 128) (hb : b.toNat < 128)
    (inside : List Char) : byteSize (a :: (inside ++ [b])) = byteSize inside + 1 + 1 := by
  simp [utf8Size_of_ascii ha, utf8Size_of_ascii hb]
  omega

/-- The text between two ASCII characters. -/
theorem slice_between {a : Char} (ha : a.toNat < 128) (b : Char) (inside : List Char) :
    slice (a :: (inside ++ [b])) 1 (byteSize inside + 1) = .ok inside := by
  have whole : a :: (inside ++ [b]) = [a] ++ inside ++ [b] := by simp
  have cut := slice_append whole
  simpa [utf8Size_of_ascii ha, Nat.add_comm] using cut

/-- Past an ASCII character is past one byte. -/
theorem byteSize_ascii (hc : c.toNat < 128) (pre : List Char) :
    byteSize (pre ++ [c]) = byteSize pre + 1 := by
  simp [utf8Size_of_ascii hc]

/-- The byte after an ASCII character is the first of the next character. -/
theorem getElem?_after (hc : c.toNat < 128) (hs : s = pre ++ c :: r) :
    (utf8 s)[byteSize pre + 1]? = r.head?.map lead := by
  rw [← byteSize_ascii hc]
  exact getElem?_utf8 (by simp [hs])

/-- The bytes of two ASCII characters in a row. -/
theorem getElem?_after_eq_iff (hc : c.toNat < 128) (hs : s = pre ++ c :: r) {d : Char}
    (hd : d.toNat < 128) : (utf8 s)[byteSize pre + 1]? = some d.toUInt8 ↔ r.head? = some d := by
  rw [getElem?_after hc hs]
  cases r <;> simp [lead_eq_iff hd]

/-- The place before what follows, counted from the end. -/
theorem byteSize_sub (hs : s = pre ++ r) : byteSize s - byteSize r = byteSize pre := by
  simp [hs]

theorem byteSize_eq_zero {s : List Char} : byteSize s = 0 ↔ s = [] := by
  cases s with
  | nil => simp
  | cons c r =>
    have pos := c.utf8Size_pos
    simp
    omega

/-- A place after some text is a later one. -/
theorem lt_byteSize_append (pre : List Char) {text : List Char} (ne : text ≠ []) :
    byteSize pre < byteSize (pre ++ text) := by
  obtain ⟨c, m, rfl⟩ := List.exists_cons_of_ne_nil ne
  have pos := c.utf8Size_pos
  simp
  omega

theorem lt_length (hs : s = pre ++ c :: r) : byteSize pre < (utf8 s).length := by
  have pos := c.utf8Size_pos
  simp [hs]
  omega

/-- A scan that passes bytes outside ASCII one by one gets past the character that it is in. -/
theorem pass_character {α : Type} {f : Nat → α} (hs : s = pre ++ c :: r)
    (high : ∀ (i : Nat) (b : UInt8), (utf8 s)[i]? = some b → 128 ≤ b.toNat → f i = f (i + 1)) :
    f (byteSize pre + 1) = f (byteSize (pre ++ [c])) := by
  have upTo : ∀ j, j < c.utf8Size → f (byteSize pre + 1) = f (byteSize pre + (j + 1)) := by
    intro j hj
    induction j with
    | zero => rfl
    | succ j ih =>
      rw [ih (by omega)]
      have inside : j + 1 < (String.utf8EncodeChar c).length := by simpa using hj
      have byte : (utf8 s)[byteSize pre + (j + 1)]? = some (String.utf8EncodeChar c)[j + 1] := by
        rw [hs, ← List.getElem?_drop, drop_utf8, utf8_cons, List.getElem?_append_left inside,
          List.getElem?_eq_getElem inside]
      have outside : 128 ≤ c.toNat := by
        by_contra hc
        have := utf8Size_of_ascii (Nat.lt_of_not_le hc)
        omega
      exact high _ _ byte (le_of_mem_utf8EncodeChar outside (List.getElem_mem inside))
  have pos := c.utf8Size_pos
  have whole := upTo (c.utf8Size - 1) (by omega)
  rw [whole, byteSize_append, byteSize_cons, byteSize_nil]
  congr 1
  omega

end

end PotExtract.Checked
