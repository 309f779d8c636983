import PotExtract.Source.Bytes
import Mathlib.Data.List.TakeWhile

/-!
# The bytes of a text

Places in a text are counted in bytes of its UTF-8 form. A class of
characters that every byte of a character decides, such as the blanks or the
characters of names, can be read off either form:

* `takeWhile_utf8`, `dropWhile_utf8`: a run of such characters is a run of
  such bytes;
* `exists_drop_utf8`: an ASCII byte begins a character, so a place that holds
  one cuts the text between two characters.
-/

namespace PotExtract.Source

theorem utf8_injective {s t : List Char} (h : utf8 s = utf8 t) : s = t := by
  have hs : String.ofList s = String.ofList t := by
    apply String.toByteArray_inj.1
    simpa [List.utf8Encode, utf8] using congrArg List.toByteArray h
  exact String.ofList_injective hs

theorem utf8EncodeChar_of_ascii {c : Char} (h : c.toNat < 128) :
    String.utf8EncodeChar c = [UInt8.ofNat c.toNat] := by
  have hc : c.val.toNat ≤ 0x7f := Nat.le_of_lt_succ h
  simp only [String.utf8EncodeChar, hc, ↓reduceIte]
  rfl

/-- No byte of a character outside ASCII is an ASCII byte. -/
theorem le_of_mem_utf8EncodeChar {c : Char} (h : 128 ≤ c.toNat) {b : UInt8}
    (hb : b ∈ String.utf8EncodeChar c) : 128 ≤ b.toNat := by
  have hlow : ¬ c.val.toNat ≤ 0x7f := Nat.not_le_of_lt h
  have hhigh : c.val.toNat < 0x110000 := by
    have valid : c.val.toNat < 0xd800 ∨ 0xdfff < c.val.toNat ∧ c.val.toNat < 0x110000 := c.valid
    omega
  simp only [String.utf8EncodeChar, hlow, ↓reduceIte] at hb
  split at hb
  · simp only [List.mem_cons, List.not_mem_nil, or_false] at hb
    rcases hb with rfl | rfl <;> simp <;> omega
  · split at hb <;> simp only [List.mem_cons, List.not_mem_nil, or_false] at hb
    · rcases hb with rfl | rfl | rfl <;> simp <;> omega
    · rcases hb with rfl | rfl | rfl | rfl <;> simp <;> omega

/-- A character is in a class exactly if any byte of it is. -/
def ByteClass (p : Char → Bool) (q : UInt8 → Bool) : Prop :=
  ∀ c, ∀ b ∈ String.utf8EncodeChar c, q b = p c

/-- Such a class treats all characters outside ASCII alike. -/
theorem ByteClass.of_ascii {p : Char → Bool} {q : UInt8 → Bool} (other : Bool)
    (ascii : ∀ n < 128, q (UInt8.ofNat n) = p (Char.ofNat n))
    (chars : ∀ c : Char, 128 ≤ c.toNat → p c = other)
    (bytes : ∀ b : UInt8, 128 ≤ b.toNat → q b = other) : ByteClass p q := by
  intro c b hb
  by_cases h : c.toNat < 128
  · rw [utf8EncodeChar_of_ascii h, List.mem_singleton] at hb
    rw [hb, ascii _ h, Char.ofNat_toNat]
  · have hc : 128 ≤ c.toNat := Nat.le_of_not_lt h
    rw [chars c hc, bytes b (le_of_mem_utf8EncodeChar hc hb)]

section
variable {p : Char → Bool} {q : UInt8 → Bool}

/-- The first byte of a character that is not in a class is not in it either. -/
theorem ByteClass.exists_first (h : ByteClass p q) {c : Char} (hc : p c = false) :
    ∃ b bs, String.utf8EncodeChar c = b :: bs ∧ q b = false := by
  obtain ⟨b, bs, hb⟩ := List.exists_cons_of_ne_nil (String.utf8EncodeChar_ne_nil (c := c))
  exact ⟨b, bs, hb, by rw [h c b (by simp [hb]), hc]⟩

theorem takeWhile_utf8 (h : ByteClass p q) (s : List Char) :
    (utf8 s).takeWhile q = utf8 (s.takeWhile p) := by
  induction s with
  | nil => rfl
  | cons c r ih =>
    cases hc : p c with
    | true =>
      have all : ∀ b ∈ String.utf8EncodeChar c, q b = true := fun b hb => by rw [h c b hb, hc]
      rw [utf8_cons, List.takeWhile_append_of_pos all, ih, List.takeWhile_cons_of_pos hc, utf8_cons]
    | false =>
      obtain ⟨b, bs, hb, hq⟩ := h.exists_first hc
      simp [hb, hq, hc]

theorem dropWhile_utf8 (h : ByteClass p q) (s : List Char) :
    (utf8 s).dropWhile q = utf8 (s.dropWhile p) := by
  have whole := congrArg utf8 (List.takeWhile_append_dropWhile (p := p) (l := s))
  rw [utf8_append, ← takeWhile_utf8 h] at whole
  exact List.append_cancel_left (List.takeWhile_append_dropWhile.trans whole.symm)

end

/-- A place with an ASCII byte cuts the text between two characters. -/
theorem exists_drop_utf8 {s : List Char} {n : Nat} {b : UInt8} {bs : List UInt8}
    (h : (utf8 s).drop n = b :: bs) (ascii : b.toNat < 128) :
    ∃ pre suf, s = pre ++ suf ∧ byteSize pre = n ∧ utf8 suf = b :: bs := by
  induction s generalizing n with
  | nil => simp at h
  | cons c r ih =>
    by_cases hn : n = 0
    · subst hn
      exact ⟨[], c :: r, rfl, rfl, by simpa using h⟩
    by_cases hlong : c.utf8Size ≤ n
    · rw [utf8_cons, List.drop_append, List.drop_of_length_le (by simpa using hlong),
        String.length_utf8EncodeChar, List.nil_append] at h
      obtain ⟨pre, suf, hr, hpre, hsuf⟩ := ih h
      exact ⟨c :: pre, suf, by simp [hr], by simp [hpre]; omega, hsuf⟩
    · -- The place lies within the bytes of `c`, none of which is an ASCII byte then.
      have hb : b ∈ String.utf8EncodeChar c := by
        rw [utf8_cons, List.drop_append_of_le_length (by simp; omega)] at h
        have hne : (String.utf8EncodeChar c).drop n ≠ [] := by
          simp only [ne_eq, List.drop_eq_nil_iff, String.length_utf8EncodeChar]
          omega
        obtain ⟨d, ds, hd⟩ := List.exists_cons_of_ne_nil hne
        rw [hd, List.cons_append, List.cons.injEq] at h
        exact List.mem_of_mem_drop (h.1 ▸ hd ▸ List.mem_cons_self)
      have hc : 128 ≤ c.toNat := by
        by_contra hsmall
        have one := congrArg List.length (utf8EncodeChar_of_ascii (Nat.lt_of_not_le hsmall))
        simp only [String.length_utf8EncodeChar, List.length_singleton] at one
        omega
      have := le_of_mem_utf8EncodeChar hc hb
      omega

end PotExtract.Source
