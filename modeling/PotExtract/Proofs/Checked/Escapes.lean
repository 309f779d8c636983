import PotExtract.Proofs.Checked.Arguments
import PotExtract.Proofs.Source.Escapes

/-!
# Escapes in bytes

The scan for the end of a literal goes over bytes and takes one byte along
with each backslash, which may be the first of a character that has more. The
decoder goes over characters. Both find the same backslashes.

* `pairOffsets`: the offsets of the pairs among some units;
* `traceBody_units`: the scan finds the pairs;
* `literal_units`: a literal, its units, and what it stands for.
-/

namespace PotExtract.Checked

open Source

/-- The byte offsets at which pairs begin, among units of which the first is at `offset`. -/
def pairOffsets (offset : Nat) : List EscapeUnit → List Nat
  | [] => []
  | u :: us =>
    let more := pairOffsets (offset + byteSize u.text) us
    match u with
    | .pair _ => offset :: more
    | _ => more

/-- Telling the backslashes changes nothing in the scan. -/
theorem map_traceBody (bytes : List UInt8) (quote : UInt8) (i : Nat) :
    Prod.snd <$> traceBody bytes quote i = skipBody bytes quote i := by
  induction h : bytes.length - i using Nat.strong_induction_on generalizing i with
  | _ n ih =>
    rw [traceBody, skipBody]
    by_cases inside : i < bytes.length
    · have two := ih (bytes.length - (i + 2)) (by omega) (i + 2) rfl
      have one := ih (bytes.length - (i + 1)) (by omega) (i + 1) rfl
      rw [if_pos inside, if_pos inside, byteAt_of_getElem? (List.getElem?_eq_getElem inside),
        ok_bind, ok_bind, ← one, ← two]
      split
      · cases traceBody bytes quote (i + 2) <;> rfl
      · split <;> rfl
    · rw [if_neg inside, if_neg inside]
      rfl

section
variable {s pre r : List Char} {quote c : Char}

theorem traceBody_pass (hq : isQuote quote = true) (hs : s = pre ++ c :: r) :
    traceBody (utf8 s) quote.toUInt8 (byteSize pre + 1) =
      traceBody (utf8 s) quote.toUInt8 (byteSize (pre ++ [c])) := by
  refine pass_character hs fun i b hb high => ?_
  have inside := (List.getElem?_eq_some_iff.1 hb).1
  conv => lhs; rw [traceBody]
  rw [if_pos inside, byteAt_of_getElem? hb, ok_bind, if_neg (ne_of_high high (by decide)),
    if_neg (ne_of_high high (toNat_lt_of_isQuote hq))]

theorem traceBody_step (hq : isQuote quote = true) (hs : s = pre ++ c :: r) :
    traceBody (utf8 s) quote.toUInt8 (byteSize pre) =
      if c = '\\' then (fun told => (byteSize pre :: told.1, told.2)) <$>
        traceBody (utf8 s) quote.toUInt8 (byteSize pre + 2)
      else if c = quote then .ok ([], some (byteSize pre + 1))
      else traceBody (utf8 s) quote.toUInt8 (byteSize (pre ++ [c])) := by
  rw [← traceBody_pass hq hs, traceBody, if_pos (lt_length hs), byteAt_lead hs, ok_bind]
  simp only [lead_eq_iff (show '\\'.toNat < 128 by decide), lead_eq_iff (toNat_lt_of_isQuote hq)]
  cases traceBody (utf8 s) quote.toUInt8 (byteSize pre + 2) <;> rfl

end

/-- The scan of a literal takes a byte along with the backslash of each pair, and with no
other. -/
theorem traceBody_units {style : QuoteStyle} {us : List EscapeUnit}
    (fits : ∀ u ∈ us, u.FitsIn style) {s pre r : List Char}
    (hs : s = pre ++ (us.flatMap EscapeUnit.text ++ style.mark :: r)) :
    traceBody (utf8 s) style.mark.toUInt8 (byteSize pre) =
      .ok (pairOffsets (byteSize pre) us,
        some (byteSize (pre ++ us.flatMap EscapeUnit.text) + 1)) := by
  have hq := isQuote_mark style
  induction us generalizing pre with
  | nil =>
    rw [traceBody_step hq hs, if_neg (ne_backslash hq), if_pos rfl]
    simp [pairOffsets]
  | cons u us ih =>
    obtain ⟨⟨whole, notMark⟩, more⟩ := List.forall_mem_cons.1 fits
    have after : byteSize (pre ++ u.text) = byteSize pre + byteSize u.text := byteSize_append _ _
    have more : traceBody (utf8 s) style.mark.toUInt8 (byteSize (pre ++ u.text)) = _ :=
      ih more (by simp [hs])
    rw [List.append_assoc, ← List.flatMap_cons] at more
    cases u with
    | plain c =>
      rw [traceBody_step hq (c := c) hs, if_neg whole, if_neg (by simpa using notMark)]
      exact more.trans (by rw [after]; rfl)
    | pair c =>
      -- The byte that the backslash takes along is the first of the character after it.
      have second : s = (pre ++ ['\\']) ++
          c :: (us.flatMap EscapeUnit.text ++ style.mark :: r) := by
        simp [hs, EscapeUnit.text]
      have pass := traceBody_pass hq second
      rw [byteSize_ascii (c := '\\') (by decide), List.append_assoc] at pass
      rw [traceBody_step hq (c := '\\') hs, if_pos rfl, pass.trans more, after]
      rfl
    | dangling => exact absurd rfl whole.ne_dangling

/-- The body of a literal, taken apart in the same units by all who go over it. -/
structure TakenApart (s : List Char) (style : QuoteStyle) (body : List Char)
    (us : List EscapeUnit) : Prop where
  /-- The decoder meets these units and no other. -/
  walked : units body = us
  /-- No backslash is left without a character after it. -/
  complete : .dangling ∉ us
  /-- Each unit is decoded on its own. -/
  decoded : Literal.decode ⟨style, body⟩ = us.flatMap (EscapeUnit.decode style)
  /-- The scan over bytes takes one along with the backslash of each pair, and ends with the
  text. -/
  scanned : traceBody (utf8 s) style.mark.toUInt8 1 =
    .ok (pairOffsets 1 us, some (utf8 s).length)

/-- **A literal is its mark, a body of characters and pairs, and the mark again.** Nothing else is
read as one, byte by byte or character by character. The scan and the decoder find the same pairs
in the body, and the decoder never comes upon a backslash that is last. -/
theorem literal_units (s : List Char) (style : QuoteStyle) (body : List Char) :
    parse? s = .ok (Literal.parse? s) ∧
      Prod.snd <$> traceBody (utf8 s) style.mark.toUInt8 1 =
        skipBody (utf8 s) style.mark.toUInt8 1 ∧
      (Literal.parse? s = some ⟨style, body⟩ ↔
        s = style.mark :: (body ++ [style.mark]) ∧
          ∃ us : List EscapeUnit, (∀ u ∈ us, u.FitsIn style) ∧
            body = us.flatMap EscapeUnit.text) ∧
      (Literal.parse? s = some ⟨style, body⟩ →
        ∀ us : List EscapeUnit, (∀ u ∈ us, u.FitsIn style) → body = us.flatMap EscapeUnit.text →
          TakenApart s style body us) := by
  refine ⟨parse?_eq s, map_traceBody _ _ _, ?_, ?_⟩
  · rw [parse?_eq_some_iff, and_comm, body_iff_units]
  · rintro hparse us fits rfl
    obtain ⟨-, rfl⟩ := parse?_eq_some_iff.1 hparse
    have walked := units_flatMap_text fun u hu => (fits u hu).1
    have ascii := toNat_lt_of_isQuote (isQuote_mark style)
    have told := traceBody_units fits
      (show style.mark :: (us.flatMap EscapeUnit.text ++ [style.mark]) = [style.mark] ++ _ from rfl)
    have one : byteSize [style.mark] = 1 := by simp [utf8Size_of_ascii ascii]
    refine ⟨walked, fun h => (fits _ h).1, ?_, ?_⟩
    · rw [Literal.decode, unescape_eq_flatMap, walked]
    · rw [length_utf8, byteSize_between ascii ascii, ← one, told, byteSize_append, one,
        Nat.add_comm 1]

/-- A backslash before a character of two bytes, one before a backslash, and one before the mark,
right before the literal ends. -/
theorem literal_units_marks :
    let body := ['\\', 'é', '\\', '\\', '\\', '\'']
    let s := '\'' :: (body ++ ['\''])
    Literal.parse? s = some ⟨.single, body⟩ ∧
      TakenApart s .single body [.pair 'é', .pair '\\', .pair '\''] := by
  intro body s
  have hparse : Literal.parse? s = some ⟨.single, body⟩ := by decide
  refine ⟨hparse, (literal_units s .single body).2.2.2 hparse _ ?_ rfl⟩
  simp [EscapeUnit.FitsIn, EscapeUnit.IsWhole]

end PotExtract.Checked
