import PotExtract.Checked.Source
import PotExtract.Proofs.Checked.Bytes
import PotExtract.Proofs.Source.Lookahead

/-!
# Tokens skipped in bytes

Comments and literals are skipped by scans that go over the bytes of a text by
index. No scan reads past the end, although a backslash may take it into the
middle of a character and a comment or a literal may never be closed.

* `skipLiteral_eq`: a literal is skipped up to what follows its mark;
* `skipComment_eq`: a comment is skipped up to what follows it;
* `skipComment_comment`, `skipComment_other`, `skipLiteral_literal`,
  `skipLiteral_unclosed`: what a token makes a scan skip.
-/

namespace PotExtract.Checked

open Source

/-! ## Literals -/

theorem byteAt_of_getElem? {bytes : List UInt8} {i : Nat} {b : UInt8} (h : bytes[i]? = some b) :
    byteAt bytes i = .ok b := by
  rw [byteAt, h]

theorem toNat_lt_of_isQuote {quote : Char} (hq : isQuote quote = true) : quote.toNat < 128 := by
  simp only [isQuote, Bool.or_eq_true, beq_iff_eq] at hq
  rcases hq with rfl | rfl <;> decide

theorem skipBody_plain {bytes : List UInt8} {quote b : UInt8} {i : Nat} (hb : bytes[i]? = some b)
    (notBackslash : b ≠ '\\'.toUInt8) (notQuote : b ≠ quote) :
    skipBody bytes quote i = skipBody bytes quote (i + 1) := by
  have inside := (List.getElem?_eq_some_iff.1 hb).1
  conv => lhs; rw [skipBody]
  rw [if_pos inside, byteAt_of_getElem? hb, ok_bind, if_neg notBackslash, if_neg notQuote]

section
variable {s pre r : List Char} {quote c : Char}

theorem skipBody_pass (hq : isQuote quote = true) (hs : s = pre ++ c :: r) :
    skipBody (utf8 s) quote.toUInt8 (byteSize pre + 1) =
      skipBody (utf8 s) quote.toUInt8 (byteSize (pre ++ [c])) :=
  pass_character hs fun _ _ hb high =>
    skipBody_plain hb (ne_of_high high (by decide)) (ne_of_high high (toNat_lt_of_isQuote hq))

/-- One step within a literal, at a character. -/
theorem skipBody_step (hq : isQuote quote = true) (hs : s = pre ++ c :: r) :
    skipBody (utf8 s) quote.toUInt8 (byteSize pre) =
      if c = '\\' then skipBody (utf8 s) quote.toUInt8 (byteSize pre + 2)
      else if c = quote then .ok (some (byteSize pre + 1))
      else skipBody (utf8 s) quote.toUInt8 (byteSize (pre ++ [c])) := by
  rw [← skipBody_pass hq hs, skipBody, if_pos (lt_length hs), byteAt_lead hs, ok_bind]
  simp only [lead_eq_iff (show '\\'.toNat < 128 by decide), lead_eq_iff (toNat_lt_of_isQuote hq)]
  rfl

/-- A literal is skipped up to what follows it. -/
theorem skipBody_eq (hq : isQuote quote = true) (hs : s = pre ++ r) (seen : List Char) :
    skipBody (utf8 s) quote.toUInt8 (byteSize pre) =
      .ok ((closeQuote quote seen r).map fun p => byteSize s - byteSize p.2) := by
  fun_induction closeQuote quote seen r generalizing pre with
  | case1 seen =>
    rw [skipBody, if_neg (by simp [hs])]
    rfl
  | case2 seen c r ih =>
    have next : s = (pre ++ ['\\']) ++ c :: r := by simp [hs]
    have more : skipBody (utf8 s) quote.toUInt8 (byteSize (pre ++ ['\\'] ++ [c])) = _ :=
      ih (by simp [hs])
    rw [skipBody_step hq hs, if_pos rfl, ← more, ← skipBody_pass hq next,
      byteSize_ascii (c := '\\') (by decide)]
  | case3 seen r =>
    have size : byteSize s - byteSize r = byteSize pre + 1 := by
      rw [← byteSize_ascii (toNat_lt_of_isQuote hq)]
      exact byteSize_sub (by simp [hs])
    rw [skipBody_step hq hs, if_neg (ne_backslash hq), if_pos rfl, Option.map_some, size]
  | case4 seen c r single hc ih =>
    have more : skipBody (utf8 s) quote.toUInt8 (byteSize (pre ++ [c])) = _ := ih (by simp [hs])
    by_cases hback : c = '\\'
    · subst hback
      obtain rfl : r = [] := by
        cases r with
        | nil => rfl
        | cons d r => exact absurd rfl (single d r rfl)
      have past : ¬ byteSize pre + 2 < (utf8 s).length := by
        rw [length_utf8, hs, byteSize_ascii (c := '\\') (by decide)]
        omega
      rw [skipBody_step hq hs, if_pos rfl, skipBody, if_neg past]
      rfl
    · rw [skipBody_step hq hs, if_neg hback, if_neg hc, more]

/-- A quotation mark and what follows it. -/
theorem skipLiteral_eq (hq : isQuote quote = true) (hs : s = pre ++ quote :: r) :
    skipLiteral (utf8 s) (byteSize pre) =
      .ok ((closeQuote quote [] r).map fun p => byteSize s - byteSize p.2) := by
  have ascii := toNat_lt_of_isQuote hq
  have body : skipBody (utf8 s) quote.toUInt8 (byteSize (pre ++ [quote])) = _ :=
    skipBody_eq (r := r) hq (by simp [hs]) []
  rw [skipLiteral, byteAt_lead hs, ok_bind, (lead_eq_iff ascii).2 rfl, ← byteSize_ascii ascii, body]

end

/-! ## Comments -/

section
variable {bytes : List UInt8} {i : Nat} {b : UInt8} {s pre r : List Char}

theorem blockEnd_plain (hb : bytes[i]? = some b) (notStar : b ≠ '*'.toUInt8) :
    blockEnd bytes i = blockEnd bytes (i + 1) := by
  have inside := (List.getElem?_eq_some_iff.1 hb).1
  by_cases last : i + 1 < bytes.length
  · conv => lhs; rw [blockEnd]
    rw [if_pos last, byteAt_of_getElem? hb, ok_bind, if_neg notStar]
  · rw [blockEnd, blockEnd, if_neg last, if_neg (by omega)]

theorem blockEnd_eq (hs : s = pre ++ r) (seen : List Char) :
    blockEnd (utf8 s) (byteSize pre) =
      .ok (byteSize s - byteSize ((splitBefore closesBlock seen r).2.drop 2)) := by
  induction r generalizing pre seen with
  | nil =>
    rw [blockEnd, if_neg (by simp [hs])]
    simp [splitBefore, pure, Except.pure]
  | cons c r ih =>
    have more : blockEnd (utf8 s) (byteSize (pre ++ [c])) = _ := ih (by simp [hs]) (c :: seen)
    have pass : blockEnd (utf8 s) (byteSize pre + 1) = blockEnd (utf8 s) (byteSize (pre ++ [c])) :=
      pass_character hs fun _ _ hb high => blockEnd_plain hb (ne_of_high high (by decide))
    by_cases hc : c = '*'
    · subst hc
      have star : lead '*' = '*'.toUInt8 := (lead_eq_iff (by decide)).2 rfl
      cases r with
      | nil =>
        have last : ¬ byteSize pre + 1 < (utf8 s).length := by
          rw [length_utf8, hs, byteSize_ascii (c := '*') (by decide)]
          omega
        rw [blockEnd, if_neg last]
        simp [splitBefore, closesBlock, pure, Except.pure]
      | cons d m =>
        have next : (utf8 s)[byteSize pre + 1]? = some (lead d) := getElem?_after (by decide) hs
        have inside := (List.getElem?_eq_some_iff.1 next).1
        rw [blockEnd, if_pos inside, byteAt_lead hs, ok_bind, star, if_pos rfl,
          byteAt_of_getElem? next, ok_bind, pass, more]
        by_cases hd : d = '/'
        · subst hd
          have size : byteSize s - byteSize m = byteSize pre + 2 := by
            have two : byteSize (pre ++ ['*', '/']) = byteSize pre + 2 := by
              simp [utf8Size_of_ascii]
            rw [← two]
            exact byteSize_sub (by simp [hs])
          rw [if_pos ((lead_eq_iff (by decide)).2 rfl)]
          simp [splitBefore, closesBlock, pure, Except.pure, size]
        · have goes : closesBlock ('*' :: d :: m) = false := by
            rw [Bool.eq_false_iff, ne_eq, closesBlock_cons]
            simpa using hd
          rw [if_neg (mt (lead_eq_iff (by decide)).1 hd)]
          conv => rhs; rw [splitBefore, goes]
          rfl
    · have byte : (utf8 s)[byteSize pre]? = some (lead c) := getElem?_utf8 hs
      have notStar : lead c ≠ '*'.toUInt8 := mt (lead_eq_iff (by decide)).1 hc
      have goes : closesBlock (c :: r) = false := by
        simp [closesBlock, hc]
      rw [blockEnd_plain byte notStar, pass, more, splitBefore, goes]
      rfl

theorem lineEnd_plain (hb : bytes[i]? = some b) (notFeed : b ≠ '\n'.toUInt8)
    (notMark : b ≠ '?'.toUInt8) : lineEnd bytes i = lineEnd bytes (i + 1) := by
  have inside := (List.getElem?_eq_some_iff.1 hb).1
  conv => lhs; rw [lineEnd]
  rw [if_pos inside, byteAt_of_getElem? hb, ok_bind,
    if_neg fun h => h.elim notFeed fun h => notMark h.1]

theorem lineEnd_eq (hs : s = pre ++ r) (seen : List Char) :
    lineEnd (utf8 s) (byteSize pre) =
      .ok (byteSize s - byteSize (splitBefore endsLine seen r).2) := by
  induction r generalizing pre seen with
  | nil =>
    rw [lineEnd, if_neg (by simp [hs])]
    simp [splitBefore, pure, Except.pure]
  | cons c r ih =>
    have more : lineEnd (utf8 s) (byteSize (pre ++ [c])) = _ := ih (by simp [hs]) (c :: seen)
    have pass : lineEnd (utf8 s) (byteSize pre + 1) = lineEnd (utf8 s) (byteSize (pre ++ [c])) :=
      pass_character hs fun _ _ hb high =>
        lineEnd_plain hb (ne_of_high high (by decide)) (ne_of_high high (by decide))
    have ends : (lead c = '\n'.toUInt8 ∨
        lead c = '?'.toUInt8 ∧ (utf8 s)[byteSize pre + 1]? = some '>'.toUInt8) ↔
          endsLine (c :: r) = true := by
      rw [endsLine_cons, lead_eq_iff (by decide), lead_eq_iff (by decide)]
      refine or_congr_right (and_congr_right ?_)
      rintro rfl
      exact getElem?_after_eq_iff (by decide) hs (by decide)
    rw [lineEnd, if_pos (lt_length hs), byteAt_lead hs, ok_bind, pass, more, splitBefore]
    by_cases stops : endsLine (c :: r) = true
    · rw [if_pos (ends.2 stops), if_pos stops, byteSize_sub hs]
      rfl
    · rw [if_neg (mt ends.1 stops), if_neg stops]

/-- What is left after a comment, if a text begins with one. -/
def afterComment? (s : List Char) : Option (List Char) :=
  match next? s with
  | some (.comment _, rest) => some rest
  | _ => none

/-- What begins at a character is told by it and the next one. -/
theorem skipComment_step {c : Char} (hs : s = pre ++ c :: r) :
    skipComment (utf8 s) (byteSize pre) =
      if c = '/' ∧ r.head? = some '*' then some <$> blockEnd (utf8 s) (byteSize pre + 2)
      else if c = '/' ∧ r.head? = some '/' then some <$> lineEnd (utf8 s) (byteSize pre + 2)
      else if c = '#' ∧ r.head? ≠ some '[' then some <$> lineEnd (utf8 s) (byteSize pre + 1)
      else .ok none := by
  have slash {d : Char} (hd : d.toNat < 128) :
      (lead c = '/'.toUInt8 ∧ (utf8 s)[byteSize pre + 1]? = some d.toUInt8) ↔
        c = '/' ∧ r.head? = some d := by
    rw [lead_eq_iff (by decide)]
    refine and_congr_right ?_
    rintro rfl
    exact getElem?_after_eq_iff (by decide) hs hd
  have hash : (lead c = '#'.toUInt8 ∧ (utf8 s)[byteSize pre + 1]? ≠ some '['.toUInt8) ↔
      c = '#' ∧ r.head? ≠ some '[' := by
    rw [lead_eq_iff (by decide)]
    refine and_congr_right ?_
    rintro rfl
    exact not_congr (getElem?_after_eq_iff (by decide) hs (by decide))
  rw [skipComment, byteAt_lead hs, ok_bind]
  simp only [slash (show '*'.toNat < 128 by decide), slash (show '/'.toNat < 128 by decide), hash]
  rfl

/-- A comment is skipped up to what follows it, and nothing else is skipped. -/
theorem skipComment_eq {c : Char} (hs : s = pre ++ c :: r) :
    skipComment (utf8 s) (byteSize pre) =
      .ok ((afterComment? (c :: r)).map fun rest => byteSize s - byteSize rest) := by
  rw [skipComment_step hs]
  obtain ⟨p, hp⟩ : ∃ p, next? (c :: r) = some p := by
    cases h : next? (c :: r) with
    | none => cases next?_eq_none.1 h
    | some p => exact ⟨p, rfl⟩
  rw [afterComment?, hp]
  cases next?_eq_some_iff.1 hp with
  | @block r _ h =>
    have two : byteSize (pre ++ ['/', '*']) = byteSize pre + 2 := by simp [utf8Size_of_ascii]
    have stop : blockEnd (utf8 s) (byteSize (pre ++ ['/', '*'])) = _ :=
      blockEnd_eq (r := r) (by simp [hs]) []
    rw [if_pos ⟨rfl, rfl⟩, ← two, stop, ← h]
    rfl
  | @slashes r _ h =>
    have two : byteSize (pre ++ ['/', '/']) = byteSize pre + 2 := by simp [utf8Size_of_ascii]
    have stop : lineEnd (utf8 s) (byteSize (pre ++ ['/', '/'])) = _ :=
      lineEnd_eq (r := r) (by simp [hs]) []
    rw [if_neg (by simp), if_pos ⟨rfl, rfl⟩, ← two, stop, ← h]
    rfl
  | @hash r _ other h =>
    have stop : lineEnd (utf8 s) (byteSize (pre ++ ['#'])) = _ :=
      lineEnd_eq (r := r) (by simp [hs]) []
    rw [if_neg (by simp), if_neg (by simp), if_pos ⟨rfl, other⟩,
      ← byteSize_ascii (c := '#') (by decide), stop, ← h]
    rfl
  | @quote c r _ hq h =>
    have notSlash : c ≠ '/' := by
      rintro rfl
      cases hq
    have notHash : c ≠ '#' := by
      rintro rfl
      cases hq
    rw [if_neg fun h => notSlash h.1, if_neg fun h => notSlash h.1, if_neg fun h => notHash h.1]
    cases hr : closeQuote c [] r <;> simp [← h, quoted, hr]
  | @char c r hq slash hash =>
    have apart {d : Char} (hd : d ∈ ['*', '/']) : ¬ (c = '/' ∧ r.head? = some d) :=
      fun h => slash h.1 d h.2 hd
    rw [if_neg (apart (by simp)), if_neg (apart (by simp)), if_neg fun h => h.2 (hash h.1)]
    rfl

theorem skipComment_high (hb : bytes[i]? = some b) (high : 128 ≤ b.toNat) :
    skipComment bytes i = .ok none := by
  have notSlash : b ≠ '/'.toUInt8 := ne_of_high high (by decide)
  have notHash : b ≠ '#'.toUInt8 := ne_of_high high (by decide)
  rw [skipComment, byteAt_of_getElem? hb]
  simp [notSlash, notHash, pure, Except.pure]

end

/-! ## What a token makes a scan skip -/

theorem isQuoteByte_lead (c : Char) : isQuoteByte (lead c) = isQuote c := by
  rw [Bool.eq_iff_iff, isQuoteByte, isQuote, Bool.or_eq_true, Bool.or_eq_true, beq_iff_eq,
    beq_iff_eq, beq_iff_eq, beq_iff_eq, lead_eq_iff (by decide), lead_eq_iff (by decide)]

section
variable {s pre r m : List Char} {t : Token}

/-- A text that begins with a token, at its first character. -/
theorem exists_cons_of_next? (first : next? r = some (t, m)) : ∃ c n, r = c :: n := by
  cases r with
  | nil => cases first
  | cons c n => exact ⟨c, n, rfl⟩

theorem cons_of_char {c : Char} (first : next? r = some (.char c, m)) : r = c :: m :=
  (text_next? first).symm

theorem after_token (hs : s = pre ++ r) (first : next? r = some (t, m)) :
    s = (pre ++ t.text) ++ m := by
  rw [hs, ← text_next? first, List.append_assoc]

theorem skipComment_comment {text : List Char} (hs : s = pre ++ r)
    (first : next? r = some (.comment text, m)) :
    skipComment (utf8 s) (byteSize pre) = .ok (some (byteSize (pre ++ text))) := by
  obtain ⟨c, n, rfl⟩ := exists_cons_of_next? first
  rw [skipComment_eq hs, afterComment?, first]
  exact congrArg (Except.ok ∘ some) (byteSize_sub (after_token hs first))

theorem skipComment_other (hs : s = pre ++ r) (first : next? r = some (t, m))
    (other : ∀ text, t ≠ .comment text) : skipComment (utf8 s) (byteSize pre) = .ok none := by
  obtain ⟨c, n, rfl⟩ := exists_cons_of_next? first
  rw [skipComment_eq hs, afterComment?, first]
  cases t with
  | comment text => exact absurd rfl (other text)
  | literal | unclosed | char => rfl

theorem skipLiteral_literal {quote : Char} {body : List Char} (hs : s = pre ++ r)
    (first : next? r = some (.literal quote body, m)) :
    skipLiteral (utf8 s) (byteSize pre) =
      .ok (some (byteSize (pre ++ (Token.literal quote body).text))) := by
  have stop := byteSize_sub (after_token hs first)
  obtain ⟨hq, hbody, rfl⟩ := next?_eq_literal_iff.1 first
  rw [skipLiteral_eq hq hs, closeQuote_body (ne_backslash hq) hbody, Option.map_some, stop]

theorem skipLiteral_unclosed {text : List Char} (hs : s = pre ++ r)
    (first : next? r = some (.unclosed text, m)) :
    (∃ quote n, r = quote :: n ∧ isQuote quote = true) ∧
      skipLiteral (utf8 s) (byteSize pre) = .ok none := by
  cases next?_eq_some_iff.1 first with
  | block h => simp [blockComment] at h
  | slashes h | hash _ h => simp [lineComment] at h
  | @quote c r _ hq h =>
    cases hr : closeQuote c [] r with
    | none => exact ⟨⟨c, r, rfl, hq⟩, by rw [skipLiteral_eq hq hs, hr]; rfl⟩
    | some p => simp [quoted, hr] at h

end

end PotExtract.Checked
