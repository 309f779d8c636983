import PotExtract.Proofs.Checked.Tokens

/-!
# Parentheses matched in bytes

The partner of a parenthesis is found by a scan that skips comments and
literals and counts a depth. It never takes one from a depth of zero, and each
of its steps gets further.

* `findParen_eq`: the partner of a parenthesis, searched from any offset.
-/

namespace PotExtract.Checked

open Source

section
variable {bytes : List UInt8} {i stop : Nat} {b : UInt8} {s pre r m : List Char} {t : Token}

theorem closeFrom_comment (inside : i < bytes.length) (skip : skipComment bytes i = .ok (some stop))
    (later : i < stop) (depth : Nat) : closeFrom bytes depth i = closeFrom bytes depth stop := by
  conv => lhs; rw [closeFrom]
  rw [if_pos inside, skip, ok_bind]
  simp only [advance_of_lt later, ok_bind]

theorem closeFrom_literal (hb : bytes[i]? = some b) (quote : isQuoteByte b = true)
    (none : skipComment bytes i = .ok none) (skip : skipLiteral bytes i = .ok (some stop))
    (later : i < stop) (depth : Nat) : closeFrom bytes depth i = closeFrom bytes depth stop := by
  have inside := (List.getElem?_eq_some_iff.1 hb).1
  conv => lhs; rw [closeFrom]
  rw [if_pos inside, none, ok_bind]
  simp only [byteAt_of_getElem? hb, ok_bind, quote, skip, advance_of_lt later, if_true]

theorem closeFrom_plain (hb : bytes[i]? = some b) (none : skipComment bytes i = .ok none)
    (notQuote : isQuoteByte b = false) (depth : Nat) :
    closeFrom bytes depth i =
      if b = '('.toUInt8 then closeFrom bytes (depth + 1) (i + 1)
      else if b = ')'.toUInt8 then do
        let outer ← lower depth
        if outer = 0 then return some i else closeFrom bytes outer (i + 1)
      else closeFrom bytes depth (i + 1) := by
  have inside := (List.getElem?_eq_some_iff.1 hb).1
  conv => lhs; rw [closeFrom]
  rw [if_pos inside, none, ok_bind]
  simp only [byteAt_of_getElem? hb, ok_bind, notQuote, if_false, Bool.false_eq_true]

theorem closeFrom_pass {c : Char} (hs : s = pre ++ c :: r) (depth : Nat) :
    closeFrom (utf8 s) depth (byteSize pre + 1) =
      closeFrom (utf8 s) depth (byteSize (pre ++ [c])) := by
  refine pass_character hs fun _ b hb high => ?_
  have notQuote : isQuoteByte b = false := by
    simp [isQuoteByte, ne_of_high high]
  rw [closeFrom_plain hb (skipComment_high hb high) notQuote,
    if_neg (ne_of_high high (by decide)), if_neg (ne_of_high high (by decide))]

/-- Comments and literals are skipped. -/
theorem closeFrom_skip (hs : s = pre ++ r) (first : next? r = some (t, m))
    (skips : ∀ c, t ≠ .char c) (closed : ∀ text, t ≠ .unclosed text) (depth : Nat) :
    closeFrom (utf8 s) depth (byteSize pre) =
      closeFrom (utf8 s) depth (byteSize (pre ++ t.text)) := by
  obtain ⟨c, n, rfl⟩ := exists_cons_of_next? first
  have later := lt_byteSize_append pre (text_next?_and_ne_nil first).2
  cases t with
  | comment text =>
    exact closeFrom_comment (lt_length hs) (skipComment_comment hs first) later depth
  | literal quote body =>
    have byte : (utf8 s)[byteSize pre]? = some (lead c) := getElem?_utf8 hs
    have mark : isQuoteByte (lead c) = true := by
      obtain ⟨hq, -, heq⟩ := next?_eq_literal_iff.1 first
      obtain rfl := (List.cons.inj heq).1
      rw [isQuoteByte_lead, hq]
    exact closeFrom_literal byte mark (skipComment_other hs first (by simp))
      (skipLiteral_literal hs first) later depth
  | unclosed text => exact absurd rfl (closed text)
  | char c => exact absurd rfl (skips c)

theorem closeFrom_unclosed {text : List Char} (hs : s = pre ++ r)
    (first : next? r = some (.unclosed text, m)) (depth : Nat) :
    closeFrom (utf8 s) depth (byteSize pre) = .ok none := by
  obtain ⟨⟨quote, n, rfl, hq⟩, skip⟩ := skipLiteral_unclosed hs first
  have mark : isQuoteByte (lead quote) = true := by rw [isQuoteByte_lead, hq]
  rw [closeFrom, if_pos (lt_length hs), skipComment_other hs first (by simp), ok_bind]
  simp only [byteAt_lead hs, ok_bind, mark, skip, if_true]
  rfl

theorem closeFrom_char {c : Char} (hs : s = pre ++ c :: m)
    (first : next? (c :: m) = some (.char c, m)) (depth : Nat) :
    closeFrom (utf8 s) depth (byteSize pre) =
      if c = '(' then closeFrom (utf8 s) (depth + 1) (byteSize (pre ++ [c]))
      else if c = ')' then do
        let outer ← lower depth
        if outer = 0 then return some (byteSize pre)
        else closeFrom (utf8 s) outer (byteSize (pre ++ [c]))
      else closeFrom (utf8 s) depth (byteSize (pre ++ [c])) := by
  have byte : (utf8 s)[byteSize pre]? = some (lead c) := getElem?_utf8 hs
  have notQuote : isQuoteByte (lead c) = false := by
    rw [isQuoteByte_lead, (next?_char_iff.1 first).1]
  rw [closeFrom_plain byte (skipComment_other hs first (by simp)) notQuote]
  simp only [closeFrom_pass hs, lead_eq_iff (show '('.toNat < 128 by decide),
    lead_eq_iff (show ')'.toNat < 128 by decide)]

/-- Past an open parenthesis, the scan finds its partner if there is one. -/
theorem closeFrom_eq (hs : s = pre ++ r) (depth : Nat) (seen : List Token) :
    closeFrom (utf8 s) (depth + 1) (byteSize pre) =
      .ok ((insideParens depth seen r).map fun p => byteSize s - (byteSize p.2 + 1)) := by
  fun_induction insideParens depth seen r generalizing pre with
  | case1 depth seen r first =>
    obtain rfl := next?_eq_none.1 first
    rw [closeFrom, if_neg (by simp [hs])]
    rfl
  | case2 depth seen r text m first => exact closeFrom_unclosed hs first (depth + 1)
  | case3 depth seen r m first ih =>
    obtain rfl := cons_of_char first
    have more : closeFrom (utf8 s) (depth + 1 + 1) (byteSize (pre ++ ['('])) = _ :=
      ih (by simp [hs])
    rw [closeFrom_char hs first, if_pos rfl, more]
  | case4 seen r m first =>
    obtain rfl := cons_of_char first
    have here : byteSize s - (byteSize m + 1) = byteSize pre := by
      rw [← byteSize_sub hs, byteSize_cons, utf8Size_of_ascii (c := ')') (by decide), Nat.add_comm]
    rw [closeFrom_char hs first, if_neg (by decide), if_pos rfl, Option.map_some, here]
    rfl
  | case5 seen r m first outer ih =>
    obtain rfl := cons_of_char first
    have more : closeFrom (utf8 s) (outer + 1) (byteSize (pre ++ [')'])) = _ := ih (by simp [hs])
    rw [closeFrom_char hs first, if_neg (by decide), if_pos rfl, lower_succ, ok_bind,
      if_neg (by omega), more]
  | case6 depth seen r t m closed opens closes first ih =>
    have more : closeFrom (utf8 s) (depth + 1) (byteSize (pre ++ t.text)) = _ :=
      ih (after_token hs first)
    cases t with
    | char c =>
      obtain rfl := cons_of_char first
      have notOpen : c ≠ '(' := by
        rintro rfl
        exact opens rfl
      have notClose : c ≠ ')' := by
        rintro rfl
        exact closes rfl
      rw [closeFrom_char hs first, if_neg notOpen, if_neg notClose]
      exact more
    | comment | literal | unclosed =>
      rw [closeFrom_skip hs first (by simp) closed, more]

theorem matchingParen?_append (hs : s = pre ++ '(' :: r) :
    matchingParen? s (byteSize pre) =
      (closeParen? r).map fun p => byteSize pre + 1 + byteSize p.1 := by
  rw [matchingParen?, dropBytes_eq_some_iff.2 ⟨pre, hs, rfl⟩]
  rfl

/-- The byte of an open parenthesis is one. -/
theorem dropBytes_open_iff {text : List Char} {opens : Nat} :
    (utf8 text)[opens]? = some '('.toUInt8 ↔ ∃ r, dropBytes opens text = some ('(' :: r) := by
  constructor
  · intro h
    have here : (utf8 text).drop opens = '('.toUInt8 :: (utf8 text).drop (opens + 1) := by
      obtain ⟨inside, byte⟩ := List.getElem?_eq_some_iff.1 h
      rw [List.drop_eq_getElem_cons inside, byte]
    obtain ⟨pre, suf, rfl, rfl, -⟩ := exists_drop_utf8 here (by decide)
    have first := getElem?_utf8 (s := pre ++ suf) rfl
    rw [h] at first
    obtain ⟨c, hc, hlead⟩ := Option.map_eq_some_iff.1 first.symm
    obtain ⟨r, rfl⟩ := List.head?_eq_some_iff.1 hc
    obtain rfl := (lead_eq_iff (by decide)).1 hlead
    exact ⟨r, dropBytes_append pre _⟩
  · rintro ⟨r, h⟩
    obtain ⟨pre, hs, rfl⟩ := dropBytes_eq_some_iff.1 h
    rw [getElem?_utf8 hs]
    exact congrArg some ((lead_eq_iff (by decide)).2 rfl)

/-- The partner of a parenthesis is found from any offset, also from one past the end or within a
character. -/
theorem findParen_eq (text : List Char) (opens : Nat) :
    findParen text opens = .ok (matchingParen? text opens) := by
  rw [findParen]
  by_cases byte : (utf8 text)[opens]? = some '('.toUInt8
  · obtain ⟨r, here⟩ := dropBytes_open_iff.1 byte
    obtain ⟨pre, hs, rfl⟩ := dropBytes_eq_some_iff.1 here
    have more : closeFrom (utf8 text) (0 + 1) (byteSize (pre ++ ['('])) = _ :=
      closeFrom_eq (r := r) (by simp [hs]) 0 []
    have place : (insideParens 0 [] r).map (fun p => byteSize text - (byteSize p.2 + 1)) =
        (closeParen? r).map fun p => byteSize pre + 1 + byteSize p.1 := by
      rw [closeParen?, Option.map_map]
      refine Option.map_congr fun p hp => ?_
      obtain ⟨ts, inside, reads, -⟩ := insideParens_eq_some_iff.1 hp
      have whole : text = (pre ++ ['('] ++ p.1.flatMap Token.text) ++ ')' :: p.2 := by
        rw [hs, reads.text, inside]
        simp
      have size := byteSize_sub whole
      rw [byteSize_cons, utf8Size_of_ascii (c := ')') (by decide), Nat.add_comm 1] at size
      rw [size, byteSize_append, byteSize_ascii (c := '(') (by decide)]
      rfl
    rw [if_pos byte, closeFrom_char hs rfl, if_pos rfl, more, place, matchingParen?_append hs]
  · have none : matchingParen? text opens = none := by
      rw [matchingParen?]
      split
      · exact absurd (dropBytes_open_iff.2 ⟨_, ‹_›⟩) byte
      · rfl
    rw [if_neg byte, none]
    rfl

end

end PotExtract.Checked
