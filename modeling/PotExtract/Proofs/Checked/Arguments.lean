import PotExtract.Proofs.Call.Sites
import PotExtract.Proofs.Checked.Parens
import PotExtract.Source.Arguments

/-!
# Arguments cut in bytes

An argument list is cut by a scan that keeps the byte offsets between which
the argument it reads is significant. The scan goes byte by byte over a
character outside ASCII, so the second offset may lie within one for a while;
when the argument is cut out, it does not.

* `Spanned`: where the two offsets lie;
* `split_eq`, `unwrap_eq`, `parse?_eq`: what is cut out.
-/

namespace PotExtract.Checked

open Source

/-! ## Spans -/

/-- The span of an argument that has been read up to some text: `arg` is its significant part and
`gap` what came after, both with their last character first. -/
inductive Spanned : List Char → List Char → List Char → Option (Nat × Nat) → Prop where
  | none (pre gap : List Char) : Spanned pre [] gap none
  | some (before : List Char) {arg : List Char} (gap : List Char) (ne : arg ≠ []) :
      Spanned (before ++ arg.reverse ++ gap.reverse) arg gap
        (some (byteSize before, byteSize (before ++ arg.reverse)))

section
variable {s pre r m arg gap : List Char} {span : Option (Nat × Nat)} {t : Token}

theorem Spanned.blank (h : Spanned pre arg gap span) (text : List Char) :
    Spanned (pre ++ text) arg (text.reverse ++ gap) span := by
  cases h with
  | none => exact .none _ _
  | some before gap ne =>
    have all := Spanned.some before (text.reverse ++ gap) ne
    simpa using all

theorem Spanned.significant (h : Spanned pre arg gap span) {text : List Char} (ne : text ≠ []) :
    Spanned (pre ++ text) (text.reverse ++ if arg.isEmpty then [] else gap ++ arg) []
      (stretch span (byteSize pre) (byteSize (pre ++ text))) := by
  cases h with
  | none =>
    have all := Spanned.some pre [] (List.reverse_ne_nil_iff.2 ne)
    simpa [stretch] using all
  | some before gap hne =>
    have all := @Spanned.some before (text.reverse ++ (gap ++ arg)) [] (by simp [hne])
    simpa [stretch, hne] using all

/-- A span is cut out between characters. -/
theorem Spanned.cut (h : Spanned pre arg gap span) (hs : s = pre ++ r) :
    spanned s span = .ok arg.reverse := by
  cases h with
  | none => rfl
  | some before gap ne =>
    have whole : s = before ++ arg.reverse ++ (gap.reverse ++ r) := by simp [hs]
    exact slice_append whole

theorem Spanned.isEmpty (h : Spanned pre arg gap span) : arg.isEmpty = span.isNone := by
  cases h with
  | none => rfl
  | some before gap ne => simpa using ne

end

/-! ## Arguments -/

theorem depthAfter_lead (depth : Nat) (c : Char) :
    depthAfter depth (lead c) = (Token.char c).depthAfter depth := by
  simp only [depthAfter, Token.depthAfter, Bool.or_eq_true, decide_eq_true_eq,
    lead_eq_iff (show '('.toNat < 128 by decide), lead_eq_iff (show '['.toNat < 128 by decide),
    lead_eq_iff (show ')'.toNat < 128 by decide), lead_eq_iff (show ']'.toNat < 128 by decide)]

theorem toNat_lt_of_isSpace {c : Char} (hc : isSpace c = true) : c.toNat < 128 := by
  simp only [isSpace, Bool.or_eq_true, beq_iff_eq] at hc
  rcases hc with (((rfl | rfl) | rfl) | rfl) | rfl <;> decide

section
variable {s pre r m arg gap : List Char} {bytes : List UInt8} {i : Nat} {b : UInt8} {c : Char}
  {span : Option (Nat × Nat)} {t : Token}

theorem splitFrom_comment {text : List Char} (hs : s = pre ++ r)
    (first : next? r = some (.comment text, m)) (depth : Nat) (span : Option (Nat × Nat)) :
    splitFrom s depth span (byteSize pre) = splitFrom s depth span (byteSize (pre ++ text)) := by
  obtain ⟨c, n, rfl⟩ := exists_cons_of_next? first
  have later : byteSize pre < byteSize (pre ++ text) :=
    lt_byteSize_append pre (text_next?_and_ne_nil first).2
  conv => lhs; rw [splitFrom]
  rw [if_pos (lt_length hs), skipComment_comment hs first, ok_bind]
  simp only [advance_of_lt later, ok_bind]

theorem splitFrom_plain (hb : (utf8 s)[i]? = some b) (none : skipComment (utf8 s) i = .ok none)
    (notQuote : isQuoteByte b = false) (depth : Nat) (span : Option (Nat × Nat)) :
    splitFrom s depth span i =
      if depth = 0 ∧ b = ','.toUInt8 then do
        let arg ← spanned s span
        let args ← splitFrom s depth .none (i + 1)
        return arg :: args
      else if isSpaceByte b then splitFrom s depth span (i + 1)
      else splitFrom s (depthAfter depth b) (stretch span i (i + 1)) (i + 1) := by
  have inside := (List.getElem?_eq_some_iff.1 hb).1
  conv => lhs; rw [splitFrom]
  rw [if_pos inside, none, ok_bind]
  simp only [byteAt_of_getElem? hb, ok_bind, notQuote, if_false, Bool.false_eq_true]

theorem splitFrom_quote (hs : s = pre ++ c :: r) (hc : isQuote c = true)
    (first : next? (c :: r) = some (t, m)) (other : ∀ text, t ≠ .comment text)
    {found : Option Nat} (skip : skipLiteral (utf8 s) (byteSize pre) = .ok found)
    (stop : found.getD (utf8 s).length = byteSize (pre ++ t.text)) (depth : Nat)
    (span : Option (Nat × Nat)) :
    splitFrom s depth span (byteSize pre) =
      splitFrom s depth (stretch span (byteSize pre) (byteSize (pre ++ t.text)))
        (byteSize (pre ++ t.text)) := by
  have later := lt_byteSize_append pre (text_next?_and_ne_nil first).2
  have mark : isQuoteByte (lead c) = true := by rw [isQuoteByte_lead, hc]
  conv => lhs; rw [splitFrom]
  rw [if_pos (lt_length hs), skipComment_other hs first other, ok_bind]
  simp only [byteAt_lead hs, ok_bind, mark, skip, stop, advance_of_lt later, if_true]

/-- While a scan passes bytes outside ASCII, the argument ends where the scan is. -/
theorem splitFrom_pass (hs : s = pre ++ c :: r) (depth start : Nat) :
    splitFrom s depth (some (start, byteSize pre + 1)) (byteSize pre + 1) =
      splitFrom s depth (some (start, byteSize (pre ++ [c]))) (byteSize (pre ++ [c])) := by
  refine pass_character (f := fun i => splitFrom s depth (some (start, i)) i) hs ?_
  intro i b hb high
  have notQuote : isQuoteByte b = false := by
    simp [isQuoteByte, ne_of_high high]
  have same : depthAfter depth b = depth := by
    simp [depthAfter, ne_of_high high]
  rw [splitFrom_plain hb (skipComment_high hb high) notQuote,
    if_neg fun h => ne_of_high high (by decide) h.2, isSpaceByte_of_le high, same]
  rfl

theorem splitFrom_char (hs : s = pre ++ c :: m) (first : next? (c :: m) = some (.char c, m))
    (depth : Nat) (span : Option (Nat × Nat)) :
    splitFrom s depth span (byteSize pre) =
      if depth = 0 ∧ c = ',' then do
        let arg ← spanned s span
        let args ← splitFrom s depth none (byteSize (pre ++ [c]))
        return arg :: args
      else if isSpace c then splitFrom s depth span (byteSize (pre ++ [c]))
      else splitFrom s ((Token.char c).depthAfter depth)
        (stretch span (byteSize pre) (byteSize (pre ++ [c]))) (byteSize (pre ++ [c])) := by
  have byte : (utf8 s)[byteSize pre]? = some (lead c) := getElem?_utf8 hs
  have notQuote : isQuoteByte (lead c) = false := by
    rw [isQuoteByte_lead, (next?_char_iff.1 first).1]
  rw [splitFrom_plain byte (skipComment_other hs first (by simp)) notQuote]
  simp only [lead_eq_iff (show ','.toNat < 128 by decide), apply_lead byteClass_space,
    depthAfter_lead]
  split_ifs with comma space
  · rw [comma.2, byteSize_ascii (by decide)]
  · rw [byteSize_ascii (toNat_lt_of_isSpace space)]
  · exact splitFrom_pass hs _ _

theorem argumentsFrom_significant {depth : Nat} (notCut : ¬ (depth = 0 ∧ t = .char ','))
    (ht : t.isSignificant = true) (arg gap : List Char) (ts : List Token) :
    argumentsFrom depth arg gap (t :: ts) =
      argumentsFrom (t.depthAfter depth) (t.text.reverse ++ if arg.isEmpty then [] else gap ++ arg)
        [] ts := by
  rw [argumentsFrom, if_neg notCut, if_pos ht]

theorem argumentsFrom_blank (ht : t.isSignificant = false) (depth : Nat) (arg gap : List Char)
    (ts : List Token) :
    argumentsFrom depth arg gap (t :: ts) = argumentsFrom depth arg (t.text.reverse ++ gap) ts := by
  have notCut : ¬ (depth = 0 ∧ t = .char ',') := by
    rintro ⟨-, rfl⟩
    cases ht
  rw [argumentsFrom, if_neg notCut, if_neg (Bool.eq_false_iff.1 ht)]

/-- The arguments still to come, from where a token begins. -/
theorem splitFrom_eq (hs : s = pre ++ r) (h : Spanned pre arg gap span) (depth : Nat) :
    splitFrom s depth span (byteSize pre) = .ok (argumentsFrom depth arg gap (tokens r)) := by
  fun_induction tokens r generalizing pre arg gap span depth with
  | case1 r first =>
    obtain rfl := next?_eq_none.1 first
    rw [splitFrom, if_neg (by simp [hs]), argumentsFrom, h.isEmpty]
    have cut := h.cut hs
    cases h with
    | none => rfl
    | some before gap ne =>
      rw [lastArgument]
      change slice s _ _ = _ at cut
      rw [cut]
      rfl
  | case2 r t m first ih =>
    obtain ⟨c, n, rfl⟩ := exists_cons_of_next? first
    have next := after_token hs first
    have skip : splitFrom s depth span (byteSize (pre ++ t.text)) = _ :=
      ih next (h.blank t.text) depth
    have read (d : Nat) : splitFrom s d _ (byteSize (pre ++ t.text)) = _ :=
      ih next (h.significant (text_next?_and_ne_nil first).2) d
    cases t with
    | comment text =>
      rw [splitFrom_comment hs first, argumentsFrom_blank rfl]
      exact skip
    | literal quote body =>
      obtain ⟨hq, -, heq⟩ := next?_eq_literal_iff.1 first
      obtain rfl := (List.cons.inj heq).1
      rw [splitFrom_quote hs hq first (by simp) (skipLiteral_literal hs first) rfl, read,
        argumentsFrom_significant (by simp) rfl]
      rfl
    | unclosed text =>
      obtain ⟨⟨quote, l, heq, hq⟩, found⟩ := skipLiteral_unclosed hs first
      obtain rfl := (List.cons.inj heq).1
      obtain rfl := rest_of_unclosed first
      have whole : (utf8 s).length = byteSize (pre ++ (Token.unclosed text).text) := by
        rw [length_utf8, next, List.append_nil]
      rw [splitFrom_quote hs hq first (by simp) found whole, read,
        argumentsFrom_significant (by simp) rfl]
      rfl
    | char d =>
      obtain ⟨rfl, rfl⟩ := List.cons.inj (cons_of_char first)
      rw [splitFrom_char hs first]
      by_cases comma : depth = 0 ∧ c = ','
      · obtain ⟨rfl, rfl⟩ := comma
        have more : splitFrom s 0 none (byteSize (pre ++ [','])) = _ :=
          ih next (.none _ []) 0
        rw [if_pos ⟨rfl, rfl⟩, h.cut hs, ok_bind, more]
        simp [argumentsFrom, pure, Except.pure]
      rw [if_neg comma]
      cases space : isSpace c with
      | true =>
        rw [if_pos rfl, argumentsFrom_blank (by simp [Token.isSignificant, space])]
        exact skip
      | false =>
        rw [if_neg Bool.false_ne_true,
          argumentsFrom_significant (by simpa using comma) (by simp [Token.isSignificant, space])]
        exact read _

/-- An argument list is cut between characters, into its arguments. -/
theorem split_eq (inside : List Char) : split inside = .ok (arguments inside) := by
  have all := splitFrom_eq (List.nil_append inside).symm (.none [] []) 0
  exact all

end

/-! ## Parentheses around an argument -/

/-- An argument is cut between characters when its parentheses are taken off. -/
theorem unwrap_eq (arg : List Char) : unwrap arg = .ok (Source.unwrap arg) := by
  by_cases opens : arg.head? = some '('
  · obtain ⟨r, rfl⟩ := List.head?_eq_some_iff.1 opens
    have size : byteSize ('(' :: r) = byteSize r + 1 := by
      rw [byteSize_cons, utf8Size_of_ascii (by decide), Nat.add_comm]
    have partner := matchingParen?_append (List.nil_append ('(' :: r)).symm
    simp only [byteSize_nil, Nat.zero_add] at partner
    rw [unwrap, if_pos opens, findParen_eq, ok_bind, size, lower_succ, ok_bind, partner,
      Source.unwrap]
    cases hclose : closeParen? r with
    | none => rfl
    | some p =>
      obtain ⟨inside, rest⟩ := p
      obtain ⟨ts, rfl, reads, -⟩ := closeParen?_eq_some_iff.1 hclose
      have hr := reads.text
      have close := utf8Size_of_ascii (c := ')') (by decide)
      cases rest with
      | nil =>
        have last : byteSize r = byteSize (ts.flatMap Token.text) + 1 := by simp [hr, close]
        rw [last, Option.map_some, if_pos (by simp [Nat.add_comm]), hr, slice_between (by decide)]
        rfl
      | cons d rest =>
        have pos := d.utf8Size_pos
        have more : 1 + byteSize (ts.flatMap Token.text) ≠ byteSize r := by
          simp [hr, close]
          omega
        rw [Option.map_some, if_neg fun h => more (Option.some.inj h)]
        rfl
  · have same : Source.unwrap arg = arg := by
      unfold Source.unwrap
      split
      · exact absurd rfl opens
      · rfl
    rw [unwrap, if_neg opens, same]
    rfl

/-! ## Literals -/

theorem styleOf?_lead (c : Char) : styleOf? (lead c) = QuoteStyle.ofMark? c := by
  simp only [styleOf?, lead_eq_iff (show '\''.toNat < 128 by decide),
    lead_eq_iff (show '"'.toNat < 128 by decide)]
  split_ifs with single double
  · rw [single]
    rfl
  · rw [double]
    rfl
  · rw [QuoteStyle.ofMark?.eq_3 _ single double]

/-- A text that begins with a mark, read up to the end of the literal. -/
theorem parse?_quote {style : QuoteStyle} (r : List Char) :
    Literal.parse? (style.mark :: r) =
      (closeQuote style.mark [] r).bind fun p => if p.2 = [] then some ⟨style, p.1⟩ else none := by
  rw [Literal.parse?, next?_quote (isQuote_mark style), quoted]
  cases closeQuote style.mark [] r with
  | none => rfl
  | some p =>
    obtain ⟨body, rest⟩ := p
    cases rest <;> simp

/-- A literal is cut between characters when its marks are taken off. -/
theorem parse?_eq (token : List Char) : parse? token = .ok (Literal.parse? token) := by
  have first := getElem?_utf8 (List.nil_append token).symm
  rw [byteSize_nil] at first
  rw [parse?, first]
  cases token with
  | nil => rfl
  | cons c r =>
    simp only [List.head?_cons, Option.map_some, Option.bind_some, styleOf?_lead]
    cases mark : QuoteStyle.ofMark? c with
    | none =>
      cases parsed : Literal.parse? (c :: r) with
      | none => rfl
      | some literal =>
        obtain ⟨-, whole⟩ := parse?_eq_some_iff.1 parsed
        rw [(List.cons.inj whole).1, ofMark?_mark] at mark
        cases mark
    | some style =>
      obtain rfl := ofMark?_eq_some mark
      have ascii := toNat_lt_of_isQuote (isQuote_mark style)
      have skip := skipLiteral_eq (isQuote_mark style) (List.nil_append (style.mark :: r)).symm
      rw [byteSize_nil] at skip
      rw [parse?_quote]
      simp only [skip, ok_bind]
      cases closing : closeQuote style.mark [] r with
      | none => rfl
      | some p =>
        obtain ⟨body, rest⟩ := p
        obtain rfl : body ++ style.mark :: rest = r := closeQuote_append closing
        simp only [Option.map_some, Option.bind_some, length_utf8]
        by_cases ends : rest = []
        · subst ends
          simp only [byteSize_nil, Nat.sub_zero, byteSize_between ascii ascii, lower_succ, ok_bind,
            slice_between ascii, if_true]
          rfl
        · have pos : byteSize rest ≠ 0 := mt byteSize_eq_zero.1 ends
          have fits : byteSize rest ≤ byteSize (style.mark :: (body ++ style.mark :: rest)) := by
            simp
            omega
          rw [if_neg (by omega), if_neg ends]
          rfl

end PotExtract.Checked
