import PotExtract.Proofs.Source.Arguments
import PotExtract.Proofs.Source.Lookahead

/-!
# Texts with carriage returns

A text in which a carriage return comes before each line feed is read as the
text without them. The tokens do not stay the same one by one: a line feed
becomes two blanks, and a comment takes the carriage return at the end of its
line. But what is said stays, token by token, and blanks and comments between
stay blanks and comments.

* `crlf`: a text with carriage returns;
* `Aligned`: the tokens of two texts that differ in their line endings;
* `aligned_tokens`: the tokens of a text and of the text with carriage
  returns;
* `arguments_crlf`, `unwrap_crlf`, `parse?_crlf`, `unescape_crlf`: what is read
  off the tokens.
-/

namespace PotExtract.Source

/-- A text with a carriage return before each line feed. -/
def crlf (s : List Char) : List Char :=
  s.flatMap fun c => if c = '\n' then ['\r', '\n'] else [c]

@[simp] theorem crlf_nil : crlf [] = [] := rfl

@[simp] theorem crlf_feed (r : List Char) : crlf ('\n' :: r) = '\r' :: '\n' :: crlf r := rfl

theorem crlf_cons {c : Char} (hc : c ≠ '\n') (r : List Char) : crlf (c :: r) = c :: crlf r := by
  simp [crlf, hc]

@[simp] theorem crlf_append (s t : List Char) : crlf (s ++ t) = crlf s ++ crlf t := by
  simp [crlf]

@[simp] theorem crlf_eq_nil {s : List Char} : crlf s = [] ↔ s = [] := by
  cases s with
  | nil => simp
  | cons c r =>
    by_cases hc : c = '\n'
    · simp [hc]
    · simp [crlf_cons hc]

theorem crlf_singleton {c : Char} (hc : c ≠ '\n') : crlf [c] = [c] :=
  crlf_cons hc []

/-- A text begins with a character other than the two of a line ending also with carriage
returns. -/
theorem head?_crlf_iff {c : Char} (feed : c ≠ '\n') (ret : c ≠ '\r') (s : List Char) :
    (crlf s).head? = some c ↔ s.head? = some c := by
  cases s with
  | nil => rfl
  | cons d r =>
    by_cases hd : d = '\n'
    · subst hd
      simp [Ne.symm feed, Ne.symm ret]
    · simp [crlf_cons hd]

section
variable {p : Char → Bool}

/-- A class of characters that treats both characters of a line ending alike is dropped alike. -/
theorem dropWhile_crlf (h : p '\r' = p '\n') (s : List Char) :
    (crlf s).dropWhile p = crlf (s.dropWhile p) := by
  induction s with
  | nil => rfl
  | cons c r ih =>
    by_cases hc : c = '\n'
    · subst hc
      cases hp : p '\n' <;> simp [h, hp, ih]
    · rw [crlf_cons hc]
      cases hp : p c <;> simp [hp, ih, crlf_cons hc]

/-- A run of characters of which neither is one of a line ending. -/
theorem takeWhile_crlf (ret : p '\r' = false) (feed : p '\n' = false) (s : List Char) :
    (crlf s).takeWhile p = s.takeWhile p := by
  induction s with
  | nil => rfl
  | cons c r ih =>
    by_cases hc : c = '\n'
    · subst hc
      simp [ret, feed]
    · rw [crlf_cons hc, List.takeWhile_cons, List.takeWhile_cons, ih]

theorem rdropWhile_crlf (h : p '\r' = p '\n') (s : List Char) :
    (crlf s).rdropWhile p = crlf (s.rdropWhile p) := by
  induction s using List.reverseRecOn with
  | nil => rfl
  | append_singleton s c ih =>
    by_cases hc : c = '\n'
    · subst hc
      have two : crlf (s ++ ['\n']) = crlf s ++ ['\r'] ++ ['\n'] := by simp
      cases hp : p '\n' with
      | true =>
        rw [two, List.rdropWhile_concat_pos _ _ _ hp, List.rdropWhile_concat_pos _ _ _ (h.trans hp),
          List.rdropWhile_concat_pos _ _ _ hp, ih]
      | false =>
        rw [two, List.rdropWhile_concat_neg _ _ _ (by simp [hp]),
          List.rdropWhile_concat_neg _ _ _ (by simp [hp]), two]
    · rw [crlf_append, crlf_singleton hc]
      cases hp : p c with
      | true =>
        rw [List.rdropWhile_concat_pos _ _ _ hp, List.rdropWhile_concat_pos _ _ _ hp, ih]
      | false =>
        rw [List.rdropWhile_concat_neg _ _ _ (by simp [hp]),
          List.rdropWhile_concat_neg _ _ _ (by simp [hp]), crlf_append, crlf_singleton hc]

end

theorem trimBlanks_crlf (s : List Char) : trimBlanks (crlf s) = crlf (trimBlanks s) := by
  have alike : isBlank '\r' = isBlank '\n' := rfl
  have trimmed (s : List Char) : trimBlanks s = (s.dropWhile isBlank).rdropWhile isBlank := rfl
  rw [trimmed, trimmed, dropWhile_crlf alike, rdropWhile_crlf alike]

/-! ## Comments and literals -/

theorem splitBefore_closesBlock_crlf {seen seen' : List Char}
    (h : seen'.reverse = crlf seen.reverse) (s : List Char) :
    splitBefore closesBlock seen' (crlf s) =
      (crlf (splitBefore closesBlock seen s).1, crlf (splitBefore closesBlock seen s).2) := by
  induction s generalizing seen seen' with
  | nil => simp [splitBefore, h]
  | cons c r ih =>
    by_cases hc : c = '\n'
    · subst hc
      have more : ('\n' :: '\r' :: seen').reverse = crlf ('\n' :: seen).reverse := by simp [h]
      simpa [splitBefore, closesBlock_cons] using ih more
    · have more : (c :: seen').reverse = crlf (c :: seen).reverse := by
        simp [h, crlf_singleton hc]
      have slash : (crlf r).head? = some '/' ↔ r.head? = some '/' :=
        head?_crlf_iff (by decide) (by decide) r
      have same : closesBlock (c :: crlf r) = closesBlock (c :: r) := by
        rw [Bool.eq_iff_iff, closesBlock_cons, closesBlock_cons, slash]
      rw [crlf_cons hc, splitBefore, splitBefore, same]
      split
      · simp [h, crlf_cons hc]
      · exact ih more

/-- A line comment ends where it ended; at the end of its line it takes the carriage return. -/
theorem splitBefore_endsLine_crlf {seen seen' : List Char}
    (h : seen'.reverse = crlf seen.reverse) (s : List Char) :
    (∃ m, (splitBefore endsLine seen s).2 = '\n' :: m ∧
      splitBefore endsLine seen' (crlf s) =
        (crlf (splitBefore endsLine seen s).1 ++ ['\r'], '\n' :: crlf m)) ∨
    splitBefore endsLine seen' (crlf s) =
      (crlf (splitBefore endsLine seen s).1, crlf (splitBefore endsLine seen s).2) := by
  induction s generalizing seen seen' with
  | nil => exact .inr (by simp [splitBefore, h])
  | cons c r ih =>
    by_cases hc : c = '\n'
    · subst hc
      exact .inl ⟨r, by simp [splitBefore, endsLine_cons], by simp [splitBefore, endsLine_cons, h]⟩
    · have more : (c :: seen').reverse = crlf (c :: seen).reverse := by
        simp [h, crlf_singleton hc]
      have angle : (crlf r).head? = some '>' ↔ r.head? = some '>' :=
        head?_crlf_iff (by decide) (by decide) r
      have same : endsLine (c :: crlf r) = endsLine (c :: r) := by
        rw [Bool.eq_iff_iff, endsLine_cons, endsLine_cons, angle]
      rw [crlf_cons hc, splitBefore, splitBefore, same]
      split
      · exact .inr (by simp [h, crlf_cons hc])
      · exact ih more

theorem ne_of_isQuote {quote c : Char} (hq : isQuote quote = true) (hc : isQuote c = false) :
    c ≠ quote := by
  rintro rfl
  rw [hq] at hc
  cases hc

/-- A backslash before a line feed takes the carriage return along instead. -/
theorem closeQuote_crlf {quote : Char} (hq : isQuote quote = true) {seen seen' : List Char}
    (h : seen'.reverse = crlf seen.reverse) (s : List Char) :
    closeQuote quote seen' (crlf s) =
      (closeQuote quote seen s).map fun (body, rest) => (crlf body, crlf rest) := by
  have feed : '\n' ≠ quote := ne_of_isQuote hq rfl
  have ret : '\r' ≠ quote := ne_of_isQuote hq rfl
  have back : '\\' ≠ quote := ne_of_isQuote hq rfl
  fun_induction closeQuote quote seen s generalizing seen' with
  | case1 => simp [closeQuote]
  | case2 seen c r ih =>
    by_cases hc : c = '\n'
    · subst hc
      rw [crlf_cons (by decide), crlf_feed]
      have more : ('\n' :: '\r' :: '\\' :: seen').reverse =
          crlf ('\n' :: '\\' :: seen).reverse := by
        simp [h, crlf_cons]
      simpa [closeQuote, feed] using ih more
    · rw [crlf_cons (by decide), crlf_cons hc]
      have more : (c :: '\\' :: seen').reverse = crlf (c :: '\\' :: seen).reverse := by
        simp [h, crlf_cons hc, crlf_cons]
      simpa [closeQuote] using ih more
  | case3 seen r _ =>
    rw [crlf_cons (Ne.symm feed)]
    simp [closeQuote, h, Ne.symm back]
  | case4 seen c r single hc ih =>
    by_cases hfeed : c = '\n'
    · subst hfeed
      have more : ('\n' :: '\r' :: seen').reverse = crlf ('\n' :: seen).reverse := by simp [h]
      simpa [closeQuote, feed, ret] using ih more
    · have more : (c :: seen').reverse = crlf (c :: seen).reverse := by
        simp [h, crlf_singleton hfeed]
      rw [crlf_cons hfeed]
      by_cases hback : c = '\\'
      · subst hback
        obtain rfl : r = [] := by
          cases r with
          | nil => rfl
          | cons d r => exact absurd rfl (single d r rfl)
        simp [closeQuote, back]
      · simpa [closeQuote, hc, hback] using ih more

/-! ## Tokens -/

/-- A token of a text as it is read with carriage returns, unless it is a line feed or a comment up
to one. -/
def Token.crlf : Token → Token
  | .comment text => .comment (Source.crlf text)
  | .literal quote body => .literal quote (Source.crlf body)
  | .unclosed text => .unclosed (Source.crlf text)
  | .char c => .char c

@[simp] theorem isSignificant_crlf (t : Token) : t.crlf.isSignificant = t.isSignificant := by
  cases t <;> rfl

@[simp] theorem depthAfter_crlf (depth : Nat) (t : Token) :
    t.crlf.depthAfter depth = t.depthAfter depth := by
  cases t <;> rfl

theorem crlf_eq_char {t : Token} {c : Char} : t.crlf = .char c ↔ t = .char c := by
  cases t <;> simp [Token.crlf]

/-- The tokens of two texts that differ in their line endings: what is said stays, and blanks and
comments between make up the same text. -/
inductive Aligned : List Token → List Token → Prop where
  | nil : Aligned [] []
  | said {t : Token} {ts us : List Token} (h : t.isSignificant = true)
      (text : t.crlf.text = crlf t.text) (more : Aligned ts us) : Aligned (t :: ts) (t.crlf :: us)
  | unsaid {ps qs ts us : List Token} (hp : ∀ t ∈ ps, t.isSignificant = false)
      (hq : ∀ t ∈ qs, t.isSignificant = false)
      (text : qs.flatMap Token.text = crlf (ps.flatMap Token.text)) (more : Aligned ts us) :
      Aligned (ps ++ ts) (qs ++ us)

theorem Aligned.cons {t : Token} {ts us : List Token} (text : t.crlf.text = crlf t.text)
    (more : Aligned ts us) : Aligned (t :: ts) (t.crlf :: us) := by
  cases h : t.isSignificant with
  | true => exact .said h text more
  | false =>
    have one : Aligned ([t] ++ ts) ([t.crlf] ++ us) :=
      .unsaid (by simpa using h) (by simpa using h) (by simpa using text) more
    exact one

theorem Aligned.text {ts us : List Token} (h : Aligned ts us) :
    us.flatMap Token.text = Source.crlf (ts.flatMap Token.text) := by
  induction h with
  | nil => rfl
  | said _ text _ ih => rw [List.flatMap_cons, List.flatMap_cons, text, ih, crlf_append]
  | unsaid _ _ text _ ih => rw [List.flatMap_append, List.flatMap_append, text, ih, crlf_append]

theorem tokens_of_next? {s rest : List Char} {t : Token} (h : next? s = some (t, rest)) :
    tokens s = t :: tokens rest :=
  (Reads.single h).tokens

theorem blockComment_crlf (r : List Char) :
    blockComment (crlf r) = ((blockComment r).1.crlf, crlf (blockComment r).2) := by
  have split := @splitBefore_closesBlock_crlf [] [] rfl r
  cases hs : (splitBefore closesBlock [] r).2 with
  | nil => simp [blockComment, split, hs, Token.crlf, crlf_cons]
  | cons c m =>
    have stops : closesBlock (splitBefore closesBlock [] r).2 = true :=
      stop_splitBefore (by simp [hs])
    rw [hs] at stops
    obtain ⟨rfl, hm⟩ := closesBlock_cons.1 stops
    obtain ⟨m, rfl⟩ := List.head?_eq_some_iff.1 hm
    simp [blockComment, split, hs, Token.crlf, crlf_cons]

theorem lineComment_crlf {mark : List Char} (hmark : crlf mark = mark) (r : List Char) :
    (∃ text m, lineComment mark r = (.comment text, '\n' :: m) ∧
      lineComment mark (crlf r) = (.comment (crlf text ++ ['\r']), '\n' :: crlf m)) ∨
    lineComment mark (crlf r) = ((lineComment mark r).1.crlf, crlf (lineComment mark r).2) := by
  rcases @splitBefore_endsLine_crlf [] [] rfl r with ⟨m, hm, split⟩ | split
  · exact .inl ⟨_, m, by rw [← hm]; rfl, by simp [lineComment, split, hmark]⟩
  · exact .inr (by simp [lineComment, split, Token.crlf, hmark])

theorem quoted_crlf {quote : Char} (hq : isQuote quote = true) (r : List Char) :
    quoted quote (crlf r) = ((quoted quote r).1.crlf, crlf (quoted quote r).2) := by
  have notFeed : quote ≠ '\n' := Ne.symm (ne_of_isQuote hq rfl)
  have close := @closeQuote_crlf quote hq [] [] rfl r
  cases hr : closeQuote quote [] r with
  | none => simp [quoted, close, hr, Token.crlf, crlf_cons notFeed]
  | some p => simp [quoted, close, hr, Token.crlf]

theorem text_crlf_quoted {quote : Char} (hq : isQuote quote = true) (r : List Char) :
    (quoted quote r).1.crlf.text = crlf (quoted quote r).1.text := by
  have notFeed : quote ≠ '\n' := Ne.symm (ne_of_isQuote hq rfl)
  cases hr : closeQuote quote [] r <;> simp [quoted, hr, Token.crlf, crlf_cons notFeed]

theorem next?_feed (r : List Char) : next? ('\n' :: r) = some (.char '\n', r) := rfl

theorem next?_return (r : List Char) : next? ('\r' :: r) = some (.char '\r', r) := rfl

/-- A token that stays in place. -/
theorem Aligned.step {s m : List Char} {t : Token} (first : next? s = some (t, m))
    (first' : next? (Source.crlf s) = some (t.crlf, Source.crlf m))
    (text : t.crlf.text = Source.crlf t.text)
    (more : Aligned (tokens m) (tokens (Source.crlf m))) :
    Aligned (tokens s) (tokens (Source.crlf s)) := by
  rw [tokens_of_next? first, tokens_of_next? first']
  exact .cons text more

/-- A comment at the end of its line, with the line feed. -/
theorem Aligned.line {s m text : List Char} (first : next? s = some (.comment text, '\n' :: m))
    (first' : next? (Source.crlf s) =
      some (.comment (Source.crlf text ++ ['\r']), '\n' :: Source.crlf m))
    (more : Aligned (tokens m) (tokens (Source.crlf m))) :
    Aligned (tokens s) (tokens (Source.crlf s)) := by
  rw [tokens_of_next? first, tokens_of_next? (next?_feed m), tokens_of_next? first',
    tokens_of_next? (next?_feed _)]
  have silent : ∀ text, ∀ t ∈ [Token.comment text, .char '\n'], t.isSignificant = false := by
    intro text t ht
    simp only [List.mem_cons, List.not_mem_nil, or_false] at ht
    rcases ht with rfl | rfl <;> rfl
  exact @Aligned.unsaid [.comment text, .char '\n']
    [.comment (Source.crlf text ++ ['\r']), .char '\n'] _ _
    (silent _) (silent _) (by simp) more

/-- The tokens of a text and those of the text with carriage returns. -/
theorem aligned_tokens (s : List Char) : Aligned (tokens s) (tokens (crlf s)) := by
  induction hn : s.length using Nat.strongRecOn generalizing s with
  | ind n ih =>
    subst hn
    have shorter {m : List Char} (h : m.length < s.length) :
        Aligned (tokens m) (tokens (crlf m)) := ih m.length h m rfl
    have afterFeed {text m : List Char} (h : next? s = some (.comment text, '\n' :: m)) :
        Aligned (tokens m) (tokens (crlf m)) :=
      shorter ((length_next? (next?_feed m)).trans (length_next? h))
    cases hs : next? s with
    | none =>
      obtain rfl := next?_eq_none.1 hs
      rw [crlf_nil, tokens_nil]
      exact .nil
    | some p =>
      obtain ⟨t, m⟩ := p
      have more : Aligned (tokens m) (tokens (crlf m)) := shorter (length_next? hs)
      cases next?_eq_some_iff.1 hs with
      | @block r _ h =>
        have first : next? (crlf ('/' :: '*' :: r)) = some (t.crlf, crlf m) := by
          rw [crlf_cons (by decide), crlf_cons (by decide), next?, blockComment_crlf, h]
        obtain rfl : _ = t := congrArg Prod.fst h
        exact .step hs first rfl more
      | @slashes r _ h =>
        have begins : next? (crlf ('/' :: '/' :: r)) = some (lineComment ['/', '/'] (crlf r)) := by
          rw [crlf_cons (by decide), crlf_cons (by decide), next?]
        rcases @lineComment_crlf ['/', '/'] rfl r with ⟨text, m', h', first⟩ | first
        · cases h.symm.trans h'
          exact .line hs (begins.trans (congrArg some first)) (afterFeed hs)
        · rw [h] at first
          obtain rfl : _ = t := congrArg Prod.fst h
          exact .step hs (begins.trans (congrArg some first)) rfl more
      | @hash r _ other h =>
        have other' : (crlf r).head? ≠ some '[' := by
          rwa [ne_eq, head?_crlf_iff (by decide) (by decide)]
        have begins : next? (crlf ('#' :: r)) = some (lineComment ['#'] (crlf r)) := by
          rw [crlf_cons (by decide)]
          exact next?_eq_some_iff.2 (.hash other' rfl)
        rcases @lineComment_crlf ['#'] rfl r with ⟨text, m', h', first⟩ | first
        · cases h.symm.trans h'
          exact .line hs (begins.trans (congrArg some first)) (afterFeed hs)
        · rw [h] at first
          obtain rfl : _ = t := congrArg Prod.fst h
          exact .step hs (begins.trans (congrArg some first)) rfl more
      | @quote c r _ hq h =>
        have notFeed : c ≠ '\n' := Ne.symm (ne_of_isQuote hq rfl)
        have first : next? (crlf (c :: r)) = some (t.crlf, crlf m) := by
          rw [crlf_cons notFeed, next?_quote hq, quoted_crlf hq, h]
        have text := text_crlf_quoted hq r
        rw [h] at text
        exact .step hs first text more
      | @char c r hq slash hash =>
        by_cases hc : c = '\n'
        · subst hc
          rw [crlf_feed, tokens_of_next? hs, tokens_of_next? (next?_return _),
            tokens_of_next? (next?_feed _)]
          exact @Aligned.unsaid [.char '\n'] [.char '\r', .char '\n'] _ _ (by simp +decide)
            (by simp +decide) (by simp) more
        · have first : next? (crlf (c :: m)) = some (.char c, crlf m) := by
            rw [crlf_cons hc]
            refine next?_char_iff.2 ⟨hq, ?_, ?_⟩
            · intro hslash d hd hmem
              have plain : d ≠ '\n' ∧ d ≠ '\r' := by
                constructor <;> rintro rfl <;> revert hmem <;> decide
              exact slash hslash d ((head?_crlf_iff plain.1 plain.2 m).1 hd) hmem
            · intro hhash
              exact (head?_crlf_iff (by decide) (by decide) m).2 (hash hhash)
          exact .step hs first (crlf_singleton hc).symm more

/-! ## Parentheses -/

/-- The text up to the parenthesis that closes the one just passed, and the text after it, told
from the tokens alone. -/
def closeTokens? (depth : Nat) : List Token → Option (List Char × List Char)
  | [] => none
  | t :: ts =>
    let past := Option.map fun p : List Char × List Char => (t.text ++ p.1, p.2)
    match t with
    | .unclosed _ => none
    | .char '(' => past (closeTokens? (depth + 1) ts)
    | .char ')' =>
      match depth with
      | 0 => some ([], ts.flatMap Token.text)
      | outer + 1 => past (closeTokens? outer ts)
    | _ => past (closeTokens? depth ts)

theorem closeTokens?_cons {t : Token} (unclosed : ∀ text, t ≠ .unclosed text)
    (opens : t ≠ .char '(') (closes : t ≠ .char ')') (depth : Nat) (ts : List Token) :
    closeTokens? depth (t :: ts) = (closeTokens? depth ts).map fun p => (t.text ++ p.1, p.2) := by
  cases t with
  | unclosed text => exact absurd rfl (unclosed text)
  | comment | literal => rfl
  | char c => simp only [closeTokens?]

theorem closeTokens?_silent {ps : List Token} (h : ∀ t ∈ ps, t.isSignificant = false)
    (depth : Nat) (ts : List Token) :
    closeTokens? depth (ps ++ ts) =
      (closeTokens? depth ts).map fun p => (ps.flatMap Token.text ++ p.1, p.2) := by
  induction ps with
  | nil => simp
  | cons t ps ih =>
    have ne {u : Token} (hu : u.isSignificant = true) : t ≠ u := by
      rintro rfl
      rw [h t List.mem_cons_self] at hu
      cases hu
    rw [List.cons_append, closeTokens?_cons (fun _ => ne rfl) (ne rfl) (ne rfl),
      ih fun u hu => h u (List.mem_cons_of_mem t hu)]
    simp [Function.comp_def]

theorem map_insideParens (depth : Nat) (seen : List Token) (s : List Char) :
    (insideParens depth seen s).map (fun p => (p.1.flatMap Token.text, p.2)) =
      (closeTokens? depth (tokens s)).map
        fun p => (seen.reverse.flatMap Token.text ++ p.1, p.2) := by
  fun_induction insideParens depth seen s with
  | case1 depth seen s hs =>
    rw [next?_eq_none.1 hs, tokens_nil]
    rfl
  | case2 depth seen s text m hs =>
    rw [tokens_of_next? hs]
    rfl
  | case3 depth seen s m hs ih =>
    rw [ih, tokens_of_next? hs]
    simp [closeTokens?, Function.comp_def]
  | case4 seen s m hs =>
    rw [tokens_of_next? hs]
    simp [closeTokens?, flatMap_text_tokens]
  | case5 seen s m hs outer ih =>
    rw [ih, tokens_of_next? hs]
    simp [closeTokens?, Function.comp_def]
  | case6 depth seen s t m unclosed opens closes hs ih =>
    rw [ih, tokens_of_next? hs, closeTokens?_cons unclosed opens closes]
    simp [Function.comp_def]

theorem closeParen?_eq (s : List Char) : closeParen? s = closeTokens? 0 (tokens s) := by
  have here := map_insideParens 0 [] s
  simpa [closeParen?] using here

theorem Aligned.closeTokens? {ts us : List Token} (h : Aligned ts us) (depth : Nat) :
    closeTokens? depth us =
      (closeTokens? depth ts).map fun p => (Source.crlf p.1, Source.crlf p.2) := by
  induction h generalizing depth with
  | nil => rfl
  | @said t ts us _ text more ih =>
    by_cases opens : t = .char '('
    · subst opens
      simp [Source.closeTokens?, Token.crlf, ih, crlf_cons, Function.comp_def]
    by_cases closes : t = .char ')'
    · subst closes
      cases depth with
      | zero => simp [Source.closeTokens?, Token.crlf, more.text]
      | succ outer => simp [Source.closeTokens?, Token.crlf, ih, crlf_cons, Function.comp_def]
    cases t with
    | unclosed => rfl
    | comment | literal | char =>
      rw [closeTokens?_cons (by simp [Token.crlf]) (mt crlf_eq_char.1 opens)
        (mt crlf_eq_char.1 closes), closeTokens?_cons (by simp) opens closes, ih, text]
      simp only [Option.map_map, Function.comp_def, crlf_append]
  | unsaid hp hq text _ ih =>
    rw [closeTokens?_silent hp, closeTokens?_silent hq, ih, text]
    simp [Function.comp_def]

theorem closeParen?_crlf (s : List Char) :
    closeParen? (crlf s) = (closeParen? s).map fun p => (crlf p.1, crlf p.2) := by
  rw [closeParen?_eq, closeParen?_eq, (aligned_tokens s).closeTokens?]

/-! ## Arguments -/

theorem argumentsFrom_silent {ps : List Token} (h : ∀ t ∈ ps, t.isSignificant = false)
    (depth : Nat) (arg gap : List Char) (ts : List Token) :
    argumentsFrom depth arg gap (ps ++ ts) =
      argumentsFrom depth arg ((ps.flatMap Token.text).reverse ++ gap) ts := by
  induction ps generalizing gap with
  | nil => rfl
  | cons t ps ih =>
    have ht := h t List.mem_cons_self
    have comma : t ≠ .char ',' := by
      rintro rfl
      cases ht
    simp only [List.cons_append, argumentsFrom, comma, and_false, ↓reduceIte, ht,
      Bool.false_eq_true]
    rw [ih fun u hu => h u (List.mem_cons_of_mem t hu)]
    simp

theorem Aligned.argumentsFrom {ts us : List Token} (h : Aligned ts us) (depth : Nat)
    {arg gap arg' gap' : List Char} (harg : arg'.reverse = Source.crlf arg.reverse)
    (hgap : gap'.reverse = Source.crlf gap.reverse) :
    argumentsFrom depth arg' gap' us = (argumentsFrom depth arg gap ts).map Source.crlf := by
  have empty {a a' : List Char} (ha : a'.reverse = Source.crlf a.reverse) :
      a'.isEmpty = a.isEmpty := by
    rw [Bool.eq_iff_iff, List.isEmpty_iff, List.isEmpty_iff, ← List.reverse_eq_nil_iff, ha,
      crlf_eq_nil, List.reverse_eq_nil_iff]
  induction h generalizing depth arg gap arg' gap' with
  | nil =>
    simp only [Source.argumentsFrom, empty harg]
    split <;> simp [harg]
  | @said t ts us hsaid text _ ih =>
    simp only [Source.argumentsFrom, crlf_eq_char, isSignificant_crlf, hsaid, ↓reduceIte,
      depthAfter_crlf, empty harg]
    split
    · have more : Source.argumentsFrom 0 [] [] us =
          (Source.argumentsFrom 0 [] [] ts).map Source.crlf := ih 0 rfl rfl
      rw [List.map_cons, more, harg]
    · apply ih
      · split <;> simp [text, harg, hgap]
      · rfl
  | unsaid hp hq text _ ih =>
    rw [argumentsFrom_silent hp, argumentsFrom_silent hq]
    exact ih depth harg (by simp [text, hgap])

theorem arguments_crlf (inside : List Char) :
    arguments (crlf inside) = (arguments inside).map crlf :=
  (aligned_tokens inside).argumentsFrom 0 rfl rfl

theorem unwrap_crlf (arg : List Char) : unwrap (crlf arg) = crlf (unwrap arg) := by
  cases arg with
  | nil => rfl
  | cons c r =>
    by_cases hc : c = '\n'
    · subst hc
      rfl
    · rw [crlf_cons hc]
      by_cases hopen : c = '('
      · subst hopen
        simp only [unwrap, closeParen?_crlf]
        cases closeParen? r with
        | none => exact (crlf_cons hc r).symm
        | some p =>
          obtain ⟨inside, rest⟩ := p
          cases rest with
          | nil => exact trimBlanks_crlf inside
          | cons d m =>
            have ne : crlf (d :: m) ≠ [] := by simp
            obtain ⟨e, n, he⟩ := List.exists_cons_of_ne_nil ne
            simp only [Option.map_some, he]
            exact (crlf_cons hc r).symm
      · simp [unwrap, hopen, crlf_cons hc]

/-! ## Literals -/

/-- A literal whose body has carriage returns. -/
def Literal.crlf (literal : Literal) : Literal :=
  { literal with body := Source.crlf literal.body }

theorem parse?_crlf (s : List Char) :
    Literal.parse? (crlf s) = (Literal.parse? s).map Literal.crlf := by
  have quoted_only {s : List Char} (h : ∀ c ∈ s.head?, isQuote c = false) :
      Literal.parse? s = none := by
    rw [Option.eq_none_iff_forall_ne_some]
    intro literal hparse
    obtain ⟨-, rfl⟩ := parse?_eq_some_iff.1 hparse
    have mark := h _ rfl
    rw [isQuote_mark] at mark
    cases mark
  cases s with
  | nil => rfl
  | cons c r =>
    cases hq : isQuote c with
    | false =>
      rw [quoted_only (s := c :: r) (by simpa using hq)]
      apply quoted_only
      by_cases hc : c = '\n'
      · subst hc
        simp +decide
      · simpa [crlf_cons hc] using hq
    | true =>
      have notFeed : c ≠ '\n' := Ne.symm (ne_of_isQuote hq rfl)
      have first : next? (crlf (c :: r)) = some ((quoted c r).1.crlf, crlf (quoted c r).2) := by
        rw [crlf_cons notFeed, next?_quote hq, quoted_crlf hq]
      rw [Literal.parse?, Literal.parse?, first, next?_quote hq]
      cases hr : closeQuote c [] r with
      | none => simp [quoted, hr, Token.crlf]
      | some p =>
        obtain ⟨body, rest⟩ := p
        cases rest with
        | nil => simp [quoted, hr, Token.crlf, Literal.crlf, Function.comp_def]
        | cons d m =>
          have ne : crlf (d :: m) ≠ [] := by simp
          obtain ⟨e, n, he⟩ := List.exists_cons_of_ne_nil ne
          simp [quoted, hr, Token.crlf, he]

theorem unescape_crlf (style : QuoteStyle) (body : List Char) :
    unescape style (crlf body) = crlf (unescape style body) := by
  have feed : style.escapes '\n' = false := by cases style <;> rfl
  have ret : style.escapes '\r' = false := by cases style <;> rfl
  fun_induction unescape style body with
  | case1 => rfl
  | case2 c r hc ih =>
    have notFeed : c ≠ '\n' := by
      rintro rfl
      rw [feed] at hc
      cases hc
    rw [crlf_cons (by decide), crlf_cons notFeed, crlf_cons notFeed, unescape, if_pos hc, ih]
  | case3 c r hc ih =>
    by_cases notFeed : c = '\n'
    · subst notFeed
      simp [crlf_cons, unescape, ret, ih]
    · simp only [crlf_cons notFeed, crlf_cons (show '\\' ≠ '\n' by decide), unescape, hc, ih,
        Bool.false_eq_true, ↓reduceIte]
  | case4 c r single ih =>
    by_cases hfeed : c = '\n'
    · subst hfeed
      simp [unescape, ih]
    · rw [crlf_cons hfeed, crlf_cons hfeed, ← ih]
      by_cases hback : c = '\\'
      · subst hback
        obtain rfl : r = [] := by
          cases r with
          | nil => rfl
          | cons d r => exact absurd rfl (single d r rfl)
        rfl
      · rw [unescape]
        exact fun d m h => absurd h hback

end PotExtract.Source
