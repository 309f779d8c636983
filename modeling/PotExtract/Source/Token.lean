/-!
# Tokens of a source text

A source text is read as comments, quoted literals and single characters.
Every mark that delimits one of them is an ASCII character.

* `text_next?`: a token and the rest make up the text that was read;
* `length_next?`: the rest is shorter than the text, so reading ends;
* `flatMap_text_tokens`: the tokens of a text, one after the other, are the
  text.
-/

namespace PotExtract.Source

/-- The blanks that separate tokens. -/
def isSpace (c : Char) : Bool :=
  c == ' ' || c == '\t' || c == '\n' || c == '\x0c' || c == '\r'

/-- A quotation mark opens a literal, and the same mark closes it. -/
def isQuote (c : Char) : Bool :=
  c == '\'' || c == '"'

/-- One lexical element of a source text. -/
inductive Token where
  /-- A comment with its marks. -/
  | comment (text : List Char)
  /-- A quoted literal: the mark, and what stands between the two marks. -/
  | literal (quote : Char) (body : List Char)
  /-- A quotation mark that nothing closes, with all that follows it. -/
  | unclosed (text : List Char)
  /-- Any other character. -/
  | char (c : Char)
  deriving DecidableEq, Repr

/-- A token as it is written. -/
def Token.text : Token → List Char
  | .comment text => text
  | .literal quote body => quote :: body ++ [quote]
  | .unclosed text => text
  | .char c => [c]

@[simp] theorem text_comment (text : List Char) : (Token.comment text).text = text := rfl

@[simp] theorem text_literal (quote : Char) (body : List Char) :
    (Token.literal quote body).text = quote :: (body ++ [quote]) := rfl

@[simp] theorem text_unclosed (text : List Char) : (Token.unclosed text).text = text := rfl

@[simp] theorem text_char (c : Char) : (Token.char c).text = [c] := rfl

/-- The text up to the first place where `stop` holds of what follows, and what follows; `seen`
is the text already passed, last character first. -/
def splitBefore (stop : List Char → Bool) (seen : List Char) : List Char → List Char × List Char
  | [] => (seen.reverse, [])
  | c :: r => if stop (c :: r) then (seen.reverse, c :: r) else splitBefore stop (c :: seen) r

theorem splitBefore_append (stop : List Char → Bool) (seen s : List Char) :
    (splitBefore stop seen s).1 ++ (splitBefore stop seen s).2 = seen.reverse ++ s := by
  induction s generalizing seen with
  | nil => simp [splitBefore]
  | cons c r ih =>
    simp only [splitBefore]
    split <;> simp_all

/-- A block comment ends with a star and a slash. -/
def closesBlock : List Char → Bool
  | '*' :: '/' :: _ => true
  | _ => false

/-- A line comment ends before a line feed and before the mark that leaves the script. -/
def endsLine : List Char → Bool
  | '\n' :: _ => true
  | '?' :: '>' :: _ => true
  | _ => false

/-- The body of a literal up to its closing mark, and the text after the mark. A backslash takes
the next character along, whatever it is; `seen` is the body already passed, last character
first. -/
def closeQuote (quote : Char) (seen : List Char) : List Char → Option (List Char × List Char)
  | [] => none
  | '\\' :: c :: r => closeQuote quote (c :: '\\' :: seen) r
  | c :: r => if c = quote then some (seen.reverse, r) else closeQuote quote (c :: seen) r

theorem closeQuote_append {quote : Char} {seen s body rest : List Char}
    (h : closeQuote quote seen s = some (body, rest)) :
    body ++ quote :: rest = seen.reverse ++ s := by
  fun_induction closeQuote quote seen s with
  | case1 => simp at h
  | case2 seen c r ih => simpa using ih h
  | case3 seen r => simp_all
  | case4 seen c r _ _ ih => simpa using ih h

/-- A comment that begins with `mark` and ends before the line does. -/
def lineComment (mark r : List Char) : Token × List Char :=
  let (body, rest) := splitBefore endsLine [] r
  (.comment (mark ++ body), rest)

/-- A block comment after its opening mark; one that nothing closes takes the rest of the
text. -/
def blockComment (r : List Char) : Token × List Char :=
  let (body, rest) := splitBefore closesBlock [] r
  (.comment ('/' :: '*' :: body ++ rest.take 2), rest.drop 2)

/-- The literal after its opening mark. -/
def quoted (quote : Char) (r : List Char) : Token × List Char :=
  match closeQuote quote [] r with
  | some (body, rest) => (.literal quote body, rest)
  | none => (.unclosed (quote :: r), [])

/-- The first token of a text and what follows it. A number sign before a bracket opens an
attribute and no comment. -/
def next? : List Char → Option (Token × List Char)
  | [] => none
  | '/' :: '*' :: r => some (blockComment r)
  | '/' :: '/' :: r => some (lineComment ['/', '/'] r)
  | '#' :: '[' :: r => some (.char '#', '[' :: r)
  | '#' :: r => some (lineComment ['#'] r)
  | c :: r => if isQuote c then some (quoted c r) else some (.char c, r)

theorem text_lineComment (mark r : List Char) :
    (lineComment mark r).1.text ++ (lineComment mark r).2 = mark ++ r := by
  have h := splitBefore_append endsLine [] r
  simp [lineComment, h]

theorem text_blockComment (r : List Char) :
    (blockComment r).1.text ++ (blockComment r).2 = '/' :: '*' :: r := by
  have h := splitBefore_append closesBlock [] r
  simpa [blockComment] using h

theorem text_quoted (quote : Char) (r : List Char) :
    (quoted quote r).1.text ++ (quoted quote r).2 = quote :: r := by
  unfold quoted
  split
  · rename_i body rest h
    simpa using closeQuote_append h
  · simp

theorem quoted_text_ne_nil (quote : Char) (r : List Char) : (quoted quote r).1.text ≠ [] := by
  unfold quoted
  split <;> simp

/-- What one step of reading yields: a token that is not empty, before the rest. -/
theorem text_next?_and_ne_nil {s rest : List Char} {t : Token} (h : next? s = some (t, rest)) :
    t.text ++ rest = s ∧ t.text ≠ [] := by
  have split_pair : ∀ p : Token × List Char, some p = some (t, rest) → p.1 = t ∧ p.2 = rest := by
    rintro p ⟨⟩
    exact ⟨rfl, rfl⟩
  fun_cases next? s with
  | case1 => simp [next?] at h
  | case2 r =>
    obtain ⟨rfl, rfl⟩ := split_pair _ h
    exact ⟨text_blockComment r, by simp [blockComment]⟩
  | case3 r =>
    obtain ⟨rfl, rfl⟩ := split_pair _ h
    exact ⟨text_lineComment ['/', '/'] r, by simp [lineComment]⟩
  | case4 r =>
    obtain ⟨rfl, rfl⟩ := split_pair _ h
    simp
  | case5 r hr =>
    rw [next?.eq_5 _ hr] at h
    obtain ⟨rfl, rfl⟩ := split_pair _ h
    exact ⟨text_lineComment ['#'] r, by simp [lineComment]⟩
  | case6 c r _ _ _ _ hq =>
    rw [next?.eq_6 _ _ ‹_› ‹_› ‹_› ‹_›, if_pos hq] at h
    obtain ⟨rfl, rfl⟩ := split_pair _ h
    exact ⟨text_quoted c r, quoted_text_ne_nil c r⟩
  | case7 c r _ _ _ _ hq =>
    rw [next?.eq_6 _ _ ‹_› ‹_› ‹_› ‹_›, if_neg hq] at h
    obtain ⟨rfl, rfl⟩ := split_pair _ h
    simp

theorem text_next? {s rest : List Char} {t : Token} (h : next? s = some (t, rest)) :
    t.text ++ rest = s :=
  (text_next?_and_ne_nil h).1

theorem next?_eq_none {s : List Char} : next? s = none ↔ s = [] := by
  constructor
  · intro h
    fun_cases next? s <;> simp_all [next?]
  · rintro rfl
    rfl

theorem length_next? {s rest : List Char} {t : Token} (h : next? s = some (t, rest)) :
    rest.length < s.length := by
  have hs := congrArg List.length (text_next? h)
  have ht := List.length_pos_iff.2 (text_next?_and_ne_nil h).2
  simp only [List.length_append] at hs
  omega

/-- All tokens of a text, in order. -/
def tokens (s : List Char) : List Token :=
  match _ : next? s with
  | none => []
  | some (t, rest) => t :: tokens rest
termination_by s.length
decreasing_by exact length_next? ‹_›

theorem flatMap_text_tokens (s : List Char) : (tokens s).flatMap Token.text = s := by
  fun_induction tokens s with
  | case1 s h => simp [next?_eq_none.1 h]
  | case2 s t rest h ih => simp [ih, text_next? h]

end PotExtract.Source
