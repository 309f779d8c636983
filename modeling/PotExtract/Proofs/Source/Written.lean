import PotExtract.Proofs.Source.Arguments
import PotExtract.Proofs.Source.Literal
import PotExtract.Proofs.Text.Trimmed

/-!
# Arguments as they are written

The pieces of a written argument list, each with its text and the tokens that
are read from it whatever follows.

* `Filler`: a blank or a comment beside an argument;
* `Operand`: a quoted text, a word or a literal;
* `Argument`: an operand, maybe in parentheses, with what stands around it;
* `ArgumentList.closeParen?_text`: the parenthesis after a written list closes it;
* `ArgumentList.arguments_text`: a written list is read as its arguments.
-/

namespace PotExtract.Source

/-! ## Blanks and comments -/

/-- A text that a comment holds up to the end of its line. -/
structure LineText (body : List Char) : Prop where
  noFeed : '\n' ∉ body
  noLeave : ¬ ['?', '>'] <:+: body

/-- What may stand beside an argument. -/
inductive Filler where
  | blank (c : Char) (h : isSpace c = true)
  | block (body : List Char) (h : ¬ ['*', '/'] <:+: body)
  | slashes (body : List Char) (h : LineText body)
  | hash (body : List Char) (h : LineText body) (noBracket : body.head? ≠ some '[')

namespace Filler

def text : Filler → List Char
  | blank c _ => [c]
  | block body _ => '/' :: '*' :: (body ++ ['*', '/'])
  | slashes body _ => '/' :: '/' :: (body ++ ['\n'])
  | hash body _ _ => '#' :: (body ++ ['\n'])

def tokens : Filler → List Token
  | blank c _ => [.char c]
  | block body _ => [.comment ('/' :: '*' :: (body ++ ['*', '/']))]
  | slashes body _ => [.comment ('/' :: '/' :: body), .char '\n']
  | hash body _ _ => [.comment ('#' :: body), .char '\n']

end Filler

/-- A search passes over a body in which it would not stop, and stops after it. -/
theorem splitBefore_body {stop : List Char → Bool} {body rest : List Char}
    (hrest : stop rest = true) (ne : rest ≠ [])
    (goes : ∀ c r, c :: r <:+ body → stop (c :: (r ++ rest)) = false) (seen : List Char) :
    splitBefore stop seen (body ++ rest) = (seen.reverse ++ body, rest) := by
  induction body generalizing seen with
  | nil =>
    obtain ⟨d, r, rfl⟩ := List.exists_cons_of_ne_nil ne
    simp [splitBefore, hrest]
  | cons c body ih =>
    have hc := goes c body (List.suffix_refl _)
    rw [List.cons_append, splitBefore, hc]
    simp only [Bool.false_eq_true, ↓reduceIte]
    rw [ih fun d r hd => goes d r (hd.trans (List.suffix_cons c body))]
    simp

theorem closesBlock_body {body rest : List Char} (h : ¬ ['*', '/'] <:+: body) {c : Char}
    {r : List Char} (hc : c :: r <:+ body) :
    closesBlock (c :: (r ++ '*' :: '/' :: rest)) = false := by
  rw [Bool.eq_false_iff, ne_eq, closesBlock_iff]
  intro hstop
  obtain ⟨rfl, hnext⟩ := List.cons_prefix_cons.1 hstop
  cases r with
  | nil => simp [List.cons_prefix_cons] at hnext
  | cons d r =>
    obtain ⟨rfl, -⟩ := List.cons_prefix_cons.1 hnext
    exact h (List.IsInfix.trans ⟨[], r, rfl⟩ hc.isInfix)

theorem endsLine_body {body rest : List Char} (h : LineText body) {c : Char} {r : List Char}
    (hc : c :: r <:+ body) : endsLine (c :: (r ++ '\n' :: rest)) = false := by
  rw [Bool.eq_false_iff, ne_eq, endsLine_iff]
  rintro (hstop | hstop)
  · obtain ⟨rfl, -⟩ := List.cons_prefix_cons.1 hstop
    exact h.noFeed (hc.mem List.mem_cons_self)
  · obtain ⟨rfl, hnext⟩ := List.cons_prefix_cons.1 hstop
    cases r with
    | nil => simp [List.cons_prefix_cons] at hnext
    | cons d r =>
      obtain ⟨rfl, -⟩ := List.cons_prefix_cons.1 hnext
      exact h.noLeave (List.IsInfix.trans ⟨[], r, rfl⟩ hc.isInfix)

theorem lineComment_body {body : List Char} (h : LineText body) (mark rest : List Char) :
    lineComment mark (body ++ '\n' :: rest) = (.comment (mark ++ body), '\n' :: rest) := by
  have stop : splitBefore endsLine [] (body ++ '\n' :: rest) = (body, '\n' :: rest) :=
    splitBefore_body rfl (List.cons_ne_nil _ _) (fun _ _ hc => endsLine_body h hc) []
  simp [lineComment, stop]

theorem blockComment_body {body : List Char} (h : ¬ ['*', '/'] <:+: body) (rest : List Char) :
    blockComment (body ++ '*' :: '/' :: rest) =
      (.comment ('/' :: '*' :: (body ++ ['*', '/'])), rest) := by
  have stop : splitBefore closesBlock [] (body ++ '*' :: '/' :: rest) =
      (body, '*' :: '/' :: rest) :=
    splitBefore_body rfl (List.cons_ne_nil _ _) (fun _ _ hc => closesBlock_body h hc) []
  simp [blockComment, stop]

/-- A character that opens nothing. -/
def isPlain (c : Char) : Bool :=
  !(c == '/' || c == '#' || isQuote c)

theorem next?_of_isPlain {c : Char} (hc : isPlain c = true) (r : List Char) :
    next? (c :: r) = some (.char c, r) := by
  simp only [isPlain, Bool.not_eq_true', Bool.or_eq_false_iff, beq_eq_false_iff_ne] at hc
  exact next?_plain hc.1.1 hc.1.2 hc.2 r

theorem isPlain_of_isSpace {c : Char} (hc : isSpace c = true) : isPlain c = true :=
  of_isSpace (by decide) hc

theorem isBlank_of_isSpace {c : Char} (hc : isSpace c = true) : isBlank c = true :=
  of_isSpace (by decide) hc

theorem reads_plain {s : List Char} (h : ∀ c ∈ s, isPlain c = true) (rest : List Char) :
    Reads (s ++ rest) (s.map Token.char) rest := by
  induction s with
  | nil => exact .nil rest
  | cons c s ih =>
    exact .cons (next?_of_isPlain (h c List.mem_cons_self) _)
      (ih fun d hd => h d (List.mem_cons_of_mem c hd))

namespace Filler

theorem reads (x : Filler) (rest : List Char) : Reads (x.text ++ rest) x.tokens rest := by
  cases x with
  | blank c h => exact .single (next?_of_isPlain (isPlain_of_isSpace h) rest)
  | block body h =>
    apply Reads.single
    simp [text, next?, blockComment_body h]
  | slashes body h =>
    apply Reads.cons (m := '\n' :: rest) _ (.single rfl)
    simp [text, next?, lineComment_body h]
  | hash body h noBracket =>
    apply Reads.cons (m := '\n' :: rest) _ (.single rfl)
    have hash : ∀ r, body ++ '\n' :: rest = '[' :: r → False := by
      intro r hr
      cases body with
      | nil => cases hr
      | cons c body => exact noBracket (by rw [(List.cons.inj hr).1]; rfl)
    simp [text, next?.eq_5 _ hash, lineComment_body h]

theorem isSignificant_of_mem {x : Filler} {t : Token} (h : t ∈ x.tokens) :
    t.isSignificant = false := by
  cases x with
  | blank c hc =>
    obtain rfl := List.mem_singleton.1 h
    simpa [Token.isSignificant] using hc
  | block body hb =>
    obtain rfl := List.mem_singleton.1 h
    rfl
  | slashes | hash =>
    rcases List.mem_cons.1 h with rfl | h
    · rfl
    · obtain rfl := List.mem_singleton.1 h
      rfl

theorem whole_flatMap (xs : List Filler) : Whole (xs.flatMap tokens) := by
  apply Whole.flat
  intro t ht
  obtain ⟨x, -, hx⟩ := List.mem_flatMap.1 ht
  exact isFlat_of_not_isSignificant (isSignificant_of_mem hx)

theorem any_flatMap (xs : List Filler) :
    (xs.flatMap tokens).any Token.isSignificant = false := by
  rw [List.any_eq_false]
  intro t ht
  obtain ⟨x, -, hx⟩ := List.mem_flatMap.1 ht
  simp [isSignificant_of_mem hx]

end Filler

/-! ## Operands -/

/-- A letter, a digit, an underscore or the mark of a variable. -/
def isBare (c : Char) : Bool :=
  c.isAlphanum || c == '_' || c == '$'

/-- What an argument says. -/
inductive Operand where
  /-- A text between quotation marks, with what has to be escaped in it escaped. -/
  | quoted (style : QuoteStyle) (text : List Char) (h : style.Takes text)
  /-- The name of a variable or a constant, or a number. -/
  | word (letters : List Char) (ne : letters ≠ []) (bare : letters.all isBare = true)
  /-- A literal with any body. -/
  | literal (style : QuoteStyle) (body : List Char) (h : Body style.mark body)

namespace Operand

def text : Operand → List Char
  | quoted style text _ => style.mark :: (style.write text ++ [style.mark])
  | word letters _ _ => letters
  | literal style body _ => style.mark :: (body ++ [style.mark])

def tokens : Operand → List Token
  | quoted style text _ => [.literal style.mark (style.write text)]
  | word letters _ _ => letters.map .char
  | literal style body _ => [.literal style.mark body]

/-- What an operand stands for: the text that was quoted, or else what was written, without the
quotation marks of a literal. -/
def value : Operand → List Char
  | quoted _ text _ => text
  | word letters _ _ => letters
  | literal _ body _ => body

end Operand

theorem isBare_bounds {c : Char} (h : isBare c = true) : c.toNat < 128 := by
  have hval : c.val.toNat = c.toNat := rfl
  unfold isBare Char.isAlphanum Char.isAlpha Char.isUpper Char.isLower Char.isDigit at h
  simp only [Bool.or_eq_true, Bool.and_eq_true, decide_eq_true_eq, beq_iff_eq,
    UInt32.le_iff_toNat_le, hval, ge_iff_le] at h
  rcases h with (((h | h) | h) | rfl) | rfl
  · exact Nat.lt_of_le_of_lt h.2 (by decide)
  · exact Nat.lt_of_le_of_lt h.2 (by decide)
  · exact Nat.lt_of_le_of_lt h.2 (by decide)
  · decide
  · decide

/-- What reading needs to know of the characters of a word. -/
structure WordChar (c : Char) : Prop where
  plain : isPlain c = true
  flat : (Token.char c).isFlat = true
  notSpace : isSpace c = false
  notBlank : isBlank c = false

theorem WordChar.of_isBare {c : Char} (h : isBare c = true) : WordChar c := by
  have each : ∀ n < 128, isBare (Char.ofNat n) = true →
      isPlain (Char.ofNat n) = true ∧ (Token.char (Char.ofNat n)).isFlat = true ∧
        isSpace (Char.ofNat n) = false ∧ isBlank (Char.ofNat n) = false := by
    decide
  have here := each c.toNat (isBare_bounds h)
  rw [Char.ofNat_toNat] at here
  obtain ⟨plain, flat, notSpace, notBlank⟩ := here h
  exact ⟨plain, flat, notSpace, notBlank⟩

theorem WordChar.of_mem {letters : List Char} (bare : letters.all isBare = true) {c : Char}
    (hc : c ∈ letters) : WordChar c :=
  .of_isBare (List.all_eq_true.1 bare c hc)

theorem isBlank_mark (style : QuoteStyle) : isBlank style.mark = false := by
  cases style <;> rfl

namespace Operand

theorem reads (x : Operand) (rest : List Char) : Reads (x.text ++ rest) x.tokens rest := by
  cases x with
  | quoted style text h =>
    apply Reads.single
    simpa [Operand.text] using next?_literal (body_write h) rest
  | word letters ne bare =>
    exact reads_plain (fun c hc => (WordChar.of_mem bare hc).plain) rest
  | literal style body h =>
    apply Reads.single
    simpa [Operand.text] using next?_literal h rest

theorem tokens_ne_nil (x : Operand) : x.tokens ≠ [] := by
  cases x with
  | quoted | literal => exact List.cons_ne_nil _ _
  | word letters ne bare => simpa [tokens] using ne

theorem isFlat_of_mem {x : Operand} {t : Token} (h : t ∈ x.tokens) : t.isFlat = true := by
  cases x with
  | quoted | literal =>
    obtain rfl := List.mem_singleton.1 h
    rfl
  | word letters ne bare =>
    obtain ⟨c, hc, rfl⟩ := List.mem_map.1 h
    exact (WordChar.of_mem bare hc).flat

theorem isSignificant_of_mem {x : Operand} {t : Token} (h : t ∈ x.tokens) :
    t.isSignificant = true := by
  cases x with
  | quoted | literal =>
    obtain rfl := List.mem_singleton.1 h
    rfl
  | word letters ne bare =>
    obtain ⟨c, hc, rfl⟩ := List.mem_map.1 h
    simp [Token.isSignificant, (WordChar.of_mem bare hc).notSpace]

/-- An operand begins and ends with something that is no blank and no parenthesis. -/
theorem ends_of_text (x : Operand) :
    (∃ c r, x.text = c :: r ∧ isBlank c = false ∧ c ≠ '(') ∧
      ∃ r c, x.text = r ++ [c] ∧ isBlank c = false := by
  have mark (style : QuoteStyle) : style.mark ≠ '(' := by
    cases style <;> decide
  cases x with
  | quoted style text h =>
    exact ⟨⟨_, _, rfl, isBlank_mark style, mark style⟩,
      ⟨style.mark :: style.write text, style.mark, rfl, isBlank_mark style⟩⟩
  | literal style body h =>
    exact ⟨⟨_, _, rfl, isBlank_mark style, mark style⟩,
      ⟨style.mark :: body, style.mark, rfl, isBlank_mark style⟩⟩
  | word letters ne bare =>
    constructor
    · obtain ⟨c, r, rfl⟩ := List.exists_cons_of_ne_nil ne
      have hc := WordChar.of_mem bare List.mem_cons_self
      refine ⟨c, r, rfl, hc.notBlank, ?_⟩
      rintro rfl
      cases hc.flat
    · obtain ⟨r, c, rfl⟩ := (List.eq_nil_or_concat letters).resolve_left ne
      have hc : WordChar c := .of_mem bare (by simp)
      exact ⟨r, c, by simp [text], hc.notBlank⟩

end Operand

/-! ## Arguments -/

/-- ASCII blanks. -/
structure Blanks where
  text : List Char
  allSpace : text.all isSpace = true

theorem Blanks.isSpace (s : Blanks) {c : Char} (hc : c ∈ s.text) : isSpace c = true :=
  List.all_eq_true.1 s.allSpace c hc

/-- An argument and what stands around it. -/
structure Argument where
  before : List Filler
  operand : Operand
  /-- The blanks inside the parentheses around the operand, if it has them. -/
  wrapping : Option (Blanks × Blanks)
  after : List Filler

namespace Argument

/-- The argument without what stands around it. -/
def core (a : Argument) : List Char :=
  match a.wrapping with
  | none => a.operand.text
  | some (left, right) => '(' :: (left.text ++ a.operand.text ++ right.text ++ [')'])

/-- The tokens of an operand and the blanks around it. -/
def insideTokens (left : Blanks) (x : Operand) (right : Blanks) : List Token :=
  left.text.map .char ++ x.tokens ++ right.text.map .char

/-- The tokens of an argument without what stands around it. -/
def coreTokens (a : Argument) : List Token :=
  match a.wrapping with
  | none => a.operand.tokens
  | some (left, right) => .char '(' :: (insideTokens left a.operand right ++ [.char ')'])

def text (a : Argument) : List Char :=
  a.before.flatMap Filler.text ++ a.core ++ a.after.flatMap Filler.text

def tokens (a : Argument) : List Token :=
  a.before.flatMap Filler.tokens ++ a.coreTokens ++ a.after.flatMap Filler.tokens

theorem reads_inside (left : Blanks) (x : Operand) (right : Blanks) (rest : List Char) :
    Reads (left.text ++ x.text ++ right.text ++ rest) (insideTokens left x right) rest := by
  have blanks (s : Blanks) (m : List Char) : Reads (s.text ++ m) (s.text.map .char) m :=
    reads_plain (fun c hc => isPlain_of_isSpace (s.isSpace hc)) m
  have all := ((blanks left _).append (x.reads _)).append (blanks right rest)
  simpa [insideTokens] using all

theorem reads_core (a : Argument) (rest : List Char) :
    Reads (a.core ++ rest) a.coreTokens rest := by
  unfold core coreTokens
  split
  · exact a.operand.reads rest
  · rename_i left right _
    have close : Reads (')' :: rest) [.char ')'] rest := .single rfl
    have inside := (reads_inside left a.operand right (')' :: rest)).append close
    simpa using Reads.cons (s := '(' :: _) rfl inside

theorem reads (a : Argument) (rest : List Char) : Reads (a.text ++ rest) a.tokens rest := by
  have before := Reads.flatMap Filler.reads a.before
    (a.core ++ (a.after.flatMap Filler.text ++ rest))
  have all := (before.append (a.reads_core _)).append (Reads.flatMap Filler.reads a.after rest)
  simpa [text, tokens] using all

/-- The tokens inside parentheses around an operand neither cut nor nest. -/
theorem isFlat_of_mem_inside {left right : Blanks} {x : Operand} {t : Token}
    (h : t ∈ insideTokens left x right) : t.isFlat = true := by
  have blanks (s : Blanks) (hs : t ∈ s.text.map Token.char) : t.isFlat = true := by
    obtain ⟨c, hc, rfl⟩ := List.mem_map.1 hs
    exact isFlat_of_isSpace (s.isSpace hc)
  simp only [insideTokens, List.mem_append] at h
  rcases h with (h | h) | h
  · exact blanks left h
  · exact Operand.isFlat_of_mem h
  · exact blanks right h

theorem whole_coreTokens (a : Argument) : Whole a.coreTokens := by
  unfold coreTokens
  split
  · exact .flat fun t ht => Operand.isFlat_of_mem ht
  · exact .wrap fun t ht => isFlat_of_mem_inside ht

theorem whole_tokens (a : Argument) : Whole a.tokens :=
  ((Filler.whole_flatMap a.before).append a.whole_coreTokens).append (Filler.whole_flatMap a.after)

theorem text_coreTokens (a : Argument) : a.coreTokens.flatMap Token.text = a.core := by
  simpa using (a.reads_core []).text.symm

theorem isSignificant_of_end {a : Argument} {t : Token}
    (h : a.coreTokens.head? = some t ∨ a.coreTokens.getLast? = some t) :
    t.isSignificant = true := by
  unfold coreTokens at h
  split at h
  · rcases h with h | h
    · exact Operand.isSignificant_of_mem (List.mem_of_head? h)
    · exact Operand.isSignificant_of_mem (List.mem_of_getLast? h)
  · rcases h with h | h
    · cases h
      rfl
    · rw [← List.cons_append, List.getLast?_concat] at h
      cases h
      rfl

theorem coreTokens_ne_nil (a : Argument) : a.coreTokens ≠ [] := by
  unfold coreTokens
  split
  · exact a.operand.tokens_ne_nil
  · exact List.cons_ne_nil _ _

/-- An argument says what it says without what stands around it. -/
theorem span_tokens (a : Argument) : span a.tokens = a.core := by
  rw [tokens, span_trim (Filler.any_flatMap a.before) (Filler.any_flatMap a.after),
    span_eq_text (fun _ h => isSignificant_of_end (.inl h))
      (fun _ h => isSignificant_of_end (.inr h)), text_coreTokens]

theorem any_tokens (a : Argument) : a.tokens.any Token.isSignificant = true := by
  obtain ⟨t, ts, ht⟩ := List.exists_cons_of_ne_nil a.coreTokens_ne_nil
  have hsig : t.isSignificant = true := isSignificant_of_end (.inl (by rw [ht]; rfl))
  simp [tokens, ht, hsig]

theorem closeParen?_inside (left : Blanks) (x : Operand) (right : Blanks) :
    closeParen? (left.text ++ x.text ++ right.text ++ [')']) =
      some (left.text ++ x.text ++ right.text, []) := by
  rw [closeParen?_eq_some_iff]
  refine ⟨insideTokens left x right, ?_, reads_inside left x right [')'], ?_⟩
  · simpa using (reads_inside left x right []).text
  · have flat : nest 0 (insideTokens left x right ++ []) = nest 0 [] :=
      nest_flat (fun _ ht => isFlat_of_mem_inside ht) 0 []
    simpa [nest] using flat

/-- Parentheses around an operand are taken off. -/
theorem unwrap_core (a : Argument) : unwrap a.core = a.operand.text := by
  obtain ⟨⟨c, r, hc, notc, notParen⟩, last⟩ := a.operand.ends_of_text
  unfold core
  split
  · rw [hc, unwrap]
    rintro _ ⟨⟩
    exact notParen rfl
  · rename_i left right hw
    have blank (s : Blanks) (d : Char) (hd : d ∈ s.text) : isBlank d = true :=
      isBlank_of_isSpace (s.isSpace hd)
    rw [unwrap, closeParen?_inside]
    exact trimBlanks_append (blank left) (blank right) ⟨c, r, hc, notc⟩ last

end Argument

/-! ## Argument lists -/

/-- Arguments with commas between them, and maybe one more after the last. -/
structure ArgumentList where
  init : List Argument
  last : Argument
  /-- What follows the comma after the last argument, if there is that comma. -/
  trailing : Option (List Filler)

namespace ArgumentList

def args (l : ArgumentList) : List Argument :=
  l.init ++ [l.last]

def text (l : ArgumentList) : List Char :=
  l.init.flatMap (fun a => a.text ++ [',']) ++ l.last.text ++
    l.trailing.elim [] fun after => ',' :: after.flatMap Filler.text

def tokens (l : ArgumentList) : List Token :=
  l.init.flatMap (fun a => a.tokens ++ [.char ',']) ++ l.last.tokens ++
    l.trailing.elim [] fun after => .char ',' :: after.flatMap Filler.tokens

theorem reads (l : ArgumentList) (rest : List Char) : Reads (l.text ++ rest) l.tokens rest := by
  have comma (m : List Char) : Reads (',' :: m) [.char ','] m := .single rfl
  have argument (a : Argument) (m : List Char) :
      Reads (a.text ++ [','] ++ m) (a.tokens ++ [.char ',']) m := by
    rw [List.append_assoc]
    exact (a.reads _).append (comma m)
  have trailing : Reads ((l.trailing.elim [] fun after => ',' :: after.flatMap Filler.text) ++ rest)
      (l.trailing.elim [] fun after => .char ',' :: after.flatMap Filler.tokens) rest := by
    cases l.trailing with
    | none => exact .nil rest
    | some after => exact (comma _).append (Reads.flatMap Filler.reads after rest)
  have all := ((Reads.flatMap argument l.init _).append (l.last.reads _)).append trailing
  simpa [text, tokens] using all

theorem pieces_init (init : List Argument) (ts : List Token) :
    pieces 0 (init.flatMap (fun a => a.tokens ++ [.char ',']) ++ ts) =
      init.map Argument.tokens ++ pieces 0 ts := by
  induction init with
  | nil => rfl
  | cons a init ih =>
    simp only [List.flatMap_cons, List.append_assoc, List.cons_append, List.nil_append] at ih ⊢
    rw [a.whole_tokens.pieces_comma, ih, List.map_cons, List.cons_append]

theorem nest_init (init : List Argument) (ts : List Token) :
    nest 0 (init.flatMap (fun a => a.tokens ++ [.char ',']) ++ ts) = nest 0 ts := by
  induction init with
  | nil => rfl
  | cons a init ih =>
    simp only [List.flatMap_cons, List.append_assoc, List.cons_append, List.nil_append] at ih ⊢
    rw [a.whole_tokens.nest_append, ← ih]
    rfl

theorem nest_tokens (l : ArgumentList) : nest 0 l.tokens = some 0 := by
  rw [tokens, List.append_assoc, nest_init, l.last.whole_tokens.nest_append]
  cases l.trailing with
  | none => rfl
  | some after =>
    have fillers : nest 0 (after.flatMap Filler.tokens) = nest 0 [] := by
      simpa using (Filler.whole_flatMap after).nest_append 0 []
    exact fillers

/-- A parenthesis after a written list closes the one before it. -/
theorem closeParen?_text (l : ArgumentList) (rest : List Char) :
    closeParen? (l.text ++ ')' :: rest) = some (l.text, rest) := by
  rw [closeParen?_eq_some_iff]
  refine ⟨l.tokens, ?_, l.reads _, l.nest_tokens⟩
  simpa using (l.reads []).text

/-- A written list is read as its arguments, each without what stands around it. -/
theorem arguments_text (l : ArgumentList) : arguments l.text = l.args.map Argument.core := by
  have read : Source.tokens l.text = l.tokens := by
    have all := (l.reads []).tokens
    rwa [List.append_nil, tokens_nil, List.append_nil] at all
  have spans (as : List Argument) : (as.map Argument.tokens).map span = as.map Argument.core := by
    rw [List.map_map]
    exact List.map_congr_left fun a _ => a.span_tokens
  rw [arguments_eq, read, tokens, List.append_assoc, pieces_init, ← spans]
  cases l.trailing with
  | none =>
    rw [Option.elim_none, List.append_nil, l.last.whole_tokens.pieces_eq, args, List.map_append]
    apply argumentsOf_eq_map
    intro p hp
    rw [List.getLast?_concat] at hp
    cases hp
    exact l.last.any_tokens
  | some after =>
    rw [Option.elim_some, l.last.whole_tokens.pieces_comma, (Filler.whole_flatMap after).pieces_eq,
      ← List.singleton_append, ← List.append_assoc, args, List.map_append]
    exact argumentsOf_concat_blank _ (Filler.any_flatMap after)

end ArgumentList

end PotExtract.Source
