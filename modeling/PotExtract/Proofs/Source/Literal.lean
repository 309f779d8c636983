import PotExtract.Source.Literal
import PotExtract.Proofs.Source.Reading

/-!
# Literals as they are written

* `Body`: what may stand between two quotation marks;
* `next?_eq_literal_iff`, `parse?_eq_some_iff`: a mark, a body and the mark are
  read as a literal, whatever follows, and nothing else is;
* `QuoteStyle.write`: a text with backslashes before what has to be escaped;
* `unescape_write`: a written text is decoded to the text.
-/

namespace PotExtract.Source

/-- Characters other than the mark and the backslash, and pairs of a backslash and any
character. -/
inductive Body (mark : Char) : List Char → Prop where
  | nil : Body mark []
  | plain {c : Char} {r : List Char} (notMark : c ≠ mark) (notBackslash : c ≠ '\\')
      (rest : Body mark r) : Body mark (c :: r)
  | pair {c : Char} {r : List Char} (rest : Body mark r) : Body mark ('\\' :: c :: r)

theorem closeQuote_body {mark : Char} {body : List Char} (hmark : mark ≠ '\\')
    (h : Body mark body) (seen rest : List Char) :
    closeQuote mark seen (body ++ mark :: rest) = some (seen.reverse ++ body, rest) := by
  induction h generalizing seen with
  | nil => simp [closeQuote, hmark]
  | plain notMark notBackslash _ ih => simp [closeQuote, notMark, notBackslash, ih]
  | pair _ ih => simp [closeQuote, ih]

@[simp] theorem isQuote_mark (style : QuoteStyle) : isQuote style.mark = true := by
  cases style <;> rfl

@[simp] theorem ofMark?_mark (style : QuoteStyle) : QuoteStyle.ofMark? style.mark = some style := by
  cases style <;> rfl

theorem next?_literal {style : QuoteStyle} {body : List Char} (h : Body style.mark body)
    (rest : List Char) :
    next? (style.mark :: (body ++ style.mark :: rest)) = some (.literal style.mark body, rest) := by
  have hmark := ne_backslash (isQuote_mark style)
  rw [next?_quote (isQuote_mark style), quoted, closeQuote_body hmark h]
  rfl

theorem parse?_literal {style : QuoteStyle} {body : List Char} (h : Body style.mark body) :
    Literal.parse? (style.mark :: (body ++ [style.mark])) = some ⟨style, body⟩ := by
  rw [Literal.parse?, next?_literal h []]
  simp

theorem exists_body_of_closeQuote {mark : Char} {seen s body rest : List Char}
    (h : closeQuote mark seen s = some (body, rest)) :
    ∃ more, body = seen.reverse ++ more ∧ Body mark more ∧ s = more ++ mark :: rest := by
  fun_induction closeQuote mark seen s with
  | case1 => cases h
  | case2 seen c r ih =>
    obtain ⟨more, rfl, hmore, rfl⟩ := ih h
    exact ⟨'\\' :: c :: more, by simp, .pair hmore, rfl⟩
  | case3 seen r =>
    cases h
    exact ⟨[], by simp, .nil, rfl⟩
  | case4 seen c r single hc ih =>
    obtain ⟨more, rfl, hmore, rfl⟩ := ih h
    have notBackslash : c ≠ '\\' := by
      rintro rfl
      obtain ⟨d, m, hd⟩ := List.exists_cons_of_ne_nil
        (List.append_ne_nil_of_right_ne_nil more (List.cons_ne_nil mark rest))
      exact single d m rfl hd
    exact ⟨c :: more, by simp, .plain hc notBackslash hmore, rfl⟩

theorem closeQuote_eq_some_iff {mark : Char} {s body rest : List Char} (hmark : mark ≠ '\\') :
    closeQuote mark [] s = some (body, rest) ↔ Body mark body ∧ s = body ++ mark :: rest := by
  constructor
  · intro h
    obtain ⟨more, rfl, hmore, rfl⟩ := exists_body_of_closeQuote h
    exact ⟨hmore, rfl⟩
  · rintro ⟨hbody, rfl⟩
    exact closeQuote_body hmark hbody [] rest

/-- A text begins with a literal exactly if it begins with a mark, a body and the mark. -/
theorem next?_eq_literal_iff {mark : Char} {s body rest : List Char} :
    next? s = some (.literal mark body, rest) ↔
      isQuote mark = true ∧ Body mark body ∧ s = mark :: (body ++ mark :: rest) := by
  constructor
  · intro h
    cases next?_eq_some_iff.1 h with
    | block h => simp [blockComment] at h
    | slashes h | hash _ h => simp [lineComment] at h
    | @quote c r _ hq h =>
      cases hr : closeQuote c [] r with
      | none => simp [quoted, hr] at h
      | some p =>
        simp only [quoted, hr, Prod.mk.injEq, Token.literal.injEq] at h
        obtain ⟨⟨rfl, rfl⟩, rfl⟩ := h
        obtain ⟨hbody, rfl⟩ := (closeQuote_eq_some_iff (ne_backslash hq)).1 hr
        exact ⟨hq, hbody, rfl⟩
  · rintro ⟨hq, hbody, rfl⟩
    rw [next?_quote hq, quoted, closeQuote_body (ne_backslash hq) hbody]
    rfl

theorem ofMark?_eq_some {mark : Char} {style : QuoteStyle}
    (h : QuoteStyle.ofMark? mark = some style) : style.mark = mark := by
  unfold QuoteStyle.ofMark? at h
  split at h <;> cases h <;> rfl

theorem parse?_eq_some_iff {s : List Char} {literal : Literal} :
    Literal.parse? s = some literal ↔
      Body literal.style.mark literal.body ∧
        s = literal.style.mark :: (literal.body ++ [literal.style.mark]) := by
  constructor
  · intro h
    unfold Literal.parse? at h
    split at h
    · rename_i mark body hs
      obtain ⟨style, hstyle, rfl⟩ := Option.map_eq_some_iff.1 h
      obtain ⟨-, hbody, rfl⟩ := next?_eq_literal_iff.1 hs
      obtain rfl := ofMark?_eq_some hstyle
      exact ⟨hbody, rfl⟩
    · cases h
  · rintro ⟨hbody, rfl⟩
    exact parse?_literal hbody

/-- A text that begins with no quotation mark is no literal. -/
theorem parse?_plain {c : Char} (hslash : c ≠ '/') (hhash : c ≠ '#') (hq : isQuote c = false)
    (r : List Char) : Literal.parse? (c :: r) = none := by
  rw [Literal.parse?, next?_plain hslash hhash hq]

/-- A text as the body of a literal. -/
def QuoteStyle.write (style : QuoteStyle) (text : List Char) : List Char :=
  text.flatMap fun c => if style.escapes c then ['\\', c] else [c]

theorem QuoteStyle.escapes_mark (style : QuoteStyle) : style.escapes style.mark = true := by
  cases style <;> rfl

/-- A text that a style can write: double quotes have no way to say a backslash. -/
def QuoteStyle.Takes (style : QuoteStyle) (text : List Char) : Prop :=
  style = .double → '\\' ∉ text

theorem QuoteStyle.Takes.tail {style : QuoteStyle} {c : Char} {r : List Char}
    (h : style.Takes (c :: r)) : style.Takes r :=
  fun hd hr => h hd (List.mem_cons_of_mem c hr)

theorem QuoteStyle.Takes.plain {style : QuoteStyle} {c : Char} {r : List Char}
    (h : style.Takes (c :: r)) (hc : style.escapes c = false) : c ≠ style.mark ∧ c ≠ '\\' := by
  constructor
  · rintro rfl
    rw [style.escapes_mark] at hc
    cases hc
  · rintro rfl
    cases style with
    | single => cases hc
    | double => exact h rfl List.mem_cons_self

theorem body_write {style : QuoteStyle} {text : List Char} (h : style.Takes text) :
    Body style.mark (style.write text) := by
  induction text with
  | nil => exact .nil
  | cons c r ih =>
    rw [QuoteStyle.write, List.flatMap_cons]
    cases hc : style.escapes c with
    | true => exact .pair (ih h.tail)
    | false =>
      obtain ⟨notMark, notBackslash⟩ := h.plain hc
      exact .plain notMark notBackslash (ih h.tail)

theorem unescape_write {style : QuoteStyle} {text : List Char} (h : style.Takes text) :
    unescape style (style.write text) = text := by
  induction text with
  | nil => rfl
  | cons c r ih =>
    have more :
        unescape style (r.flatMap fun c => if style.escapes c then ['\\', c] else [c]) = r :=
      ih h.tail
    rw [QuoteStyle.write, List.flatMap_cons]
    cases hc : style.escapes c with
    | true => simp [unescape, hc, more]
    | false =>
      obtain ⟨-, notBackslash⟩ := h.plain hc
      simp [unescape, notBackslash, more]

end PotExtract.Source
