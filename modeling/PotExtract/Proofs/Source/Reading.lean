import PotExtract.Source.Parens

/-!
# Reading token by token

`Reads s ts rest` says that the text `s` begins with the tokens `ts` and goes
on with `rest`. A search for a closing parenthesis is such a reading in which
the parentheses balance:

* `Reads.text`, `Reads.tokens`: the text and the tokens that a reading passes;
* `Reads.unique`: up to one place, a text is read in one way;
* `Begins`: what the first token of a text is read from;
* `next?_append`, `Reads.extend`: text added at the end changes no token
  before the last;
* `nest`: the depth of parentheses after some tokens;
* `closeParen?_eq_some_iff`: the partner of a parenthesis.
-/

namespace PotExtract.Source

/-- The tokens that begin a text, and what follows them. -/
inductive Reads : List Char → List Token → List Char → Prop where
  | nil (s : List Char) : Reads s [] s
  | cons {s m rest : List Char} {t : Token} {ts : List Token} (first : next? s = some (t, m))
      (more : Reads m ts rest) : Reads s (t :: ts) rest

namespace Reads

theorem single {s rest : List Char} {t : Token} (h : next? s = some (t, rest)) :
    Reads s [t] rest :=
  .cons h (.nil rest)

@[simp] theorem nil_iff {s rest : List Char} : Reads s [] rest ↔ s = rest := by
  constructor
  · rintro ⟨⟩
    rfl
  · rintro rfl
    exact .nil _

theorem cons_iff {s rest : List Char} {t : Token} {ts : List Token} :
    Reads s (t :: ts) rest ↔ ∃ m, next? s = some (t, m) ∧ Reads m ts rest := by
  constructor
  · rintro (_ | ⟨first, more⟩)
    exact ⟨_, first, more⟩
  · rintro ⟨m, first, more⟩
    exact .cons first more

theorem append {s m rest : List Char} {ts us : List Token} (first : Reads s ts m)
    (second : Reads m us rest) : Reads s (ts ++ us) rest := by
  induction first with
  | nil => exact second
  | cons first _ ih => exact .cons first (ih second)

theorem append_iff {s rest : List Char} {ts us : List Token} :
    Reads s (ts ++ us) rest ↔ ∃ m, Reads s ts m ∧ Reads m us rest := by
  constructor
  · intro h
    induction ts generalizing s with
    | nil => exact ⟨s, .nil s, h⟩
    | cons t ts ih =>
      obtain ⟨m, first, more⟩ := cons_iff.1 h
      obtain ⟨n, hts, hus⟩ := ih more
      exact ⟨n, .cons first hts, hus⟩
  · rintro ⟨m, first, second⟩
    exact first.append second

/-- A reading passes exactly the text of its tokens. -/
theorem text {s rest : List Char} {ts : List Token} (h : Reads s ts rest) :
    s = ts.flatMap Token.text ++ rest := by
  induction h with
  | nil => rfl
  | cons first _ ih => rw [← text_next? first, ih, List.flatMap_cons, List.append_assoc]

theorem flatMap {α : Type} {write : α → List Char} {ts : α → List Token}
    (h : ∀ x rest, Reads (write x ++ rest) (ts x) rest) (xs : List α) (rest : List Char) :
    Reads (xs.flatMap write ++ rest) (xs.flatMap ts) rest := by
  induction xs with
  | nil => exact .nil rest
  | cons x xs ih =>
    rw [List.flatMap_cons, List.flatMap_cons, List.append_assoc]
    exact (h x _).append ih

theorem tokens {s rest : List Char} {ts : List Token} (h : Reads s ts rest) :
    tokens s = ts ++ Source.tokens rest := by
  induction h with
  | nil => rfl
  | cons first _ ih =>
    rw [Source.tokens]
    split <;> simp_all

/-- Up to one place, a text is read in one way. -/
theorem unique {s rest : List Char} {ts us : List Token} (h : Reads s ts rest)
    (h' : Reads s us rest) : ts = us := by
  have both := h.tokens.symm.trans h'.tokens
  exact List.append_cancel_right both

end Reads

theorem tokens_nil : tokens [] = [] := by
  rw [tokens]
  rfl

/-! ## Text added at the end -/

/-- A search that stopped within a text stops there also when the text goes on, if it looks at
two characters at most. -/
theorem splitBefore_extend {stop : List Char → Bool}
    (look : ∀ c d r x, stop (c :: d :: r ++ x) = stop (c :: d :: r))
    (keep : ∀ s x, stop s = true → stop (s ++ x) = true)
    {seen s x : List Char} (h : (splitBefore stop seen s).2 ≠ []) :
    splitBefore stop seen (s ++ x) =
      ((splitBefore stop seen s).1, (splitBefore stop seen s).2 ++ x) := by
  induction s generalizing seen with
  | nil => simp [splitBefore] at h
  | cons c r ih =>
    cases hc : stop (c :: r) with
    | true =>
      have hx := keep _ x hc
      rw [List.cons_append] at hx
      simp [splitBefore, hc, hx]
    | false =>
      simp only [splitBefore, hc, Bool.false_eq_true, ↓reduceIte] at h ⊢
      cases r with
      | nil => simp [splitBefore] at h
      | cons d r =>
        have hx := look c d r x
        simp only [hc, List.cons_append] at hx
        rw [← ih h]
        simp [splitBefore, hx]

theorem closesBlock_iff {s : List Char} : closesBlock s = true ↔ ['*', '/'] <+: s := by
  fun_cases closesBlock s with
  | case1 r => simp
  | case2 s hne =>
    simp only [Bool.false_eq_true, false_iff]
    rintro ⟨r, rfl⟩
    exact hne r rfl

theorem endsLine_iff {s : List Char} :
    endsLine s = true ↔ ['\n'] <+: s ∨ ['?', '>'] <+: s := by
  fun_cases endsLine s with
  | case1 r => simp
  | case2 r => simp
  | case3 s hfeed hleave =>
    simp only [Bool.false_eq_true, false_iff]
    rintro (⟨r, rfl⟩ | ⟨r, rfl⟩)
    · exact hfeed r rfl
    · exact hleave r rfl

theorem closesBlock_look (c d : Char) (r x : List Char) :
    closesBlock (c :: d :: r ++ x) = closesBlock (c :: d :: r) := by
  rw [Bool.eq_iff_iff, closesBlock_iff, closesBlock_iff]
  simp [List.cons_prefix_cons]

theorem endsLine_look (c d : Char) (r x : List Char) :
    endsLine (c :: d :: r ++ x) = endsLine (c :: d :: r) := by
  rw [Bool.eq_iff_iff, endsLine_iff, endsLine_iff]
  simp [List.cons_prefix_cons]

theorem closesBlock_keep (s x : List Char) (h : closesBlock s = true) :
    closesBlock (s ++ x) = true :=
  closesBlock_iff.2 ((closesBlock_iff.1 h).trans (List.prefix_append s x))

theorem endsLine_keep (s x : List Char) (h : endsLine s = true) : endsLine (s ++ x) = true :=
  endsLine_iff.2 ((endsLine_iff.1 h).imp (·.trans (List.prefix_append s x))
    (·.trans (List.prefix_append s x)))

theorem ne_backslash {quote : Char} (hq : isQuote quote = true) : quote ≠ '\\' := by
  rintro rfl
  cases hq

theorem closeQuote_extend {quote : Char} {seen s body rest : List Char} (x : List Char)
    (hq : isQuote quote = true) (h : closeQuote quote seen s = some (body, rest)) :
    closeQuote quote seen (s ++ x) = some (body, rest ++ x) := by
  have hne := ne_backslash hq
  fun_induction closeQuote quote seen s with
  | case1 => simp at h
  | case2 seen c r ih => simpa [closeQuote] using ih h
  | case3 seen r _ =>
    obtain ⟨rfl, rfl⟩ := Prod.mk.inj (Option.some.inj h)
    simp [closeQuote, hne]
  | case4 seen c r single hc ih =>
    have hback : c ≠ '\\' := by
      rintro rfl
      cases r with
      | nil => simp [closeQuote] at h
      | cons d r => exact single d r rfl rfl
    simpa [closeQuote, hc, hback] using ih h

theorem lineComment_extend {mark r : List Char} (x : List Char)
    (h : (lineComment mark r).2 ≠ []) :
    lineComment mark (r ++ x) = ((lineComment mark r).1, (lineComment mark r).2 ++ x) := by
  simp only [lineComment] at h ⊢
  rw [splitBefore_extend endsLine_look endsLine_keep h]

theorem blockComment_extend {r : List Char} (x : List Char) (h : (blockComment r).2 ≠ []) :
    blockComment (r ++ x) = ((blockComment r).1, (blockComment r).2 ++ x) := by
  simp only [blockComment] at h ⊢
  have long : 2 ≤ (splitBefore closesBlock [] r).2.length := by
    apply Nat.le_of_not_lt
    intro hshort
    exact h (List.drop_eq_nil_of_le (by omega))
  have hne : (splitBefore closesBlock [] r).2 ≠ [] := by
    intro hnil
    simp [hnil] at long
  rw [splitBefore_extend closesBlock_look closesBlock_keep hne]
  simp only [List.take_append_of_le_length long, List.drop_append_of_le_length long]

theorem quoted_extend {quote : Char} {r : List Char} (x : List Char) (hq : isQuote quote = true)
    (h : (quoted quote r).2 ≠ []) :
    quoted quote (r ++ x) = ((quoted quote r).1, (quoted quote r).2 ++ x) := by
  cases hr : closeQuote quote [] r with
  | none => simp [quoted, hr] at h
  | some p => simp [quoted, hr, closeQuote_extend x hq hr]

theorem next?_quote {c : Char} (hq : isQuote c = true) (r : List Char) :
    next? (c :: r) = some (quoted c r) := by
  simp only [isQuote, Bool.or_eq_true, beq_iff_eq] at hq
  rcases hq with rfl | rfl <;> rfl

/-- A character that opens nothing is a token of its own. -/
theorem next?_plain {c : Char} (hslash : c ≠ '/') (hhash : c ≠ '#') (hq : isQuote c = false)
    (r : List Char) : next? (c :: r) = some (.char c, r) := by
  rw [next?.eq_6 _ _ (by simp [hslash]) (by simp [hslash]) (by simp [hhash]) (by simp [hhash]), hq]
  rfl

/-- What the first token of a text is read from. -/
inductive Begins : List Char → Token × List Char → Prop where
  | block {r : List Char} {p : Token × List Char} (h : blockComment r = p) :
      Begins ('/' :: '*' :: r) p
  | slashes {r : List Char} {p : Token × List Char} (h : lineComment ['/', '/'] r = p) :
      Begins ('/' :: '/' :: r) p
  | hash {r : List Char} {p : Token × List Char} (other : r.head? ≠ some '[')
      (h : lineComment ['#'] r = p) : Begins ('#' :: r) p
  | quote {c : Char} {r : List Char} {p : Token × List Char} (hq : isQuote c = true)
      (h : quoted c r = p) : Begins (c :: r) p
  | char {c : Char} {r : List Char} (hq : isQuote c = false)
      (slash : c = '/' → ∀ d ∈ r.head?, d ∉ ['*', '/']) (hash : c = '#' → r.head? = some '[') :
      Begins (c :: r) (.char c, r)

theorem next?_eq_some_iff {s : List Char} {p : Token × List Char} :
    next? s = some p ↔ Begins s p := by
  have bracket {r : List Char} : r.head? = some '[' ↔ ∃ m, r = '[' :: m := List.head?_eq_some_iff
  constructor
  · intro h
    fun_cases next? s with
    | case1 => cases h
    | case2 r => exact .block (Option.some.inj h)
    | case3 r => exact .slashes (Option.some.inj h)
    | case4 r =>
      cases h
      exact .char rfl (by simp) (by simp)
    | case5 r hr =>
      rw [next?.eq_5 _ hr] at h
      exact .hash (fun h' => (bracket.1 h').elim hr) (Option.some.inj h)
    | case6 c r hblock hline hattr hhash hq =>
      rw [next?_quote hq] at h
      exact .quote hq (Option.some.inj h)
    | case7 c r hblock hline hattr hhash hq =>
      rw [next?.eq_6 _ _ hblock hline hattr hhash, if_neg hq] at h
      cases h
      refine .char (by simpa using hq) ?_ fun hc => (hhash hc).elim
      intro hc d hd
      obtain ⟨m, rfl⟩ := List.head?_eq_some_iff.1 hd
      simp only [List.mem_cons, List.not_mem_nil, or_false]
      rintro (rfl | rfl)
      · exact hblock m hc rfl
      · exact hline m hc rfl
  · intro h
    cases h with
    | block h => rw [← h, next?]
    | slashes h => rw [← h, next?]
    | hash other h => rw [next?.eq_5 _ fun m hm => other (bracket.2 ⟨m, hm⟩), h]
    | quote hq h => rw [next?_quote hq, h]
    | @char c r hq slash hash =>
      by_cases hc : c = '#'
      · obtain ⟨m, rfl⟩ := bracket.1 (hash hc)
        rw [hc, next?]
      · have notBlock : ∀ m, c = '/' → r ≠ '*' :: m := by
          rintro m hs rfl
          exact slash hs '*' rfl (by simp)
        have notLine : ∀ m, c = '/' → r ≠ '/' :: m := by
          rintro m hs rfl
          exact slash hs '/' rfl (by simp)
        rw [next?.eq_6 _ _ notBlock notLine (fun _ h => (hc h).elim) hc, hq]
        rfl

/-- A token that something follows stays the same when the text goes on. -/
theorem next?_append {s : List Char} {p : Token × List Char} (x : List Char)
    (h : next? s = some p) (hrest : p.2 ≠ []) : next? (s ++ x) = some (p.1, p.2 ++ x) := by
  rw [next?_eq_some_iff] at h ⊢
  cases h with
  | block h =>
    subst h
    exact .block (blockComment_extend x hrest)
  | slashes h =>
    subst h
    exact .slashes (lineComment_extend x hrest)
  | @hash r p other h =>
    subst h
    refine .hash ?_ (lineComment_extend x hrest)
    cases r with
    | nil => simp [lineComment, splitBefore] at hrest
    | cons d r => exact other
  | quote hq h =>
    subst h
    exact .quote hq (quoted_extend x hq hrest)
  | @char c r hq slash hash =>
    cases r with
    | nil => exact absurd rfl hrest
    | cons d r => exact .char hq slash hash

theorem Reads.length_le {s rest : List Char} {ts : List Token} (h : Reads s ts rest) :
    rest.length ≤ s.length := by
  rw [h.text, List.length_append]
  omega

/-- A reading that something follows stays the same when the text goes on. -/
theorem Reads.extend {s rest : List Char} {ts : List Token} (x : List Char) (h : Reads s ts rest)
    (hrest : rest ≠ []) : Reads (s ++ x) ts (rest ++ x) := by
  induction h with
  | nil => exact .nil _
  | @cons s m rest t ts first more ih =>
    have hm : m ≠ [] := by
      rintro rfl
      exact hrest (List.eq_nil_of_length_eq_zero (Nat.le_zero.1 more.length_le))
    exact .cons (next?_append x first hm) (ih hrest)

/-! ## The partner of a parenthesis -/

/-- The depth of parentheses after some tokens. There is none past a literal that nothing closes
or a parenthesis that closes nothing. -/
def nest (depth : Nat) : List Token → Option Nat
  | [] => some depth
  | t :: ts =>
    match t with
    | .unclosed _ => none
    | .char '(' => nest (depth + 1) ts
    | .char ')' =>
      match depth with
      | 0 => none
      | outer + 1 => nest outer ts
    | _ => nest depth ts

theorem nest_cons {t : Token} (unclosed : ∀ text, t ≠ .unclosed text) (opens : t ≠ .char '(')
    (closes : t ≠ .char ')') (depth : Nat) (ts : List Token) :
    nest depth (t :: ts) = nest depth ts := by
  cases t with
  | unclosed text => exact absurd rfl (unclosed text)
  | comment | literal => rfl
  | char c => simp only [nest]

theorem next?_close (r : List Char) : next? (')' :: r) = some (.char ')', r) := rfl

/-- The readings up to a closing parenthesis, past their first token. -/
theorem reads_close_step {depth inner : Nat} {seen inside : List Token} {s m rest : List Char}
    {t : Token} (first : next? s = some (t, m)) (step : ∀ ts, nest depth (t :: ts) = nest inner ts)
    (goes : t = .char ')' → depth ≠ 0) :
    (∃ ts, inside = (t :: seen).reverse ++ ts ∧ Reads m ts (')' :: rest) ∧ nest inner ts = some 0) ↔
      ∃ ts, inside = seen.reverse ++ ts ∧ Reads s ts (')' :: rest) ∧ nest depth ts = some 0 := by
  constructor
  · rintro ⟨ts, hinside, hreads, hnest⟩
    exact ⟨t :: ts, by simp [hinside], .cons first hreads, by rw [step, hnest]⟩
  · rintro ⟨_ | ⟨u, ts⟩, hinside, hreads, hnest⟩
    · obtain rfl := Reads.nil_iff.1 hreads
      rw [next?_close] at first
      cases first
      exact absurd (Option.some.inj hnest) (goes rfl)
    · obtain ⟨n, hu, hreads⟩ := Reads.cons_iff.1 hreads
      rw [first] at hu
      cases hu
      exact ⟨ts, by simp [hinside], hreads, by rw [← step, hnest]⟩

/-- A search ends at the first parenthesis that closes more than was opened. -/
theorem insideParens_eq_some_iff {depth : Nat} {seen inside : List Token} {s rest : List Char} :
    insideParens depth seen s = some (inside, rest) ↔
      ∃ ts, inside = seen.reverse ++ ts ∧ Reads s ts (')' :: rest) ∧ nest depth ts = some 0 := by
  fun_induction insideParens depth seen s with
  | case1 depth seen s hs =>
    simp only [reduceCtorEq, false_iff]
    rintro ⟨ts, -, hreads, -⟩
    rw [next?_eq_none.1 hs] at hreads
    simpa using hreads.length_le
  | case2 depth seen s text m hs =>
    simp only [reduceCtorEq, false_iff]
    rintro ⟨_ | ⟨u, ts⟩, -, hreads, hnest⟩
    · obtain rfl := Reads.nil_iff.1 hreads
      cases hs
    · obtain ⟨n, hu, -⟩ := Reads.cons_iff.1 hreads
      rw [hs] at hu
      cases hu
      cases hnest
  | case3 depth seen s m hs ih =>
    exact ih.trans (reads_close_step hs (fun _ => rfl) (by simp))
  | case4 seen s m hs =>
    constructor
    · intro h
      cases h
      exact ⟨[], by simp, Reads.nil_iff.2 (text_next? hs).symm, rfl⟩
    · rintro ⟨_ | ⟨u, ts⟩, hinside, hreads, hnest⟩
      · obtain rfl := Reads.nil_iff.1 hreads
        cases hs
        simp [hinside]
      · obtain ⟨n, hu, -⟩ := Reads.cons_iff.1 hreads
        rw [hs] at hu
        cases hu
        cases hnest
  | case5 seen s m hs outer ih =>
    exact ih.trans (reads_close_step hs (fun _ => rfl) (by simp))
  | case6 depth seen s t m unclosed opens closes hs ih =>
    have step := nest_cons unclosed opens closes depth
    refine ih.trans (reads_close_step hs step ?_)
    rintro rfl
    exact (closes rfl).elim

/-- The text up to the partner of a parenthesis is one whose own parentheses balance. -/
theorem closeParen?_eq_some_iff {s inside rest : List Char} :
    closeParen? s = some (inside, rest) ↔
      ∃ ts, inside = ts.flatMap Token.text ∧ Reads s ts (')' :: rest) ∧ nest 0 ts = some 0 := by
  simp only [closeParen?, Option.map_eq_some_iff, Prod.exists, Prod.mk.injEq,
    insideParens_eq_some_iff]
  constructor
  · rintro ⟨_, _, ⟨ts, hts, hreads, hnest⟩, rfl, rfl⟩
    exact ⟨ts, by rw [hts, List.reverse_nil, List.nil_append], hreads, hnest⟩
  · rintro ⟨ts, rfl, hreads, hnest⟩
    exact ⟨ts, rest, ⟨ts, rfl, hreads, hnest⟩, rfl, rfl⟩

/-- Text added after the partner of a parenthesis does not change what is inside. -/
theorem closeParen?_append {s inside rest : List Char} (x : List Char)
    (h : closeParen? s = some (inside, rest)) :
    closeParen? (s ++ x) = some (inside, rest ++ x) := by
  obtain ⟨ts, rfl, hreads, hnest⟩ := closeParen?_eq_some_iff.1 h
  exact closeParen?_eq_some_iff.2 ⟨ts, rfl, hreads.extend x (List.cons_ne_nil _ _), hnest⟩

end PotExtract.Source
