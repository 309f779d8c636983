import PotExtract.Proofs.Source.Literal

/-!
# What a token sees of the text after it

A token is told by its own text and by at most two characters after it. So
what follows a reading can be replaced, as long as it neither goes on with the
last token nor ends a comment.

* `next?_char_iff`: when a character is a token of its own;
* `lineComment_replace`, `blockComment_replace`, `next?_replace`: what follows
  a token, replaced;
* `Reads.replace`: what follows a reading, replaced;
* `Reads.cut`: what follows a reading, cut off.
-/

namespace PotExtract.Source

/-- After a token that the first text follows, the second may follow instead. The first neither
ends a line comment nor makes a number sign open an attribute; the second does not go on with a
slash. -/
structure Replaces (x y : List Char) : Prop where
  first : ∃ c r, x = c :: r ∧ c ∉ ['\n', '?', '>', '[']
  second : ∀ c ∈ y.head?, c ∉ ['*', '/']

theorem Replaces.ne_nil {x y : List Char} (h : Replaces x y) (r : List Char) : r ++ x ≠ [] := by
  obtain ⟨c, m, rfl, -⟩ := h.first
  exact List.append_ne_nil_of_right_ne_nil r (List.cons_ne_nil c m)

/-! ## Comments -/

theorem singleton_prefix_iff (d : Char) (r : List Char) : [d] <+: r ↔ r.head? = some d := by
  cases r with
  | nil => simp
  | cons c r => simp [List.cons_prefix_cons, eq_comm]

theorem closesBlock_cons {c : Char} {r : List Char} :
    closesBlock (c :: r) = true ↔ c = '*' ∧ r.head? = some '/' := by
  rw [closesBlock_iff, List.cons_prefix_cons, singleton_prefix_iff, eq_comm (a := '*')]

theorem endsLine_cons {c : Char} {r : List Char} :
    endsLine (c :: r) = true ↔ c = '\n' ∨ c = '?' ∧ r.head? = some '>' := by
  rw [endsLine_iff, List.cons_prefix_cons, List.cons_prefix_cons, singleton_prefix_iff,
    eq_comm (a := '\n'), eq_comm (a := '?')]
  simp

theorem stop_splitBefore {stop : List Char → Bool} {seen s : List Char}
    (h : (splitBefore stop seen s).2 ≠ []) : stop (splitBefore stop seen s).2 = true := by
  induction s generalizing seen with
  | nil => simp [splitBefore] at h
  | cons c r ih =>
    unfold splitBefore at h ⊢
    split at h
    · rwa [if_pos ‹_›]
    · rw [if_neg ‹_›]
      exact ih h

/-- A search that stops before a text, and looks at two characters at most, stops there whatever
comes after that text. -/
theorem splitBefore_replace {stop : List Char → Bool}
    (look : ∀ c d r x, stop (c :: d :: r ++ x) = stop (c :: d :: r))
    (keep : ∀ s x, stop s = true → stop (s ++ x) = true)
    {seen body rest x : List Char} (y : List Char) (hstop : stop rest = true) (ne : rest ≠ [])
    (h : splitBefore stop seen (body ++ (rest ++ x)) = (seen.reverse ++ body, rest ++ x)) :
    splitBefore stop seen (body ++ (rest ++ y)) = (seen.reverse ++ body, rest ++ y) := by
  induction body generalizing seen with
  | nil =>
    obtain ⟨d, r, rfl⟩ := List.exists_cons_of_ne_nil ne
    have here := keep _ y hstop
    rw [List.cons_append] at here
    simp [splitBefore, here]
  | cons c body ih =>
    obtain ⟨d, r, hr⟩ := List.exists_cons_of_ne_nil (List.append_ne_nil_of_right_ne_nil body ne)
    -- The search looks at this character and the next, and both come before what is replaced.
    have same : stop (c :: (body ++ (rest ++ y))) = stop (c :: (body ++ (rest ++ x))) := by
      rw [← List.append_assoc, ← List.append_assoc, hr]
      exact (look c d r y).trans (look c d r x).symm
    cases hc : stop (c :: (body ++ (rest ++ x))) with
    | true => simp [splitBefore, hc] at h
    | false =>
      simp only [List.cons_append, splitBefore, hc, Bool.false_eq_true, ↓reduceIte] at h
      have next : splitBefore stop (c :: seen) (body ++ (rest ++ y)) =
          ((c :: seen).reverse ++ body, rest ++ y) := ih (by simpa using h)
      simpa [splitBefore, same, hc] using next

theorem endsLine_of_append {r x y : List Char} (hxy : Replaces x y)
    (h : endsLine (r ++ x) = true) : endsLine r = true := by
  obtain ⟨d, m, rfl, hd⟩ := hxy.first
  simp only [List.mem_cons, List.not_mem_nil, or_false, not_or] at hd
  obtain ⟨notFeed, notMark, notAngle, -⟩ := hd
  rw [endsLine_iff] at h ⊢
  rcases r with _ | ⟨a, _ | ⟨b, r⟩⟩
  · simp [List.cons_prefix_cons, Ne.symm notFeed, Ne.symm notMark] at h
  · simpa [List.cons_prefix_cons, Ne.symm notAngle] using h
  · simpa [List.cons_prefix_cons] using h

theorem endsLine_of_append_ne_nil {r x : List Char} (ne : r ≠ []) (hx : '>' ∉ x.head?)
    (h : endsLine (r ++ x) = true) : endsLine r = true := by
  obtain ⟨c, r, rfl⟩ := List.exists_cons_of_ne_nil ne
  rw [List.cons_append, endsLine_cons] at h
  rw [endsLine_cons]
  refine h.imp_right fun ⟨mark, angle⟩ => ⟨mark, ?_⟩
  cases r with
  | nil => exact absurd angle hx
  | cons d r => exact angle

/-- What follows a line comment, replaced. The comment ends before something of its own. -/
theorem lineComment_replace {mark s text r x : List Char} (y : List Char) (ne : r ++ x ≠ [])
    (own : endsLine (r ++ x) = true → endsLine r = true)
    (h : lineComment mark s = (.comment text, r ++ x)) :
    ∃ body, s = body ++ (r ++ x) ∧ text = mark ++ body ∧ r ≠ [] ∧
      lineComment mark (body ++ (r ++ y)) = (.comment text, r ++ y) := by
  rcases hp : splitBefore endsLine [] s with ⟨body, rest⟩
  simp only [lineComment, hp, Prod.mk.injEq, Token.comment.injEq] at h
  obtain ⟨rfl, rfl⟩ := h
  have whole : s = body ++ (r ++ x) := by
    simpa [hp] using (splitBefore_append endsLine [] s).symm
  have stops : endsLine r = true := by
    have ends : (splitBefore endsLine [] s).2 ≠ [] := by
      rw [hp]
      exact ne
    have stop := stop_splitBefore ends
    rw [hp] at stop
    exact own stop
  have ne : r ≠ [] := by
    rintro rfl
    cases stops
  rw [whole] at hp
  have next : splitBefore endsLine [] (body ++ (r ++ y)) = ([].reverse ++ body, r ++ y) :=
    splitBefore_replace endsLine_look endsLine_keep y stops ne hp
  refine ⟨body, whole, rfl, ne, ?_⟩
  rw [lineComment, next]
  rfl

theorem blockComment_replace {s text r x : List Char} (y : List Char) (ne : r ++ x ≠ [])
    (h : blockComment s = (.comment text, r ++ x)) :
    ∃ body, text = '/' :: '*' :: (body ++ ['*', '/']) ∧
      blockComment (body ++ '*' :: '/' :: (r ++ y)) = (.comment text, r ++ y) := by
  rcases hp : splitBefore closesBlock [] s with ⟨body, rest⟩
  simp only [blockComment, hp, Prod.mk.injEq, Token.comment.injEq] at h
  obtain ⟨rfl, hrest⟩ := h
  have ends : (splitBefore closesBlock [] s).2 ≠ [] := by
    rw [hp]
    rintro rfl
    exact ne (by simpa using hrest.symm)
  have stops := stop_splitBefore ends
  rw [hp, closesBlock_iff] at stops
  obtain ⟨m, rfl⟩ := stops
  obtain rfl : m = r ++ x := hrest
  have whole : s = body ++ (['*', '/'] ++ r ++ x) := by
    simpa [hp] using (splitBefore_append closesBlock [] s).symm
  rw [whole] at hp
  have closes : closesBlock (['*', '/'] ++ r) = true := rfl
  have next : splitBefore closesBlock [] (body ++ ((['*', '/'] ++ r) ++ y)) =
      ([].reverse ++ body, (['*', '/'] ++ r) ++ y) :=
    splitBefore_replace closesBlock_look closesBlock_keep y closes (List.cons_ne_nil _ _)
      (by simpa using hp)
  refine ⟨body, by simp, ?_⟩
  simp only [List.cons_append, List.nil_append, List.reverse_nil] at next
  simp [blockComment, next]

/-! ## Tokens and readings -/

/-- A character is a token of its own unless it opens a literal or, with what follows, a
comment. -/
theorem next?_char_iff {c : Char} {s : List Char} :
    next? (c :: s) = some (.char c, s) ↔
      isQuote c = false ∧ (c = '/' → ∀ d ∈ s.head?, d ∉ ['*', '/']) ∧
        (c = '#' → s.head? = some '[') := by
  rw [next?_eq_some_iff]
  constructor
  · intro h
    cases h with
    | block h => simp [blockComment] at h
    | slashes h | hash _ h => simp [lineComment] at h
    | quote hq h => cases hr : closeQuote c [] s <;> simp [quoted, hr] at h
    | char hq slash hash => exact ⟨hq, slash, hash⟩
  · rintro ⟨hq, slash, hash⟩
    exact .char hq slash hash

theorem rest_of_unclosed {s text rest : List Char} (h : next? s = some (.unclosed text, rest)) :
    rest = [] := by
  cases next?_eq_some_iff.1 h with
  | block h => simp [blockComment] at h
  | slashes h | hash _ h => simp [lineComment] at h
  | @quote c r _ hq h => cases hr : closeQuote c [] r <;> simp_all [quoted]

theorem exists_cons_of_comment {s text rest : List Char}
    (h : next? s = some (.comment text, rest)) :
    ∃ c r, text = c :: r ∧ (c = '/' ∨ c = '#') := by
  obtain ⟨whole, ne⟩ := text_next?_and_ne_nil h
  obtain ⟨c, r, rfl⟩ : ∃ c r, text = c :: r := List.exists_cons_of_ne_nil ne
  refine ⟨c, r, rfl, ?_⟩
  cases next?_eq_some_iff.1 h with
  | block | slashes => exact .inl (List.cons.inj whole).1
  | hash => exact .inr (List.cons.inj whole).1
  | @quote d m _ hq h => cases hr : closeQuote d [] m <;> simp [quoted, hr] at h

theorem next?_comment_replace {text r x : List Char} (y : List Char) (ne : r ++ x ≠ [])
    (own : endsLine (r ++ x) = true → endsLine r = true)
    (h : next? (text ++ (r ++ x)) = some (.comment text, r ++ x)) :
    next? (text ++ (r ++ y)) = some (.comment text, r ++ y) := by
  generalize text ++ (r ++ x) = s at h
  rw [next?_eq_some_iff] at h ⊢
  cases h with
  | block h =>
    obtain ⟨body, rfl, next⟩ := blockComment_replace y ne h
    simpa using Begins.block next
  | slashes h =>
    obtain ⟨body, -, rfl, -, next⟩ := lineComment_replace y ne own h
    simpa using Begins.slashes next
  | hash other h =>
    obtain ⟨body, rfl, rfl, ne, next⟩ := lineComment_replace y ne own h
    obtain ⟨d, k, hk⟩ := List.exists_cons_of_ne_nil (List.append_ne_nil_of_right_ne_nil body ne)
    have same : (body ++ (r ++ y)).head? = (body ++ (r ++ x)).head? := by
      rw [← List.append_assoc, ← List.append_assoc, hk]
      rfl
    simpa using Begins.hash (same ▸ other) next
  | @quote c m _ hq h => cases hr : closeQuote c [] m <;> simp [quoted, hr] at h

theorem next?_replace {t : Token} {r x y : List Char} (hxy : Replaces x y)
    (h : next? (t.text ++ (r ++ x)) = some (t, r ++ x)) :
    next? (t.text ++ (r ++ y)) = some (t, r ++ y) := by
  cases t with
  | char c =>
    rw [text_char, List.singleton_append, next?_char_iff] at h ⊢
    obtain ⟨hq, slash, hash⟩ := h
    cases r with
    | nil =>
      refine ⟨hq, fun _ => hxy.second, ?_⟩
      intro hc
      obtain ⟨d, m, rfl, hd⟩ := hxy.first
      simp [Option.some.inj (hash hc)] at hd
    | cons d r => exact ⟨hq, slash, hash⟩
  | literal mark body =>
    obtain ⟨hq, hbody, -⟩ := next?_eq_literal_iff.1 h
    exact next?_eq_literal_iff.2 ⟨hq, hbody, by simp⟩
  | unclosed text => exact absurd (rest_of_unclosed h) (hxy.ne_nil r)
  | comment text => exact next?_comment_replace y (hxy.ne_nil r) (endsLine_of_append hxy) h

/-- What follows a token, cut off after `r`. A comment needs something that ends it. -/
theorem next?_cut {t : Token} {r x : List Char} (hx : ∀ c ∈ x.head?, c ∉ ['>', '['])
    (last : r = [] → ∀ text, t ≠ .comment text)
    (h : next? (t.text ++ (r ++ x)) = some (t, r ++ x)) :
    next? (t.text ++ r) = some (t, r) := by
  cases t with
  | char c =>
    rw [text_char, List.singleton_append, next?_char_iff] at h ⊢
    obtain ⟨hq, slash, hash⟩ := h
    cases r with
    | nil => exact ⟨hq, by simp, fun hc => absurd (hash hc) fun bracket => by simp_all⟩
    | cons d r => exact ⟨hq, slash, hash⟩
  | literal mark body =>
    obtain ⟨hq, hbody, -⟩ := next?_eq_literal_iff.1 h
    exact next?_eq_literal_iff.2 ⟨hq, hbody, by simp⟩
  | unclosed text =>
    obtain ⟨rfl, rfl⟩ := List.append_eq_nil_iff.1 (rest_of_unclosed h)
    exact h
  | comment text =>
    have ne : r ≠ [] := by
      rintro rfl
      exact last rfl text rfl
    have own : endsLine (r ++ x) = true → endsLine r = true :=
      endsLine_of_append_ne_nil ne fun angle => by simp_all
    simpa using next?_comment_replace [] (List.append_ne_nil_of_left_ne_nil ne x) own h

namespace Reads

/-- What follows a reading, cut off. -/
theorem cut {s x : List Char} {ts : List Token} (hx : ∀ c ∈ x.head?, c ∉ ['>', '['])
    (last : ∀ text, .comment text ∉ ts.getLast?) (h : Reads s ts x) :
    Reads (ts.flatMap Token.text) ts [] := by
  induction h with
  | nil => exact .nil []
  | @cons s m x t ts first more ih =>
    have here : next? (t.text ++ (ts.flatMap Token.text ++ x)) =
        some (t, ts.flatMap Token.text ++ x) := by
      rw [← more.text, text_next? first, first]
    cases more with
    | nil =>
      refine .cons (next?_cut hx (fun _ text same => ?_) here) (.nil [])
      exact last text (by rw [same]; rfl)
    | @cons _ n _ u us second more =>
      have ne := (text_next?_and_ne_nil second).2
      refine .cons (next?_cut hx (fun none => ?_) here) (ih hx fun text => ?_)
      · exact absurd (List.append_eq_nil_iff.1 none).1 ne
      · rw [List.getLast?_cons_cons] at last
        exact last text

theorem replace {s x y : List Char} {ts : List Token} (hxy : Replaces x y) (h : Reads s ts x) :
    Reads (ts.flatMap Token.text ++ y) ts y := by
  induction h with
  | nil => exact .nil y
  | @cons s m x t ts first more ih =>
    have here : next? (t.text ++ (ts.flatMap Token.text ++ x)) =
        some (t, ts.flatMap Token.text ++ x) := by
      rw [← more.text, text_next? first, first]
    rw [List.flatMap_cons, List.append_assoc]
    exact .cons (next?_replace hxy here) (ih hxy)

end Reads

end PotExtract.Source
