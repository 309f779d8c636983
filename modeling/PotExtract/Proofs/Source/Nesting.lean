import PotExtract.Proofs.Checked.Parens
import PotExtract.Proofs.Source.Gaps

/-!
# Parentheses within parentheses

Parentheses are counted over the tokens that a search passes, so that those
in comments and literals do not count.

* `IsBalanced`: no parenthesis closes before it is opened, and all are closed;
* `nest_eq_some_iff`: the depth after some tokens, by counting;
* `Passes`: the tokens between a parenthesis and its partner;
* `Passes.exists_inner`: a parenthesis between the two has its partner there;
* `exists_nest_of_insideParens`: what a search meets that finds no partner;
* `parens_nested`: searches from all the parentheses of a text.
-/

namespace PotExtract.Source

open Checked (dropBytes_append dropBytes_eq_some_iff getElem?_utf8 lead_eq_iff
  matchingParen?_append)

/-- How many parentheses some tokens open. -/
def opened (ts : List Token) : Nat :=
  ts.count (.char '(')

/-- How many parentheses some tokens close. -/
def closed (ts : List Token) : Nat :=
  ts.count (.char ')')

@[simp] theorem opened_nil : opened [] = 0 := rfl

@[simp] theorem closed_nil : closed [] = 0 := rfl

@[simp] theorem opened_cons (t : Token) (ts : List Token) :
    opened (t :: ts) = opened ts + if t = .char '(' then 1 else 0 := by
  simp [opened, List.count_cons]

@[simp] theorem closed_cons (t : Token) (ts : List Token) :
    closed (t :: ts) = closed ts + if t = .char ')' then 1 else 0 := by
  simp [closed, List.count_cons]

/-- No parenthesis closes before it is opened, and all that are opened are closed. -/
structure IsBalanced (ts : List Token) : Prop where
  opens_first : ∀ us, us <+: ts → closed us ≤ opened us
  closes_all : closed ts = opened ts

theorem forall_prefix_cons {α : Type} {p : List α → Prop} {a : α} {l : List α} :
    (∀ m, m <+: a :: l → p m) ↔ p [] ∧ ∀ m, m <+: l → p (a :: m) := by
  constructor
  · intro h
    exact ⟨h [] List.nil_prefix, fun m hm => h _ (List.cons_prefix_cons.2 ⟨rfl, hm⟩)⟩
  · rintro ⟨nil, cons⟩ m hm
    rcases List.prefix_cons_iff.1 hm with rfl | ⟨rest, rfl, hrest⟩
    · exact nil
    · exact cons rest hrest

/-- The depth after some tokens is what they open less what they close. -/
theorem nest_eq_some_iff {depth d : Nat} {ts : List Token} :
    nest depth ts = some d ↔ (∀ text, .unclosed text ∉ ts) ∧
      (∀ us, us <+: ts → closed us ≤ depth + opened us) ∧
        depth + opened ts = d + closed ts := by
  fun_induction nest depth ts with
  | case1 depth => simp
  | case2 depth ts text =>
    simp only [reduceCtorEq, false_iff]
    rintro ⟨none, -, -⟩
    exact none text List.mem_cons_self
  | case3 depth ts ih =>
    rw [ih, forall_prefix_cons]
    simp [Nat.add_assoc, Nat.add_comm 1]
  | case4 ts =>
    simp only [reduceCtorEq, false_iff, forall_prefix_cons]
    rintro ⟨-, ⟨-, first⟩, -⟩
    simpa using first [] List.nil_prefix
  | case5 ts outer ih =>
    rw [ih, forall_prefix_cons]
    simp [Nat.add_right_comm _ 1, ← Nat.add_assoc]
  | case6 depth t ts unclosed opens closes ih =>
    have notOpen : t ≠ .char '(' := opens
    have notClose : t ≠ .char ')' := closes
    have notUnclosed (text : List Char) : .unclosed text ≠ t := fun same => unclosed text same.symm
    rw [ih, forall_prefix_cons]
    simp [notOpen, notClose, notUnclosed]

theorem isBalanced_of_nest {ts : List Token} (h : nest 0 ts = some 0) : IsBalanced ts := by
  obtain ⟨-, before, whole⟩ := nest_eq_some_iff.1 h
  exact ⟨fun us hus => by simpa using before us hus, by omega⟩

/-- Depths are counted from any depth alike. -/
theorem nest_add {depth d : Nat} {ts : List Token} (h : nest depth ts = some d) (more : Nat) :
    nest (depth + more) ts = some (d + more) := by
  obtain ⟨none, before, whole⟩ := nest_eq_some_iff.1 h
  refine nest_eq_some_iff.2 ⟨none, fun us hus => ?_, by omega⟩
  have := before us hus
  omega

/-- Past a depth that is not reached again, the depth was one less right after some closing
parenthesis. -/
theorem exists_close {inner outer d : Nat} {ts : List Token}
    (h : nest (inner + 1 + outer) ts = some d) (le : d ≤ outer) :
    ∃ us vs, ts = us ++ .char ')' :: vs ∧ nest inner us = some 0 := by
  induction ts generalizing inner with
  | nil =>
    obtain rfl := Option.some.inj h
    omega
  | cons t ts ih =>
    by_cases opens : t = .char '('
    · rw [opens, nest, Nat.add_right_comm] at h
      obtain ⟨us, vs, rfl, hus⟩ := ih h
      exact ⟨.char '(' :: us, vs, by rw [opens]; rfl, hus⟩
    · by_cases closes : t = .char ')'
      · cases inner with
        | zero => exact ⟨[], ts, by rw [closes]; rfl, rfl⟩
        | succ inner =>
          rw [closes, show inner + 1 + 1 + outer = inner + 1 + outer + 1 by omega, nest] at h
          obtain ⟨us, vs, rfl, hus⟩ := ih h
          exact ⟨.char ')' :: us, vs, by rw [closes]; rfl, hus⟩
      · have step := nest_cons (t := t) (fun text same => by rw [same] at h; cases h) opens closes
        rw [step] at h
        obtain ⟨us, vs, rfl, hus⟩ := ih h
        exact ⟨t :: us, vs, rfl, by rw [step, hus]⟩

/-! ## What a search passes -/

/-- The byte offset after the parenthesis at `opens` and some tokens that follow it. -/
def placeAfter (opens : Nat) (us : List Token) : Nat :=
  opens + 1 + byteSize (us.flatMap Token.text)

theorem byteSize_placeAfter (before : List Char) (us : List Token) :
    byteSize (before ++ '(' :: us.flatMap Token.text) = placeAfter (byteSize before) us := by
  rw [byteSize_append, byteSize_cons, Checked.utf8Size_of_ascii (c := '(') (by decide),
    placeAfter, Nat.add_assoc]

/-- A search from the parenthesis at the byte offset `opens` passes some tokens and ends at a
parenthesis at `closes`. -/
structure Passes (text : List Char) (opens closes : Nat) (ts : List Token) : Prop where
  exists_split : ∃ before after,
    text = before ++ '(' :: (ts.flatMap Token.text ++ ')' :: after) ∧ byteSize before = opens ∧
      insideParens 0 [] (ts.flatMap Token.text ++ ')' :: after) = some (ts, after)
  closes_eq : closes = placeAfter opens ts

theorem placeAfter_char {c : Char} (hc : c.toNat < 128) (opens : Nat) (us vs : List Token) :
    placeAfter opens (us ++ .char c :: vs) = placeAfter (placeAfter opens us) vs := by
  simp [placeAfter, Checked.utf8Size_of_ascii hc]
  omega

theorem lt_placeAfter (opens : Nat) (us : List Token) : opens < placeAfter opens us := by
  rw [placeAfter]
  omega

theorem insideParens_nil_iff {s rest : List Char} {ts : List Token} :
    insideParens 0 [] s = some (ts, rest) ↔ Reads s ts (')' :: rest) ∧ nest 0 ts = some 0 := by
  rw [insideParens_eq_some_iff]
  simp

/-- What follows a parenthesis up to its partner, as the search reads it. -/
theorem passes_iff {text : List Char} {opens closes : Nat} {ts : List Token} :
    Passes text opens closes ts ↔
      ∃ before r after, text = before ++ '(' :: r ∧ byteSize before = opens ∧
        Reads r ts (')' :: after) ∧ nest 0 ts = some 0 ∧ closes = placeAfter opens ts := by
  constructor
  · rintro ⟨⟨before, after, whole, size, passed⟩, place⟩
    obtain ⟨reads, closed⟩ := insideParens_nil_iff.1 passed
    exact ⟨before, _, after, whole, size, reads, closed, place⟩
  · rintro ⟨before, r, after, whole, size, reads, closed, place⟩
    have text_eq := reads.text
    exact ⟨⟨before, after, text_eq ▸ whole, size,
      insideParens_nil_iff.2 ⟨text_eq ▸ reads, closed⟩⟩, place⟩

theorem matchingParen?_eq_some_iff {text : List Char} {opens closes : Nat} :
    matchingParen? text opens = some closes ↔ ∃ ts, Passes text opens closes ts := by
  constructor
  · intro h
    rw [matchingParen?] at h
    split at h
    · rename_i r opening
      obtain ⟨before, rfl, size⟩ := dropBytes_eq_some_iff.1 opening
      obtain ⟨⟨inside, after⟩, found, rfl⟩ := Option.map_eq_some_iff.1 h
      obtain ⟨ts, rfl, reads, closed⟩ := closeParen?_eq_some_iff.1 found
      exact ⟨ts, passes_iff.2 ⟨before, r, after, rfl, size, reads, closed, rfl⟩⟩
    · cases h
  · rintro ⟨ts, h⟩
    obtain ⟨before, r, after, rfl, rfl, reads, closed, rfl⟩ := passes_iff.1 h
    rw [matchingParen?_append rfl, closeParen?_eq_some_iff.2 ⟨ts, rfl, reads, closed⟩]
    rfl

namespace Passes

variable {text : List Char} {opens closes : Nat} {ts us vs : List Token}

/-- A parenthesis between another and its partner has its own partner there. -/
theorem exists_inner (h : Passes text opens closes (us ++ .char '(' :: vs)) :
    ∃ ws xs c, vs = ws ++ .char ')' :: xs ∧ Passes text (placeAfter opens us) c ws ∧
      c < closes := by
  obtain ⟨before, r, after, rfl, rfl, reads, closed, rfl⟩ := passes_iff.1 h
  rw [nest_append, Option.bind_eq_some_iff] at closed
  obtain ⟨d, -, deeper⟩ := closed
  have deep : nest (0 + 1 + d) vs = some 0 := by rwa [Nat.zero_add, Nat.add_comm]
  obtain ⟨ws, xs, rfl, hws⟩ := exists_close deep (Nat.zero_le d)
  obtain ⟨m, first, rest⟩ := Reads.append_iff.1 reads
  obtain ⟨n, here, rest⟩ := Reads.cons_iff.1 rest
  obtain ⟨k, within, rest⟩ := Reads.append_iff.1 rest
  obtain ⟨l, partner, -⟩ := Reads.cons_iff.1 rest
  refine ⟨ws, xs, placeAfter (placeAfter (byteSize before) us) ws, rfl, passes_iff.2 ?_, ?_⟩
  · refine ⟨before ++ '(' :: us.flatMap Token.text, n, l, ?_, byteSize_placeAfter before us, ?_,
      hws, rfl⟩
    · rw [first.text, ← text_next? here]
      simp
    · rwa [← text_next? partner] at within
  · rw [placeAfter_char (by decide), placeAfter_char (by decide)]
    exact lt_placeAfter _ xs

theorem partner (h : Passes text opens closes ts) : matchingParen? text opens = some closes :=
  matchingParen?_eq_some_iff.2 ⟨ts, h⟩

/-- Two parentheses one after the other do not have one partner. -/
theorem partner_ne {zs : List Token}
    (h : Passes text opens closes (us ++ .char '(' :: (zs ++ .char '(' :: vs))) :
    matchingParen? text (placeAfter opens us) ≠
      matchingParen? text (placeAfter opens (us ++ .char '(' :: zs)) := by
  obtain ⟨ws, xs, c, split, first, -⟩ := h.exists_inner
  intro same
  rw [first.partner, placeAfter_char (by decide)] at same
  rcases List.append_eq_append_iff.1 split with ⟨between, rfl, later⟩ | ⟨between, rfl, later⟩
  · -- The second stands between the first and its partner, and so does its own partner.
    cases between with
    | nil => cases later
    | cons t ys =>
      obtain rfl := (List.cons.inj later).1
      obtain ⟨_, _, d, -, second, lt⟩ := first.exists_inner
      rw [second.partner, Option.some.injEq] at same
      omega
  · -- The second stands after the partner of the first, and its own partner is after it.
    cases between with
    | nil => cases later
    | cons t ys =>
      obtain rfl := (List.cons.inj later).1
      obtain ⟨us', second⟩ := matchingParen?_eq_some_iff.1 same.symm
      have after := second.closes_eq
      rw [placeAfter_char (by decide), ← first.closes_eq] at after
      have := lt_placeAfter c ys
      have := lt_placeAfter (placeAfter c ys) us'
      omega

/-- Parentheses with one partner are one. -/
theorem eq_of_partner {us' vs' : List Token} (h : Passes text opens closes ts)
    (hts : ts = us ++ .char '(' :: vs) (hts' : ts = us' ++ .char '(' :: vs')
    (same : matchingParen? text (placeAfter opens us) =
      matchingParen? text (placeAfter opens us')) : us = us' := by
  rcases List.append_eq_append_iff.1 (hts.symm.trans hts') with ⟨zs, rfl, later⟩ | ⟨zs, rfl, later⟩
  · cases zs with
    | nil => exact (List.append_nil us).symm
    | cons t zs =>
      obtain ⟨rfl, rfl⟩ := List.cons.inj later
      exact absurd same (partner_ne (hts ▸ h))
  · cases zs with
    | nil => exact List.append_nil us'
    | cons t zs =>
      obtain ⟨rfl, rfl⟩ := List.cons.inj later
      exact absurd same.symm (partner_ne (hts' ▸ h))

end Passes

/-! ## Parentheses that stay open -/

/-- A search that finds no partner reads on to the end of the text or to a literal that nothing
closes. -/
theorem exists_nest_of_insideParens {depth : Nat} {seen : List Token} {s : List Char}
    (h : insideParens depth seen s = none) :
    ∃ us d, nest depth us = some d ∧
      (tokens s = us ∨ ∃ text, tokens s = us ++ [.unclosed text]) := by
  fun_induction insideParens depth seen s with
  | case1 depth seen s none =>
    rw [next?_eq_none.1 none]
    exact ⟨[], depth, rfl, .inl tokens_nil⟩
  | case2 depth seen s text m first =>
    refine ⟨[], depth, rfl, .inr ⟨text, ?_⟩⟩
    rw [(Reads.single first).tokens, rest_of_unclosed first, tokens_nil]
    rfl
  | case3 depth seen s m first ih =>
    obtain ⟨us, d, nested, outcome⟩ := ih h
    exact ⟨.char '(' :: us, d, nested, by simpa [(Reads.single first).tokens] using outcome⟩
  | case4 => cases h
  | case5 seen s m first outer ih =>
    obtain ⟨us, d, nested, outcome⟩ := ih h
    exact ⟨.char ')' :: us, d, nested, by simpa [(Reads.single first).tokens] using outcome⟩
  | case6 depth seen s t m unclosed opens closes first ih =>
    obtain ⟨us, d, nested, outcome⟩ := ih h
    refine ⟨t :: us, d, ?_, by simpa [(Reads.single first).tokens] using outcome⟩
    rw [nest_cons (fun text same => unclosed text same) opens closes, nested]

/-- A parenthesis, some tokens, and a parenthesis that closes the first. -/
def enclosed (ts : List Token) : List Token :=
  .char '(' :: (ts ++ [.char ')'])

/-- If the parentheses among some tokens balance, then those around them close last. -/
theorem isBalanced_enclosed {ts : List Token} (h : nest 0 ts = some 0) :
    IsBalanced (enclosed ts) ∧
      ∀ us, us <+: enclosed ts → IsBalanced us → us = [] ∨ us = enclosed ts := by
  constructor
  · apply isBalanced_of_nest
    have inside : nest 1 ts = some 1 := by simpa using nest_add h 1
    rw [enclosed, nest, nest_append, inside]
    rfl
  · intro us hus balanced
    rcases List.prefix_cons_iff.1 hus with rfl | ⟨vs, rfl, hvs⟩
    · exact .inl rfl
    · rcases List.prefix_concat_iff.1 hvs with rfl | hvs
      · exact .inr rfl
      · have within := (isBalanced_of_nest h).opens_first vs hvs
        have all := balanced.closes_all
        simp only [closed_cons, opened_cons, Token.char.injEq, Char.reduceEq, if_false, if_true]
          at all
        omega

/-! ## All searches of a text -/

/-- The search from the parenthesis at `opens` passes some tokens and ends at `closes`. The
parentheses from the one to the other balance, and no sooner. Those that the search passes have
their partners between the two, each its own. -/
structure Nests (text : List Char) (opens closes : Nat) (ts : List Token) : Prop where
  passes : Passes text opens closes ts
  lt : opens < closes
  open_at : (utf8 text)[opens]? = some '('.toUInt8
  close_at : (utf8 text)[closes]? = some ')'.toUInt8
  balanced : IsBalanced (enclosed ts)
  no_sooner : ∀ us, us <+: enclosed ts → IsBalanced us → us = [] ∨ us = enclosed ts
  exists_partner : ∀ us vs, ts = us ++ .char '(' :: vs →
    ∃ c, matchingParen? text (placeAfter opens us) = some c ∧ placeAfter opens us < c ∧ c < closes
  partners_differ : ∀ us vs us' vs', ts = us ++ .char '(' :: vs → ts = us' ++ .char '(' :: vs' →
    placeAfter opens us ≠ placeAfter opens us' →
    matchingParen? text (placeAfter opens us) ≠ matchingParen? text (placeAfter opens us')

/-- The parenthesis at `opens` stays open: from it on, more is opened than closed up to a literal
that is never closed, or up to the end of the text. -/
structure StaysOpen (text : List Char) (opens : Nat) (r : List Char) (us : List Token) : Prop where
  rest : dropBytes opens text = some ('(' :: r)
  no_literal : ∀ literal, .unclosed literal ∉ us
  stays : ∀ vs, vs <+: us → closed (.char '(' :: vs) < opened (.char '(' :: vs)
  ends : tokens r = us ∨ ∃ literal, tokens r = us ++ [.unclosed literal]

theorem getElem?_ascii {s pre r : List Char} {c : Char} (hs : s = pre ++ c :: r)
    (hc : c.toNat < 128) : (utf8 s)[byteSize pre]? = some c.toUInt8 := by
  rw [getElem?_utf8 hs]
  exact congrArg some ((lead_eq_iff hc).2 rfl)

theorem Passes.nests {text : List Char} {opens closes : Nat} {ts : List Token}
    (h : Passes text opens closes ts) : Nests text opens closes ts := by
  obtain ⟨before, r, after, rfl, rfl, reads, closed, rfl⟩ := passes_iff.1 h
  obtain ⟨balanced, first⟩ := isBalanced_enclosed closed
  refine ⟨h, lt_placeAfter _ _, getElem?_ascii rfl (by decide), ?_, balanced, first, ?_, ?_⟩
  · have split : before ++ '(' :: r = (before ++ '(' :: ts.flatMap Token.text) ++ ')' :: after := by
      rw [reads.text]
      simp
    rw [← byteSize_placeAfter]
    exact getElem?_ascii split (by decide)
  · rintro us vs rfl
    obtain ⟨ws, xs, c, -, inner, lt⟩ := h.exists_inner
    exact ⟨c, inner.partner, by rw [inner.closes_eq]; exact lt_placeAfter _ _, lt⟩
  · intro us vs us' vs' hts hts' apart same
    exact apart (by rw [h.eq_of_partner hts hts' same])

/-- **Matching parentheses are well nested.** A parenthesis with a partner encloses parentheses
that balance and have their partners within. One without a partner stays open up to the end of the
text, or up to a literal that is never closed. -/
theorem parens_nested (text : List Char) (opens : Nat) :
    (∀ closes, matchingParen? text opens = some closes → ∃ ts, Nests text opens closes ts) ∧
      ((utf8 text)[opens]? = some '('.toUInt8 → matchingParen? text opens = none →
        ∃ r us, StaysOpen text opens r us) := by
  constructor
  · intro closes found
    obtain ⟨ts, passes⟩ := matchingParen?_eq_some_iff.1 found
    exact ⟨ts, passes.nests⟩
  · intro opening none
    obtain ⟨r, rest⟩ := Checked.dropBytes_open_iff.1 opening
    obtain ⟨pre, whole, size⟩ := dropBytes_eq_some_iff.1 rest
    rw [← size, matchingParen?_append whole, Option.map_eq_none_iff, closeParen?,
      Option.map_eq_none_iff] at none
    obtain ⟨us, d, nested, ends⟩ := exists_nest_of_insideParens none
    obtain ⟨noLiteral, before, -⟩ := nest_eq_some_iff.1 nested
    refine ⟨r, us, rest, noLiteral, fun vs hvs => ?_, ends⟩
    have := before vs hvs
    simp only [closed_cons, opened_cons, Token.char.injEq, Char.reduceEq, if_false, if_true]
    omega

/-- A call in a call, with parentheses in a literal and in a comment, and one that stays open. -/
theorem parens_nested_calls :
    let text := "f(g(')', 1) /* ( */) + h('".toList
    matchingParen? text 1 = some 19 ∧ (∃ ts, Nests text 1 19 ts) ∧
      matchingParen? text 24 = none ∧ ∃ r us, StaysOpen text 24 r us := by
  intro text
  have found : matchingParen? text 1 = some 19 := by decide +kernel
  have opening : (utf8 text)[24]? = some '('.toUInt8 := by decide +kernel
  have missing : matchingParen? text 24 = none := by decide +kernel
  exact ⟨found, (parens_nested text 1).1 19 found, missing,
    (parens_nested text 24).2 opening missing⟩

end PotExtract.Source
