import PotExtract.Source.Arguments
import PotExtract.Proofs.Source.Reading
import Mathlib.Data.List.DropRight

/-!
# Argument lists in two passes

The one pass that reads an argument list does what two would: cut the tokens
at the commas at depth zero, then trim each piece to its significant tokens.

* `pieces`, `span`: the two passes;
* `argumentsFrom_eq`: the one pass, from any state it can be in;
* `arguments_eq`: the arguments of a text;
* `pieces_flat`: tokens that neither cut nor nest stay together.
-/

namespace PotExtract.Source

/-- The tokens between the commas at depth zero. -/
def pieces (depth : Nat) : List Token → List (List Token)
  | [] => [[]]
  | t :: ts =>
    if depth = 0 ∧ t = .char ',' then [] :: pieces 0 ts
    else (pieces (t.depthAfter depth) ts).modifyHead (t :: ·)

/-- The tokens from the first significant one on. -/
def fromFirst (ts : List Token) : List Token :=
  ts.dropWhile fun t => !t.isSignificant

/-- The text from the first significant token to the last. -/
def span (ts : List Token) : List Char :=
  ((fromFirst ts).rdropWhile fun t => !t.isSignificant).flatMap Token.text

/-- The arguments that some pieces hold. The last piece holds none if it says nothing. -/
def argumentsOf : List (List Token) → List (List Char)
  | [] => []
  | [p] => if p.any Token.isSignificant then [span p] else []
  | p :: q :: ps => span p :: argumentsOf (q :: ps)

theorem pieces_ne_nil (depth : Nat) (ts : List Token) : pieces depth ts ≠ [] := by
  induction ts generalizing depth with
  | nil => simp [pieces]
  | cons t ts ih =>
    simp only [pieces]
    split
    · simp
    · obtain ⟨p, ps, h⟩ := List.exists_cons_of_ne_nil (ih (t.depthAfter depth))
      simp [h]

/-! ## Trimming -/

theorem fromFirst_eq_nil {ts : List Token} :
    fromFirst ts = [] ↔ ts.any Token.isSignificant = false := by
  simp [fromFirst]

theorem fromFirst_append {ts : List Token} (us : List Token)
    (h : ts.any Token.isSignificant = true) : fromFirst (ts ++ us) = fromFirst ts ++ us := by
  rw [fromFirst, List.dropWhile_append]
  have hne : (ts.dropWhile fun t => !t.isSignificant).isEmpty = false := by
    rw [List.isEmpty_eq_false_iff]
    exact fun hnil => by simp [fromFirst_eq_nil.1 hnil] at h
  rw [hne]
  rfl

theorem fromFirst_append_of_blank {ts : List Token} (us : List Token)
    (h : ts.any Token.isSignificant = false) : fromFirst (ts ++ us) = fromFirst us := by
  rw [fromFirst, List.dropWhile_append_of_pos (by simpa using h)]
  rfl

theorem any_fromFirst (ts : List Token) :
    (fromFirst ts).any Token.isSignificant = ts.any Token.isSignificant := by
  cases h : ts.any Token.isSignificant with
  | false => rw [fromFirst_eq_nil.2 h, List.any_nil]
  | true =>
    have whole := List.takeWhile_append_dropWhile (p := fun t => !Token.isSignificant t) (l := ts)
    rw [← whole, List.any_append, Bool.or_eq_true] at h
    rcases h with h | h
    · obtain ⟨t, ht, hsig⟩ := List.any_eq_true.1 h
      have := List.mem_takeWhile_imp ht
      simp [hsig] at this
    · exact h

theorem span_eq_nil {ts : List Token} (ne : ∀ t ∈ ts, t.text ≠ []) :
    span ts = [] ↔ ts.any Token.isSignificant = false := by
  constructor
  · intro h
    rw [span, List.flatMap_eq_nil_iff] at h
    have none : (fromFirst ts).rdropWhile (fun t => !t.isSignificant) = [] := by
      rw [List.eq_nil_iff_forall_not_mem]
      intro t ht
      have mem : t ∈ ts := (List.dropWhile_sublist _).mem ((List.rdropWhile_prefix _ _).mem ht)
      exact ne t mem (h t ht)
    rw [List.rdropWhile_eq_nil_iff] at none
    rw [← any_fromFirst, List.any_eq_false]
    intro t ht
    simpa using none t ht
  · intro h
    simp [span, fromFirst_eq_nil.2 h]

theorem span_concat {t : Token} (ts : List Token) (ht : t.isSignificant = true) :
    span (ts ++ [t]) = (fromFirst ts).flatMap Token.text ++ t.text := by
  cases h : ts.any Token.isSignificant with
  | true =>
    rw [span, fromFirst_append [t] h, List.rdropWhile_concat_neg _ _ _ (by simp [ht])]
    simp
  | false =>
    rw [span, fromFirst_append_of_blank [t] h, fromFirst_eq_nil.2 h]
    simp [fromFirst, ht, List.rdropWhile_singleton]

theorem span_concat_blank {t : Token} (ts : List Token) (ht : t.isSignificant = false) :
    span (ts ++ [t]) = span ts := by
  cases h : ts.any Token.isSignificant with
  | true => rw [span, fromFirst_append [t] h, List.rdropWhile_concat_pos _ _ _ (by simp [ht]), span]
  | false =>
    rw [span, span, fromFirst_append_of_blank [t] h, fromFirst_eq_nil.2 h]
    simp [fromFirst, ht]

/-- What some tokens say, with nothing but blanks and comments around it. -/
theorem exists_trim (ts : List Token) :
    ∃ before said after, ts = before ++ (said ++ after) ∧
      (∀ t ∈ before, t.isSignificant = false) ∧ (∀ t ∈ after, t.isSignificant = false) ∧
      (∀ t ∈ said.getLast?, t.isSignificant = true) ∧ span ts = said.flatMap Token.text := by
  let silent : Token → Bool := fun t => !t.isSignificant
  have front := List.takeWhile_append_dropWhile (p := silent) (l := ts)
  have back := List.rdropWhile_append_rtakeWhile (p := silent) (l := fromFirst ts)
  refine ⟨ts.takeWhile silent, (fromFirst ts).rdropWhile silent, (fromFirst ts).rtakeWhile silent,
    by rw [back]; exact front.symm, fun t ht => ?_, fun t ht => ?_, fun t ht => ?_, rfl⟩
  · simpa [silent] using List.mem_takeWhile_imp ht
  · simpa [silent] using List.mem_rtakeWhile_imp ht
  · obtain ⟨ne, rfl⟩ := List.mem_getLast?_eq_getLast ht
    simpa [silent] using List.rdropWhile_last_not silent (fromFirst ts) ne

/-! ## Blanks -/

theorem of_isSpace {p : Char → Bool} (all : [' ', '\t', '\n', '\x0c', '\r'].all p = true) {c : Char}
    (hc : isSpace c = true) : p c = true := by
  apply List.all_eq_true.1 all
  simpa [isSpace, or_assoc] using hc

/-- A token that neither cuts an argument list nor nests in it. -/
def Token.isFlat : Token → Bool
  | .comment _ | .literal _ _ => true
  | .unclosed _ => false
  | .char c => !(c == ',' || c == '(' || c == ')' || c == '[' || c == ']')

theorem isFlat_of_isSpace {c : Char} (hc : isSpace c = true) : (Token.char c).isFlat = true :=
  of_isSpace (p := fun c => (Token.char c).isFlat) (by decide) hc

/-- Blanks and comments neither cut nor nest. -/
theorem isFlat_of_not_isSignificant {t : Token} (ht : t.isSignificant = false) :
    t.isFlat = true := by
  cases t with
  | char c =>
    have hc : isSpace c = true := by simpa [Token.isSignificant] using ht
    exact isFlat_of_isSpace hc
  | comment => rfl
  | literal | unclosed => cases ht

theorem depthAfter_flat {t : Token} (ht : t.isFlat = true) (depth : Nat) :
    t.depthAfter depth = depth := by
  cases t with
  | comment | literal | unclosed => rfl
  | char c => simp_all [Token.isFlat, Token.depthAfter]

/-! ## The one pass -/

/-- The state of the one pass after the tokens `pre` of a piece. -/
structure Passed (pre : List Token) (arg gap : List Char) : Prop where
  ne : ∀ t ∈ pre, t.text ≠ []
  spanned : arg.reverse = span pre
  whole : pre.any Token.isSignificant = true →
    arg.reverse ++ gap.reverse = (fromFirst pre).flatMap Token.text

theorem passed_nil : Passed [] [] [] := ⟨by simp, rfl, by simp⟩

theorem Passed.isEmpty {pre : List Token} {arg gap : List Char} (h : Passed pre arg gap) :
    arg.isEmpty = !pre.any Token.isSignificant := by
  rw [Bool.eq_iff_iff, List.isEmpty_iff, ← List.reverse_eq_nil_iff, h.spanned, span_eq_nil h.ne,
    Bool.not_eq_true']

theorem Passed.significant {pre : List Token} {arg gap : List Char} {t : Token}
    (h : Passed pre arg gap) (ne : t.text ≠ []) (ht : t.isSignificant = true) :
    Passed (pre ++ [t]) (t.text.reverse ++ if arg.isEmpty then [] else gap ++ arg) [] := by
  have hspan : (t.text.reverse ++ if arg.isEmpty then [] else gap ++ arg).reverse =
      span (pre ++ [t]) := by
    rw [span_concat pre ht, h.isEmpty]
    cases hany : pre.any Token.isSignificant with
    | true => simp [← h.whole hany]
    | false => simp [fromFirst_eq_nil.2 hany]
  refine ⟨List.forall_mem_append.2 ⟨h.ne, by simpa using ne⟩, hspan, ?_⟩
  · intro _
    rw [hspan, span_concat pre ht]
    cases hany : pre.any Token.isSignificant with
    | true => simp [fromFirst_append [t] hany]
    | false =>
      rw [fromFirst_append_of_blank [t] hany, fromFirst_eq_nil.2 hany]
      simp [fromFirst, ht]

theorem Passed.blank {pre : List Token} {arg gap : List Char} {t : Token} (h : Passed pre arg gap)
    (ne : t.text ≠ []) (ht : t.isSignificant = false) :
    Passed (pre ++ [t]) arg (t.text.reverse ++ gap) := by
  refine ⟨List.forall_mem_append.2 ⟨h.ne, by simpa using ne⟩, ?_, ?_⟩
  · rw [h.spanned, span_concat_blank pre ht]
  · intro hany
    have before : pre.any Token.isSignificant = true := by simpa [ht] using hany
    rw [fromFirst_append [t] before]
    simp [← h.whole before]

/-- The one pass, from any state, yields what the two passes do. -/
theorem argumentsFrom_eq {depth : Nat} {pre ts : List Token} {arg gap : List Char}
    (h : Passed pre arg gap) (ne : ∀ t ∈ ts, t.text ≠ []) :
    argumentsFrom depth arg gap ts = argumentsOf ((pieces depth ts).modifyHead (pre ++ ·)) := by
  induction ts generalizing depth pre arg gap with
  | nil =>
    simp only [argumentsFrom, pieces, List.modifyHead_cons, List.append_nil, argumentsOf,
      h.isEmpty, h.spanned]
    cases pre.any Token.isSignificant <;> rfl
  | cons t ts ih =>
    have net : t.text ≠ [] := ne t List.mem_cons_self
    have nets : ∀ u ∈ ts, u.text ≠ [] := fun u hu => ne u (List.mem_cons_of_mem t hu)
    obtain ⟨p, ps, hps⟩ := List.exists_cons_of_ne_nil (pieces_ne_nil (t.depthAfter depth) ts)
    by_cases hsep : depth = 0 ∧ t = .char ','
    · obtain ⟨q, qs, hqs⟩ := List.exists_cons_of_ne_nil (pieces_ne_nil 0 ts)
      have more : argumentsFrom 0 [] [] ts = argumentsOf ((pieces 0 ts).modifyHead ([] ++ ·)) :=
        ih passed_nil nets
      simp only [argumentsFrom, hsep, and_self, ↓reduceIte, pieces, List.modifyHead_cons,
        List.append_nil, h.spanned, hqs, argumentsOf]
      simpa [hqs] using more
    · cases ht : t.isSignificant with
      | true =>
        simp only [argumentsFrom, hsep, ↓reduceIte, ht, pieces]
        rw [ih (h.significant net ht) nets, hps]
        simp
      | false =>
        have flat := depthAfter_flat (isFlat_of_not_isSignificant ht) depth
        rw [flat] at hps
        simp only [argumentsFrom, hsep, ↓reduceIte, ht, pieces, flat]
        rw [ih (h.blank net ht) nets, hps]
        simp

/-- The arguments of a text are what its pieces hold. -/
theorem arguments_eq (inside : List Char) :
    arguments inside = argumentsOf (pieces 0 (tokens inside)) := by
  have ne : ∀ t ∈ tokens inside, t.text ≠ [] := by
    fun_induction tokens inside with
    | case1 => simp
    | case2 s t rest h ih =>
      intro u hu
      rcases List.mem_cons.1 hu with rfl | hu
      · exact (text_next?_and_ne_nil h).2
      · exact ih u hu
  obtain ⟨p, ps, hps⟩ := List.exists_cons_of_ne_nil (pieces_ne_nil 0 (tokens inside))
  rw [arguments, argumentsFrom_eq passed_nil ne, hps]
  simp

/-! ## Tokens that stay together -/

theorem pieces_flat {ts : List Token} (h : ∀ t ∈ ts, t.isFlat = true) (depth : Nat)
    (us : List Token) : pieces depth (ts ++ us) = (pieces depth us).modifyHead (ts ++ ·) := by
  induction ts with
  | nil =>
    obtain ⟨p, ps, hps⟩ := List.exists_cons_of_ne_nil (pieces_ne_nil depth us)
    simp [hps]
  | cons t ts ih =>
    have ht := h t List.mem_cons_self
    have sep : t ≠ .char ',' := by
      rintro rfl
      cases ht
    have flat := depthAfter_flat ht depth
    obtain ⟨p, ps, hps⟩ := List.exists_cons_of_ne_nil (pieces_ne_nil depth us)
    rw [List.cons_append, pieces, if_neg (fun hsep => sep hsep.2), flat,
      ih fun u hu => h u (List.mem_cons_of_mem t hu), hps]
    rfl

theorem nest_flat {ts : List Token} (h : ∀ t ∈ ts, t.isFlat = true) (depth : Nat)
    (us : List Token) : nest depth (ts ++ us) = nest depth us := by
  induction ts with
  | nil => rfl
  | cons t ts ih =>
    have ht := h t List.mem_cons_self
    have ne {u : Token} (hu : u.isFlat = false) : t ≠ u := by
      rintro rfl
      rw [ht] at hu
      cases hu
    rw [List.cons_append, nest_cons (fun _ => ne rfl) (ne rfl) (ne rfl)]
    exact ih fun u hu => h u (List.mem_cons_of_mem t hu)

/-- Tokens of one argument, with every parenthesis closed. -/
structure Whole (ts : List Token) : Prop where
  pieces_append : ∀ us, pieces 0 (ts ++ us) = (pieces 0 us).modifyHead (ts ++ ·)
  nest_append : ∀ depth us, nest depth (ts ++ us) = nest depth us

namespace Whole

theorem flat {ts : List Token} (h : ∀ t ∈ ts, t.isFlat = true) : Whole ts :=
  ⟨pieces_flat h 0, nest_flat h⟩

theorem append {ts us : List Token} (first : Whole ts) (second : Whole us) :
    Whole (ts ++ us) := by
  constructor
  · intro vs
    rw [List.append_assoc, first.pieces_append, second.pieces_append]
    cases pieces 0 vs <;> simp
  · intro depth vs
    rw [List.append_assoc, first.nest_append, second.nest_append]

/-- Parentheses around tokens that neither cut nor nest. -/
theorem wrap {ts : List Token} (h : ∀ t ∈ ts, t.isFlat = true) :
    Whole (.char '(' :: (ts ++ [.char ')'])) := by
  constructor
  · intro us
    have inner : pieces 1 (.char ')' :: us) = (pieces 0 us).modifyHead (.char ')' :: ·) := rfl
    have outer : ∀ vs, pieces 0 (.char '(' :: vs) = (pieces 1 vs).modifyHead (.char '(' :: ·) :=
      fun _ => rfl
    rw [List.cons_append, List.append_assoc, outer, pieces_flat h, List.singleton_append, inner]
    cases pieces 0 us <;> simp
  · intro depth us
    rw [List.cons_append, List.append_assoc, nest, nest_flat h]
    rfl

theorem pieces_eq {ts : List Token} (h : Whole ts) : pieces 0 ts = [ts] := by
  have := h.pieces_append []
  simpa [pieces] using this

theorem pieces_comma {ts : List Token} (h : Whole ts) (us : List Token) :
    pieces 0 (ts ++ .char ',' :: us) = ts :: pieces 0 us := by
  rw [h.pieces_append]
  simp [pieces]

end Whole

/-! ## Pieces in full -/

theorem span_eq_text {ts : List Token} (first : ∀ t ∈ ts.head?, t.isSignificant = true)
    (last : ∀ t ∈ ts.getLast?, t.isSignificant = true) : span ts = ts.flatMap Token.text := by
  have whole : fromFirst ts = ts := by
    cases ts with
    | nil => rfl
    | cons t ts =>
      have ht : t.isSignificant = true := first t rfl
      simp [fromFirst, ht]
  rw [span, whole, List.rdropWhile_eq_self_iff.2]
  intro hne
  simpa using last _ (List.getLast?_eq_some_getLast hne)

/-- Blanks and comments around tokens are not part of what they say. -/
theorem span_trim {before ts after : List Token} (hbefore : before.any Token.isSignificant = false)
    (hafter : after.any Token.isSignificant = false) :
    span (before ++ ts ++ after) = span ts := by
  induction after using List.reverseRecOn with
  | nil =>
    rw [List.append_nil, span, span, fromFirst_append_of_blank ts hbefore]
  | append_singleton after t ih =>
    simp only [List.any_append, Bool.or_eq_false_iff, List.any_cons, List.any_nil] at hafter
    rw [← List.append_assoc, span_concat_blank _ hafter.2.1, ih hafter.1]

theorem argumentsOf_eq_map {ps : List (List Token)}
    (last : ∀ p ∈ ps.getLast?, p.any Token.isSignificant = true) :
    argumentsOf ps = ps.map span := by
  induction ps with
  | nil => rfl
  | cons p ps ih =>
    cases ps with
    | nil =>
      have hp : p.any Token.isSignificant = true := last p rfl
      simp [argumentsOf, hp]
    | cons q ps =>
      rw [argumentsOf, ih (by simpa using last)]
      rfl

theorem argumentsOf_concat_blank (ps : List (List Token)) {p : List Token}
    (hp : p.any Token.isSignificant = false) : argumentsOf (ps ++ [p]) = ps.map span := by
  induction ps with
  | nil => simp [argumentsOf, hp]
  | cons q ps ih =>
    obtain ⟨r, rs, hrs⟩ := List.exists_cons_of_ne_nil (List.append_ne_nil_of_right_ne_nil ps
      (List.cons_ne_nil p []))
    rw [List.cons_append, hrs, argumentsOf, ← hrs, ih, List.map_cons]

end PotExtract.Source
