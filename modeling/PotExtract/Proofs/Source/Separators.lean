import PotExtract.Proofs.Source.Arguments

/-!
# Separators

An argument list read in two passes over its tokens. The first pass gives
every token the nesting depth before it and cuts at the commas at depth zero.
The second keeps of each piece what reaches from its first significant token
to its last.

* `withDepths`, `separator`: each token with its depth, and the comma that cuts;
* `cutAtSeparators`: the tokens between such commas;
* `pieces_eq_splitOn`: cutting while the depth is counted is the same;
* `argumentsOf_eq_ite`: which pieces are arguments;
* `LaidOut`: arguments in the order in which they stand, and what may be between them;
* `arguments_two_passes`: the arguments of a text, and all that is left out.
-/

namespace PotExtract.Source

/-- Each token with the nesting depth before it. -/
def withDepths (depth : Nat) (ts : List Token) : List (Nat × Token) :=
  (ts.scanl Token.depthAfter depth).zip ts

@[simp] theorem withDepths_nil (depth : Nat) : withDepths depth [] = [] := by
  simp [withDepths]

@[simp] theorem withDepths_cons (depth : Nat) (t : Token) (ts : List Token) :
    withDepths depth (t :: ts) = (depth, t) :: withDepths (t.depthAfter depth) ts := by
  simp [withDepths, List.scanl_cons]

theorem map_snd_withDepths (depth : Nat) (ts : List Token) :
    (withDepths depth ts).map Prod.snd = ts := by
  induction ts generalizing depth with
  | nil => simp
  | cons t ts ih => rw [withDepths_cons, List.map_cons, ih]

/-- A comma at depth zero. -/
def separator : Nat × Token := (0, .char ',')

/-- The tokens between the separators of an argument list. -/
def cutAtSeparators (ts : List Token) : List (List Token) :=
  ((withDepths 0 ts).splitOn separator).map (·.map Prod.snd)

theorem eq_separator_iff {depth : Nat} {t : Token} :
    (depth, t) = separator ↔ depth = 0 ∧ t = .char ',' := by
  rw [separator, Prod.mk.injEq]

/-- Cutting while the depth is counted is cutting at the separators. -/
theorem pieces_eq_splitOn (depth : Nat) (ts : List Token) :
    pieces depth ts = ((withDepths depth ts).splitOn separator).map (·.map Prod.snd) := by
  induction ts generalizing depth with
  | nil => simp [pieces]
  | cons t ts ih =>
    rw [pieces, withDepths_cons, List.splitOn_cons_eq_if_modifyHead]
    by_cases cuts : depth = 0 ∧ t = .char ','
    · have after : t.depthAfter depth = 0 := by rw [cuts.1, cuts.2]; rfl
      rw [if_pos cuts, if_pos (beq_iff_eq.2 (eq_separator_iff.2 cuts)), ih, after]
      rfl
    · have stays : ¬ ((depth, t) == separator) = true :=
        fun same => cuts (eq_separator_iff.1 (beq_iff_eq.1 same))
      rw [if_neg cuts, if_neg stays, ih]
      cases (withDepths (t.depthAfter depth) ts).splitOn separator <;> rfl

/-! ## Pieces that are arguments -/

/-- Every piece is an argument, except a last one that says nothing. -/
theorem argumentsOf_eq_ite {ps : List (List Token)} (ne : ps ≠ []) :
    argumentsOf ps =
      (if (ps.getLastD []).any Token.isSignificant then ps else ps.dropLast).map span := by
  obtain ⟨init, last, rfl⟩ := (List.eq_nil_or_concat' ps).resolve_left ne
  cases said : last.any Token.isSignificant with
  | true =>
    rw [List.getLastD_concat, said, if_pos rfl]
    exact argumentsOf_eq_map fun p hp => by simp_all
  | false =>
    rw [List.getLastD_concat, said, if_neg (by simp), List.dropLast_concat]
    exact argumentsOf_concat_blank init said

/-- The text of tokens with their depths. -/
def writtenText (ts : List (Nat × Token)) : List Char :=
  ts.flatMap fun t => t.2.text

/-- What may stand between arguments: comments, blanks and separators. -/
def StandsBetween (t : Nat × Token) : Prop :=
  t.2.isSignificant = false ∨ t = separator

/-- The tokens of an argument list are its arguments one after the other, with nothing but
comments, blanks and separators before, between and after them. -/
inductive LaidOut : List (Nat × Token) → List (List Char) → Prop where
  | rest {gap : List (Nat × Token)} (between : ∀ t ∈ gap, StandsBetween t) : LaidOut gap []
  | argument {gap arg more : List (Nat × Token)} {args : List (List Char)}
      (between : ∀ t ∈ gap, StandsBetween t) (others : LaidOut more args) :
      LaidOut (gap ++ (arg ++ more)) (writtenText arg :: args)

/-- A piece is what it says with blanks and comments around it. -/
theorem exists_span (p : List (Nat × Token)) :
    ∃ before said after, p = before ++ (said ++ after) ∧ (∀ t ∈ before, StandsBetween t) ∧
      (∀ t ∈ after, StandsBetween t) ∧ writtenText said = span (p.map Prod.snd) := by
  obtain ⟨before, said, after, whole, hbefore, hafter, -, hspan⟩ := exists_trim (p.map Prod.snd)
  obtain ⟨first, rest, rfl, rfl, split⟩ := List.map_eq_append_iff.1 whole
  obtain ⟨middle, last, rfl, rfl, rfl⟩ := List.map_eq_append_iff.1 split
  refine ⟨first, middle, last, rfl, fun t ht => .inl (hbefore _ (List.mem_map_of_mem ht)),
    fun t ht => .inl (hafter _ (List.mem_map_of_mem ht)), ?_⟩
  rw [hspan, List.flatMap_map]
  rfl

/-- Pieces with separators between them are laid out as the arguments that they hold. `gap` is
what was passed since the last argument. -/
theorem laidOut_intercalate {ps : List (List (Nat × Token))} (ne : ps ≠ [])
    {gap : List (Nat × Token)} (between : ∀ t ∈ gap, StandsBetween t) :
    LaidOut (gap ++ [separator].intercalate ps) (argumentsOf (ps.map (·.map Prod.snd))) := by
  induction ps generalizing gap with
  | nil => exact absurd rfl ne
  | cons p ps ih =>
    obtain ⟨before, said, after, rfl, hbefore, hafter, hspan⟩ := exists_span p
    have opening : ∀ t ∈ gap ++ before, StandsBetween t :=
      List.forall_mem_append.2 ⟨between, hbefore⟩
    cases ps with
    | nil =>
      rw [List.intercalate_singleton, List.map_singleton, argumentsOf, ← hspan]
      split_ifs with any
      · have laid : LaidOut (gap ++ before ++ (said ++ after)) [writtenText said] :=
          .argument opening (.rest hafter)
        simpa using laid
      · refine .rest (List.forall_mem_append.2 ⟨between, fun t ht => .inl ?_⟩)
        rw [Bool.not_eq_true, List.any_eq_false] at any
        simpa using any t.2 (List.mem_map_of_mem ht)
    | cons q ps =>
      have closing : ∀ t ∈ after ++ [separator], StandsBetween t :=
        List.forall_mem_append.2 ⟨hafter, by simp [StandsBetween]⟩
      have laid : LaidOut (gap ++ before ++ (said ++ _)) (writtenText said :: _) :=
        .argument opening (ih (List.cons_ne_nil q ps) closing)
      rw [hspan] at laid
      simpa [List.intercalate_cons_cons, argumentsOf] using laid

/-- **The arguments of a text are found in two passes.** Each token gets the depth before it, and
the tokens are cut at the commas at depth zero. Each piece is an argument, read from its first
significant token to its last; only a last piece without any is none. So the text is its arguments
in order, with comments, blanks and separators around them and nothing else. -/
theorem arguments_two_passes (s : List Char) :
    arguments s =
        (if ((cutAtSeparators (tokens s)).getLastD []).any Token.isSignificant
          then cutAtSeparators (tokens s)
          else (cutAtSeparators (tokens s)).dropLast).map span ∧
      writtenText (withDepths 0 (tokens s)) = s ∧
      LaidOut (withDepths 0 (tokens s)) (arguments s) := by
  have cuts : pieces 0 (tokens s) = cutAtSeparators (tokens s) := pieces_eq_splitOn 0 (tokens s)
  refine ⟨?_, ?_, ?_⟩
  · rw [arguments_eq, ← cuts]
    exact argumentsOf_eq_ite (pieces_ne_nil 0 (tokens s))
  · have whole := flatMap_text_tokens s
    rwa [← map_snd_withDepths 0 (tokens s), List.flatMap_map] at whole
  · have joined : [separator].intercalate ((withDepths 0 (tokens s)).splitOn separator) =
        withDepths 0 (tokens s) := List.intercalate_splitOn separator
    have laid := laidOut_intercalate (List.splitOn_ne_nil separator (withDepths 0 (tokens s)))
      (List.forall_mem_nil StandsBetween)
    rw [joined, List.nil_append] at laid
    rw [arguments_eq, cuts]
    exact laid

end PotExtract.Source
