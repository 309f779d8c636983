import PotExtract.Proofs.Source.Arguments

/-!
# A place in an argument list

Between two tokens of an argument list some arguments are finished, one is
being read, and others are to come. A blank or a comment put there is part of
the one that is being read if that has something to say on both sides of the
place, and of none otherwise.

* `pieces_between`: the pieces of a list with one more token in it;
* `Amid`: the place is within an argument;
* `argumentsOf_outside`: outside of arguments, all blanks and comments are
  the same;
* `argumentsOf_amid`: within one, they change that argument alone.
-/

namespace PotExtract.Source

/-! ## Cutting at a place -/

/-- The pieces of a list of tokens from those of its two parts. The last piece of the first part
goes on with the first piece of the second. -/
theorem pieces_append (depth : Nat) (us vs : List Token) :
    pieces depth (us ++ vs) = (pieces depth us).dropLast ++
      (pieces (us.foldl Token.depthAfter depth) vs).modifyHead
        ((pieces depth us).getLastD [] ++ ·) := by
  induction us generalizing depth with
  | nil =>
    obtain ⟨p, ps, hps⟩ := List.exists_cons_of_ne_nil (pieces_ne_nil depth vs)
    simp [pieces, hps]
  | cons u us ih =>
    simp only [List.cons_append, pieces, List.foldl_cons]
    split
    · rename_i sep
      obtain ⟨rfl, rfl⟩ := sep
      obtain ⟨p, ps, hps⟩ := List.exists_cons_of_ne_nil (pieces_ne_nil 0 us)
      have here := ih 0
      rw [hps] at here
      rw [here, hps]
      rfl
    · rw [ih]
      obtain ⟨p, ps, hps⟩ := List.exists_cons_of_ne_nil (pieces_ne_nil (u.depthAfter depth) us)
      obtain ⟨q, qs, hqs⟩ := List.exists_cons_of_ne_nil
        (pieces_ne_nil (us.foldl Token.depthAfter (u.depthAfter depth)) vs)
      rw [hps, hqs]
      cases ps <;> simp

theorem eq_of_pieces_eq_singleton {depth : Nat} {ts p : List Token} (h : pieces depth ts = [p]) :
    p = ts := by
  induction ts generalizing depth p with
  | nil => exact (List.singleton_inj.1 h).symm
  | cons t ts ih =>
    rw [pieces] at h
    split at h
    · exact absurd (List.cons.inj h).2 (pieces_ne_nil 0 ts)
    · obtain ⟨q, qs, hqs⟩ := List.exists_cons_of_ne_nil (pieces_ne_nil (t.depthAfter depth) ts)
      rw [hqs, List.modifyHead_cons, List.cons.injEq] at h
      obtain ⟨rfl, rfl⟩ := h
      rw [ih hqs]

theorem getLastD_pieces_isSuffix (depth : Nat) (ts : List Token) :
    (pieces depth ts).getLastD [] <:+ ts := by
  induction ts generalizing depth with
  | nil => exact List.suffix_rfl
  | cons t ts ih =>
    rw [pieces]
    split
    · obtain ⟨p, ps, hps⟩ := List.exists_cons_of_ne_nil (pieces_ne_nil 0 ts)
      have here := ih 0
      rw [hps] at here ⊢
      exact here.trans (List.suffix_cons t ts)
    · have here := ih (t.depthAfter depth)
      rcases hps : pieces (t.depthAfter depth) ts with _ | ⟨p, _ | ⟨q, ps⟩⟩
      · exact absurd hps (pieces_ne_nil _ ts)
      · -- Nothing is cut, so the one piece is all of it.
        obtain rfl := eq_of_pieces_eq_singleton hps
        exact List.suffix_rfl
      · rw [hps] at here
        exact here.trans (List.suffix_cons t ts)

theorem headD_pieces_isPrefix (depth : Nat) (ts : List Token) :
    (pieces depth ts).headD [] <+: ts := by
  induction ts generalizing depth with
  | nil => exact List.prefix_rfl
  | cons t ts ih =>
    rw [pieces]
    split
    · exact List.nil_prefix
    · obtain ⟨p, ps, hps⟩ := List.exists_cons_of_ne_nil (pieces_ne_nil (t.depthAfter depth) ts)
      have here := ih (t.depthAfter depth)
      rw [hps] at here ⊢
      exact List.cons_prefix_cons.2 ⟨rfl, here⟩

/-- The pieces before the one that is being read after some tokens. -/
def finished (us : List Token) : List (List Token) :=
  (pieces 0 us).dropLast

/-- The piece that is being read after some tokens. -/
def begun (us : List Token) : List Token :=
  (pieces 0 us).getLastD []

/-- What the tokens `vs` add to the piece that is being read after `us`. -/
def remainder (us vs : List Token) : List Token :=
  (pieces (us.foldl Token.depthAfter 0) vs).headD []

/-- The pieces that come after the one that is being read after `us`, of the tokens `vs`. -/
def later (us vs : List Token) : List (List Token) :=
  (pieces (us.foldl Token.depthAfter 0) vs).tail

theorem pieces_between {t : Token} (ht : t.isFlat = true) (us vs : List Token) :
    pieces 0 (us ++ t :: vs) =
      finished us ++ (begun us ++ t :: remainder us vs) :: later us vs := by
  have flat : pieces (us.foldl Token.depthAfter 0) ([t] ++ vs) =
      (pieces (us.foldl Token.depthAfter 0) vs).modifyHead ([t] ++ ·) :=
    pieces_flat (by simpa using ht) _ vs
  obtain ⟨p, ps, hps⟩ :=
    List.exists_cons_of_ne_nil (pieces_ne_nil (us.foldl Token.depthAfter 0) vs)
  rw [List.singleton_append, hps] at flat
  rw [pieces_append, flat, finished, begun, remainder, later, hps]
  simp

theorem nest_append (depth : Nat) (us vs : List Token) :
    nest depth (us ++ vs) = (nest depth us).bind (nest · vs) := by
  fun_induction nest depth us with
  | case1 => rfl
  | case2 => rfl
  | case3 depth us ih => exact ih
  | case4 => rfl
  | case5 us outer ih => exact ih
  | case6 depth t us unclosed opens closes ih =>
    rw [List.cons_append, nest_cons unclosed opens closes, ih]

theorem nest_replace {t u : Token} (ht : t.isFlat = true) (hu : u.isFlat = true) (depth : Nat)
    (us vs : List Token) : nest depth (us ++ t :: vs) = nest depth (us ++ u :: vs) := by
  have skip {v : Token} (hv : v.isFlat = true) (inner : Nat) :
      nest inner ([v] ++ vs) = nest inner vs :=
    nest_flat (by simpa using hv) inner vs
  simp only [List.singleton_append] at skip
  simp only [nest_append, skip ht, skip hu]

/-! ## Blanks and comments at a place -/

/-- Something is said on both sides of a place, by the argument that is being read there. -/
def Amid (us vs : List Token) : Prop :=
  (begun us).any Token.isSignificant = true ∧ (remainder us vs).any Token.isSignificant = true

instance (us vs : List Token) : Decidable (Amid us vs) :=
  inferInstanceAs (Decidable (_ ∧ _))

theorem span_after_blank {ps : List Token} (hps : ps.any Token.isSignificant = false) {t : Token}
    (ht : t.isSignificant = false) (qs : List Token) : span (ps ++ t :: qs) = span qs := by
  have blank : (ps ++ [t]).any Token.isSignificant = false := by simpa [ht] using hps
  have none : ([] : List Token).any Token.isSignificant = false := rfl
  have trimmed : span (ps ++ [t] ++ qs ++ []) = span qs := span_trim blank none
  simpa using trimmed

theorem span_before_blank {qs : List Token} (hqs : qs.any Token.isSignificant = false) {t : Token}
    (ht : t.isSignificant = false) (ps : List Token) : span (ps ++ t :: qs) = span ps := by
  have blank : (t :: qs).any Token.isSignificant = false := by simpa [ht] using hqs
  have none : ([] : List Token).any Token.isSignificant = false := rfl
  exact span_trim none blank

/-- Between significant tokens, every token is part of what is said. -/
theorem span_between {ps qs : List Token} (hps : ps.any Token.isSignificant = true)
    (hqs : qs.any Token.isSignificant = true) (t : Token) :
    ∃ before after, before <:+ ps ∧ after <+: qs ∧
      span (ps ++ t :: qs) = (before ++ t :: after).flatMap Token.text := by
  induction qs using List.reverseRecOn with
  | nil => cases hqs
  | append_singleton qs u ih =>
    rw [← List.cons_append, ← List.append_assoc]
    cases hu : u.isSignificant with
    | true =>
      refine ⟨fromFirst ps, qs ++ [u], List.dropWhile_suffix _, List.prefix_rfl, ?_⟩
      rw [span_concat _ hu, fromFirst_append _ hps]
      simp
    | false =>
      have sooner : qs.any Token.isSignificant = true := by simpa [hu] using hqs
      obtain ⟨before, after, hbefore, hafter, hspan⟩ := ih sooner
      refine ⟨before, after, hbefore, hafter.trans (List.prefix_append qs [u]), ?_⟩
      rw [span_concat_blank _ hu, hspan]

theorem argumentsOf_append (ps : List (List Token)) {qs : List (List Token)} (ne : qs ≠ []) :
    argumentsOf (ps ++ qs) = ps.map span ++ argumentsOf qs := by
  induction ps with
  | nil => rfl
  | cons p ps ih =>
    obtain ⟨q, rs, hq⟩ := List.exists_cons_of_ne_nil (List.append_ne_nil_of_right_ne_nil ps ne)
    rw [List.cons_append, hq, argumentsOf, ← hq, ih]
    rfl

theorem argumentsOf_cons {p : List Token} (hp : p.any Token.isSignificant = true)
    (ps : List (List Token)) : argumentsOf (p :: ps) = span p :: argumentsOf ps := by
  cases ps with
  | nil => simp [argumentsOf, hp]
  | cons q ps => rfl

theorem argumentsOf_cons_congr {p q : List Token} (hspan : span p = span q)
    (hany : p.any Token.isSignificant = q.any Token.isSignificant) (ps : List (List Token)) :
    argumentsOf (p :: ps) = argumentsOf (q :: ps) := by
  cases ps with
  | nil => simp only [argumentsOf, hspan, hany]
  | cons r ps => simp only [argumentsOf, hspan]

variable {us vs : List Token} {t : Token}

/-- Outside of arguments, all blanks and comments are the same. -/
theorem argumentsOf_outside {u : Token} (outside : ¬ Amid us vs) (ht : t.isSignificant = false)
    (hu : u.isSignificant = false) :
    argumentsOf (pieces 0 (us ++ t :: vs)) = argumentsOf (pieces 0 (us ++ u :: vs)) := by
  rw [pieces_between (isFlat_of_not_isSignificant ht),
    pieces_between (isFlat_of_not_isSignificant hu),
    argumentsOf_append _ (List.cons_ne_nil _ _), argumentsOf_append _ (List.cons_ne_nil _ _)]
  congr 1
  apply argumentsOf_cons_congr
  · cases hbegun : (begun us).any Token.isSignificant with
    | false => rw [span_after_blank hbegun ht, span_after_blank hbegun hu]
    | true =>
      have hrest : (remainder us vs).any Token.isSignificant = false :=
        Bool.eq_false_iff.2 fun h => outside ⟨hbegun, h⟩
      rw [span_before_blank hrest ht, span_before_blank hrest hu]
  · simp [ht, hu]

/-- Within an argument, a blank or a comment changes that argument alone. -/
theorem argumentsOf_amid (amid : Amid us vs) (ht : t.isSignificant = false) :
    argumentsOf (pieces 0 (us ++ t :: vs)) = (finished us).map span ++
      span (begun us ++ t :: remainder us vs) :: argumentsOf (later us vs) := by
  have said : (begun us ++ t :: remainder us vs).any Token.isSignificant = true := by
    simp [List.any_append, amid.1]
  rw [pieces_between (isFlat_of_not_isSignificant ht), argumentsOf_append _ (List.cons_ne_nil _ _),
    argumentsOf_cons said]

/-- Within an argument, a blank or a comment is one of the tokens that the argument is made
of. -/
theorem exists_infix_of_amid (amid : Amid us vs) (t : Token) :
    ∃ before after, before <:+ us ∧ after <+: vs ∧
      span (begun us ++ t :: remainder us vs) = (before ++ t :: after).flatMap Token.text := by
  obtain ⟨before, after, hbefore, hafter, hspan⟩ := span_between amid.1 amid.2 t
  exact ⟨before, after, hbefore.trans (getLastD_pieces_isSuffix 0 us),
    hafter.trans (headD_pieces_isPrefix _ vs), hspan⟩

end PotExtract.Source
