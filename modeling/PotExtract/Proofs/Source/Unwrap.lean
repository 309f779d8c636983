import PotExtract.Proofs.Source.Written

/-!
# Literals in parentheses

An argument counts as a literal if it is one, or if it is parentheses around
one with blanks between. No other argument does, so none with a comment.

* `unwrap_eq_or`: what taking parentheses off can yield;
* `reads_of_parse?_unwrap`: the tokens of an argument that counts as a
  literal.
-/

namespace PotExtract.Source

/-- Parentheses are taken off only if the last character closes the first. -/
theorem unwrap_eq_or (arg : List Char) :
    unwrap arg = arg ∨
      ∃ inside, arg = '(' :: (inside ++ [')']) ∧ unwrap arg = trimBlanks inside := by
  unfold unwrap
  split
  · rename_i r
    split
    · rename_i inside hclose
      obtain ⟨ts, rfl, hreads, -⟩ := closeParen?_eq_some_iff.1 hclose
      exact .inr ⟨_, by rw [hreads.text], rfl⟩
    · exact .inl rfl
  · exact .inl rfl

theorem isPlain_of_isBlank {c : Char} (hc : isBlank c = true) : isPlain c = true := by
  have ne : ∀ d, isBlank d = false → c ≠ d := by
    rintro d hd rfl
    rw [hc] at hd
    cases hd
  simp [isPlain, isQuote, ne '/' rfl, ne '#' rfl, ne '\'' rfl, ne '"' rfl]

theorem reads_of_parse? {s : List Char} {literal : Literal} (h : Literal.parse? s = some literal)
    (rest : List Char) : Reads (s ++ rest) [.literal literal.style.mark literal.body] rest := by
  obtain ⟨hbody, rfl⟩ := parse?_eq_some_iff.1 h
  simpa using Reads.single (next?_literal hbody rest)

/-- An argument that counts as a literal is read as that literal, or as parentheses and blanks
around it. -/
theorem reads_of_parse?_unwrap {arg : List Char} {literal : Literal}
    (h : Literal.parse? (unwrap arg) = some literal) (rest : List Char) :
    ∃ ts, (∀ text, Token.comment text ∉ ts) ∧ Reads (arg ++ rest) ts rest := by
  rcases unwrap_eq_or arg with hself | ⟨inside, rfl, hinside⟩
  · rw [hself] at h
    exact ⟨_, by simp, reads_of_parse? h rest⟩
  · rw [hinside] at h
    obtain ⟨left, right, whole, hleft, hright⟩ := exists_trimBlanks inside
    have plain {s : List Char} (hs : ∀ c ∈ s, isBlank c = true) (x : List Char) :
        Reads (s ++ x) (s.map Token.char) x :=
      reads_plain (fun c hc => isPlain_of_isBlank (hs c hc)) x
    refine ⟨.char '(' :: (left.map Token.char ++ [.literal literal.style.mark literal.body] ++
      right.map Token.char ++ [.char ')']), by simp, ?_⟩
    rw [whole]
    simp only [List.cons_append, List.append_assoc]
    refine .cons rfl ((plain hleft _).append ?_)
    exact (reads_of_parse? h _).append ((plain hright _).append (.single rfl))

end PotExtract.Source
