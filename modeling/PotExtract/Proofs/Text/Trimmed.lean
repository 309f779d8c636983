import PotExtract.Text.Blank
import Mathlib.Data.List.Infix
import Mathlib.Data.List.TakeWhile

/-!
# Texts without the blanks around them

* `exists_trimBlanks`: what is left of a text stands in it with blanks around;
* `trimBlanks_append`: the blanks around a text are taken off;
* `Trims`, `trims_iff`: what is left of a text, said without taking it apart.
-/

namespace PotExtract

theorem exists_trimBlanks (s : List Char) :
    ∃ left right, s = left ++ trimBlanks s ++ right ∧ (∀ c ∈ left, isBlank c = true) ∧
      ∀ c ∈ right, isBlank c = true := by
  have front := List.takeWhile_append_dropWhile (p := isBlank) (l := s)
  have back := List.takeWhile_append_dropWhile (p := isBlank) (l := (s.dropWhile isBlank).reverse)
  have back' := congrArg List.reverse back
  rw [List.reverse_append, List.reverse_reverse] at back'
  refine ⟨s.takeWhile isBlank, ((s.dropWhile isBlank).reverse.takeWhile isBlank).reverse, ?_,
    fun c hc => List.mem_takeWhile_imp hc,
    fun c hc => List.mem_takeWhile_imp (List.mem_reverse.1 hc)⟩
  rw [trimBlanks, List.append_assoc, back', front]

theorem trimBlanks_append {left middle right : List Char} (hl : ∀ c ∈ left, isBlank c = true)
    (hr : ∀ c ∈ right, isBlank c = true)
    (first : ∃ c r, middle = c :: r ∧ isBlank c = false)
    (last : ∃ r c, middle = r ++ [c] ∧ isBlank c = false) :
    trimBlanks (left ++ middle ++ right) = middle := by
  obtain ⟨c, r, hc, notc⟩ := first
  obtain ⟨q, d, hd, notd⟩ := last
  have front : (left ++ middle ++ right).dropWhile isBlank = middle ++ right := by
    rw [List.append_assoc, List.dropWhile_append_of_pos hl, hc, List.cons_append,
      List.dropWhile_cons_of_neg (by simp [notc])]
  have back : (middle ++ right).reverse.dropWhile isBlank = middle.reverse := by
    rw [List.reverse_append, List.dropWhile_append_of_pos (by simpa using hr), hd,
      List.reverse_concat, List.dropWhile_cons_of_neg (by simp [notd])]
  rw [trimBlanks, front, back, List.reverse_reverse]

theorem trimBlanks_eq_nil_iff {s : List Char} : trimBlanks s = [] ↔ ∀ c ∈ s, isBlank c = true := by
  constructor
  · intro h
    obtain ⟨left, right, whole, hl, hr⟩ := exists_trimBlanks s
    rw [h, List.append_nil] at whole
    rw [whole]
    exact List.forall_mem_append.2 ⟨hl, hr⟩
  · intro h
    rw [trimBlanks, List.dropWhile_eq_nil_iff.2 h]
    rfl

/-- A text is another one with blanks around it, which neither begins nor ends with a blank. -/
structure Trims (s body : List Char) : Prop where
  around : ∃ left right, s = left ++ body ++ right ∧ (∀ c ∈ left, isBlank c = true) ∧
    ∀ c ∈ right, isBlank c = true
  first : ∀ c ∈ body.head?, isBlank c = false
  last : ∀ c ∈ body.getLast?, isBlank c = false

theorem head?_dropWhile_isBlank (s : List Char) :
    ∀ c ∈ (s.dropWhile isBlank).head?, isBlank c = false := by
  intro c hc
  have stop := List.head?_dropWhile_not isBlank s
  rw [Option.mem_def.1 hc] at stop
  exact stop

theorem trims_trimBlanks (s : List Char) : Trims s (trimBlanks s) where
  around := exists_trimBlanks s
  first := by
    intro c hc
    apply head?_dropWhile_isBlank s c
    have part : trimBlanks s <+: s.dropWhile isBlank := by
      rw [trimBlanks, ← List.reverse_suffix, List.reverse_reverse]
      exact List.dropWhile_suffix isBlank
    obtain ⟨right, hright⟩ := part
    rw [← hright, List.head?_append, Option.mem_def.1 hc]
    rfl
  last := by
    rw [trimBlanks, List.getLast?_reverse]
    exact head?_dropWhile_isBlank _

theorem trims_iff {s body : List Char} : Trims s body ↔ trimBlanks s = body := by
  constructor
  · rintro ⟨⟨left, right, rfl, hl, hr⟩, first, last⟩
    rcases body.eq_nil_or_concat' with rfl | ⟨r, d, rfl⟩
    · rw [trimBlanks_eq_nil_iff, List.append_nil]
      exact List.forall_mem_append.2 ⟨hl, hr⟩
    · have begins : ∃ c r', r ++ [d] = c :: r' ∧ isBlank c = false := by
        cases h : r ++ [d] with
        | nil => simp at h
        | cons c r' => exact ⟨c, r', rfl, first c (by simp [h])⟩
      exact trimBlanks_append hl hr begins ⟨r, d, rfl, last d (by simp)⟩
  · rintro rfl
    exact trims_trimBlanks s

end PotExtract
