import PotExtract.Glob.Expand
import Mathlib.Tactic.SplitIfs

/-!
# Plain components

A component of a pattern is literal if it has no characters that stand for
others. A component that does not match two dots leads to names only.

* `Pattern.literal?_of_compile?`: which components are literal;
* `leadsUp`: a component, taken as a pattern, matches two dots;
* `Pattern.Descends`, `descends_of_compile?`: the components that lead to names.
-/

namespace PotExtract.Glob

/-! ## Literal components -/

/-- A text in which no character stands for others. -/
def IsPlain (text : String) : Prop :=
  ∀ c ∈ text.toList, c ≠ '*' ∧ c ≠ '?' ∧ c ≠ '['

instance (text : String) : Decidable (IsPlain text) :=
  List.decidableBAll _ text.toList

theorem exists_of_bracketed? {s rest : List Char} {part : Part}
    (h : bracketed? s = some (part, rest)) : ∃ negated items, part = .oneOf negated items := by
  have shape (negated : Bool) (s : List Char) (h : classOf? negated s = some (part, rest)) :
      ∃ negated items, part = .oneOf negated items := by
    cases s with
    | nil => simp [classOf?] at h
    | cons first r =>
      simp only [classOf?] at h
      split at h
      · cases h
      · simp only [Option.some.injEq, Prod.mk.injEq] at h
        exact ⟨_, _, h.1.symm⟩
  unfold bracketed? at h
  split at h
  · exact shape _ _ h
  · exact shape _ _ h

/-- A part for directories is added to the parts that are there. -/
theorem mem_withDirectories (parts : List Part) {part : Part}
    (h : part = .anyDirectories ∨ part ∈ parts) :
    part ∈ (match parts with
      | .anyDirectories :: _ :: _ => parts
      | _ => .anyDirectories :: parts) := by
  split
  · rcases h with rfl | h
    · exact List.mem_cons_self
    · exact h
  · exact List.mem_cons.2 h

/-- What is already compiled stays. -/
theorem mem_of_compileFrom {position : Nat} {before : Option Char} {parts out : List Part}
    {s : List Char} (h : compileFrom position before parts s = .ok out) {part : Part}
    (hp : part ∈ parts) : part ∈ out := by
  fun_induction compileFrom position before parts s with
  | case1 =>
    cases h
    exact List.mem_reverse.2 hp
  | case2 | case3 | case6 | case9 => cases h
  | case4 _ _ parts =>
    cases h
    exact List.mem_reverse.2 (mem_withDirectories parts (.inr hp))
  | case5 _ _ parts _ _ _ _ ih => exact ih h (mem_withDirectories parts (.inr hp))
  | case7 _ _ _ _ _ _ ih | case8 _ _ _ _ ih | case10 _ _ _ _ _ _ _ ih
  | case11 _ _ _ _ _ _ _ _ _ _ ih => exact ih h (List.mem_cons_of_mem _ hp)

/-- Only plain characters are compiled to parts that stand for themselves. -/
theorem plain_of_compileFrom {position : Nat} {before : Option Char} {parts out : List Part}
    {s : List Char} (h : compileFrom position before parts s = .ok out)
    (chars : ∀ part ∈ out, ∃ c, part = .char c) :
    ∀ c ∈ s, c ≠ '*' ∧ c ≠ '?' ∧ c ≠ '[' := by
  fun_induction compileFrom position before parts s with
  | case1 => simp
  | case2 | case3 | case6 | case9 => cases h
  | case4 _ _ parts =>
    cases h
    obtain ⟨c, no⟩ := chars .anyDirectories
      (List.mem_reverse.2 (mem_withDirectories parts (.inl rfl)))
    cases no
  | case5 _ _ parts =>
    obtain ⟨c, no⟩ := chars .anyDirectories
      (mem_of_compileFrom h (mem_withDirectories parts (.inl rfl)))
    cases no
  | case7 | case8 =>
    obtain ⟨c, no⟩ := chars _ (mem_of_compileFrom h List.mem_cons_self)
    cases no
  | case10 _ _ _ r part rest opened =>
    obtain ⟨c, rfl⟩ := chars _ (mem_of_compileFrom h List.mem_cons_self)
    obtain ⟨negated, items, no⟩ := exists_of_bracketed? opened
    cases no
  | case11 _ _ _ c r _ _ star mark bracket ih =>
    rintro d hd
    rcases List.mem_cons.1 hd with rfl | hd
    · exact ⟨star, mark, bracket⟩
    · exact ih h d hd

theorem compileFrom_plain {s : List Char} (h : ∀ c ∈ s, c ≠ '*' ∧ c ≠ '?' ∧ c ≠ '[')
    (position : Nat) (before : Option Char) (parts : List Part) :
    compileFrom position before parts s = .ok (parts.reverse ++ s.map .char) := by
  induction s generalizing position before parts with
  | nil => simp [compileFrom]
  | cons c s ih =>
    obtain ⟨star, mark, bracket⟩ := h c List.mem_cons_self
    rw [compileFrom, ih fun d hd => h d (List.mem_cons_of_mem _ hd)]
    · simp
    all_goals simp [*]

/-- Whether characters are a pattern depends neither on where they stand nor on what is compiled
before them, apart from the character before. -/
theorem exists_compileFrom {position : Nat} {before : Option Char} {parts out : List Part}
    {s : List Char} (h : compileFrom position before parts s = .ok out) (position' : Nat)
    (parts' : List Part) : ∃ out', compileFrom position' before parts' s = .ok out' := by
  fun_induction compileFrom position before parts s generalizing position' parts' with
  | case1 => exact ⟨_, compileFrom.eq_1 ..⟩
  | case2 | case3 | case6 | case9 => cases h
  | case4 _ _ _ start =>
    rw [compileFrom.eq_def]
    simp only [if_neg start]
    exact ⟨_, rfl⟩
  | case5 _ _ _ start _ _ _ ih =>
    rw [compileFrom.eq_def]
    simp only [if_neg start]
    exact ih h _ _
  | case7 _ _ _ r noThree noTwo ih =>
    rw [compileFrom]
    · exact ih h _ _
    · exact noThree
    · exact noTwo
  | case8 _ _ _ r ih =>
    rw [compileFrom]
    exact ih h _ _
  | case10 _ _ _ r part rest opened ih =>
    rw [compileFrom]
    split
    · simp_all
    · rename_i opened'
      cases opened.symm.trans opened'
      exact ih h _ _
  | case11 _ _ _ c r _ _ _ _ _ ih =>
    rw [compileFrom]
    · exact ih h _ _
    all_goals assumption

/-- Plain characters and a slash before a pattern make no difference to whether it is one. -/
theorem exists_compileFrom_plain {a : List Char} (h : ∀ c ∈ a, c ≠ '*' ∧ c ≠ '?' ∧ c ≠ '[')
    (position : Nat) (before : Option Char) (parts : List Part) (s : List Char) :
    (∃ out, compileFrom position before parts (a ++ '/' :: s) = .ok out) ↔
      ∃ out, compileFrom 0 (some '/') [] s = .ok out := by
  induction a generalizing position before parts with
  | nil =>
    rw [List.nil_append, compileFrom]
    · constructor
      · rintro ⟨out, compiled⟩
        exact exists_compileFrom compiled _ _
      · rintro ⟨out, compiled⟩
        exact exists_compileFrom compiled _ _
    all_goals simp
  | cons c a ih =>
    obtain ⟨star, mark, bracket⟩ := h c List.mem_cons_self
    rw [List.cons_append, compileFrom, ih fun d hd => h d (List.mem_cons_of_mem _ hd)]
    all_goals simp [*]

theorem Pattern.compile?_of_isPlain {text : String} (h : IsPlain text) :
    Pattern.compile? text = .ok ⟨text.toList.map .char⟩ := by
  rw [compile?, compileFrom_plain h]
  rfl

theorem Pattern.literal?_eq_some_iff {pattern : Pattern} {text : String} :
    pattern.literal? = some text ↔ pattern.parts = text.toList.map .char := by
  obtain ⟨parts⟩ := pattern
  rw [literal?, Option.map_eq_map, Option.map_eq_some_iff]
  suffices chars : ∀ cs : List Char, _ = some cs ↔ parts = cs.map .char by
    constructor
    · rintro ⟨cs, h, rfl⟩
      rw [(chars cs).1 h, String.toList_ofList]
    · intro h
      exact ⟨text.toList, (chars _).2 h, String.ofList_toList⟩
  induction parts with
  | nil => rintro (_ | ⟨_, _⟩) <;> simp
  | cons part parts ih =>
    intro cs
    cases part with
    | char d => cases cs <;> simp [Option.bind_eq_some_iff, ih, and_assoc, and_comm]
    | anyChar | oneOf _ _ | anySequence | anyDirectories => cases cs <;> simp

/-- Components that are plain are literal, and no others. -/
theorem Pattern.literal?_of_compile? {text : String} {pattern : Pattern}
    (h : compile? text = .ok pattern) :
    pattern.literal? = if IsPlain text then some text else none := by
  by_cases plain : IsPlain text
  · rw [compile?_of_isPlain plain, Except.ok.injEq] at h
    rw [if_pos plain, literal?_eq_some_iff, ← h]
  · rw [if_neg plain, Option.eq_none_iff_forall_ne_some]
    intro text' literal
    rw [literal?_eq_some_iff] at literal
    apply plain
    rw [compile?] at h
    cases compiled : compileFrom 0 none [] text.toList with
    | error e =>
      rw [compiled] at h
      cases h
    | ok parts =>
      rw [compiled] at h
      cases h
      apply plain_of_compileFrom compiled
      intro part hpart
      rw [show parts = text'.toList.map .char from literal] at hpart
      obtain ⟨c, -, rfl⟩ := List.mem_map.1 hpart
      exact ⟨c, rfl⟩

theorem Pattern.literal?_of_isRecursive {pattern : Pattern} (h : pattern.isRecursive = true) :
    pattern.literal? = none := by
  rw [Option.eq_none_iff_forall_ne_some]
  intro text literal
  rw [literal?_eq_some_iff] at literal
  simp [isRecursive, literal] at h

/-- What matches one dot and is more than the dot, matches two dots. -/
theorem Pattern.dots_eq_nil {pattern : Pattern} (wild : pattern.literal? = none)
    (h : ".." ∉ pattern.dots) : pattern.dots = [] := by
  by_cases dotted : pattern.parts.head? = some (.char '.')
  · obtain ⟨rest, parts⟩ := List.head?_eq_some_iff.1 dotted
    rw [dots, if_pos dotted] at h ⊢
    have noTwo : ¬ pattern.accepts ".." = true := by simpa using h
    have noOne : ¬ pattern.accepts "." = true := by
      intro one
      apply noTwo
      simp only [accepts, parts, show ".".toList = ['.'] from rfl,
        show "..".toList = ['.', '.'] from rfl, acceptsParts, beq_self_eq_true,
        Bool.true_and] at one ⊢
      cases rest with
      | nil =>
        have literal : pattern.literal? = some "." := literal?_eq_some_iff.2 parts
        rw [wild] at literal
        cases literal
      | cons part rest =>
        cases part <;> simp_all [acceptsParts, suffixes, afterSlashes]
    simp [noTwo, noOne]
  · rw [dots, if_neg dotted]

/-! ## Patterns that lead down -/

/-- A component, taken as a pattern, matches two dots. -/
def leadsUp (piece : String) : Bool :=
  match Pattern.compile? piece with
  | .ok pattern => pattern.dots.contains ".."
  | .error _ => false

theorem leadsUp_dots : leadsUp ".." = true := by
  rw [leadsUp, Pattern.compile?_of_isPlain (by decide)]
  decide

theorem eq_of_acceptsParts {cs s : List Char} (h : acceptsParts (cs.map .char) s = true) :
    s = cs := by
  induction cs generalizing s with
  | nil => simpa [acceptsParts] using h
  | cons c cs ih =>
    cases s with
    | nil => simp [acceptsParts] at h
    | cons d s =>
      simp only [List.map_cons, acceptsParts, Bool.and_eq_true, beq_iff_eq] at h
      rw [h.1, ih h.2]

theorem leadsUp_of_isPlain {piece : String} (plain : IsPlain piece) (ne : piece ≠ "..") :
    leadsUp piece = false := by
  rw [leadsUp, Pattern.compile?_of_isPlain plain, ← Bool.not_eq_true]
  intro up
  apply ne
  simp only [Pattern.dots, List.contains_iff_mem] at up
  split_ifs at up
  · have := eq_of_acceptsParts (List.mem_filter.1 up).2
    rw [← String.toList_inj, this]
  · simp at up

/-- A component of a pattern that leads to names. -/
structure Pattern.Descends (pattern : Pattern) : Prop where
  noSlash : ∀ text, pattern.literal? = some text → '/' ∉ text.toList
  noUp : ".." ∉ pattern.dots

theorem Pattern.Descends.literal?_ne {pattern : Pattern} (h : pattern.Descends) :
    pattern.literal? ≠ some ".." := by
  intro literal
  rw [literal?_eq_some_iff] at literal
  obtain ⟨parts⟩ := pattern
  cases literal
  exact h.noUp (by decide)

theorem descends_of_compile? {piece : String} {pattern : Pattern}
    (compiled : Pattern.compile? piece = .ok pattern) (noSlash : '/' ∉ piece.toList)
    (down : leadsUp piece = false) : pattern.Descends := by
  constructor
  · intro text literal
    rw [Pattern.literal?_of_compile? compiled] at literal
    split_ifs at literal
    cases literal
    exact noSlash
  · intro up
    rw [leadsUp, compiled] at down
    exact Bool.false_ne_true (down.symm.trans (List.contains_iff_mem.2 up))

end PotExtract.Glob
