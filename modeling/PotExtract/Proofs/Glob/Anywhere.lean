import PotExtract.Proofs.Files.Copies
import PotExtract.Proofs.Glob.Plain
import Mathlib.Data.List.Basic

/-!
# Directories of one name

The pattern `**/name/**` matches what lies below a directory of that name,
wherever it is.

* `compile?_anywhere`: what the pattern is compiled to;
* `accepts_anywhere`: it matches a path with that name before its last piece;
* `Pattern.Alike`, `alike_anywhere`: it does not tell paths apart that do not
  have the name.
-/

namespace PotExtract.Glob

open PotExtract.Path (splitSlashes)

/-- The pattern for what lies below directories of a name. -/
def Pattern.anywhere (name : String) : Pattern :=
  ⟨.anyDirectories :: (name.toList.map .char ++ [.char '/', .anyDirectories])⟩

theorem compileFrom_append_plain {a : List Char} (h : ∀ c ∈ a, c ≠ '*' ∧ c ≠ '?' ∧ c ≠ '[')
    (position : Nat) (before : Option Char) (parts : List Part) (s : List Char) :
    compileFrom position before parts (a ++ s) =
      compileFrom (position + a.length) (a.getLast?.or before) ((a.map .char).reverse ++ parts)
        s := by
  induction a generalizing position before parts with
  | nil => simp
  | cons c a ih =>
    obtain ⟨star, mark, bracket⟩ := h c List.mem_cons_self
    rw [List.cons_append, compileFrom, ih fun d hd => h d (List.mem_cons_of_mem _ hd)]
    · congr 1
      · rw [List.length_cons]
        omega
      · cases a <;> simp [List.getLast?_cons]
      · simp
    all_goals simp [*]

theorem compile?_anywhere {name : String} (plain : IsPlain name) :
    Pattern.compile? ("**/" ++ name ++ "/**") = .ok (.anywhere name) := by
  have slash : ∀ c ∈ name.toList ++ ['/'], c ≠ '*' ∧ c ≠ '?' ∧ c ≠ '[' := by
    intro c hc
    rcases List.mem_append.1 hc with own | slash
    · exact plain c own
    · rw [List.mem_singleton.1 slash]
      decide
  have text : ("**/" ++ name ++ "/**").toList =
      '*' :: '*' :: '/' :: ((name.toList ++ ['/']) ++ ['*', '*']) := by
    simp
  have first : compileFrom 0 none [] ('*' :: '*' :: '/' :: ((name.toList ++ ['/']) ++ ['*', '*']))
      = compileFrom 3 (some '/') [.anyDirectories] ((name.toList ++ ['/']) ++ ['*', '*']) := by
    rw [compileFrom]
    all_goals simp
  rw [Pattern.compile?, text, first, compileFrom_append_plain slash, compileFrom.eq_def]
  simp [Pattern.anywhere, Except.map]

theorem acceptsParts_chars {cs s : List Char} {parts : List Part} :
    acceptsParts (cs.map .char ++ parts) s = true ↔
      ∃ r, s = cs ++ r ∧ acceptsParts parts r = true := by
  induction cs generalizing s with
  | nil => simp
  | cons c cs ih =>
    cases s with
    | nil => simp [acceptsParts]
    | cons d s =>
      simp only [List.map_cons, List.cons_append, acceptsParts, Bool.and_eq_true, beq_iff_eq, ih,
        List.cons.injEq]
      constructor
      · rintro ⟨rfl, r, rfl, accepted⟩
        exact ⟨r, ⟨rfl, rfl⟩, accepted⟩
      · rintro ⟨r, ⟨rfl, rfl⟩, accepted⟩
        exact ⟨rfl, r, rfl, accepted⟩

theorem afterSlashes_append {a : List Char} (h : '/' ∉ a) (b : List Char) :
    afterSlashes (a ++ '/' :: b) = b :: afterSlashes b := by
  induction a with
  | nil => simp [afterSlashes]
  | cons c a ih =>
    rw [List.mem_cons, not_or] at h
    rw [List.cons_append, afterSlashes, if_neg (Ne.symm h.1), ih h.2]

theorem afterSlashes_of_not_mem {s : List Char} (h : '/' ∉ s) : afterSlashes s = [] := by
  induction s with
  | nil => rfl
  | cons c s ih =>
    rw [List.mem_cons, not_or] at h
    rw [afterSlashes, if_neg (Ne.symm h.1), ih h.2]

theorem eq_of_append_slash_eq {a b s t : List Char} (ha : '/' ∉ a) (hb : '/' ∉ b)
    (h : a ++ '/' :: s = b ++ '/' :: t) : a = b := by
  have first := congrArg splitSlashes h
  rw [Path.splitSlashes_append, Path.splitSlashes_append, Path.splitSlashes_of_not_mem ha,
    Path.splitSlashes_of_not_mem hb] at first
  exact List.head_eq_of_cons_eq first

/-- A text, or what is left of it after a slash, begins with a name and a slash if the name is a
piece of the text before its last. -/
theorem exists_begins_iff {name s : List Char} (h : '/' ∉ name) :
    (∃ rest ∈ s :: afterSlashes s, ∃ r, rest = name ++ '/' :: r) ↔
      name ∈ (splitSlashes s).dropLast := by
  induction hn : s.length using Nat.strongRecOn generalizing s with
  | ind n ih =>
    by_cases slash : '/' ∈ s
    · obtain ⟨a, b, rfl, first⟩ := List.eq_append_cons_of_mem slash
      have shorter : b.length < n := by
        rw [← hn, List.length_append, List.length_cons]
        omega
      have begins : (∃ r, a ++ '/' :: b = name ++ '/' :: r) ↔ name = a := by
        constructor
        · rintro ⟨r, same⟩
          exact (eq_of_append_slash_eq first h same).symm
        · rintro rfl
          exact ⟨b, rfl⟩
      rw [afterSlashes_append first, Path.splitSlashes_append,
        Path.splitSlashes_of_not_mem first, List.singleton_append,
        List.dropLast_cons_of_ne_nil (Path.splitSlashes_ne_nil b), List.mem_cons,
        ← ih _ shorter rfl, List.exists_mem_cons_iff, begins]
    · have noSlash : ∀ r, name ++ '/' :: r ≠ s := by
        rintro r rfl
        simp at slash
      simp [afterSlashes_of_not_mem slash, Path.splitSlashes_of_not_mem slash, noSlash]

/-- The pattern matches a path that has the name before its last piece, and no other. -/
theorem accepts_anywhere {name : String} (h : '/' ∉ name.toList) {p : Path} :
    (Pattern.anywhere name).accepts p.text = true ↔ name ∈ p.pieces.dropLast := by
  have rest (s : List Char) :
      acceptsParts (name.toList.map .char ++ [.char '/', .anyDirectories]) s = true ↔
        ∃ r, s = name.toList ++ '/' :: r := by
    rw [acceptsParts_chars]
    constructor
    · rintro ⟨r, rfl, accepted⟩
      cases r with
      | nil => simp [acceptsParts] at accepted
      | cons c r =>
        simp only [acceptsParts, Bool.and_eq_true, beq_iff_eq] at accepted
        exact ⟨r, by rw [accepted.1]⟩
    · rintro ⟨r, rfl⟩
      exact ⟨_, rfl, by simp [acceptsParts]⟩
  have nothing :
      acceptsParts (name.toList.map .char ++ [.char '/', .anyDirectories]) [] = false := by
    rw [← Bool.not_eq_true, rest]
    simp
  have found : name ∈ p.pieces.dropLast ↔ name.toList ∈ (splitSlashes p.text.toList).dropLast := by
    rw [Path.pieces, ← List.map_dropLast, List.mem_map]
    constructor
    · rintro ⟨piece, hpiece, rfl⟩
      simpa using hpiece
    · intro hname
      exact ⟨_, hname, String.ofList_toList⟩
  rw [found, ← exists_begins_iff h, Pattern.accepts, Pattern.anywhere, acceptsParts, nothing,
    Bool.false_or, List.any_eq_true]
  simp only [rest]

/-- A pattern does not tell two paths apart that lie before what it matches. -/
def Pattern.Alike (pattern : Pattern) (p q : Path) : Prop :=
  ∀ s : Path, s.IsInner → pattern.accepts (p.join s).text = pattern.accepts (q.join s).text

theorem Pattern.Alike.symm {pattern : Pattern} {p q : Path} (h : pattern.Alike p q) :
    pattern.Alike q p :=
  fun s hs => (h s hs).symm

theorem dropLast_pieces_join {p s : Path} (hp : p.text ≠ "") (hs : s.IsInner) :
    (p.join s).pieces.dropLast = Tree.patternPieces p ++ s.pieces.dropLast := by
  rw [Path.pieces_join hp hs.isAbsolute_eq, List.dropLast_append_of_ne_nil s.pieces_ne_nil]

theorem alike_anywhere {name : String} (h : '/' ∉ name.toList) {p q : Path} (hp : p.text ≠ "")
    (hq : q.text ≠ "") (same : name ∈ Tree.patternPieces p ↔ name ∈ Tree.patternPieces q) :
    (Pattern.anywhere name).Alike p q := by
  intro s hs
  rw [Bool.eq_iff_iff, accepts_anywhere h, accepts_anywhere h, dropLast_pieces_join hp hs,
    dropLast_pieces_join hq hs, List.mem_append, List.mem_append, same]

end PotExtract.Glob
