import PotExtract.Call.Record
import Mathlib.Data.List.Basic

/-!
# Arguments by their roles

Arguments are read from the left, each for the role at its place. The first
that is not the literal it has to be ends the reading.

* `literal?`, `domainText`: an argument as a literal, and as a domain;
* `NoLiteralAt`: an argument that is not the literal it has to be;
* `Role.read_eq_error_iff`: when one argument cannot be read;
* `exists_noLiteralAt_of_error`, `not_noLiteralAt_of_ok`: where reading stops;
* `lookup_readRoles`: what is read for a role.
-/

namespace PotExtract

open Source

/-- The literal that an argument is, a layer of parentheses apart. -/
def literal? (arg : List Char) : Option Literal :=
  Literal.parse? (unwrap arg)

/-- The domain that an argument names: what is written between quotation marks, or else all of
it. -/
def domainText (arg : List Char) : String :=
  match literal? arg with
  | some literal => String.ofList literal.body
  | none => String.ofList (unwrap arg)

/-- The argument at the place of a role. -/
def argument? (roles : List Role) (args : List (List Char)) (role : Role) : Option (List Char) :=
  if role ∈ roles then args[roles.idxOf role]? else none

/-- What the literal at the place of a role stands for. -/
def decoded? (roles : List Role) (args : List (List Char)) (role : Role) : Option String :=
  ((argument? roles args role).bind literal?).map fun literal => String.ofList literal.decode

/-- At a place whose role needs a literal, something else is given. -/
structure NoLiteralAt (roles : List Role) (args : List (List Char)) (i : Nat) (role : Role) :
    Prop where
  place : roles[i]? = some role
  needs : role.needsLiteral = true
  given : ∃ arg, args[i]? = some arg ∧ literal? arg = none

/-! ## What is read -/

theorem Role.read_literal {role : Role} (needs : role.needsLiteral = true) (arg : List Char) :
    role.read arg = match literal? arg with
      | some literal => .ok (String.ofList literal.decode)
      | none => .error (.notLiteral role) := by
  cases role with
  | text | plural | context => cases h : literal? arg <;> rw [literal?] at h <;> simp [Role.read, h]
  | count | domain => cases needs

theorem Role.read_domain (arg : List Char) : Role.domain.read arg = .ok (domainText arg) := by
  cases h : literal? arg <;> simp only [domainText, h] <;> rw [literal?] at h <;>
    simp [Role.read, h]

theorem Role.read_eq_error_iff {role : Role} {arg : List Char} {reason : SkipReason} :
    role.read arg = .error reason ↔
      role.needsLiteral = true ∧ literal? arg = none ∧ reason = .notLiteral role := by
  by_cases needs : role.needsLiteral = true
  · rw [Role.read_literal needs]
    cases literal? arg <;> simp [needs, eq_comm]
  · cases role with
    | text | plural | context => exact absurd rfl needs
    | count => simp [Role.read, Role.needsLiteral]
    | domain => simp [Role.read_domain, Role.needsLiteral]

section
variable {role first : Role} {roles : List Role} {arg : List Char} {args : List (List Char)}
  {values : List (Role × String)} {reason : SkipReason}

theorem readRoles_cons_eq_ok_iff :
    readRoles (first :: roles) (arg :: args) = .ok values ↔
      ∃ value others, first.read arg = .ok value ∧ readRoles roles args = .ok others ∧
        values = (first, value) :: others := by
  rw [readRoles]
  cases first.read arg <;> cases readRoles roles args <;>
    simp [bind, Except.bind, pure, Except.pure, eq_comm]

theorem readRoles_cons_eq_error_iff :
    readRoles (first :: roles) (arg :: args) = .error reason ↔
      first.read arg = .error reason ∨
        ∃ value, first.read arg = .ok value ∧ readRoles roles args = .error reason := by
  rw [readRoles]
  cases first.read arg <;> cases readRoles roles args <;>
    simp [bind, Except.bind, pure, Except.pure]

theorem noLiteralAt_zero_iff :
    NoLiteralAt (first :: roles) (arg :: args) 0 role ↔
      first.needsLiteral = true ∧ literal? arg = none ∧ role = first := by
  constructor
  · rintro ⟨place, needs, given, hgiven, none⟩
    cases place
    cases hgiven
    exact ⟨needs, none, rfl⟩
  · rintro ⟨needs, none, rfl⟩
    exact ⟨rfl, needs, arg, rfl, none⟩

theorem noLiteralAt_succ_iff {i : Nat} :
    NoLiteralAt (first :: roles) (arg :: args) (i + 1) role ↔ NoLiteralAt roles args i role :=
  ⟨fun ⟨place, needs, given⟩ => ⟨place, needs, given⟩,
    fun ⟨place, needs, given⟩ => ⟨place, needs, given⟩⟩

/-- Reading stops at the leftmost argument that is not the literal it has to be. -/
theorem exists_noLiteralAt_of_error (h : readRoles roles args = .error reason) :
    ∃ i role, NoLiteralAt roles args i role ∧
      (∀ j < i, ∀ other, ¬ NoLiteralAt roles args j other) ∧ reason = .notLiteral role := by
  induction roles generalizing args with
  | nil => cases h
  | cons first roles ih =>
    cases args with
    | nil => cases h
    | cons arg args =>
      rcases readRoles_cons_eq_error_iff.1 h with here | ⟨value, hvalue, more⟩
      · obtain ⟨needs, none, hreason⟩ := Role.read_eq_error_iff.1 here
        exact ⟨0, first, noLiteralAt_zero_iff.2 ⟨needs, none, rfl⟩, nofun, hreason⟩
      · obtain ⟨i, role, there, leftmost, hreason⟩ := ih more
        refine ⟨i + 1, role, noLiteralAt_succ_iff.2 there, ?_, hreason⟩
        intro j hj other at_
        cases j with
        | zero =>
          obtain ⟨needs, none, -⟩ := noLiteralAt_zero_iff.1 at_
          rw [Role.read_eq_error_iff.2 ⟨needs, none, rfl⟩] at hvalue
          cases hvalue
        | succ j => exact leftmost j (Nat.lt_of_succ_lt_succ hj) other (noLiteralAt_succ_iff.1 at_)

theorem not_noLiteralAt_of_ok (h : readRoles roles args = .ok values) (i : Nat) (role : Role) :
    ¬ NoLiteralAt roles args i role := by
  induction roles generalizing args values i with
  | nil =>
    intro at_
    cases at_.place
  | cons first roles ih =>
    cases args with
    | nil =>
      rintro ⟨-, -, arg, given, -⟩
      cases given
    | cons arg args =>
      obtain ⟨value, others, hvalue, more, -⟩ := readRoles_cons_eq_ok_iff.1 h
      intro at_
      cases i with
      | zero =>
        obtain ⟨needs, none, -⟩ := noLiteralAt_zero_iff.1 at_
        rw [Role.read_eq_error_iff.2 ⟨needs, none, rfl⟩] at hvalue
        cases hvalue
      | succ i => exact ih more i (noLiteralAt_succ_iff.1 at_)

theorem argument?_cons :
    argument? (first :: roles) (arg :: args) role =
      if first = role then some arg else argument? roles args role := by
  by_cases here : first = role
  · simp [argument?, here]
  · simp [argument?, here, Ne.symm here, List.idxOf_cons_ne roles here]

/-- A role is told by the argument at its place. -/
theorem lookup_readRoles (h : readRoles roles args = .ok values) (role : Role) :
    values.lookup role = (argument? roles args role).bind fun arg => (role.read arg).toOption := by
  induction roles generalizing args values with
  | nil =>
    cases h
    rfl
  | cons first roles ih =>
    cases args with
    | nil =>
      cases h
      simp [argument?]
    | cons arg args =>
      obtain ⟨value, others, hvalue, more, rfl⟩ := readRoles_cons_eq_ok_iff.1 h
      rw [argument?_cons, List.lookup_cons]
      by_cases here : first = role
      · subst here
        simp [hvalue, Except.toOption]
      · have skip : (role == first) = false := beq_eq_false_iff_ne.2 (Ne.symm here)
        rw [skip, if_neg here]
        exact ih more

end

end PotExtract
