import PotExtract.Proofs.Files.Places

/-!
# Directories that hold the same

Two directories with the same below them are told apart by the paths that
lead to them, and by nothing that a path says after those.

* `Path.Twins`: two paths continue two others alike;
* `AreCopies`: two paths lead to directories that hold the same;
* `AreCopies.find`: where twins lead, and what is there.
-/

namespace PotExtract

open PotExtract.Path (IsName)

/-! ## Twins -/

/-- Two paths that continue two others alike. -/
inductive Path.Twins (p₁ p₂ : Path) : Path → Path → Prop where
  | itself : Twins p₁ p₂ p₁ p₂
  | join {s : Path} (inner : s.IsInner) : Twins p₁ p₂ (p₁.join s) (p₂.join s)

namespace Path.Twins

variable {p₁ p₂ r₁ r₂ : Path}

theorem symm (h : Twins p₁ p₂ r₁ r₂) : Twins p₂ p₁ r₂ r₁ := by
  cases h with
  | itself => exact .itself
  | join inner => exact .join inner

theorem join_inner (hp₁ : p₁.text ≠ "") (hp₂ : p₂.text ≠ "") (h : Twins p₁ p₂ r₁ r₂) {q : Path}
    (hq : q.IsInner) : Twins p₁ p₂ (r₁.join q) (r₂.join q) := by
  cases h with
  | itself => exact .join hq
  | join inner =>
    rw [join_join hp₁ inner.isAbsolute_eq hq.isAbsolute_eq,
      join_join hp₂ inner.isAbsolute_eq hq.isAbsolute_eq]
    exact .join (inner.join hq)

theorem joinNames (hp₁ : p₁.text ≠ "") (hp₂ : p₂.text ≠ "") (h : Twins p₁ p₂ r₁ r₂)
    {names : List String} (isName : ∀ name ∈ names, IsName name) :
    Twins p₁ p₂ (r₁.joinNames names) (r₂.joinNames names) := by
  induction names generalizing r₁ r₂ with
  | nil => exact h
  | cons name names ih =>
    obtain ⟨first, rest⟩ := List.forall_mem_cons.1 isName
    exact ih (h.join_inner hp₁ hp₂ first.isInner) rest

theorem isSpelled (hp : p₁.IsSpelled) (h : Twins p₁ p₂ r₁ r₂) : r₁.IsSpelled := by
  cases h with
  | itself => exact hp
  | join inner => exact hp.join inner.isAbsolute_eq

/-- Twins begin as the paths that they continue. -/
theorem beginsHere_eq (hp : p₁.IsSpelled) (h : Twins p₁ p₂ r₁ r₂) :
    r₁.beginsHere = p₁.beginsHere := by
  cases h with
  | itself => rfl
  | join inner => exact hp.beginsHere_of_append (components_join hp inner.isAbsolute_eq)

theorem not_isHere (hp : p₁.IsSpelled) (away : p₁.beginsHere = false)
    (h : Twins p₁ p₂ r₁ r₂) : ¬ r₁.isHere = true := by
  intro here
  rw [← h.beginsHere_eq hp, beginsHere, isHere_iff.1 here] at away
  cases away

end Path.Twins

/-! ## Copies -/

/-- Two paths lead to directories that hold the same. -/
structure AreCopies (t₁ t₂ : Tree) (p₁ p₂ : Path) (place₁ place₂ : Place) : Prop where
  find₁ : t₁.find p₁ = .ok (place₁, .directory)
  find₂ : t₂.find p₂ = .ok (place₂, .directory)
  node?_eq : ∀ names, t₁.node? (place₁ ++ names) = t₂.node? (place₂ ++ names)

namespace AreCopies

variable {t₁ t₂ : Tree} {p₁ p₂ r₁ r₂ : Path} {place₁ place₂ : Place}

theorem symm (h : AreCopies t₁ t₂ p₁ p₂ place₁ place₂) :
    AreCopies t₂ t₁ p₂ p₁ place₂ place₁ :=
  ⟨h.find₂, h.find₁, fun names => (h.node?_eq names).symm⟩

theorem isSpelled (h : AreCopies t₁ t₂ p₁ p₂ place₁ place₂) : p₁.IsSpelled :=
  (Tree.locate_eq_ok (Tree.find_eq_ok.1 h.find₁).1).1

theorem locateFrom (h : AreCopies t₁ t₂ p₁ p₂ place₁ place₂) {pieces : List String}
    (noUp : ".." ∉ pieces) (names : List String) {q : Place}
    (hq : t₁.locateFrom (place₁ ++ names) pieces = .ok q) :
    ∃ more, q = place₁ ++ more ∧
      t₂.locateFrom (place₂ ++ names) pieces = .ok (place₂ ++ more) := by
  induction pieces generalizing names with
  | nil =>
    cases hq
    exact ⟨names, rfl, rfl⟩
  | cons piece pieces ih =>
    rw [List.mem_cons, not_or] at noUp
    have same := h.node?_eq names
    rw [Tree.locateFrom] at hq ⊢
    cases hn : t₁.node? (place₁ ++ names) with
    | none => simp [hn] at hq
    | some node =>
      cases node with
      | text _ | binary => simp [hn] at hq
      | directory =>
        simp only [hn, ← same, if_neg (Ne.symm noUp.1)] at hq ⊢
        by_cases quiet : piece = "" ∨ piece = "."
        · rw [if_pos quiet] at hq ⊢
          exact ih noUp.2 _ hq
        · rw [if_neg quiet, List.append_assoc] at hq ⊢
          exact ih noUp.2 _ hq

/-- Twins lead to the same names below the two directories, where the same is. -/
theorem find (h : AreCopies t₁ t₂ p₁ p₂ place₁ place₂) (twins : Path.Twins p₁ p₂ r₁ r₂)
    {q : Place} {node : Node} (hq : t₁.find r₁ = .ok (q, node)) :
    ∃ names, q = place₁ ++ names ∧ t₂.find r₂ = .ok (place₂ ++ names, node) := by
  cases twins with
  | itself =>
    rw [h.find₁, Except.ok.injEq, Prod.mk.injEq] at hq
    obtain ⟨rfl, rfl⟩ := hq
    exact ⟨[], by simp, by simpa using h.find₂⟩
  | @join s inner =>
    obtain ⟨located, hn⟩ := Tree.find_eq_ok.1 hq
    rw [Tree.locate_join (Tree.find_eq_ok.1 h.find₁).1 inner.isAbsolute_eq] at located
    obtain ⟨names, rfl, there⟩ := h.locateFrom inner.noUp [] (by simpa using located)
    refine ⟨names, rfl, Tree.find_eq_ok.2 ⟨?_, h.node?_eq names ▸ hn⟩⟩
    rw [Tree.locate_join (Tree.find_eq_ok.1 h.find₂).1 inner.isAbsolute_eq]
    simpa using there

theorem isDirectory (h : AreCopies t₁ t₂ p₁ p₂ place₁ place₂) (twins : Path.Twins p₁ p₂ r₁ r₂)
    (hr : t₁.isDirectory r₁ = true) : t₂.isDirectory r₂ = true := by
  obtain ⟨q, found⟩ := Tree.isDirectory_iff.1 hr
  obtain ⟨names, -, found⟩ := h.find twins found
  exact Tree.isDirectory_iff.2 ⟨_, found⟩

theorem pathExists (h : AreCopies t₁ t₂ p₁ p₂ place₁ place₂) (twins : Path.Twins p₁ p₂ r₁ r₂)
    (hr : t₁.pathExists r₁ = true) : t₂.pathExists r₂ = true := by
  obtain ⟨q, node, found⟩ := Tree.pathExists_iff.1 hr
  obtain ⟨names, -, found⟩ := h.find twins found
  exact Tree.pathExists_iff.2 ⟨_, _, found⟩

end AreCopies

end PotExtract
