import PotExtract.Proofs.Files.Spelling
import Mathlib.Data.List.TakeWhile

/-!
# What is around a path

The parents of a path say less than it does, from the same beginning.

* `pieces_ofPieces`: pieces put together are the pieces of a path;
* `IsParent`, `exists_component_of_parent?`: a parent says all but the last
  component;
* `forall_mem_ancestors`, `prefix_of_mem_ancestors`: all that is around a path;
* `Climbs`, `climbs_ancestors`: the way up from a path, to where it ends.
-/

namespace PotExtract.Path

theorem pieces_ofPieces {pieces : List String} (ne : pieces ≠ [])
    (noSlash : ∀ piece ∈ pieces, '/' ∉ piece.toList) : (ofPieces pieces).pieces = pieces := by
  induction pieces with
  | nil => contradiction
  | cons piece rest ih =>
    obtain ⟨own, others⟩ := List.forall_mem_cons.1 noSlash
    cases rest with
    | nil => rw [ofPieces, String.intercalate_singleton, pieces_of_not_mem own]
    | cons next rest =>
      have text : (ofPieces (piece :: next :: rest)).text.toList =
          piece.toList ++ '/' :: (ofPieces (next :: rest)).text.toList := by
        simp [ofPieces]
      have later := ih (List.cons_ne_nil _ _) others
      rw [pieces] at later
      rw [pieces, text, splitSlashes_append, splitSlashes_of_not_mem own, List.map_append, later]
      simp

theorem trimEnd_append (pieces : List String) :
    ∃ quiet : List String, pieces = trimEnd pieces ++ quiet ∧ quiet.filterMap component? = [] := by
  refine ⟨(pieces.reverse.takeWhile fun piece => (component? piece).isNone).reverse, ?_, ?_⟩
  · rw [trimEnd, ← List.reverse_append, List.takeWhile_append_dropWhile, List.reverse_reverse]
  · rw [List.filterMap_eq_nil_iff]
    intro piece hpiece
    simpa using List.mem_takeWhile_imp (List.mem_reverse.1 hpiece)

theorem isPrefix_trimEnd (pieces : List String) : trimEnd pieces <+: pieces := by
  obtain ⟨quiet, split, -⟩ := trimEnd_append pieces
  exact ⟨quiet, split.symm⟩

theorem filterMap_trimEnd (pieces : List String) :
    (trimEnd pieces).filterMap component? = pieces.filterMap component? := by
  obtain ⟨quiet, split, silent⟩ := trimEnd_append pieces
  have whole := congrArg (List.filterMap component?) split
  rw [List.filterMap_append, silent, List.append_nil] at whole
  exact whole.symm

theorem isSome_component?_of_trimEnd {pieces init : List String} {last : String}
    (ends : trimEnd pieces = init ++ [last]) : (component? last).isSome := by
  have turned : (pieces.reverse.dropWhile fun piece => (component? piece).isNone) =
      last :: init.reverse := by
    rw [← List.reverse_reverse (List.dropWhile _ _), ← trimEnd, ends]
    simp
  have first := List.head?_dropWhile_not (fun piece => (component? piece).isNone) pieces.reverse
  rw [turned] at first
  simpa using first

theorem components_empty : (Path.mk "").components = [] := by
  decide

theorem parent?_empty : (Path.mk "").parent? = none := by
  decide

theorem isRelative_of_pieces {p : Path} {first : String} {rest : List String}
    (own : p.pieces = first :: rest) (ne : first ≠ "") : p.IsRelative := by
  refine ⟨⟨?_⟩, ?_⟩
  · intro empty
    have alone : p.pieces = [""] := by
      rw [pieces, empty]
      rfl
    rw [alone] at own
    exact ne (List.head_eq_of_cons_eq own).symm
  · rw [← Bool.not_eq_true, isAbsolute_iff_pieces own]
    exact fun absolute => ne absolute.1

theorem IsRelative.exists_pieces {p : Path} (hp : p.IsRelative) :
    ∃ first rest, p.pieces = first :: rest ∧ first ≠ "" := by
  obtain ⟨first, rest, own, -⟩ := hp.toIsSpelled.exists_pieces
  refine ⟨first, rest, own, ?_⟩
  rintro rfl
  have nothing : rest = [] := by
    by_contra more
    have absolute := (isAbsolute_iff_pieces own).2 ⟨rfl, more⟩
    rw [hp.isAbsolute_eq] at absolute
    cases absolute
  subst nothing
  exact hp.text_ne (text_eq_of_pieces own)

/-! ## One step up -/

/-- What the parent of a path is, by the pieces of the path. -/
inductive IsParent (first : String) (rest : List String) (q : Path) : Prop where
  /-- A single component is in the working directory. -/
  | nowhere (ne : first ≠ "") (ends : trimEnd rest = []) (eq : q = ⟨""⟩)
  /-- A single component after the first slash. -/
  | root {init : List String} {last : String} (ends : trimEnd rest = init ++ [last])
      (empty : first = "") (quiet : trimEnd init = []) (eq : q = ⟨"/"⟩)
  /-- What comes before the last component. -/
  | before {init : List String} {last : String} (ends : trimEnd rest = init ++ [last])
      (speaks : first = "" → trimEnd init ≠ []) (pieces_eq : q.pieces = first :: trimEnd init)

theorem isParent_of_parent? {p q : Path} {first : String} {rest : List String}
    (own : p.pieces = first :: rest) (h : p.parent? = some q) : IsParent first rest q := by
  have noSlash : ∀ piece ∈ first :: rest, '/' ∉ piece.toList :=
    own ▸ fun _ => slash_not_mem_piece
  rw [Path.parent?, own] at h
  dsimp only at h
  rcases List.eq_nil_or_concat (trimEnd rest) with ends | ⟨init, last, ends⟩
  · rw [ends] at h
    dsimp only at h
    split_ifs at h with empty
    exact .nowhere empty ends (Option.some.inj h).symm
  · rw [List.concat_eq_append] at ends
    split at h
    · rename_i nothing
      simp [nothing] at ends
    · rw [ends, List.dropLast_concat] at h
      split at h
      · rename_i quiet
        exact .root ends rfl quiet (Option.some.inj h).symm
      · rename_i other
        have kept : trimEnd init ⊆ rest := fun piece hpiece =>
          (isPrefix_trimEnd rest).subset
            (ends ▸ List.mem_append_left _ ((isPrefix_trimEnd init).subset hpiece))
        refine .before ends (fun empty quiet => other empty quiet) ?_
        rw [← Option.some.inj h]
        exact pieces_ofPieces (List.cons_ne_nil _ _)
          fun piece hpiece => noSlash piece (List.cons_subset_cons _ kept hpiece)

/-- A parent says all that a path says but its last component. -/
theorem exists_component_of_parent? {p q : Path} (h : p.parent? = some q) :
    ∃ c, p.components = q.components ++ [c] := by
  obtain ⟨first, rest, own⟩ := List.exists_cons_of_ne_nil p.pieces_ne_nil
  have said := components_of_pieces own
  rw [← filterMap_trimEnd] at said
  -- A last component after the first piece is what the parent leaves out.
  have saidBefore {init : List String} {last : String} (ends : trimEnd rest = init ++ [last]) :
      ∃ c, p.components = (firstComponent? first true).toList ++
        (trimEnd init).filterMap component? ++ [c] := by
    obtain ⟨c, hc⟩ := Option.isSome_iff_exists.1 (isSome_component?_of_trimEnd ends)
    have more : rest.isEmpty = false := by
      cases rest with
      | nil => simp [trimEnd] at ends
      | cons piece rest => rfl
    refine ⟨c, ?_⟩
    rw [said, ends, more, List.filterMap_append, filterMap_trimEnd]
    simp [hc]
  cases isParent_of_parent? own h with
  | nowhere ne ends eq =>
    obtain ⟨c, hc⟩ := exists_firstComponent? first
    rw [firstComponent?_congr ne true !rest.isEmpty] at hc
    exact ⟨c, by rw [said, ends, hc, eq, components_empty]; rfl⟩
  | root ends empty quiet eq =>
    obtain ⟨c, saidBefore⟩ := saidBefore ends
    exact ⟨c, by rw [saidBefore, empty, quiet, eq]; rfl⟩
  | @before init last ends speaks pieces_eq =>
    obtain ⟨c, saidBefore⟩ := saidBefore ends
    refine ⟨c, ?_⟩
    rw [saidBefore, components_of_pieces pieces_eq]
    by_cases empty : first = ""
    · rw [List.isEmpty_eq_false_iff.2 (speaks empty)]
      rfl
    · rw [firstComponent?_congr empty true !(trimEnd init).isEmpty]

/-- A parent says the beginning of what a path says. -/
theorem prefix_of_parent? {p q : Path} (h : p.parent? = some q) :
    q.components <+: p.components := by
  obtain ⟨c, said⟩ := exists_component_of_parent? h
  exact ⟨[c], said.symm⟩

theorem IsRelative.parent? {p q : Path} (hp : p.IsRelative) (h : p.parent? = some q) :
    q = ⟨""⟩ ∨ q.IsRelative := by
  obtain ⟨first, rest, own, first_ne⟩ := hp.exists_pieces
  cases isParent_of_parent? own h with
  | nowhere ne ends eq => exact .inl eq
  | root ends empty quiet eq => exact absurd empty first_ne
  | before ends speaks pieces_eq => exact .inr (isRelative_of_pieces pieces_eq first_ne)

theorem isAbsolute_of_parent? {p q : Path} (hp : p.isAbsolute = true) (h : p.parent? = some q) :
    q.isAbsolute = true := by
  obtain ⟨first, rest, own⟩ := List.exists_cons_of_ne_nil p.pieces_ne_nil
  obtain ⟨rfl, -⟩ := (isAbsolute_iff_pieces own).1 hp
  cases isParent_of_parent? own h with
  | nowhere ne ends eq => exact absurd rfl ne
  | root ends empty quiet eq => exact eq ▸ rfl
  | before ends speaks pieces_eq => exact (isAbsolute_iff_pieces pieces_eq).2 ⟨rfl, speaks rfl⟩

theorem IsRelative.exists_parent {p : Path} (hp : p.IsRelative) : ∃ q, p.parent? = some q := by
  obtain ⟨first, rest, own, first_ne⟩ := hp.exists_pieces
  rw [Path.parent?, own]
  dsimp only
  split
  · exact ⟨_, if_neg first_ne⟩
  · split
    · exact ⟨_, rfl⟩
    · exact ⟨_, rfl⟩

/-- Only the slash alone, however often it is written, is an absolute path without a parent. -/
theorem components_of_parent?_eq_none {p : Path} (hp : p.isAbsolute = true)
    (h : p.parent? = none) : p.components = [.root] := by
  obtain ⟨first, rest, own⟩ := List.exists_cons_of_ne_nil p.pieces_ne_nil
  obtain ⟨rfl, more⟩ := (isAbsolute_iff_pieces own).1 hp
  have silent : trimEnd rest = [] := by
    by_contra speaks
    rw [Path.parent?, own] at h
    dsimp only at h
    split at h
    · contradiction
    · split at h <;> cases h
  rw [components_of_pieces own, ← filterMap_trimEnd, silent, List.isEmpty_eq_false_iff.2 more]
  rfl

/-! ## All the way up -/

/-- What a path hands on to its parent, it hands on to all that is around it. -/
theorem forall_mem_ancestors {P : Path → Prop} {p : Path} (hp : P p)
    (step : ∀ p q, P p → p.parent? = some q → P q) :
    ∀ q ∈ p.ancestors, P q := by
  have each (n : Nat) (p : Path) (hp : P p) : ∀ q ∈ ancestors.go n p, P q := by
    induction n generalizing p with
    | zero => simp [ancestors.go]
    | succ n ih =>
      rw [ancestors.go]
      cases outer : p.parent? with
      | none => exact List.forall_mem_singleton.2 hp
      | some parent => exact List.forall_mem_cons.2 ⟨hp, ih parent (step p parent hp outer)⟩
  exact each _ p hp

/-- What is around a path says the beginning of what it says. -/
theorem prefix_of_mem_ancestors {p q : Path} (h : q ∈ p.ancestors) :
    q.components <+: p.components :=
  forall_mem_ancestors (P := fun q => q.components <+: p.components) List.prefix_rfl
    (fun _ _ less parent => (prefix_of_parent? parent).trans less) q h

/-- A path is the innermost of what is around it. -/
theorem exists_ancestors (p : Path) : ∃ outer, p.ancestors = p :: outer := by
  rw [ancestors, ancestors.go]
  cases p.parent? with
  | none => exact ⟨_, rfl⟩
  | some parent => exact ⟨_, rfl⟩

/-- The way up from a path: the path, its parent, the parent of that, and so on while there is
one. -/
inductive Climbs : Path → List Path → Prop where
  | top {p : Path} (ends : p.parent? = none) : Climbs p [p]
  | up {p parent : Path} {outer : List Path} (next : p.parent? = some parent)
      (more : Climbs parent outer) : Climbs p (p :: outer)

theorem length_components_le (p : Path) : p.components.length ≤ p.pieces.length := by
  obtain ⟨first, rest, own⟩ := List.exists_cons_of_ne_nil p.pieces_ne_nil
  rw [components, own]
  dsimp only
  have one : (firstComponent? first !rest.isEmpty).toList.length ≤ 1 := Option.length_toList_le
  have others := List.length_filterMap_le component? rest
  rw [List.length_append, List.length_cons]
  omega

/-- A path has no more parents than it has components, so that none is left out. -/
theorem climbs_ancestors (p : Path) : p.Climbs p.ancestors := by
  have each (n : Nat) (p : Path) (enough : p.components.length < n) :
      p.Climbs (ancestors.go n p) := by
    induction n generalizing p with
    | zero => exact absurd enough (Nat.not_lt_zero _)
    | succ n ih =>
      rw [ancestors.go]
      cases next : p.parent? with
      | none => exact .top next
      | some parent =>
        obtain ⟨c, said⟩ := exists_component_of_parent? next
        rw [said, List.length_append, List.length_singleton] at enough
        exact .up next (ih parent (by omega))
  exact each _ p (Nat.lt_succ_of_le p.length_components_le)

/-- The way up from a relative path ends nowhere, which is the working directory. -/
theorem Climbs.getLast?_eq {p : Path} {dirs : List Path} (h : p.Climbs dirs)
    (hp : p = ⟨""⟩ ∨ p.IsRelative) : dirs.getLast? = some ⟨""⟩ := by
  induction h with
  | top ends =>
    rcases hp with rfl | relative
    · rfl
    · obtain ⟨q, next⟩ := relative.exists_parent
      rw [ends] at next
      cases next
  | @up p parent outer next more ih =>
    have relative : p.IsRelative := by
      refine hp.resolve_left ?_
      rintro rfl
      rw [parent?_empty] at next
      cases next
    rw [List.getLast?_cons, ih (relative.parent? next)]
    rfl

/-- The way up from an absolute path ends at the top. -/
theorem Climbs.exists_getLast? {p : Path} {dirs : List Path} (h : p.Climbs dirs)
    (hp : p.isAbsolute = true) :
    ∃ top, dirs.getLast? = some top ∧ top.components = [.root] := by
  induction h with
  | top ends => exact ⟨_, rfl, components_of_parent?_eq_none hp ends⟩
  | @up p parent outer next more ih =>
    obtain ⟨top, last, said⟩ := ih (isAbsolute_of_parent? hp next)
    refine ⟨top, ?_, said⟩
    rw [List.getLast?_cons, last]
    rfl

end PotExtract.Path
