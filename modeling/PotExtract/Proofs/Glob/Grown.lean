import PotExtract.Proofs.Files.Expansion
import PotExtract.Proofs.Files.Grown

/-!
# Patterns in a tree that has grown

A search finds what it found before, in the same order, and besides it only
what is new. That may fail where components match two dots: these lead from a
new directory to old ones.

* `Steady`: a search that cannot lead from what is new to what is old;
* `Steady.isDirectory`: it finds an old directory from an old directory only;
* `FindsAgain`, `Tree.Grows.findsAgain`: it finds the same old directories again.
-/

namespace PotExtract

open Glob
open PotExtract.Path (Component IsName)

variable {t t' : Tree} {file : Place}

theorem Path.placeOf_stem (home : Place) (p : Path) :
    placeOf home p.stem = placeOf home p.components := by
  unfold stem
  split_ifs with here
  · rw [isHere_iff.1 here]
    rfl
  · rfl

theorem Path.up_mem_stem {p : Path} (h : ".." ∈ p.pieces) : .up ∈ p.stem := by
  have said := up_mem_components.2 h
  unfold stem
  split_ifs with here
  · rw [isHere_iff.1 here] at said
    simp at said
  · exact said

/-- A path that continues another by names leads to where the names lead. -/
theorem Path.Descends.place_eq {p q : Path} {names : List String} (h : p.Descends q names)
    (home : t'.home = t.home) {place place' : Place} {node node' : Node}
    (found : t.find p = .ok (place, node)) (found' : t'.find q = .ok (place', node')) :
    place' = place ++ names := by
  rw [(Tree.locate_eq_ok (Tree.find_eq_ok.1 found').1).2.2,
    (Tree.locate_eq_ok (Tree.find_eq_ok.1 found).1).2.2, home, ← placeOf_stem, ← placeOf_stem _ p,
    h.stem_eq, placeOf_append_names]

/-- A search from a path that cannot lead from what is new to what is old: neither the path nor
the components lead up, or else no directory is new. -/
structure Steady (t t' : Tree) (p : Path) (patterns : List Pattern) : Prop where
  isSpelled : p.IsSpelled
  noSlash : ∀ pattern ∈ patterns, ∀ text, pattern.literal? = some text → '/' ∉ text.toList
  keeps : (.up ∉ p.stem ∧ ∀ pattern ∈ patterns, pattern.Descends) ∨
    ∀ place, t'.node? place = some .directory → t.node? place = some .directory

namespace Steady

variable {p : Path} {pattern : Pattern} {rest : List Pattern}

theorem tail (h : Steady t t' p (pattern :: rest)) : Steady t t' p rest where
  isSpelled := h.isSpelled
  noSlash other mem := h.noSlash other (List.mem_cons_of_mem _ mem)
  keeps := h.keeps.imp_left fun ⟨noUp, down⟩ => ⟨noUp, (List.forall_mem_cons.1 down).2⟩

theorem next (h : Steady t t' p (pattern :: rest)) {text : String}
    (literal : pattern.literal? = some text) (found : t'.hasNext p text = true) :
    Steady t t' (p.next text) rest := by
  have noSlash := h.noSlash pattern List.mem_cons_self text literal
  obtain ⟨relative, stem⟩ := Tree.next_of_hasNext h.isSpelled noSlash found
  refine ⟨relative, h.tail.noSlash, h.keeps.imp_left fun ⟨noUp, down⟩ => ⟨?_, ?_⟩⟩
  · rw [stem, List.mem_append, not_or]
    refine ⟨noUp, fun up => ?_⟩
    obtain ⟨piece, mem, said⟩ := List.mem_filterMap.1 up
    rw [List.mem_singleton.1 mem, Path.component?] at said
    split_ifs at said with quiet dots
    · exact (down pattern List.mem_cons_self).literal?_ne (dots ▸ literal)
    · cases said
  · exact (List.forall_mem_cons.1 down).2

theorem continueBy (h : Steady t t' p (pattern :: rest)) {names : List String}
    (isName : ∀ name ∈ names, IsName name) (ne : names ≠ []) :
    Steady t t' (p.continueBy names) rest := by
  obtain ⟨relative, stem⟩ := h.isSpelled.continueBy isName ne
  refine ⟨relative, h.tail.noSlash, h.keeps.imp_left fun ⟨noUp, down⟩ => ⟨?_, ?_⟩⟩
  · rw [stem]
    simpa using noUp
  · exact (List.forall_mem_cons.1 down).2

theorem join_dots (h : Steady t t' p (pattern :: rest)) (wild : pattern.literal? = none)
    {dot : String} (mem : dot ∈ pattern.dots) : Steady t t' (p.join ⟨dot⟩) rest := by
  have relative : (Path.mk dot).isAbsolute = false := by
    unfold Pattern.dots at mem
    split_ifs at mem
    · rcases List.mem_pair.1 (List.mem_filter.1 mem).1 with rfl | rfl <;> rfl
    · simp at mem
  refine ⟨h.isSpelled.join relative, h.tail.noSlash, .inr ?_⟩
  rcases h.keeps with ⟨-, down⟩ | same
  · rw [Pattern.dots_eq_nil wild (down pattern List.mem_cons_self).noUp] at mem
    simp at mem
  · exact same

/-- A directory that was there before, was found before. -/
theorem isDirectory_back (h : Steady t t' p rest) (g : Tree.Grows t t' file) {place : Place}
    (found : t'.find p = .ok (place, .directory)) (there : t.node? place = some .directory) :
    t.isDirectory p = true := by
  rcases h.keeps with ⟨noUp, -⟩ | old
  · have noDots : ".." ∉ p.pieces := fun up => noUp (Path.up_mem_stem up)
    exact Tree.isDirectory_iff.2 ⟨place, g.find_back noDots found there⟩
  · have keeps : Tree.Keeps t' t := ⟨g.home_eq.symm, old _⟩
    exact keeps.isDirectory (Tree.isDirectory_iff.2 ⟨place, found⟩)

end Steady

namespace Tree

/-! ## Where a search goes on -/

theorem pathExists_of_isDirectory {p : Path} (h : t.isDirectory p = true) :
    t.pathExists p = true := by
  obtain ⟨place, found⟩ := isDirectory_iff.1 h
  exact pathExists_iff.2 ⟨place, _, found⟩

theorem locateFrom_of_quiet {place : Place} (h : t.node? place = some .directory)
    {pieces : List String} (quiet : pieces.filterMap Path.component? = []) :
    t.locateFrom place pieces = .ok place := by
  induction pieces with
  | nil => rfl
  | cons piece pieces ih =>
    rw [List.filterMap_cons] at quiet
    cases said : Path.component? piece with
    | some c => simp [said] at quiet
    | none =>
      have silent : piece = "" ∨ piece = "." := by
        by_contra spoken
        rw [Path.component?, if_neg spoken] at said
        split_ifs at said
      rw [said] at quiet
      rw [locateFrom, h]
      dsimp only
      rw [if_pos silent, ih quiet]

theorem WellFormed.find_of_isHere (wf : t.WellFormed) {p : Path} (hp : p.IsSpelled)
    (here : p.isHere = true) : t.find p = .ok (t.home, .directory) := by
  have said := Path.isHere_iff.1 here
  have relative : p.isAbsolute = false := by
    rw [← Bool.not_eq_true, Path.isAbsolute_iff_components, said]
    simp
  have begins : p.beginsHere = true := by
    rw [Path.beginsHere_iff_components, said]
    rfl
  have route : p.route = [] := by
    rw [p.components_eq, Path.beginning, relative, begins] at said
    exact (List.cons.inj said).2
  have located : t.locate p = .ok t.home := by
    rw [locate_of_spelled hp, origin, relative]
    exact locateFrom_of_quiet wf.home_directory route
  exact find_eq_ok.2 ⟨located, wf.home_directory⟩

theorem isDirectory_of_pathExists_join {p s : Path} (hp : p.IsSpelled)
    (hs : s.isAbsolute = false) (h : t.pathExists (p.join s) = true) : t.isDirectory p = true := by
  obtain ⟨q, node, found⟩ := pathExists_iff.1 h
  obtain ⟨-, led, -⟩ := locate_eq_ok (find_eq_ok.1 found).1
  rw [Path.pieces_join hp.text_ne hs, origin_eq (hp.isAbsolute_join hs),
    locateFrom_append_eq_ok] at led
  obtain ⟨m, trunk, further⟩ := led
  have there : t.node? m = some .directory := by
    obtain ⟨piece, pieces, own⟩ := List.exists_cons_of_ne_nil s.pieces_ne_nil
    rw [own, locateFrom] at further
    cases hn : t.node? m with
    | none => simp [hn] at further
    | some n =>
      cases n with
      | text _ | binary => simp [hn] at further
      | directory => rfl
  have located : t.locate p = .ok m := by
    rw [locate_of_spelled hp]
    rcases p.pieces_eq_patternPieces with same | slash
    · rw [same, trunk]
    · rw [slash, locateFrom_append_eq_ok]
      exact ⟨m, trunk, locateFrom_of_quiet there (by decide)⟩
  exact isDirectory_iff.2 ⟨m, find_eq_ok.2 ⟨located, there⟩⟩

theorem WellFormed.isDirectory_of_hasNext (wf : t.WellFormed) {p : Path} (hp : p.IsSpelled)
    {text : String} (noSlash : '/' ∉ text.toList) (h : t.hasNext p text = true) :
    t.isDirectory p = true := by
  by_cases here : p.isHere = true
  · exact isDirectory_iff.2 ⟨_, wf.find_of_isHere hp here⟩
  · unfold hasNext at h
    split_ifs at h
    · exact h
    · rw [Path.next_eq here] at h
      exact isDirectory_of_pathExists_join hp (Path.isAbsolute_of_not_mem noSlash) h

theorem isDirectory_of_mem_namesBelow {p : Path} {names : List String}
    (h : names ∈ t.namesBelow p) : t.isDirectory p = true := by
  unfold namesBelow at h
  split at h
  · rename_i place found
    exact isDirectory_iff.2 ⟨place, found⟩
  · simp at h

/-- A search goes on from directories only. -/
theorem WellFormed.eq_or_isDirectory_of_mem_expandFrom (wf : t.WellFormed) {p q : Path}
    {patterns : List Pattern} (hp : p.IsSpelled)
    (noSlash : ∀ pattern ∈ patterns, ∀ text, pattern.literal? = some text → '/' ∉ text.toList)
    (h : q ∈ t.expandFrom p patterns) : q = p ∨ t.isDirectory p = true := by
  induction patterns with
  | nil => exact .inl (List.mem_singleton.1 (by simpa [expandFrom] using h))
  | cons pattern rest ih =>
    obtain ⟨own, others⟩ := List.forall_mem_cons.1 noSlash
    cases literal : pattern.literal? with
    | some text =>
      rw [expandFrom_literal literal] at h
      split_ifs at h with found
      · exact .inr (wf.isDirectory_of_hasNext hp (own text literal) found)
      · simp at h
    | none =>
      by_cases recursive : pattern.isRecursive = true
      · cases rest with
        | nil =>
          rw [expandFrom_recursive_last recursive] at h
          obtain ⟨names, mem, -⟩ := List.mem_map.1 (List.mem_filter.1 h).1
          exact .inr (isDirectory_of_mem_namesBelow mem)
        | cons next rest =>
          by_cases again : next.isRecursive = true
          · rw [expandFrom_recursive_again recursive again] at h
            exact ih others h
          · rw [expandFrom_recursive_next recursive again] at h
            obtain ⟨q', hq', -⟩ := List.mem_flatMap.1 h
            obtain ⟨names, mem, -⟩ := List.mem_map.1 hq'
            exact .inr (isDirectory_of_mem_namesBelow mem)
      · rw [expandFrom_names literal recursive] at h
        split_ifs at h with there
        · exact .inr there
        · simp at h

end Tree

namespace Steady

variable {p q : Path} {patterns : List Pattern}

/-- An old directory is found from an old directory only. -/
theorem isDirectory (h : Steady t t' p patterns) (g : Tree.Grows t t' file)
    (hq : q ∈ t'.expandFrom p patterns) (old : t.isDirectory q = true) :
    t.isDirectory p = true := by
  rcases g.wf'.eq_or_isDirectory_of_mem_expandFrom h.isSpelled h.noSlash hq with rfl | there
  · exact old
  · obtain ⟨place, found⟩ := Tree.isDirectory_iff.1 there
    refine h.isDirectory_back g found ?_
    rcases h.keeps with ⟨-, down⟩ | same
    · obtain ⟨names, descends, -⟩ := g.wf'.descends_of_mem_expandFrom h.isSpelled down hq
      obtain ⟨place', found'⟩ := Tree.isDirectory_iff.1 old
      have inside := (Tree.find_eq_ok.1 found').2
      rw [descends.place_eq g.home_eq.symm found found'] at inside
      by_cases here : names = []
      · simpa [here] using inside
      · exact g.wf.node?_around here inside
    · exact same place (Tree.find_eq_ok.1 found).2

theorem filter_eq_nil (h : Steady t t' p patterns) (g : Tree.Grows t t' file)
    (new : ¬ t.isDirectory p = true) :
    (t'.expandFrom p patterns).filter t.isDirectory = [] ∧
      (t.expandFrom p patterns).filter t.isDirectory = [] := by
  rw [List.filter_eq_nil_iff, List.filter_eq_nil_iff]
  constructor
  · intro q hq old
    exact new (h.isDirectory g hq old)
  · intro q hq old
    rcases g.wf.eq_or_isDirectory_of_mem_expandFrom h.isSpelled h.noSlash hq with rfl | there
    · exact new old
    · exact new there

end Steady

/-! ## The same directories again -/

theorem Tree.Grows.pathExists (g : Tree.Grows t t' file) {p : Path}
    (h : t.pathExists p = true) : t'.pathExists p = true := by
  obtain ⟨q, node, found⟩ := Tree.pathExists_iff.1 h
  by_cases own : q = file
  · obtain ⟨content, after⟩ := g.after
    obtain ⟨located, -⟩ := Tree.find_eq_ok.1 found
    subst own
    exact Tree.pathExists_iff.2 ⟨q, _, Tree.find_eq_ok.2
      ⟨g.keeps.locate located, after⟩⟩
  · exact Tree.pathExists_iff.2 ⟨q, node, g.find own found⟩

/-- An old directory is still one. -/
theorem Tree.Grows.isDirectory_and (g : Tree.Grows t t' file) (p : Path) :
    (t.isDirectory p && t'.isDirectory p) = t.isDirectory p := by
  cases old : t.isDirectory p with
  | false => rfl
  | true => rw [g.keeps.isDirectory old, Bool.and_self]

theorem Tree.Grows.hasNext (g : Tree.Grows t t' file) {p : Path} {text : String}
    (h : t.hasNext p text = true) : t'.hasNext p text = true := by
  unfold Tree.hasNext at h ⊢
  split_ifs at h ⊢
  · exact g.keeps.isDirectory h
  · exact g.pathExists h

/-- The names that lead to old directories from one of them. -/
theorem Tree.Grows.filter_namesBelow (g : Tree.Grows t t' file) {p : Path} (hp : p.IsSpelled)
    (old : t.isDirectory p = true) {chosen : List String → Bool}
    (only : ∀ names, chosen names = true → t.isDirectory (p.continueBy names) = true) :
    (t'.namesBelow p).filter chosen = (t.namesBelow p).filter chosen := by
  obtain ⟨place, found⟩ := Tree.isDirectory_iff.1 old
  obtain ⟨place', found'⟩ := Tree.isDirectory_iff.1 (g.keeps.isDirectory old)
  obtain rfl : place' = place := by
    rw [(Tree.locate_eq_ok (Tree.find_eq_ok.1 found').1).2.2, g.home_eq,
      (Tree.locate_eq_ok (Tree.find_eq_ok.1 found).1).2.2]
  have inside {names : List String} (isName : ∀ name ∈ names, IsName name) (ne : names ≠ [])
      (picked : chosen names = true) : t.node? (place' ++ names) = some .directory := by
    obtain ⟨relative, stem⟩ := hp.continueBy isName ne
    obtain ⟨q, there⟩ := Tree.isDirectory_iff.1 (only names picked)
    rw [← (Path.Descends.mk relative isName stem).place_eq rfl found there]
    exact (Tree.find_eq_ok.1 there).2
  have same : ∀ entry : Place × Node, (chosen ∘ Prod.fst) entry = true →
      (entry ∈ t'.below place' ↔ entry ∈ t.below place') := by
    rintro ⟨names, node⟩ picked
    rw [g.wf'.mem_below_iff, g.wf.mem_below_iff]
    constructor
    · rintro ⟨ne, there⟩
      have old := inside (fun name hname =>
        g.wf'.isName_of_node? there name (List.mem_append_right _ hname)) ne picked
      rw [g.kept_directory old, Option.some.injEq] at there
      exact ⟨ne, there ▸ old⟩
    · rintro ⟨ne, there⟩
      have old := inside (fun name hname =>
        g.wf.isName_of_node? there name (List.mem_append_right _ hname)) ne picked
      rw [old, Option.some.injEq] at there
      exact ⟨ne, there ▸ g.kept_directory old⟩
  simp only [Tree.namesBelow, found, found', List.filter_map,
    Tree.filter_below g.wf g.wf' place' same]

theorem flatMap_filter_of_nil {α β : Type} {l : List α} {f : α → List β} (chosen : α → Bool)
    (h : ∀ a ∈ l, ¬ chosen a = true → f a = []) : (l.filter chosen).flatMap f = l.flatMap f := by
  induction l with
  | nil => rfl
  | cons a l ih =>
    obtain ⟨own, others⟩ := List.forall_mem_cons.1 h
    rw [List.filter_cons, List.flatMap_cons, ← ih others]
    split_ifs with picked
    · rw [List.flatMap_cons]
    · rw [own picked, List.nil_append]

theorem flatMap_ite_nil {α β : Type} (l : List α) (f : α → List β) (chosen : α → Bool) :
    (l.flatMap fun a => if chosen a then f a else []) = (l.filter chosen).flatMap f := by
  induction l with
  | nil => rfl
  | cons a l ih =>
    rw [List.flatMap_cons, List.filter_cons, ih]
    split_ifs <;> simp

/-- Components lead to the same old directories from wherever a search goes on with them. -/
def FindsAgain (t t' : Tree) (patterns : List Pattern) : Prop :=
  ∀ p, Steady t t' p patterns →
    (t'.expandFrom p patterns).filter t.isDirectory = (t.expandFrom p patterns).filter t.isDirectory

namespace Steady

variable {p : Path} {pattern : Pattern} {rest : List Pattern}

/-- Names lead on to the same directories, if the components after them do. -/
theorem filter_names (h : Steady t t' p (pattern :: rest)) (g : Tree.Grows t t' file)
    (old : t.isDirectory p = true) (chosen : List String → Bool) (further : FindsAgain t t' rest) :
    ((((t'.namesBelow p).filter chosen).map p.continueBy).flatMap fun q =>
        t'.expandFrom q rest).filter t.isDirectory =
      ((((t.namesBelow p).filter chosen).map p.continueBy).flatMap fun q =>
        t.expandFrom q rest).filter t.isDirectory := by
  have steady (u : Tree) (wf : u.WellFormed) :
      ∀ q ∈ ((u.namesBelow p).filter chosen).map p.continueBy, Steady t t' q rest := by
    intro q hq
    obtain ⟨names, mem, rfl⟩ := List.mem_map.1 hq
    obtain ⟨ne, isName⟩ := wf.mem_namesBelow (List.mem_filter.1 mem).1
    exact h.continueBy isName ne
  have names : (((t'.namesBelow p).filter chosen).map p.continueBy).filter t.isDirectory =
      (((t.namesBelow p).filter chosen).map p.continueBy).filter t.isDirectory := by
    rw [List.filter_map, List.filter_map, List.filter_filter, List.filter_filter,
      g.filter_namesBelow h.isSpelled old]
    intro names picked
    rw [Bool.and_eq_true] at picked
    exact picked.1
  have nothing (u : Tree) (hu : u = t ∨ u = t') :
      ∀ q ∈ ((u.namesBelow p).filter chosen).map p.continueBy, ¬ t.isDirectory q = true →
        (u.expandFrom q rest).filter t.isDirectory = [] := by
    rintro q hq new
    rcases hu with rfl | rfl
    · exact ((steady u g.wf q hq).filter_eq_nil g new).2
    · exact ((steady u g.wf' q hq).filter_eq_nil g new).1
  -- Names that lead to nothing old lead to no old directory, so that they may be left out first.
  rw [List.filter_flatMap, List.filter_flatMap,
    ← flatMap_filter_of_nil t.isDirectory (nothing t' (.inr rfl)), names,
    ← flatMap_filter_of_nil t.isDirectory (nothing t (.inl rfl)), List.flatMap_def,
    List.flatMap_def]
  refine congrArg List.flatten (List.map_congr_left fun q hq => further q ?_)
  exact steady t g.wf q (List.mem_filter.1 hq).1

theorem filter_literal (h : Steady t t' p (pattern :: rest)) (g : Tree.Grows t t' file)
    (old : t.isDirectory p = true) {text : String} (literal : pattern.literal? = some text)
    (further : FindsAgain t t' rest) :
    (t'.expandFrom p (pattern :: rest)).filter t.isDirectory =
      (t.expandFrom p (pattern :: rest)).filter t.isDirectory := by
  rw [Tree.expandFrom_literal literal, Tree.expandFrom_literal literal]
  by_cases found : t.hasNext p text = true
  · rw [if_pos found, if_pos (g.hasNext found)]
    exact further _ (h.next literal (g.hasNext found))
  · rw [if_neg found]
    split_ifs with found'
    · have new : ¬ t.isDirectory (p.next text) = true := by
        intro there
        apply found
        unfold Tree.hasNext
        split_ifs
        · exact old
        · exact Tree.pathExists_of_isDirectory there
      rw [((h.next literal found').filter_eq_nil g new).1]
      rfl
    · rfl

theorem filter_recursive_last (h : Steady t t' p [pattern]) (g : Tree.Grows t t' file)
    (old : t.isDirectory p = true) (recursive : pattern.isRecursive = true) :
    (t'.expandFrom p [pattern]).filter t.isDirectory =
      (t.expandFrom p [pattern]).filter t.isDirectory := by
  rw [Tree.expandFrom_recursive_last recursive, Tree.expandFrom_recursive_last recursive,
    List.filter_filter, List.filter_filter]
  simp only [g.isDirectory_and, Bool.and_self, List.filter_map]
  exact congrArg _ (g.filter_namesBelow h.isSpelled old fun _ there => there)

theorem filter_wild (h : Steady t t' p (pattern :: rest)) (g : Tree.Grows t t' file)
    (old : t.isDirectory p = true) (wild : pattern.literal? = none)
    (once : ¬ pattern.isRecursive = true) (further : FindsAgain t t' rest) :
    (t'.expandFrom p (pattern :: rest)).filter t.isDirectory =
      (t.expandFrom p (pattern :: rest)).filter t.isDirectory := by
  rw [Tree.expandFrom_names wild once, Tree.expandFrom_names wild once, if_pos old,
    if_pos (g.keeps.isDirectory old), List.flatMap_append, List.flatMap_append, List.filter_append,
    List.filter_append, List.filter_map, List.filter_map, List.filter_filter, List.filter_filter]
  congr 1
  · rw [List.filter_flatMap, List.filter_flatMap, List.flatMap_def, List.flatMap_def]
    refine congrArg List.flatten (List.map_congr_left fun q hq => ?_)
    obtain ⟨dot, mem, rfl⟩ := List.mem_map.1 hq
    exact further _ (h.join_dots wild mem)
  · exact h.filter_names g old _ further

end Steady

/-- A search finds the old directories that it found before, in the same order. -/
theorem Tree.Grows.findsAgain (g : Tree.Grows t t' file) (patterns : List Pattern) :
    FindsAgain t t' patterns := by
  -- By the number of components: a recursive one is looked up together with the one after it.
  induction hn : patterns.length using Nat.strongRecOn generalizing patterns with
  | ind n ih =>
    intro p h
    by_cases old : t.isDirectory p = true
    · cases patterns with
      | nil => rfl
      | cons pattern rest =>
        rw [List.length_cons] at hn
        have further : FindsAgain t t' rest := ih rest.length (by omega) rest rfl
        cases literal : pattern.literal? with
        | some text => exact h.filter_literal g old literal further
        | none =>
          by_cases recursive : pattern.isRecursive = true
          · cases rest with
            | nil => exact h.filter_recursive_last g old recursive
            | cons next rest =>
              by_cases again : next.isRecursive = true
              · rw [Tree.expandFrom_recursive_again recursive again,
                  Tree.expandFrom_recursive_again recursive again]
                exact further p h.tail
              · rw [Tree.expandFrom_recursive_next recursive again,
                  Tree.expandFrom_recursive_next recursive again, flatMap_ite_nil, flatMap_ite_nil,
                  List.filter_map, List.filter_map]
                rw [List.length_cons] at hn
                exact h.tail.filter_names g old _ (ih rest.length (by omega) rest rfl)
          · exact h.filter_wild g old literal recursive further
    · obtain ⟨after, before⟩ := h.filter_eq_nil g old
      rw [after, before]

end PotExtract
