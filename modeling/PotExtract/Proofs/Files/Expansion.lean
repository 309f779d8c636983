import PotExtract.Config.Basic
import PotExtract.Proofs.Files.Places
import PotExtract.Proofs.Glob.Plain
import Mathlib.Data.List.Forall2
import Mathlib.Data.List.TakeWhile

/-!
# What patterns find

A pattern that matches no dots leads down: what it finds is spelled by where
it starts and by names.

* `Path.Descends`: a path continues another by names;
* `Tree.WellFormed.descends_of_mem_expandFrom`: what is found from a path on;
* `Path.staysBelow`: a pattern whose wildcards match no dots;
* `Tree.WellFormed.components_of_mem_expand`: what such an include finds.
-/

namespace PotExtract

open Glob
open PotExtract.Path (Component IsName IsSpelled)

/-! ## Paths that lead down -/

/-- A path continues another by names. -/
structure Path.Descends (p q : Path) (names : List String) : Prop where
  isSpelled : q.IsSpelled
  isName : ∀ name ∈ names, IsName name
  stem_eq : q.stem = p.stem ++ names.map .name

/-- A path that continues another is not the working directory. -/
theorem Path.Descends.components_eq {p q : Path} {names : List String} (h : p.Descends q names)
    (ne : names ≠ []) : q.components = p.stem ++ names.map .name := by
  have away : ¬ q.isHere = true := by
    intro here
    have said := h.stem_eq
    rw [stem, if_pos here] at said
    simp [ne] at said
  rw [← h.stem_eq, stem, if_neg away]

theorem Path.Descends.trans {p q r : Path} {names more : List String} (h : p.Descends q names)
    (h' : q.Descends r more) : p.Descends r (names ++ more) where
  isSpelled := h'.isSpelled
  isName name hname := by
    rcases List.mem_append.1 hname with hname | hname
    · exact h.isName name hname
    · exact h'.isName name hname
  stem_eq := by
    rw [h'.stem_eq, h.stem_eq, List.map_append, List.append_assoc]

namespace Tree

variable {t : Tree}

/-- A literal component is there. Dots only need a directory. -/
def hasNext (t : Tree) (p : Path) (text : String) : Bool :=
  if text = "." ∨ text = ".." then t.isDirectory p else t.pathExists (p.next text)

theorem expandFrom_literal {pattern : Pattern} {text : String}
    (literal : pattern.literal? = some text) (p : Path) (rest : List Pattern) :
    t.expandFrom p (pattern :: rest) =
      if t.hasNext p text then t.expandFrom (p.next text) rest else [] := by
  simp only [expandFrom, literal]
  rfl

theorem expandFrom_recursive_last {pattern : Pattern} (recursive : pattern.isRecursive = true)
    (p : Path) : t.expandFrom p [pattern] =
      ((t.namesBelow p).map p.continueBy).filter t.isDirectory := by
  simp only [expandFrom, Pattern.literal?_of_isRecursive recursive, recursive, if_true]

theorem expandFrom_recursive_again {pattern next : Pattern}
    (recursive : pattern.isRecursive = true) (again : next.isRecursive = true) (p : Path)
    (rest : List Pattern) :
    t.expandFrom p (pattern :: next :: rest) = t.expandFrom p (next :: rest) := by
  rw [expandFrom.eq_2]
  simp only [Pattern.literal?_of_isRecursive recursive, recursive, again, if_true]

theorem expandFrom_recursive_next {pattern next : Pattern}
    (recursive : pattern.isRecursive = true) (once : ¬ next.isRecursive = true) (p : Path)
    (rest : List Pattern) : t.expandFrom p (pattern :: next :: rest) =
      ((t.namesBelow p).map p.continueBy).flatMap fun q =>
        if next.acceptsName q then t.expandFrom q rest else [] := by
  rw [expandFrom.eq_2]
  simp only [Pattern.literal?_of_isRecursive recursive, recursive, if_true, if_neg once]

theorem expandFrom_names {pattern : Pattern} (wild : pattern.literal? = none)
    (once : ¬ pattern.isRecursive = true) (p : Path) (rest : List Pattern) :
    t.expandFrom p (pattern :: rest) =
      if t.isDirectory p then
        ((pattern.dots.map fun dot => p.join ⟨dot⟩) ++
          (((t.namesBelow p).filter fun names => names.length = 1).map p.continueBy).filter
            pattern.acceptsName).flatMap fun q => t.expandFrom q rest
      else [] := by
  rw [expandFrom.eq_2]
  simp only [wild, if_neg once]

/-- A literal component leads on to itself. -/
theorem next_of_hasNext {p : Path} (hp : p.IsSpelled) {text : String}
    (noSlash : '/' ∉ text.toList) (found : t.hasNext p text = true) :
    (p.next text).IsSpelled ∧ (p.next text).stem = p.stem ++ [text].filterMap Path.component? := by
  have spelled : (p.next text).text ≠ "" := by
    by_cases dots : text = "." ∨ text = ".."
    · unfold Path.next
      by_cases here : p.isHere = true
      · rw [if_pos here]
        rcases dots with rfl | rfl <;> simp
      · rw [if_neg here]
        exact (hp.join_text noSlash).1.text_ne
    · rw [hasNext, if_neg dots, pathExists] at found
      cases there : t.find (p.next text) with
      | error e =>
        rw [there] at found
        cases found
      | ok place => exact (locate_eq_ok (find_eq_ok.1 there).1).1.text_ne
  exact hp.next noSlash spelled

theorem WellFormed.mem_namesBelow_iff (wf : t.WellFormed) {p : Path} {names : List String} :
    names ∈ t.namesBelow p ↔ ∃ place node, t.find p = .ok (place, .directory) ∧ names ≠ [] ∧
      t.node? (place ++ names) = some node := by
  unfold namesBelow
  split
  · rename_i place there
    rw [List.mem_map]
    constructor
    · rintro ⟨⟨q, node⟩, below, rfl⟩
      exact ⟨place, node, there, wf.mem_below_iff.1 below⟩
    · rintro ⟨place', node, same, inside⟩
      rw [there, Except.ok.injEq, Prod.mk.injEq] at same
      obtain ⟨rfl, -⟩ := same
      exact ⟨(names, node), wf.mem_below_iff.2 inside, rfl⟩
  · rename_i noDirectory
    simp only [List.not_mem_nil, false_iff]
    rintro ⟨place, node, there, -⟩
    exact noDirectory place there

theorem WellFormed.mem_namesBelow (wf : t.WellFormed) {p : Path} {names : List String}
    (h : names ∈ t.namesBelow p) : names ≠ [] ∧ ∀ name ∈ names, IsName name := by
  obtain ⟨place, node, -, ne, there⟩ := wf.mem_namesBelow_iff.1 h
  exact ⟨ne, fun name hname => wf.isName_of_node? there name (List.mem_append_right _ hname)⟩

theorem WellFormed.descends_continueBy (wf : t.WellFormed) {p : Path} (hp : p.IsSpelled)
    {names : List String} (h : names ∈ t.namesBelow p) :
    p.Descends (p.continueBy names) names ∧ names ≠ [] := by
  obtain ⟨ne, isName⟩ := wf.mem_namesBelow h
  obtain ⟨relative, stem⟩ := hp.continueBy isName ne
  exact ⟨⟨relative, isName, stem⟩, ne⟩

/-- What is found from a path, continues it by names; a component that is not literal, by at
least one. -/
theorem WellFormed.descends_of_mem_expandFrom (wf : t.WellFormed) {p q : Path}
    (hp : p.IsSpelled) {patterns : List Pattern} (down : ∀ pattern ∈ patterns, pattern.Descends)
    (h : q ∈ t.expandFrom p patterns) :
    ∃ names, p.Descends q names ∧
      ((∃ pattern ∈ patterns, pattern.literal? = none) → names ≠ []) := by
  fun_induction expandFrom t p patterns with
  | case1 p =>
    rw [List.mem_singleton] at h
    subst h
    exact ⟨[], ⟨hp, by simp, by simp⟩, by simp⟩
  | case2 p pattern rest text literal next found there ih =>
    obtain ⟨headDown, restDown⟩ := List.forall_mem_cons.1 down
    have noSlash := headDown.noSlash text literal
    have noUp : ".." ∉ [text] := by
      rw [List.mem_singleton]
      rintro rfl
      exact headDown.literal?_ne literal
    obtain ⟨relative, stem⟩ := next_of_hasNext hp noSlash there
    obtain ⟨own, isName, said⟩ := Path.exists_names (List.forall_mem_singleton.2 noSlash) noUp
    obtain ⟨names, descends, nonempty⟩ := ih relative restDown h
    refine ⟨own ++ names, .trans ⟨relative, isName, by rw [stem, said]⟩ descends, ?_⟩
    rintro ⟨other, hother, wild⟩
    rcases List.mem_cons.1 hother with rfl | hother
    · simp [literal] at wild
    · simp [nonempty ⟨other, hother, wild⟩]
  | case3 | case8 => simp at h
  | case4 p pattern wild inside recursive =>
    obtain ⟨names, hnames, rfl⟩ := List.mem_map.1 (List.mem_filter.1 h).1
    obtain ⟨descends, ne⟩ := wf.descends_continueBy hp hnames
    exact ⟨names, descends, fun _ => ne⟩
  | case5 p pattern wild recursive next rest again ih =>
    obtain ⟨names, descends, nonempty⟩ := ih hp (List.forall_mem_cons.1 down).2 h
    refine ⟨names, descends, fun _ => nonempty ⟨next, List.mem_cons_self, ?_⟩⟩
    exact Pattern.literal?_of_isRecursive again
  | case6 p pattern wild inside recursive next rest once ih =>
    obtain ⟨q', hq', h⟩ := List.mem_flatMap.1 h
    obtain ⟨first, hfirst, rfl⟩ := List.mem_map.1 hq'
    obtain ⟨start, ne⟩ := wf.descends_continueBy hp hfirst
    split_ifs at h
    · have restDown := (List.forall_mem_cons.1 (List.forall_mem_cons.1 down).2).2
      obtain ⟨names, descends, -⟩ := ih _ start.isSpelled restDown h
      exact ⟨first ++ names, start.trans descends, fun _ => by simp [ne]⟩
    · simp at h
  | case7 p pattern rest wild inside once there dots names ih =>
    obtain ⟨headDown, restDown⟩ := List.forall_mem_cons.1 down
    have noDots : dots = [] := by
      rw [List.map_eq_nil_iff]
      exact Pattern.dots_eq_nil wild headDown.noUp
    rw [noDots, List.nil_append] at h
    obtain ⟨q', hq', h⟩ := List.mem_flatMap.1 h
    obtain ⟨first, hfirst, rfl⟩ := List.mem_map.1 (List.mem_filter.1 hq').1
    obtain ⟨start, ne⟩ := wf.descends_continueBy hp (List.mem_filter.1 hfirst).1
    obtain ⟨names, descends, -⟩ := ih _ start.isSpelled restDown h
    exact ⟨first ++ names, start.trans descends, fun _ => by simp [ne]⟩

/-! ## Patterns after a directory -/

theorem mem_pieces_of_mem_patternPieces {p : Path} {piece : String}
    (h : piece ∈ patternPieces p) : piece ∈ p.pieces := by
  rcases p.pieces_eq_patternPieces with same | slash
  · rwa [same]
  · rw [slash]
    exact List.mem_append_left _ h

theorem globPieces_subset (p : Path) : globPieces p ⊆ patternPieces p := by
  rw [globPieces]
  split_ifs
  · exact (List.tail_sublist _).subset
  · exact List.Subset.refl _

theorem mem_pieces_of_mem_globPieces {p : Path} {piece : String} (h : piece ∈ globPieces p) :
    piece ∈ p.pieces :=
  mem_pieces_of_mem_patternPieces (globPieces_subset p h)

/-- The components of a joined pattern are looked up where those of its beginning are. -/
theorem globPieces_join {p q : Path} (hp : p.IsSpelled) (hq : q.isAbsolute = false) :
    globPieces (p.join q) = globPieces p ++ patternPieces q := by
  obtain ⟨first, rest, trunk, -⟩ := hp.exists_patternPieces
  rw [globPieces, globPieces, hp.isAbsolute_join hq, Path.patternPieces_join hp.text_ne hq, trunk]
  split_ifs <;> rfl

theorem globStart_join {p q : Path} (hp : p.IsSpelled) (hq : q.isAbsolute = false) :
    globStart (p.join q) = globStart p := by
  rw [globStart, hp.isAbsolute_join hq, globStart]

theorem isSpelled_globStart (p : Path) : (globStart p).IsSpelled := by
  rw [globStart]
  split_ifs
  · exact ⟨by decide⟩
  · exact ⟨by decide⟩

theorem stem_globStart (p : Path) :
    (globStart p).stem = if p.isAbsolute then [.root] else [] := by
  rw [globStart]
  split_ifs
  · decide
  · decide

theorem filterMap_patternPieces (p : Path) :
    (patternPieces p).filterMap Path.component? = p.route := by
  rw [Path.route]
  rcases p.pieces_eq_patternPieces with same | slash
  · rw [same]
  · rw [slash, List.filterMap_append]
    simp [Path.component?]

theorem filterMap_globPieces {p : Path} (hp : p.IsSpelled) :
    (globPieces p).filterMap Path.component? = p.route := by
  obtain ⟨first, rest, own, absolute, -⟩ := hp.exists_patternPieces
  rw [← filterMap_patternPieces, globPieces, own]
  split_ifs with slash
  · rw [absolute.1 slash]
    rfl
  · rfl

theorem exists_wild_piece {p : Path} (h : hasWildcard p.text = true) :
    ∃ piece ∈ patternPieces p, ¬ IsPlain piece := by
  obtain ⟨c, hc, wild⟩ := List.any_eq_true.1 h
  have special : c = '*' ∨ c = '?' := by simpa using wild
  have noSlash : c ≠ '/' := by rcases special with rfl | rfl <;> decide
  obtain ⟨piece, hpiece, inside⟩ := (Path.exists_mem_pieces noSlash).2 hc
  have notPlain : ¬ IsPlain piece := by
    intro plain
    obtain ⟨noStar, noMark, -⟩ := plain c inside
    exact special.elim noStar noMark
  refine ⟨piece, ?_, notPlain⟩
  rcases p.pieces_eq_patternPieces with same | slash
  · rwa [← same]
  · rw [slash, List.mem_append, List.mem_singleton] at hpiece
    rcases hpiece with hpiece | rfl
    · exact hpiece
    · simp at inside

/-- Pieces and what they are compiled to. -/
def Compiled (pieces : List String) (patterns : List Pattern) : Prop :=
  List.Forall₂ (fun piece pattern => Pattern.compile? piece = .ok pattern) pieces patterns

theorem mapM_eq_ok_iff {pieces : List String} {patterns : List Pattern} :
    pieces.mapM Pattern.compile? = .ok patterns ↔ Compiled pieces patterns := by
  induction pieces generalizing patterns with
  | nil =>
    rw [List.mapM_nil, Compiled, List.forall₂_nil_left_iff]
    exact ⟨fun h => (Except.ok.inj h).symm, fun h => h ▸ rfl⟩
  | cons piece pieces ih =>
    rw [List.mapM_cons, Compiled, List.forall₂_cons_left_iff]
    cases first : Pattern.compile? piece with
    | error e => simp [bind, Except.bind]
    | ok pattern =>
      cases rest : pieces.mapM Pattern.compile? with
      | error e =>
        simp only [bind, Except.bind, reduceCtorEq, false_iff]
        rintro ⟨head, others, -, compiled, -⟩
        rw [ih.2 compiled] at rest
        cases rest
      | ok others =>
        simp only [bind, Except.bind, pure, Except.pure, Except.ok.injEq]
        constructor
        · rintro rfl
          exact ⟨pattern, others, rfl, ih.1 rest, rfl⟩
        · rintro ⟨head, others', rfl, compiled, rfl⟩
          rw [ih.2 compiled] at rest
          cases rest
          rfl

theorem Compiled.unique {pieces : List String} {patterns others : List Pattern}
    (h : Compiled pieces patterns) (h' : Compiled pieces others) : patterns = others :=
  Except.ok.inj ((mapM_eq_ok_iff.2 h).symm.trans (mapM_eq_ok_iff.2 h'))

theorem exists_compiled_of_isPlain {pieces : List String}
    (plain : ∀ piece ∈ pieces, IsPlain piece) : ∃ patterns, Compiled pieces patterns := by
  induction pieces with
  | nil => exact ⟨[], .nil⟩
  | cons piece pieces ih =>
    obtain ⟨first, others⟩ := List.forall_mem_cons.1 plain
    obtain ⟨patterns, compiled⟩ := ih others
    exact ⟨_ :: patterns, .cons (Pattern.compile?_of_isPlain first) compiled⟩

theorem Compiled.exists_piece {pieces : List String} {patterns : List Pattern}
    (h : Compiled pieces patterns) {pattern : Pattern} (hp : pattern ∈ patterns) :
    ∃ piece ∈ pieces, Pattern.compile? piece = .ok pattern := by
  induction h with
  | nil => simp at hp
  | cons first rest ih =>
    rcases List.mem_cons.1 hp with rfl | hp
    · exact ⟨_, List.mem_cons_self, first⟩
    · obtain ⟨piece, hpiece, compiled⟩ := ih hp
      exact ⟨piece, List.mem_cons_of_mem _ hpiece, compiled⟩

theorem Compiled.exists_pattern {pieces : List String} {patterns : List Pattern}
    (h : Compiled pieces patterns) {piece : String} (hp : piece ∈ pieces) :
    ∃ pattern ∈ patterns, Pattern.compile? piece = .ok pattern := by
  induction h with
  | nil => simp at hp
  | cons first rest ih =>
    rcases List.mem_cons.1 hp with rfl | hp
    · exact ⟨_, List.mem_cons_self, first⟩
    · obtain ⟨pattern, hpattern, compiled⟩ := ih hp
      exact ⟨pattern, List.mem_cons_of_mem _ hpattern, compiled⟩

theorem Compiled.descends {pieces : List String} {patterns : List Pattern}
    (h : Compiled pieces patterns)
    (down : ∀ piece ∈ pieces, '/' ∉ piece.toList ∧ leadsUp piece = false) :
    ∀ pattern ∈ patterns, pattern.Descends := by
  intro pattern hpattern
  obtain ⟨piece, hpiece, compiled⟩ := h.exists_piece hpattern
  exact descends_of_compile? compiled (down piece hpiece).1 (down piece hpiece).2

theorem Compiled.exists_wild {pieces : List String} {patterns : List Pattern}
    (h : Compiled pieces patterns) (wild : ∃ piece ∈ pieces, ¬ IsPlain piece) :
    ∃ pattern ∈ patterns, pattern.literal? = none := by
  obtain ⟨piece, hpiece, special⟩ := wild
  obtain ⟨pattern, hpattern, compiled⟩ := h.exists_pattern hpiece
  exact ⟨pattern, hpattern, by rw [Pattern.literal?_of_compile? compiled, if_neg special]⟩

theorem expand_eq_ok_iff {pattern : Path} {paths : List Path} :
    t.expand pattern = .ok paths ↔
      (∃ whole, Pattern.compile? pattern.text = .ok whole) ∧
        ∃ patterns, Compiled (globPieces pattern) patterns ∧
          paths = t.expandFrom (globStart pattern) patterns := by
  simp only [← mapM_eq_ok_iff, expand]
  cases Pattern.compile? pattern.text with
  | error e => simp [bind, Except.bind]
  | ok compiled =>
    cases (globPieces pattern).mapM Pattern.compile? with
    | error e => simp [bind, Except.bind]
    | ok patterns => simp [bind, Except.bind, pure, Except.pure, eq_comm]

/-- Plain components are walked one by one. -/
theorem exists_of_mem_expandFrom {pieces more : List String} {patterns : List Pattern}
    (compiled : Compiled (pieces ++ more) patterns)
    (plain : ∀ piece ∈ pieces, IsPlain piece ∧ '/' ∉ piece.toList) {p q : Path}
    (hp : p.IsSpelled) (h : q ∈ t.expandFrom p patterns) :
    ∃ p' patterns', p'.IsSpelled ∧ p'.stem = p.stem ++ pieces.filterMap Path.component? ∧
      Compiled more patterns' ∧ q ∈ t.expandFrom p' patterns' := by
  induction pieces generalizing p patterns with
  | nil => exact ⟨p, patterns, hp, by simp, compiled, h⟩
  | cons piece pieces ih =>
    rw [List.cons_append] at compiled
    cases compiled with
    | @cons _ pattern _ patterns first rest =>
      obtain ⟨⟨isPlain, noSlash⟩, others⟩ := List.forall_mem_cons.1 plain
      have literal : pattern.literal? = some piece := by
        rw [Pattern.literal?_of_compile? first, if_pos isPlain]
      rw [expandFrom_literal literal] at h
      split_ifs at h with found
      · obtain ⟨relative, stem⟩ := next_of_hasNext hp noSlash found
        obtain ⟨p', patterns', relative', stem', compiled', h⟩ := ih rest others relative h
        refine ⟨p', patterns', relative', ?_, compiled', h⟩
        rw [stem', stem, List.append_assoc, ← List.filterMap_append, List.singleton_append]
      · simp at h

end Tree

namespace Path

/-- From the first component of a pattern that is not plain on, none matches two dots. -/
def staysBelow (pattern : Path) : Bool :=
  ((Tree.globPieces pattern).dropWhile fun piece => IsPlain piece).all fun piece =>
    !leadsUp piece

/-- The components of a path before the first that is not plain. -/
def trunk (base : Path) : List Component :=
  (Tree.globStart base).stem ++
    ((Tree.globPieces base).takeWhile fun piece => IsPlain piece).filterMap component?

/-- The components of a path from the first that is not plain on. -/
def branch (base : Path) : List String :=
  (Tree.globPieces base).dropWhile fun piece => IsPlain piece

theorem here_not_mem_trunk (base : Path) : .here ∉ base.trunk := by
  rw [trunk, List.mem_append, List.mem_filterMap]
  rintro (start | ⟨piece, -, said⟩)
  · rw [Tree.stem_globStart] at start
    split_ifs at start <;> simp at start
  · exact component?_ne_here piece said

/-- A pattern leads up nowhere after the trunk of the path that begins it. -/
theorem leadsDown_of_staysBelow {base inc : Path} (hb : base.IsSpelled) (inner : inc.IsInner)
    (below : (base.join inc).staysBelow = true) :
    ∀ piece ∈ base.branch ++ Tree.patternPieces inc,
      '/' ∉ piece.toList ∧ leadsUp piece = false := by
  intro piece hpiece
  have noSlash : '/' ∉ piece.toList := by
    rcases List.mem_append.1 hpiece with own | own
    · exact slash_not_mem_piece
        (Tree.mem_pieces_of_mem_globPieces ((List.dropWhile_sublist _).subset own))
    · exact slash_not_mem_piece (Tree.mem_pieces_of_mem_patternPieces own)
  refine ⟨noSlash, ?_⟩
  rw [staysBelow, Tree.globPieces_join hb inner.isAbsolute_eq, List.dropWhile_append,
    ← branch] at below
  by_cases ended : base.branch = []
  · rw [ended, List.nil_append] at hpiece
    rw [if_pos (List.isEmpty_iff.2 ended)] at below
    rw [← List.takeWhile_append_dropWhile (p := fun piece => decide (IsPlain piece))
      (l := Tree.patternPieces inc), List.mem_append] at hpiece
    rcases hpiece with before | after
    · have plain : IsPlain piece := by simpa using List.mem_takeWhile_imp before
      apply leadsUp_of_isPlain plain
      rintro rfl
      exact inner.noUp (Tree.mem_pieces_of_mem_patternPieces
        ((List.takeWhile_sublist _).subset before))
    · simpa using List.all_eq_true.1 below piece after
  · rw [if_neg (by simpa using ended)] at below
    simpa using List.all_eq_true.1 below piece hpiece

end Path

namespace Tree

variable {t : Tree}

/-- What an include after a project finds is spelled by the project's trunk and by names. -/
theorem WellFormed.components_of_mem_expand (wf : t.WellFormed) {base inc : Path}
    (hb : base.IsSpelled) (inner : inc.IsInner) (wild : hasWildcard inc.text = true)
    (below : (base.join inc).staysBelow = true) {paths : List Path}
    (h : t.expand (base.join inc) = .ok paths) {q : Path} (hq : q ∈ paths) :
    q.IsSpelled ∧ ∃ names : List String, q.components = base.trunk ++ names.map .name := by
  obtain ⟨-, patterns, compiled, rfl⟩ := expand_eq_ok_iff.1 h
  rw [globStart_join hb inner.isAbsolute_eq] at hq
  rw [globPieces_join hb inner.isAbsolute_eq,
    ← List.takeWhile_append_dropWhile (p := fun piece => decide (IsPlain piece))
      (l := globPieces base), List.append_assoc] at compiled
  have walked : ∀ piece ∈ (globPieces base).takeWhile fun piece => IsPlain piece,
      IsPlain piece ∧ '/' ∉ piece.toList := by
    intro piece hpiece
    have own := mem_pieces_of_mem_globPieces ((List.takeWhile_sublist _).subset hpiece)
    exact ⟨by simpa using List.mem_takeWhile_imp hpiece, Path.slash_not_mem_piece own⟩
  obtain ⟨start, patterns', relative, stem, compiled', hq⟩ :=
    exists_of_mem_expandFrom compiled walked (isSpelled_globStart base) hq
  obtain ⟨names, descends, nonempty⟩ := wf.descends_of_mem_expandFrom relative
    (compiled'.descends (Path.leadsDown_of_staysBelow hb inner below)) hq
  obtain ⟨piece, hpiece, special⟩ := exists_wild_piece wild
  have ne := nonempty (compiled'.exists_wild ⟨piece, List.mem_append_right _ hpiece, special⟩)
  refine ⟨descends.isSpelled, names, ?_⟩
  rw [descends.components_eq ne, stem, Path.trunk]

end Tree

end PotExtract
