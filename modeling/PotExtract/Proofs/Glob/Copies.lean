import PotExtract.Proofs.Files.Copies
import PotExtract.Proofs.Files.Expansion

/-!
# Patterns below directories that hold the same

A pattern after a path finds twins below two directories that hold the same,
if the pattern takes both paths as they are spelled.

* `AreCopies.exists_mem_expandFrom`: what components find, step by step;
* `Path.IsVerbatim`, `Path.globbed`: a path that a pattern takes as it is
  spelled, and how it is spelled in what is found;
* `AreCopies.exists_mem_expand`: what the whole of a pattern finds.
-/

namespace PotExtract

open Glob
open PotExtract.Path (IsName IsSpelled Twins)

namespace AreCopies

variable {t₁ t₂ : Tree} {p₁ p₂ r₁ r₂ : Path} {place₁ place₂ : Place}

theorem mem_namesBelow (copies : AreCopies t₁ t₂ p₁ p₂ place₁ place₂) (wf₁ : t₁.WellFormed)
    (wf₂ : t₂.WellFormed) (twins : Twins p₁ p₂ r₁ r₂) {names : List String}
    (h : names ∈ t₁.namesBelow r₁) : names ∈ t₂.namesBelow r₂ := by
  obtain ⟨place, node, there, ne, inside⟩ := wf₁.mem_namesBelow_iff.1 h
  obtain ⟨more, rfl, found⟩ := copies.find twins there
  rw [List.append_assoc, copies.node?_eq, ← List.append_assoc] at inside
  exact wf₂.mem_namesBelow_iff.2 ⟨_, node, found, ne, inside⟩

theorem hasNext (copies : AreCopies t₁ t₂ p₁ p₂ place₁ place₂) (away₁ : p₁.beginsHere = false)
    (away₂ : p₂.beginsHere = false) (twins : Twins p₁ p₂ r₁ r₂) {text : String}
    (inner : (Path.mk text).IsInner) (h : t₁.hasNext r₁ text = true) :
    t₂.hasNext r₂ text = true := by
  unfold Tree.hasNext at h ⊢
  split_ifs at h ⊢
  · exact copies.isDirectory twins h
  · rw [Path.next_eq (twins.not_isHere copies.isSpelled away₁)] at h
    rw [Path.next_eq (twins.symm.not_isHere copies.symm.isSpelled away₂)]
    exact copies.pathExists
      (twins.join_inner copies.isSpelled.text_ne copies.symm.isSpelled.text_ne inner) h

/-- Names lead from twins to twins. -/
theorem continueBy (copies : AreCopies t₁ t₂ p₁ p₂ place₁ place₂)
    (away₁ : p₁.beginsHere = false) (away₂ : p₂.beginsHere = false) (wf₁ : t₁.WellFormed)
    (twins : Twins p₁ p₂ r₁ r₂) {names : List String} (h : names ∈ t₁.namesBelow r₁) :
    Twins p₁ p₂ (r₁.continueBy names) (r₂.continueBy names) ∧
      ∀ pattern : Pattern, pattern.acceptsName (r₁.continueBy names) =
        pattern.acceptsName (r₂.continueBy names) := by
  obtain ⟨ne, isName⟩ := wf₁.mem_namesBelow h
  rw [Path.continueBy_eq (twins.not_isHere copies.isSpelled away₁),
    Path.continueBy_eq (twins.symm.not_isHere copies.symm.isSpelled away₂)]
  refine ⟨twins.joinNames copies.isSpelled.text_ne copies.symm.isSpelled.text_ne isName, ?_⟩
  intro pattern
  rw [Pattern.acceptsName, Pattern.acceptsName,
    (twins.isSpelled copies.isSpelled).fileName?_joinNames isName ne,
    (twins.symm.isSpelled copies.symm.isSpelled).fileName?_joinNames isName ne]

/-- What components that lead down find from one of two twins, they find from the other. -/
theorem exists_mem_expandFrom (copies : AreCopies t₁ t₂ p₁ p₂ place₁ place₂)
    (away₁ : p₁.beginsHere = false) (away₂ : p₂.beginsHere = false) (wf₁ : t₁.WellFormed)
    (wf₂ : t₂.WellFormed) {patterns : List Pattern}
    (down : ∀ pattern ∈ patterns, pattern.Descends) {q₁ : Path}
    (h : q₁ ∈ t₁.expandFrom r₁ patterns) :
    ∀ r₂, Twins p₁ p₂ r₁ r₂ → ∃ q₂ ∈ t₂.expandFrom r₂ patterns, Twins p₁ p₂ q₁ q₂ := by
  fun_induction Tree.expandFrom t₁ r₁ patterns with
  | case1 r₁ =>
    intro r₂ twins
    rw [List.mem_singleton] at h
    exact ⟨r₂, List.mem_singleton_self _, h ▸ twins⟩
  | case2 r₁ pattern rest text literal next found there ih =>
    intro r₂ twins
    obtain ⟨headDown, restDown⟩ := List.forall_mem_cons.1 down
    have inner : (Path.mk text).IsInner := by
      refine Path.isInner_text (headDown.noSlash text literal) ?_
      rintro rfl
      exact headDown.literal?_ne literal
    have nextTwins := twins.join_inner copies.isSpelled.text_ne copies.symm.isSpelled.text_ne
      inner
    rw [← Path.next_eq (twins.not_isHere copies.isSpelled away₁),
      ← Path.next_eq (twins.symm.not_isHere copies.symm.isSpelled away₂)] at nextTwins
    rw [Tree.expandFrom_literal literal,
      if_pos (copies.hasNext away₁ away₂ twins inner there)]
    exact ih restDown h _ nextTwins
  | case3 | case8 => simp at h
  | case4 r₁ pattern wild inside recursive =>
    intro r₂ twins
    obtain ⟨hq, directory⟩ := List.mem_filter.1 h
    obtain ⟨names, hnames, rfl⟩ := List.mem_map.1 hq
    obtain ⟨nameTwins, -⟩ := copies.continueBy away₁ away₂ wf₁ twins hnames
    rw [Tree.expandFrom_recursive_last recursive]
    refine ⟨_, List.mem_filter.2 ⟨List.mem_map.2 ⟨names, ?_, rfl⟩, ?_⟩, nameTwins⟩
    · exact copies.mem_namesBelow wf₁ wf₂ twins hnames
    · exact copies.isDirectory nameTwins directory
  | case5 r₁ pattern wild recursive next rest again ih =>
    intro r₂ twins
    rw [Tree.expandFrom_recursive_again recursive again]
    exact ih (List.forall_mem_cons.1 down).2 h r₂ twins
  | case6 r₁ pattern wild inside recursive next rest once ih =>
    intro r₂ twins
    obtain ⟨q', hq', h⟩ := List.mem_flatMap.1 h
    obtain ⟨names, hnames, rfl⟩ := List.mem_map.1 hq'
    obtain ⟨nameTwins, sameName⟩ := copies.continueBy away₁ away₂ wf₁ twins hnames
    split_ifs at h with accepted
    · have restDown := (List.forall_mem_cons.1 (List.forall_mem_cons.1 down).2).2
      obtain ⟨q₂, hq₂, found⟩ := ih _ restDown h _ nameTwins
      rw [Tree.expandFrom_recursive_next recursive once]
      refine ⟨q₂, List.mem_flatMap.2 ⟨r₂.continueBy names, List.mem_map.2 ⟨names, ?_, rfl⟩, ?_⟩,
        found⟩
      · exact copies.mem_namesBelow wf₁ wf₂ twins hnames
      · rwa [← sameName, if_pos accepted]
    · simp at h
  | case7 r₁ pattern rest wild inside once there dots names ih =>
    intro r₂ twins
    obtain ⟨headDown, restDown⟩ := List.forall_mem_cons.1 down
    have noDots : dots = [] := by
      rw [List.map_eq_nil_iff]
      exact Pattern.dots_eq_nil wild headDown.noUp
    rw [noDots, List.nil_append] at h
    obtain ⟨q', hq', h⟩ := List.mem_flatMap.1 h
    obtain ⟨hq', accepted⟩ := List.mem_filter.1 hq'
    obtain ⟨name, hname, rfl⟩ := List.mem_map.1 hq'
    obtain ⟨hname, single⟩ := List.mem_filter.1 hname
    obtain ⟨nameTwins, sameName⟩ := copies.continueBy away₁ away₂ wf₁ twins hname
    obtain ⟨q₂, hq₂, found⟩ := ih _ restDown h _ nameTwins
    rw [Tree.expandFrom_names wild once, if_pos (copies.isDirectory twins there)]
    refine ⟨q₂, List.mem_flatMap.2 ⟨r₂.continueBy name, List.mem_append_right _ ?_, hq₂⟩, found⟩
    refine List.mem_filter.2 ⟨List.mem_map.2 ⟨name, List.mem_filter.2 ⟨?_, single⟩, rfl⟩, ?_⟩
    · exact copies.mem_namesBelow wf₁ wf₂ twins hname
    · rwa [← sameName]

end AreCopies

/-! ## Paths before a pattern -/

/-- A path that a pattern takes as it is spelled: no character stands for others, and it begins
with a slash or a name. -/
structure Path.IsVerbatim (p : Path) : Prop where
  isPlain : IsPlain p.text
  noUp : ".." ∉ p.pieces
  beginsHere_eq : p.beginsHere = false

/-- Where the pieces of a path are followed one by one, and these pieces: from the slash or from
the name that begins it. -/
def Path.steps (p : Path) : Path × List String :=
  if p.isAbsolute then (⟨"/"⟩, Tree.globPieces p)
  else
    match Tree.patternPieces p with
    | [] => (p, [])
    | first :: rest => (⟨first⟩, rest)

/-- A path as it is spelled in what patterns find, which is piece by piece. -/
def Path.globbed (p : Path) : Path :=
  p.steps.1.joinNames p.steps.2

/-- A piece of a verbatim path, as it may stand in a pattern. -/
structure Path.IsVerbatimPiece (piece : String) : Prop where
  isPlain : IsPlain piece
  noSlash : '/' ∉ piece.toList
  noUp : piece ≠ ".."

section
variable {p : Path}

theorem Path.IsVerbatim.isVerbatimPiece (h : p.IsVerbatim) {piece : String}
    (hpiece : piece ∈ Tree.patternPieces p) : IsVerbatimPiece piece := by
  have own := Tree.mem_pieces_of_mem_patternPieces hpiece
  refine ⟨fun c hc => ?_, slash_not_mem_piece own, ?_⟩
  · by_cases slash : c = '/'
    · subst slash
      decide
    · exact h.isPlain c ((exists_mem_pieces slash).1 ⟨piece, own, hc⟩)
  · rintro rfl
    exact h.noUp own

/-- A path that begins with a slash is followed from the top. -/
theorem Path.steps_of_isAbsolute (hp : p.IsSpelled) (absolute : p.isAbsolute = true) :
    p.steps = (⟨"/"⟩, Tree.globPieces p) ∧ Tree.patternPieces p = "" :: Tree.globPieces p ∧
      p.components = .root :: (Tree.globPieces p).filterMap component? := by
  obtain ⟨first, rest, own, nothing, said⟩ := hp.exists_patternPieces
  obtain rfl := nothing.1 absolute
  have pieces : Tree.globPieces p = rest := by
    rw [Tree.globPieces, if_pos absolute, own, List.tail_cons]
  exact ⟨if_pos absolute, by rw [own, pieces], by rw [said, pieces]; rfl⟩

/-- A path that begins with a name is followed from there. -/
theorem Path.IsVerbatim.steps_of_isRelative (h : p.IsVerbatim) (hp : p.IsSpelled)
    (relative : p.isAbsolute = false) :
    ∃ first rest, p.steps = (⟨first⟩, rest) ∧ Tree.patternPieces p = first :: rest ∧
      IsName first ∧ p.components = .name first :: rest.filterMap component? := by
  obtain ⟨first, rest, own, nothing, said⟩ := hp.exists_patternPieces
  have head := h.isVerbatimPiece (own ▸ List.mem_cons_self)
  have spoken : first ≠ "" := by
    intro empty
    rw [nothing.2 empty] at relative
    cases relative
  have dot : first ≠ "." := by
    rintro rfl
    have begins := h.beginsHere_eq
    rw [beginsHere, said] at begins
    simp [firstComponent?] at begins
  have isName : IsName first := by
    refine ⟨?_, head.noSlash⟩
    rw [component?, if_neg (not_or.2 ⟨spoken, dot⟩), if_neg head.noUp]
  rw [firstComponent?_eq spoken dot, isName.1] at said
  refine ⟨first, rest, ?_, own, isName, said⟩
  rw [steps, relative, own]
  rfl

/-- What is known of the path that the pieces of a verbatim path are followed from. -/
structure Path.IsStart (p : Path) : Prop where
  isSpelled : p.steps.1.IsSpelled
  away : p.steps.1.beginsHere = false
  verbatim : ∀ piece ∈ p.steps.2, IsVerbatimPiece piece
  components_eq : p.components = p.steps.1.components ++ p.steps.2.filterMap component?

theorem Path.IsVerbatim.isStart (h : p.IsVerbatim) (hp : p.IsSpelled) : p.IsStart := by
  cases absolute : p.isAbsolute with
  | true =>
    obtain ⟨steps, own, said⟩ := steps_of_isAbsolute hp absolute
    have root : (Path.mk "/").components = [.root] := by decide
    constructor <;> rw [steps]
    · exact ⟨show "/" ≠ "" by decide⟩
    · rw [beginsHere, root]
      rfl
    · exact fun piece hpiece => h.isVerbatimPiece (own ▸ List.mem_cons_of_mem _ hpiece)
    · rw [said, root]
      rfl
  | false =>
    obtain ⟨first, rest, steps, own, isName, said⟩ := h.steps_of_isRelative hp absolute
    constructor <;> rw [steps]
    · exact isName.isRelative.toIsSpelled
    · rw [beginsHere, isName.components_eq]
      rfl
    · exact fun piece hpiece => h.isVerbatimPiece (own ▸ List.mem_cons_of_mem _ hpiece)
    · rw [said, isName.components_eq]
      rfl

theorem Path.IsVerbatim.components_globbed (h : p.IsVerbatim) (hp : p.IsSpelled) :
    p.globbed.IsSpelled ∧ p.globbed.components = p.components := by
  have start := h.isStart hp
  obtain ⟨spelled, components⟩ := start.isSpelled.joinPieces fun piece hpiece =>
    (start.verbatim piece hpiece).noSlash
  rw [start.components_eq]
  exact ⟨spelled, components⟩

theorem Path.IsVerbatim.beginsHere_globbed (h : p.IsVerbatim) (hp : p.IsSpelled) :
    p.globbed.beginsHere = false := by
  rw [beginsHere, (h.components_globbed hp).2]
  exact h.beginsHere_eq

end

namespace Tree

variable {t : Tree}

theorem find_top (t : Tree) : t.find ⟨"/"⟩ = .ok ([], .directory) := by
  rw [find_eq_ok]
  exact ⟨rfl, rfl⟩

/-- A verbatim path leads on from where its pieces are followed. -/
theorem exists_find_steps {base : Path} {place : Place} (verbatim : base.IsVerbatim)
    (h : t.find base = .ok (place, .directory)) :
    ∃ m, t.find base.steps.1 = .ok (m, .directory) ∧
      t.locateFrom m base.steps.2 = .ok place := by
  obtain ⟨located, there⟩ := find_eq_ok.1 h
  have hb := (locate_eq_ok located).1
  have led := locateFrom_patternPieces located
  cases absolute : base.isAbsolute with
  | true =>
    obtain ⟨steps, own, -⟩ := Path.steps_of_isAbsolute hb absolute
    rw [steps]
    refine ⟨[], t.find_top, ?_⟩
    rwa [origin, if_pos absolute, own] at led
  | false =>
    obtain ⟨first, rest, steps, own, isName, -⟩ := verbatim.steps_of_isRelative hb absolute
    have same : t.origin ⟨first⟩ = t.origin base := by
      rw [origin_eq (isName.isRelative.isAbsolute_eq.trans absolute.symm)]
    rw [own, ← List.singleton_append, locateFrom_append_eq_ok] at led
    obtain ⟨m, step, led⟩ := led
    rw [steps]
    refine ⟨m, find_eq_ok.2 ⟨?_, directory_of_locateFrom led there⟩, led⟩
    rw [locate_of_spelled isName.isRelative.toIsSpelled, Path.pieces_of_not_mem isName.2, same,
      step]

theorem find_globbed {base : Path} {place : Place} (verbatim : base.IsVerbatim)
    (h : t.find base = .ok (place, .directory)) :
    t.find base.globbed = .ok (place, .directory) := by
  obtain ⟨located, there⟩ := find_eq_ok.1 h
  obtain ⟨m, found, led⟩ := exists_find_steps verbatim h
  have start := verbatim.isStart (locate_eq_ok located).1
  exact find_eq_ok.2 ⟨locate_joinNames (find_eq_ok.1 found).1
    (fun piece hpiece => (start.verbatim piece hpiece).noSlash) led, there⟩

/-- Plain pieces lead a search where they lead a look-up. -/
theorem expandFrom_pieces {p : Path} {place : Place} (away : p.beginsHere = false)
    (h : t.find p = .ok (place, .directory)) {pieces more : List String}
    (verbatim : ∀ piece ∈ pieces, Path.IsVerbatimPiece piece) {q : Place}
    (led : t.locateFrom place pieces = .ok q) (there : t.node? q = some .directory)
    {patterns : List Pattern} (compiled : Compiled (pieces ++ more) patterns) :
    ∃ patterns', Compiled more patterns' ∧
      t.expandFrom p patterns = t.expandFrom (p.joinNames pieces) patterns' := by
  induction pieces generalizing p place patterns with
  | nil => exact ⟨patterns, compiled, rfl⟩
  | cons piece pieces ih =>
    rw [List.cons_append] at compiled
    cases compiled with
    | @cons _ pattern _ patterns first rest =>
      obtain ⟨head, others⟩ := List.forall_mem_cons.1 verbatim
      rw [← List.singleton_append, locateFrom_append_eq_ok] at led
      obtain ⟨m, step, led⟩ := led
      have hp := (locate_eq_ok (find_eq_ok.1 h).1).1
      have inner := Path.isInner_text head.noSlash head.noUp
      have found : t.find (p.join ⟨piece⟩) = .ok (m, .directory) := by
        refine find_eq_ok.2 ⟨?_, directory_of_locateFrom led there⟩
        rw [locate_join (find_eq_ok.1 h).1 inner.isAbsolute_eq,
          Path.pieces_of_not_mem head.noSlash, step]
      have alone : Twins p p p p := .itself
      have twins : Twins p p (p.join ⟨piece⟩) (p.join ⟨piece⟩) := .join inner
      have here : ¬ p.isHere = true := alone.not_isHere hp away
      have literal : pattern.literal? = some piece := by
        rw [Pattern.literal?_of_compile? first, if_pos head.isPlain]
      have next : t.hasNext p piece = true := by
        unfold hasNext
        split_ifs
        · exact isDirectory_iff.2 ⟨place, h⟩
        · rw [Path.next_eq here]
          exact pathExists_iff.2 ⟨m, _, found⟩
      obtain ⟨patterns', compiled', same⟩ :=
        ih ((twins.beginsHere_eq hp).trans away) found others led rest
      refine ⟨patterns', compiled', ?_⟩
      rw [expandFrom_literal literal, if_pos next, Path.next_eq here, same]
      rfl

/-- The first piece of a path leads a search to where the others are followed from. -/
theorem expandFrom_steps {base : Path} {place : Place} (verbatim : base.IsVerbatim)
    (h : t.find base = .ok (place, .directory)) {more : List String} {patterns : List Pattern}
    (compiled : Compiled (globPieces base ++ more) patterns) :
    ∃ patterns', Compiled (base.steps.2 ++ more) patterns' ∧
      t.expandFrom (globStart base) patterns = t.expandFrom base.steps.1 patterns' := by
  have hb := (locate_eq_ok (find_eq_ok.1 h).1).1
  obtain ⟨m, found, -⟩ := exists_find_steps verbatim h
  cases absolute : base.isAbsolute with
  | true =>
    obtain ⟨steps, -⟩ := Path.steps_of_isAbsolute hb absolute
    rw [steps, globStart, if_pos absolute]
    exact ⟨patterns, compiled, rfl⟩
  | false =>
    obtain ⟨first, rest, steps, own, isName, -⟩ := verbatim.steps_of_isRelative hb absolute
    rw [globPieces, absolute, if_neg Bool.false_ne_true, own, List.cons_append] at compiled
    rw [steps] at found
    cases compiled with
    | @cons _ pattern _ patterns compiledHead compiledRest =>
      have plain := (verbatim.isVerbatimPiece (own ▸ List.mem_cons_self)).isPlain
      have literal : pattern.literal? = some first := by
        rw [Pattern.literal?_of_compile? compiledHead, if_pos plain]
      have next : (Path.mk ".").next first = ⟨first⟩ := by
        rw [Path.next, if_pos (by decide)]
      have hasFirst : t.hasNext ⟨"."⟩ first = true := by
        unfold hasNext
        rw [if_neg (not_or.2 isName.ne.2), next]
        exact pathExists_iff.2 ⟨m, _, found⟩
      rw [steps, globStart, absolute, if_neg Bool.false_ne_true]
      refine ⟨patterns, compiledRest, ?_⟩
      rw [expandFrom_literal literal, if_pos hasFirst, next]

/-- A pattern after a directory that it takes as it is spelled is looked up from there. -/
theorem expandFrom_verbatim {base : Path} {place : Place} (verbatim : base.IsVerbatim)
    (h : t.find base = .ok (place, .directory)) {more : List String} {patterns : List Pattern}
    (compiled : Compiled (globPieces base ++ more) patterns) :
    ∃ patterns', Compiled more patterns' ∧
      t.expandFrom (globStart base) patterns = t.expandFrom base.globbed patterns' := by
  obtain ⟨located, there⟩ := find_eq_ok.1 h
  have start := verbatim.isStart (locate_eq_ok located).1
  obtain ⟨m, found, led⟩ := exists_find_steps verbatim h
  obtain ⟨later, compiledLater, first⟩ := expandFrom_steps verbatim h compiled
  obtain ⟨patterns', compiled', rest⟩ :=
    expandFrom_pieces start.away found start.verbatim led there compiledLater
  exact ⟨patterns', compiled', first.trans rest⟩

end Tree

namespace AreCopies

variable {t₁ t₂ : Tree} {base₁ base₂ : Path} {place₁ place₂ : Place}

theorem globbed (copies : AreCopies t₁ t₂ base₁ base₂ place₁ place₂)
    (verbatim₁ : base₁.IsVerbatim) (verbatim₂ : base₂.IsVerbatim) :
    AreCopies t₁ t₂ base₁.globbed base₂.globbed place₁ place₂ where
  find₁ := Tree.find_globbed verbatim₁ copies.find₁
  find₂ := Tree.find_globbed verbatim₂ copies.find₂
  node?_eq := copies.node?_eq

theorem exists_compile?_join {base inc : Path} (plain : IsPlain base.text) (ne : base.text ≠ "")
    (relative : inc.isAbsolute = false) :
    (∃ whole, Pattern.compile? (base.join inc).text = .ok whole) ↔
      ∃ out, compileFrom 0 (some '/') [] inc.text.toList = .ok out := by
  have trunk : ∃ a, base.lead.toList = a ++ ['/'] ∧ ∀ c ∈ a, c ≠ '*' ∧ c ≠ '?' ∧ c ≠ '[' := by
    unfold Path.lead
    split_ifs with slash
    · obtain ⟨a, ha⟩ := List.getLast?_eq_some_iff.1 slash
      exact ⟨a, ha, fun c hc => plain c (ha ▸ List.mem_append_left _ hc)⟩
    · exact ⟨base.text.toList, by simp, plain⟩
  obtain ⟨a, ha, plain⟩ := trunk
  rw [Path.join_eq_lead ne relative, ← exists_compileFrom_plain plain 0 none [],
    Pattern.compile?, String.toList_append, ha, List.append_assoc, List.singleton_append]
  cases compileFrom 0 none [] (a ++ '/' :: inc.text.toList) <;> simp [Except.map]

/-- What a pattern finds after one path, it finds after a path to the same. -/
theorem exists_mem_expand (copies : AreCopies t₁ t₂ base₁ base₂ place₁ place₂)
    (wf₁ : t₁.WellFormed) (wf₂ : t₂.WellFormed) (verbatim₁ : base₁.IsVerbatim)
    (verbatim₂ : base₂.IsVerbatim) {inc : Path} (inner : inc.IsInner)
    (down : ∀ piece ∈ Tree.patternPieces inc, leadsUp piece = false) {paths₁ : List Path}
    (h : t₁.expand (base₁.join inc) = .ok paths₁) {q₁ : Path} (hq : q₁ ∈ paths₁) :
    ∃ paths₂, t₂.expand (base₂.join inc) = .ok paths₂ ∧
      ∃ q₂ ∈ paths₂, Twins base₁.globbed base₂.globbed q₁ q₂ := by
  have hb₁ := copies.isSpelled
  have hb₂ := copies.symm.isSpelled
  have relative := inner.isAbsolute_eq
  rw [Tree.expand_eq_ok_iff, exists_compile?_join verbatim₁.isPlain hb₁.text_ne relative,
    Tree.globPieces_join hb₁ relative, Tree.globStart_join hb₁ relative] at h
  obtain ⟨whole, all₁, compiled₁, rfl⟩ := h
  obtain ⟨patterns, compiled, same₁⟩ :=
    Tree.expandFrom_verbatim verbatim₁ copies.find₁ compiled₁
  obtain ⟨heads, compiledHeads⟩ := Tree.exists_compiled_of_isPlain
    fun piece hpiece => (verbatim₂.isVerbatimPiece (Tree.globPieces_subset base₂ hpiece)).isPlain
  have compiled₂ := List.rel_append compiledHeads compiled
  obtain ⟨patterns', compiled', same₂⟩ :=
    Tree.expandFrom_verbatim verbatim₂ copies.find₂ compiled₂
  obtain rfl : patterns' = patterns := compiled'.unique compiled
  refine ⟨t₂.expandFrom (Tree.globStart base₂) (heads ++ patterns'), ?_, ?_⟩
  · rw [Tree.expand_eq_ok_iff, exists_compile?_join verbatim₂.isPlain hb₂.text_ne relative,
      Tree.globPieces_join hb₂ relative, Tree.globStart_join hb₂ relative]
    exact ⟨whole, _, compiled₂, rfl⟩
  · rw [same₁] at hq
    rw [same₂]
    have noSlash (piece : String) (hpiece : piece ∈ Tree.patternPieces inc) :
        '/' ∉ piece.toList :=
      Path.slash_not_mem_piece (Tree.mem_pieces_of_mem_patternPieces hpiece)
    exact (copies.globbed verbatim₁ verbatim₂).exists_mem_expandFrom
      (verbatim₁.beginsHere_globbed hb₁) (verbatim₂.beginsHere_globbed hb₂) wf₁ wf₂
      (compiled'.descends fun piece hpiece => ⟨noSlash piece hpiece, down piece hpiece⟩) hq _
      .itself

end AreCopies

end PotExtract
