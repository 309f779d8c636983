import PotExtract.Glob.Expand
import Mathlib.Tactic.SplitIfs

/-!
# What joined paths say

A path that is continued says what it said before, and then what was added.

* `pieces_join`: the pieces of two paths joined;
* `beginning`, `route`: where a path starts, and what it says from there;
* `components_join`, `IsSpelled.joinNames`: what a continued path says;
* `stem`: what a path says apart from being the working directory; a pattern
  is looked up along stems (`IsSpelled.next`, `IsSpelled.continueBy`).
-/

namespace PotExtract.Path

/-! ## Pieces between slashes -/

theorem splitSlashes_ne_nil (s : List Char) : splitSlashes s ≠ [] := by
  cases s with
  | nil => simp [splitSlashes]
  | cons c r =>
    unfold splitSlashes
    split
    · simp
    · split <;> simp

theorem splitSlashes_append (a b : List Char) :
    splitSlashes (a ++ '/' :: b) = splitSlashes a ++ splitSlashes b := by
  induction a with
  | nil => simp [splitSlashes]
  | cons c r ih =>
    rw [List.cons_append, splitSlashes, splitSlashes, ih]
    by_cases hc : c = '/'
    · simp [hc]
    · cases hr : splitSlashes r with
      | nil => exact absurd hr (splitSlashes_ne_nil r)
      | cons piece pieces => simp [hc]

theorem splitSlashes_of_not_mem {s : List Char} (h : '/' ∉ s) : splitSlashes s = [s] := by
  induction s with
  | nil => rfl
  | cons c r ih =>
    rw [List.mem_cons, not_or] at h
    rw [splitSlashes, if_neg (Ne.symm h.1), ih h.2]

theorem slash_not_mem_of_mem {s piece : List Char} (h : piece ∈ splitSlashes s) :
    '/' ∉ piece := by
  induction s generalizing piece with
  | nil =>
    rw [splitSlashes, List.mem_singleton] at h
    simp [h]
  | cons c r ih =>
    rw [splitSlashes] at h
    by_cases hc : c = '/'
    · rw [if_pos hc] at h
      rcases List.mem_cons.1 h with rfl | h
      · simp
      · exact ih h
    · rw [if_neg hc] at h
      cases hr : splitSlashes r with
      | nil => exact absurd hr (splitSlashes_ne_nil r)
      | cons first pieces =>
        simp only [hr] at h ih
        rcases List.mem_cons.1 h with rfl | h
        · rw [List.mem_cons, not_or]
          exact ⟨Ne.symm hc, ih List.mem_cons_self⟩
        · exact ih (List.mem_cons_of_mem _ h)

/-- The pieces hold what the text holds apart from slashes. -/
theorem exists_mem_splitSlashes {s : List Char} {c : Char} (h : c ≠ '/') :
    (∃ piece ∈ splitSlashes s, c ∈ piece) ↔ c ∈ s := by
  induction s with
  | nil => simp [splitSlashes]
  | cons d r ih =>
    rw [splitSlashes, List.mem_cons, ← ih]
    by_cases hd : d = '/'
    · subst hd
      simp [h]
    · cases hr : splitSlashes r with
      | nil => exact absurd hr (splitSlashes_ne_nil r)
      | cons piece pieces => simp [hd, or_assoc]

theorem splitSlashes_eq_singleton_nil {s : List Char} (h : splitSlashes s = [[]]) : s = [] := by
  cases s with
  | nil => rfl
  | cons c r =>
    rw [splitSlashes] at h
    by_cases slash : c = '/'
    · rw [if_pos slash] at h
      exact absurd (List.cons.inj h).2 (splitSlashes_ne_nil r)
    · rw [if_neg slash] at h
      cases hr : splitSlashes r with
      | nil => exact absurd hr (splitSlashes_ne_nil r)
      | cons piece pieces => simp [hr] at h

/-- Only a slash at the end leaves nothing after it. -/
theorem getLast?_of_splitSlashes {s : List Char} (h : (splitSlashes s).getLast? = some []) :
    s = [] ∨ s.getLast? = some '/' := by
  induction s with
  | nil => exact .inl rfl
  | cons c r ih =>
    right
    rw [splitSlashes] at h
    cases hr : splitSlashes r with
    | nil => exact absurd hr (splitSlashes_ne_nil r)
    | cons piece pieces =>
      rw [hr] at h ih
      by_cases hc : c = '/'
      · rw [if_pos hc, List.getLast?_cons_cons] at h
        rcases ih h with rfl | last
        · simp [hc]
        · rw [List.getLast?_cons, last]
          rfl
      · simp only [hc, if_false] at h
        cases pieces with
        | nil => simp at h
        | cons next pieces =>
          rw [List.getLast?_cons_cons] at h ih
          rcases ih h with rfl | last
          · simp [splitSlashes] at hr
          · rw [List.getLast?_cons, last]
            rfl

/-! ## Paths that are spelled -/

/-- A path that is not empty. -/
structure IsSpelled (p : Path) : Prop where
  text_ne : p.text ≠ ""

instance (p : Path) : Decidable p.IsSpelled :=
  decidable_of_iff (p.text ≠ "") ⟨IsSpelled.mk, IsSpelled.text_ne⟩

/-- A path that starts from the working directory. -/
structure IsRelative (p : Path) : Prop extends IsSpelled p where
  isAbsolute_eq : p.isAbsolute = false

/-- One component that is no dots, as directories have it. -/
def IsName (name : String) : Prop :=
  component? name = some (.name name) ∧ '/' ∉ name.toList

instance (name : String) : Decidable (IsName name) :=
  inferInstanceAs (Decidable (_ ∧ _))

theorem isAbsolute_of_not_mem {text : String} (h : '/' ∉ text.toList) :
    (Path.mk text).isAbsolute = false := by
  unfold isAbsolute
  cases ht : text.toList with
  | nil => rfl
  | cons c r =>
    rw [ht, List.mem_cons, not_or] at h
    simpa using Ne.symm h.1

theorem pieces_of_not_mem {text : String} (h : '/' ∉ text.toList) :
    (Path.mk text).pieces = [text] := by
  rw [pieces, splitSlashes_of_not_mem h]
  simp

theorem pieces_ne_nil (p : Path) : p.pieces ≠ [] := by
  rw [pieces, Ne, List.map_eq_nil_iff]
  exact splitSlashes_ne_nil _

theorem text_eq_of_pieces {p : Path} (h : p.pieces = [""]) : p.text = "" := by
  rw [pieces, List.map_eq_singleton_iff] at h
  obtain ⟨chars, own, nothing⟩ := h
  have : chars = [] := by simpa using nothing
  rw [← String.toList_eq_nil_iff]
  exact splitSlashes_eq_singleton_nil (this ▸ own)

/-- An absolute path has nothing before its first slash. -/
theorem isAbsolute_iff_pieces {p : Path} {first : String} {rest : List String}
    (own : p.pieces = first :: rest) : p.isAbsolute = true ↔ first = "" ∧ rest ≠ [] := by
  rw [isAbsolute, beq_iff_eq]
  rw [pieces] at own
  cases text : p.text.toList with
  | nil =>
    rw [text] at own
    obtain ⟨-, rfl⟩ := List.cons.inj own
    simp
  | cons c r =>
    rw [text, splitSlashes] at own
    by_cases slash : c = '/'
    · rw [if_pos slash, List.map_cons] at own
      obtain ⟨rfl, rfl⟩ := List.cons.inj own
      simp [slash, splitSlashes_ne_nil]
    · rw [if_neg slash] at own
      cases later : splitSlashes r with
      | nil => exact absurd later (splitSlashes_ne_nil r)
      | cons piece pieces =>
        rw [later] at own
        obtain ⟨rfl, rfl⟩ := List.cons.inj own
        simp [slash]

theorem slash_not_mem_piece {p : Path} {piece : String} (h : piece ∈ p.pieces) :
    '/' ∉ piece.toList := by
  obtain ⟨chars, hchars, rfl⟩ := List.mem_map.1 h
  rw [String.toList_ofList]
  exact slash_not_mem_of_mem hchars

theorem exists_mem_pieces {p : Path} {c : Char} (h : c ≠ '/') :
    (∃ piece ∈ p.pieces, c ∈ piece.toList) ↔ c ∈ p.text.toList := by
  rw [← exists_mem_splitSlashes h, pieces]
  constructor
  · rintro ⟨piece, hpiece, hc⟩
    obtain ⟨chars, hchars, rfl⟩ := List.mem_map.1 hpiece
    exact ⟨chars, hchars, by simpa using hc⟩
  · rintro ⟨chars, hchars, hc⟩
    exact ⟨String.ofList chars, List.mem_map.2 ⟨_, hchars, rfl⟩, by simpa using hc⟩

/-- The pieces of a path, with or without the slash that ends it. -/
theorem pieces_eq_patternPieces (p : Path) :
    p.pieces = Tree.patternPieces p ∨ p.pieces = Tree.patternPieces p ++ [""] := by
  unfold Tree.patternPieces
  by_cases h : p.pieces.getLast? = some ""
  · right
    obtain ⟨before, hbefore⟩ := List.getLast?_eq_some_iff.1 h
    rw [if_pos h, hbefore, List.dropLast_concat]
  · rw [if_neg h]
    exact .inl rfl

theorem pieces_join {p q : Path} (hp : p.text ≠ "") (hq : q.isAbsolute = false) :
    (p.join q).pieces = Tree.patternPieces p ++ q.pieces := by
  have nonempty : p.text.isEmpty = false := by simpa using hp
  have chars : p.text.toList ≠ [] := by simpa using hp
  unfold join
  rw [hq, nonempty]
  by_cases hlast : p.text.toList.getLast? = some '/'
  · obtain ⟨before, hbefore⟩ := List.getLast?_eq_some_iff.1 hlast
    have own : p.pieces = (splitSlashes before).map String.ofList ++ [""] := by
      rw [pieces, hbefore, splitSlashes_append]
      simp [splitSlashes]
    have trunk : Tree.patternPieces p = (splitSlashes before).map String.ofList := by
      rw [Tree.patternPieces, own]
      simp
    simp only [Bool.false_or, Bool.false_eq_true, if_false, hlast, if_true]
    rw [pieces, String.toList_append, hbefore, List.append_assoc, List.singleton_append,
      splitSlashes_append, List.map_append, trunk, pieces]
  · have open_end : p.pieces.getLast? ≠ some "" := by
      intro h
      rw [pieces, List.getLast?_map, Option.map_eq_some_iff] at h
      obtain ⟨piece, hpiece, empty⟩ := h
      have : piece = [] := by simpa using empty
      rcases getLast?_of_splitSlashes (this ▸ hpiece) with none | slash
      · exact chars none
      · exact hlast slash
    simp only [Bool.false_or, Bool.false_eq_true, if_false, hlast]
    rw [Tree.patternPieces, if_neg open_end, pieces, String.toList_append, String.toList_append,
      show "/".toList = ['/'] from rfl, List.append_assoc, List.singleton_append,
      splitSlashes_append, List.map_append, pieces, pieces]

theorem patternPieces_join {p q : Path} (hp : p.text ≠ "") (hq : q.isAbsolute = false) :
    Tree.patternPieces (p.join q) = Tree.patternPieces p ++ Tree.patternPieces q := by
  have last : (Tree.patternPieces p ++ q.pieces).getLast? = q.pieces.getLast? := by
    rw [List.getLast?_append, Option.or_eq_left_of_isSome]
    simp [q.pieces_ne_nil]
  rw [Tree.patternPieces, pieces_join hp hq, last, List.dropLast_append_of_ne_nil q.pieces_ne_nil,
    Tree.patternPieces.eq_def q]
  split_ifs <;> rfl

/-- A path with the slash that something after it needs. -/
def lead (p : Path) : String :=
  if p.text.toList.getLast? = some '/' then p.text else p.text ++ "/"

theorem join_eq_lead {p q : Path} (hp : p.text ≠ "") (hq : q.isAbsolute = false) :
    p.join q = ⟨p.lead ++ q.text⟩ := by
  have nonempty : p.text.isEmpty = false := by simpa using hp
  rw [join, hq, nonempty, lead]
  simp only [Bool.or_self, Bool.false_eq_true, if_false]
  split_ifs <;> rfl

theorem lead_ne {p : Path} : p.lead ≠ "" := by
  rw [lead]
  split_ifs with slash
  · intro empty
    simp [empty] at slash
  · simp

/-- It makes no difference which of two joins is done first. -/
theorem join_join {p s q : Path} (hp : p.text ≠ "") (hs : s.isAbsolute = false)
    (hq : q.isAbsolute = false) : (p.join s).join q = p.join (s.join q) := by
  have joined : (p.join s).text ≠ "" := by
    rw [join_eq_lead hp hs]
    simp [lead_ne]
  have ends : (p.join s).lead = p.lead ++ if s.text = "" then "" else s.lead := by
    rw [join_eq_lead hp hs]
    by_cases nothing : s.text = ""
    · have slash : p.lead.toList.getLast? = some '/' := by
        unfold lead
        split_ifs with h
        · exact h
        · simp
      rw [if_pos nothing, nothing, String.append_empty, lead, if_pos slash]
    · have last : (p.lead ++ s.text).toList.getLast? = s.text.toList.getLast? := by
        rw [String.toList_append, List.getLast?_append, Option.or_eq_left_of_isSome]
        simp [nothing]
      rw [if_neg nothing, lead, last, lead.eq_def s]
      split_ifs
      · rfl
      · rw [String.append_assoc]
  rw [join_eq_lead joined hq, ends]
  by_cases nothing : s.text = ""
  · have alone : s.join q = q := by
      rw [join, nothing]
      simp
    rw [if_pos nothing, String.append_empty, alone, join_eq_lead hp hq]
  · have relative : (s.join q).isAbsolute = false := by
      have lead : (s.join q).text.toList.head? = s.text.toList.head? := by
        obtain ⟨c, r, hc⟩ := List.exists_cons_of_ne_nil (mt String.toList_eq_nil_iff.1 nothing)
        rw [join_eq_lead nothing hq, lead]
        split_ifs <;> simp [hc]
      rw [isAbsolute, lead]
      exact hs
    rw [if_neg nothing, join_eq_lead hp relative, join_eq_lead nothing hq, String.append_assoc]

/-! ## What paths say -/

/-- Pieces without two dots say names. -/
theorem exists_names {pieces : List String} (noSlash : ∀ piece ∈ pieces, '/' ∉ piece.toList)
    (noUp : ".." ∉ pieces) : ∃ names : List String, (∀ name ∈ names, IsName name) ∧
      pieces.filterMap component? = names.map .name := by
  induction pieces with
  | nil => exact ⟨[], by simp, rfl⟩
  | cons piece pieces ih =>
    rw [List.mem_cons, not_or] at noUp
    obtain ⟨names, areNames, said⟩ := ih (fun q hq => noSlash q (List.mem_cons_of_mem _ hq)) noUp.2
    by_cases quiet : piece = "" ∨ piece = "."
    · exact ⟨names, areNames, by rw [List.filterMap_cons, component?, if_pos quiet, said]⟩
    · have name : component? piece = some (.name piece) := by
        rw [component?, if_neg quiet, if_neg (Ne.symm noUp.1)]
      refine ⟨piece :: names, ?_, by rw [List.filterMap_cons, name, said, List.map_cons]⟩
      rintro n hn
      rcases List.mem_cons.1 hn with rfl | hn
      · exact ⟨name, noSlash _ List.mem_cons_self⟩
      · exact areNames n hn

/-- Whether a path begins with a dot. -/
def beginsHere (p : Path) : Bool :=
  p.components.head? == some .here

/-- What a path says apart from the slash or the dot that may begin it. -/
def route (p : Path) : List Component :=
  p.pieces.filterMap component?

/-- The slash or the dot that may begin a path. -/
def beginning (p : Path) : List Component :=
  if p.isAbsolute then [.root] else if p.beginsHere then [.here] else []

/-- A path that stays below where it starts. -/
structure IsInner (p : Path) : Prop where
  isAbsolute_eq : p.isAbsolute = false
  noUp : ".." ∉ p.pieces

instance (p : Path) : Decidable p.IsInner :=
  decidable_of_iff (p.isAbsolute = false ∧ ".." ∉ p.pieces)
    ⟨fun h => ⟨h.1, h.2⟩, fun h => ⟨h.isAbsolute_eq, h.noUp⟩⟩

theorem IsInner.exists_names {p : Path} (h : p.IsInner) :
    ∃ names : List String, p.route = names.map .name := by
  obtain ⟨names, -, said⟩ := Path.exists_names (fun _ => p.slash_not_mem_piece) h.noUp
  exact ⟨names, said⟩

theorem component?_ne_here (piece : String) : component? piece ≠ some .here := by
  unfold component?
  split_ifs <;> simp

theorem component?_ne_root (piece : String) : component? piece ≠ some .root := by
  unfold component?
  split_ifs <;> simp

theorem root_not_mem_route (p : Path) : .root ∉ p.route := by
  rw [route, List.mem_filterMap]
  rintro ⟨piece, -, said⟩
  exact component?_ne_root piece said

theorem component?_eq_up {piece : String} : component? piece = some .up ↔ piece = ".." := by
  constructor
  · intro said
    unfold component? at said
    split_ifs at said with quiet up
    · exact up
    · cases said
  · rintro rfl
    decide

theorem firstComponent?_eq_up {piece : String} {more : Bool} :
    firstComponent? piece more = some .up ↔ piece = ".." := by
  by_cases silent : piece = ""
  · subst silent
    cases more <;> decide
  · by_cases dot : piece = "."
    · subst dot
      cases more <;> decide
    · rw [firstComponent?, if_neg silent, if_neg dot, component?_eq_up]

/-- A path leads up if one of its pieces does. -/
theorem up_mem_components {p : Path} : .up ∈ p.components ↔ ".." ∈ p.pieces := by
  obtain ⟨first, rest, own⟩ := List.exists_cons_of_ne_nil p.pieces_ne_nil
  rw [components, own]
  simp only [List.mem_append, Option.mem_toList, firstComponent?_eq_up, List.mem_filterMap,
    component?_eq_up, exists_eq_right, List.mem_cons, eq_comm (b := first)]

theorem firstComponent?_eq {piece : String} (ne : piece ≠ "") (dot : piece ≠ ".") (more : Bool) :
    firstComponent? piece more = component? piece := by
  rw [firstComponent?, if_neg ne, if_neg dot]

theorem firstComponent?_congr {piece : String} (ne : piece ≠ "") (more less : Bool) :
    firstComponent? piece more = firstComponent? piece less := by
  rw [firstComponent?, firstComponent?, if_neg ne, if_neg ne]

theorem firstComponent?_eq_here {piece : String} {more : Bool} :
    firstComponent? piece more = some .here ↔ piece = "." := by
  by_cases nothing : piece = ""
  · subst nothing
    cases more <;> decide
  · by_cases dot : piece = "."
    · subst dot
      cases more <;> decide
    · rw [firstComponent?_eq nothing dot]
      exact iff_of_false (component?_ne_here piece) dot

/-- The first piece says something, if there is a slash after it. -/
theorem exists_firstComponent? (piece : String) : ∃ c, firstComponent? piece true = some c := by
  by_cases nothing : piece = ""
  · exact ⟨.root, by rw [nothing]; rfl⟩
  · by_cases dot : piece = "."
    · exact ⟨.here, by rw [dot]; rfl⟩
    · rw [firstComponent?_eq nothing dot, component?, if_neg (not_or.2 ⟨nothing, dot⟩)]
      split_ifs
      · exact ⟨_, rfl⟩
      · exact ⟨_, rfl⟩

theorem components_of_pieces {p : Path} {first : String} {rest : List String}
    (own : p.pieces = first :: rest) :
    p.components = (firstComponent? first !rest.isEmpty).toList ++ rest.filterMap component? := by
  rw [components, own]

theorem beginsHere_iff_components {p : Path} :
    p.beginsHere = true ↔ p.components.head? = some .here := by
  rw [beginsHere, beq_iff_eq]

theorem beginsHere_iff_pieces {p : Path} {first : String} {rest : List String}
    (own : p.pieces = first :: rest) : p.beginsHere = true ↔ first = "." := by
  rw [beginsHere_iff_components, components_of_pieces own]
  constructor
  · intro begins
    rcases List.mem_append.1 (List.mem_of_mem_head? begins) with here | later
    · exact firstComponent?_eq_here.1 (Option.mem_toList.1 here)
    · obtain ⟨piece, -, said⟩ := List.mem_filterMap.1 later
      exact absurd said (component?_ne_here piece)
  · rintro rfl
    rfl

/-- A path says where it starts, and its route from there. -/
theorem components_eq (p : Path) : p.components = p.beginning ++ p.route := by
  obtain ⟨first, rest, own⟩ := List.exists_cons_of_ne_nil p.pieces_ne_nil
  rw [components_of_pieces own, beginning, route, own, List.filterMap_cons]
  simp only [isAbsolute_iff_pieces own, beginsHere_iff_pieces own]
  by_cases nothing : first = ""
  · subst nothing
    cases rest <;> rfl
  · by_cases dot : first = "."
    · subst dot
      rfl
    · rw [firstComponent?_eq nothing dot, if_neg (fun absolute => nothing absolute.1), if_neg dot]
      cases component? first <;> rfl

/-- Only what begins a path is a slash. -/
theorem root_not_mem_tail (p : Path) : .root ∉ p.components.tail := by
  have later := p.root_not_mem_route
  rw [components_eq, beginning]
  split_ifs
  · exact later
  · exact later
  · exact fun root => later (List.mem_of_mem_tail root)

theorem isAbsolute_iff_components {p : Path} :
    p.isAbsolute = true ↔ p.components.head? = some .root := by
  rw [components_eq, beginning]
  split_ifs with absolute here
  · simp [absolute]
  · simp [absolute]
  · refine iff_of_false absolute fun root => ?_
    exact p.root_not_mem_route (List.mem_of_mem_head? root)

/-- A path that does not lead up says names, from where it starts. -/
theorem exists_said {p : Path} (noUp : .up ∉ p.components) :
    ∃ names : List String, (∀ name ∈ names, IsName name) ∧
      p.components = p.beginning ++ names.map .name := by
  obtain ⟨names, isName, said⟩ := exists_names (fun _ => p.slash_not_mem_piece)
    (fun up => noUp (up_mem_components.2 up))
  exact ⟨names, isName, by rw [components_eq, route, said]⟩

theorem IsSpelled.exists_pieces {p : Path} (hp : p.IsSpelled) :
    ∃ first rest, p.pieces = first :: rest ∧
      p.components = (firstComponent? first true).toList ++ rest.filterMap component? := by
  obtain ⟨first, rest, own⟩ := List.exists_cons_of_ne_nil p.pieces_ne_nil
  refine ⟨first, rest, own, ?_⟩
  rw [components_of_pieces own]
  cases rest with
  | cons piece rest => rfl
  | nil =>
    have spoken : first ≠ "" := by
      rintro rfl
      exact hp.text_ne (text_eq_of_pieces own)
    rw [firstComponent?_congr spoken _ true]

/-! ## What continued paths say -/

theorem IsSpelled.exists_patternPieces {p : Path} (hp : p.IsSpelled) :
    ∃ first rest, Tree.patternPieces p = first :: rest ∧
      (p.isAbsolute = true ↔ first = "") ∧
      p.components = (firstComponent? first true).toList ++ rest.filterMap component? := by
  obtain ⟨first, rest, own, said⟩ := hp.exists_pieces
  have absolute : p.isAbsolute = true ↔ first = "" := by
    rw [isAbsolute_iff_pieces own, and_iff_left_iff_imp]
    rintro rfl rfl
    exact hp.text_ne (text_eq_of_pieces own)
  rcases p.pieces_eq_patternPieces with same | slash
  · exact ⟨first, rest, by rw [← same, own], absolute, said⟩
  · rw [own] at slash
    cases hpp : Tree.patternPieces p with
    | nil =>
      rw [hpp, List.nil_append, List.cons.injEq] at slash
      obtain ⟨rfl, rfl⟩ := slash
      exact absurd (text_eq_of_pieces own) hp.text_ne
    | cons first' rest' =>
      rw [hpp, List.cons_append, List.cons.injEq] at slash
      obtain ⟨rfl, rfl⟩ := slash
      exact ⟨first, rest', rfl, absolute, by simpa [component?] using said⟩

theorem IsSpelled.join {p q : Path} (hp : p.IsSpelled) (hq : q.isAbsolute = false) :
    (p.join q).IsSpelled := by
  constructor
  rw [join_eq_lead hp.text_ne hq]
  simp [lead_ne]

theorem components_join {p q : Path} (hp : p.IsSpelled) (hq : q.isAbsolute = false) :
    (p.join q).components = p.components ++ q.route := by
  obtain ⟨first, rest, trunk, -, hcomponents⟩ := hp.exists_patternPieces
  obtain ⟨first', more, joined, said⟩ := (hp.join hq).exists_pieces
  rw [pieces_join hp.text_ne hq, trunk, List.cons_append, List.cons.injEq] at joined
  obtain ⟨rfl, rfl⟩ := joined
  rw [said, List.filterMap_append, hcomponents, List.append_assoc, route]

theorem IsSpelled.components_ne_nil {p : Path} (hp : p.IsSpelled) : p.components ≠ [] := by
  obtain ⟨first, rest, -, hcomponents⟩ := hp.exists_pieces
  obtain ⟨c, spoken⟩ := exists_firstComponent? first
  rw [hcomponents, spoken]
  exact List.cons_ne_nil _ _

/-- Whatever continues a path, it starts where it started. -/
theorem IsSpelled.isAbsolute_of_append {p q : Path} (hp : p.IsSpelled) {more : List Component}
    (said : q.components = p.components ++ more) : q.isAbsolute = p.isAbsolute := by
  obtain ⟨first, rest, own⟩ := List.exists_cons_of_ne_nil hp.components_ne_nil
  rw [Bool.eq_iff_iff, isAbsolute_iff_components, isAbsolute_iff_components, said, own]
  rfl

theorem IsSpelled.beginsHere_of_append {p q : Path} (hp : p.IsSpelled) {more : List Component}
    (said : q.components = p.components ++ more) : q.beginsHere = p.beginsHere := by
  obtain ⟨first, rest, own⟩ := List.exists_cons_of_ne_nil hp.components_ne_nil
  rw [Bool.eq_iff_iff, beginsHere_iff_components, beginsHere_iff_components, said, own]
  rfl

theorem IsSpelled.isAbsolute_join {p q : Path} (hp : p.IsSpelled) (hq : q.isAbsolute = false) :
    (p.join q).isAbsolute = p.isAbsolute :=
  hp.isAbsolute_of_append (components_join hp hq)

/-- What one piece says after others. -/
theorem route_text {text : String} (h : '/' ∉ text.toList) :
    (Path.mk text).route = [text].filterMap component? := by
  rw [route, pieces_of_not_mem h]

theorem IsSpelled.join_text {p : Path} (hp : p.IsSpelled) {text : String}
    (h : '/' ∉ text.toList) :
    (p.join ⟨text⟩).IsSpelled ∧
      (p.join ⟨text⟩).components = p.components ++ [text].filterMap component? := by
  refine ⟨hp.join (isAbsolute_of_not_mem h), ?_⟩
  rw [components_join hp (isAbsolute_of_not_mem h), route_text h]

theorem IsName.filterMap_eq {name : String} (h : IsName name) :
    [name].filterMap component? = [.name name] := by
  rw [List.filterMap_cons, h.1, List.filterMap_nil]

/-- Pieces joined one by one say what they say after others. -/
theorem IsSpelled.joinPieces {p : Path} (hp : p.IsSpelled) {pieces : List String}
    (h : ∀ piece ∈ pieces, '/' ∉ piece.toList) :
    (p.joinNames pieces).IsSpelled ∧
      (p.joinNames pieces).components = p.components ++ pieces.filterMap component? := by
  induction pieces generalizing p with
  | nil => simpa [Path.joinNames] using hp
  | cons piece pieces ih =>
    obtain ⟨noSlash, others⟩ := List.forall_mem_cons.1 h
    obtain ⟨relative, first⟩ := hp.join_text noSlash
    obtain ⟨done, rest⟩ := ih relative others
    refine ⟨done, ?_⟩
    rw [first, List.append_assoc, ← List.filterMap_append] at rest
    exact rest

theorem filterMap_names {names : List String} (h : ∀ name ∈ names, IsName name) :
    names.filterMap component? = names.map .name := by
  induction names with
  | nil => rfl
  | cons name names ih =>
    obtain ⟨isName, others⟩ := List.forall_mem_cons.1 h
    rw [List.filterMap_cons, isName.1, ih others, List.map_cons]

theorem IsSpelled.joinNames {p : Path} (hp : p.IsSpelled) {names : List String}
    (h : ∀ name ∈ names, IsName name) :
    (p.joinNames names).IsSpelled ∧
      (p.joinNames names).components = p.components ++ names.map .name := by
  rw [← filterMap_names h]
  exact hp.joinPieces fun name hname => (h name hname).2

theorem IsInner.join {p q : Path} (hp : p.IsInner) (hq : q.IsInner) : (p.join q).IsInner := by
  by_cases nothing : p.text = ""
  · have alone : p.join q = q := by
      rw [Path.join, nothing]
      simp
    rwa [alone]
  · constructor
    · rw [IsSpelled.isAbsolute_join ⟨nothing⟩ hq.isAbsolute_eq, hp.isAbsolute_eq]
    · rw [pieces_join nothing hq.isAbsolute_eq, List.mem_append, not_or]
      refine ⟨fun own => hp.noUp ?_, hq.noUp⟩
      rcases p.pieces_eq_patternPieces with same | slash
      · rwa [same]
      · rw [slash]
        exact List.mem_append_left _ own

/-- One piece other than two dots. -/
theorem isInner_text {text : String} (noSlash : '/' ∉ text.toList) (noUp : text ≠ "..") :
    (Path.mk text).IsInner := by
  refine ⟨isAbsolute_of_not_mem noSlash, ?_⟩
  rw [pieces_of_not_mem noSlash, List.mem_singleton]
  exact Ne.symm noUp

theorem IsName.ne {name : String} (h : IsName name) : name ≠ "" ∧ name ≠ "." ∧ name ≠ ".." := by
  refine ⟨?_, ?_, ?_⟩ <;> rintro rfl <;> cases h.1

theorem IsName.isInner {name : String} (h : IsName name) : (Path.mk name).IsInner :=
  isInner_text h.2 h.ne.2.2

theorem IsName.isRelative {name : String} (h : IsName name) : (Path.mk name).IsRelative :=
  ⟨⟨h.ne.1⟩, isAbsolute_of_not_mem h.2⟩

/-- A name alone says itself. -/
theorem IsName.components_eq {name : String} (h : IsName name) :
    (Path.mk name).components = [.name name] := by
  rw [components, pieces_of_not_mem h.2]
  simp [firstComponent?_eq h.ne.1 h.ne.2.1, h.1]

/-- The name that names end with is the last of them. -/
theorem IsSpelled.fileName?_joinNames {p : Path} (hp : p.IsSpelled) {names : List String}
    (h : ∀ name ∈ names, IsName name) (ne : names ≠ []) :
    (p.joinNames names).fileName? = names.getLast? := by
  obtain ⟨before, name, rfl⟩ := (List.eq_nil_or_concat names).resolve_left ne
  rw [fileName?, (hp.joinNames h).2]
  simp

/-! ## Stems -/

/-- What a path says, if it is not just the working directory. -/
def stem (p : Path) : List Component :=
  if p.isHere then [] else p.components

/-- The path that a search goes on with at a component. -/
def next (p : Path) (text : String) : Path :=
  if p.isHere then ⟨text⟩ else p.join ⟨text⟩

theorem isHere_iff {p : Path} : p.isHere = true ↔ p.components = [.here] := by
  simp [isHere]

/-- What continues a path that is not the working directory, is not the working directory. -/
theorem IsSpelled.stem_of_append {p q : Path} (hp : p.IsSpelled) (away : ¬ p.isHere = true)
    {more : List Component} (said : q.components = p.components ++ more) :
    q.stem = p.stem ++ more := by
  have there : ¬ q.isHere = true := by
    intro turned
    rw [isHere_iff, said, List.append_eq_singleton_iff] at turned
    rcases turned with ⟨nothing, -⟩ | ⟨dot, -⟩
    · exact hp.components_ne_nil nothing
    · exact away (isHere_iff.2 dot)
  rw [stem, if_neg there, said, stem, if_neg away]

/-- A piece alone has what it says after others for its stem. -/
theorem stem_text {text : String} (ne : text ≠ "") (h : '/' ∉ text.toList) :
    (Path.mk text).stem = [text].filterMap component? := by
  have said : (Path.mk text).components = (firstComponent? text false).toList := by
    rw [components, pieces_of_not_mem h]
    simp
  by_cases dot : text = "."
  · subst dot
    have here : (Path.mk ".").isHere = true := by
      rw [isHere_iff, said]
      rfl
    rw [stem, if_pos here]
    rfl
  · rw [firstComponent?_eq ne dot] at said
    have there : ¬ (Path.mk text).isHere = true := by
      rw [isHere_iff, said]
      intro turned
      exact component?_ne_here text (Option.toList_eq_singleton_iff.1 turned)
    rw [stem, if_neg there, said, List.filterMap_cons]
    cases component? text <;> rfl

theorem IsSpelled.next {p : Path} (hp : p.IsSpelled) {text : String} (h : '/' ∉ text.toList)
    (ne : (p.next text).text ≠ "") :
    (p.next text).IsSpelled ∧ (p.next text).stem = p.stem ++ [text].filterMap component? := by
  unfold Path.next at ne ⊢
  by_cases here : p.isHere = true
  · rw [if_pos here] at ne ⊢
    refine ⟨⟨ne⟩, ?_⟩
    rw [stem_text ne h, stem, if_pos here, List.nil_append]
  · rw [if_neg here] at ne ⊢
    obtain ⟨relative, said⟩ := hp.join_text h
    exact ⟨relative, hp.stem_of_append here said⟩

/-- A path other than the working directory is continued by names as they are. -/
theorem continueBy_eq {p : Path} (away : ¬ p.isHere = true) (names : List String) :
    p.continueBy names = p.joinNames names := by
  cases names with
  | nil => rfl
  | cons name rest =>
    rw [Path.continueBy, if_neg away]
    rfl

theorem next_eq {p : Path} (away : ¬ p.isHere = true) (text : String) :
    p.next text = p.join ⟨text⟩ := by
  rw [next, if_neg away]

theorem IsSpelled.continueBy {p : Path} (hp : p.IsSpelled) {names : List String}
    (h : ∀ name ∈ names, IsName name) (ne : names ≠ []) :
    (p.continueBy names).IsSpelled ∧
      (p.continueBy names).stem = p.stem ++ names.map .name := by
  cases names with
  | nil => contradiction
  | cons name rest =>
    obtain ⟨isName, others⟩ := List.forall_mem_cons.1 h
    have named : (p.next name).text ≠ "" := by
      unfold Path.next
      split
      · rintro rfl
        cases isName.1
      · exact (hp.join_text isName.2).1.text_ne
    obtain ⟨relative, first⟩ := hp.next isName.2 named
    rw [isName.filterMap_eq] at first
    have away : ¬ (p.next name).isHere = true := by
      intro turned
      rw [stem, if_pos turned] at first
      simp at first
    obtain ⟨done, said⟩ := relative.joinNames others
    have stems : (p.continueBy (name :: rest)).stem = (p.next name).stem ++ rest.map .name :=
      relative.stem_of_append away said
    refine ⟨done, ?_⟩
    rw [stems, first, List.append_assoc]
    rfl

end PotExtract.Path
