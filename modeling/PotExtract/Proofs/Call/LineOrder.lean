import PotExtract.Proofs.Call.Sites
import Mathlib.Order.Monotone.Defs

/-!
# Lines in order

A search among the beginnings of lines hits one of them or misses between
two, and both tell the line of the place that was searched for. Lines grow
with places, so what a text yields has its lines in order.

* `Finding`, `Finds`: how a search in sorted places ends;
* `lineOf_mono`: a later place is on no earlier line;
* `lines_in_order`: the line of a place, and the lines of what a text yields.
-/

namespace PotExtract

open Source

namespace Source

/-! ## Hits and misses -/

/-- How a search among the beginnings of lines ends. -/
inductive Finding where
  /-- The place is the beginning of this line, counted from zero. -/
  | hit (i : Nat)
  /-- So many lines begin before the place, and none at it. -/
  | miss (i : Nat)
  deriving DecidableEq, Repr

/-- The line that a search tells, counted from one. -/
def Finding.line : Finding → Nat
  | hit i => i + 1
  | miss i => i

/-- What a search for an offset in sorted places may end with. -/
inductive Finds (starts : Array Nat) (offset : Nat) : Finding → Prop where
  | hit {i : Nat} (here : starts[i]? = some offset) : Finds starts offset (.hit i)
  | miss {i : Nat} (fits : i ≤ starts.size)
      (before : ∀ j (h : j < starts.size), j < i → starts[j] < offset)
      (after : ∀ j (h : j < starts.size), i ≤ j → offset < starts[j]) :
      Finds starts offset (.miss i)

section
variable {starts : Array Nat} {offset : Nat}

theorem Finds.bracket (sorted : starts.toList.Pairwise (· < ·)) {found : Finding}
    (h : Finds starts offset found) : Bracket starts offset found.line found.line := by
  have lt : ∀ i j (hi : i < starts.size) (hj : j < starts.size), i < j → starts[i] < starts[j] :=
    fun i j hi hj hij => List.pairwise_iff_getElem.1 sorted i j hi hj hij
  cases h with
  | @hit i here =>
    obtain ⟨hi, rfl⟩ := Array.getElem?_eq_some_iff.1 here
    refine ⟨Nat.le_refl _, hi, fun j hj below => ?_, fun j hj above => lt i j hi hj above⟩
    rcases Nat.lt_or_eq_of_le (Nat.le_of_lt_succ below) with earlier | rfl
    · exact Nat.le_of_lt (lt j i hj hi earlier)
    · exact Nat.le_refl _
  | miss fits before after =>
    exact ⟨Nat.le_refl _, fits, fun j hj below => Nat.le_of_lt (before j hj below), after⟩

theorem exists_finds {r : Nat} (h : Bracket starts offset r r) :
    ∃ found, Finds starts offset found := by
  by_cases hit : offset ∈ starts
  · obtain ⟨i, here⟩ := Array.mem_iff_getElem?.1 hit
    exact ⟨_, .hit here⟩
  · refine ⟨_, .miss h.inside (fun j hj below => ?_) h.above⟩
    have other : starts[j] ≠ offset := fun same => hit (same ▸ Array.getElem_mem hj)
    exact Nat.lt_of_le_of_ne (h.below j hj below) other

end

/-- Every way in which a search in the index may end tells the line. -/
theorem lineOf_of_finds {s : List Char} {n : Nat} {found : Finding}
    (h : Finds (LineIndex.ofText s).starts n found) :
    (LineIndex.ofText s).lineOf n = found.line := by
  rw [← (bracket_lineOf_ofText s n).count, (h.bracket (pairwise_starts_ofText s)).count]

/-! ## Lines grow with places -/

theorem count_take_le (s : List Char) {m n : Nat} (h : m ≤ n) :
    ((utf8 s).take m).count 0x0a ≤ ((utf8 s).take n).count 0x0a :=
  (List.take_sublist_take_left h).count_le 0x0a

theorem lineOf_mono (s : List Char) : Monotone (LineIndex.ofText s).lineOf := by
  intro m n h
  rw [lineOf_ofText, lineOf_ofText]
  exact Nat.add_le_add_left (count_take_le s h) 1

end Source

/-- What is told of the calls of a text, each at its line, has its lines in order. -/
theorem pairwise_filterMap_callSites {α : Type} {path : String} {s : List Char}
    {tell : CallSite → Option α} {line : α → Nat}
    (told : ∀ site a, tell site = some a → line a = (site.place path s).line) :
    ((callSites s).filterMap tell).Pairwise fun a b => line a ≤ line b := by
  refine List.Pairwise.filterMap tell ?_ (pairwise_callSites s)
  intro a b before x hx y hy
  rw [told a x hx, told b y hy]
  exact Nat.add_le_add_left (count_take_le s (Nat.le_of_lt before)) 1

theorem CallSite.location_of_record? {site : CallSite} {location : Location} {r : Record}
    (h : site.record? location = some r) : r.location = location := by
  rw [CallSite.record?] at h
  split at h
  · cases h
    rfl
  · cases h

theorem CallSite.location_of_skipped? {site : CallSite} {location : Location} {k : Skipped}
    (h : site.skipped? location = some k) : k.location = location := by
  rw [CallSite.skipped?] at h
  split at h
  · cases h
  · cases h
    rfl

/-- **Lines are counted, and stand in order.** The index of a text holds the places where its lines
begin, in order. Whatever a search for a place ends with, a hit or a miss, it tells one more than
the number of line feeds before the place, also past the end of the text. So lines are counted from
one and grow with places, and so do the lines of the records and of the skipped calls. -/
theorem lines_in_order (path : String) (s : List Char) :
    ((LineIndex.ofText s).starts.toList.Pairwise (· < ·) ∧
      ∀ n, n ∈ (LineIndex.ofText s).starts ↔
        n = 0 ∨ ∃ i, (utf8 s)[i]? = some 0x0a ∧ n = i + 1) ∧
    (∀ n, (LineIndex.ofText s).lineOf n = 1 + ((utf8 s).take n).count 0x0a ∧
      (∃ found, Finds (LineIndex.ofText s).starts n found) ∧
      ∀ found, Finds (LineIndex.ofText s).starts n found →
        (LineIndex.ofText s).lineOf n = found.line) ∧
    (LineIndex.ofText s).lineOf 0 = 1 ∧
    Monotone (LineIndex.ofText s).lineOf ∧
    ((extract path s).records.Pairwise fun a b => a.location.line ≤ b.location.line) ∧
    (extract path s).skipped.Pairwise fun a b => a.location.line ≤ b.location.line := by
  refine ⟨⟨pairwise_starts_ofText s, fun _ => mem_starts_ofText⟩, fun n => ?_, ?_, lineOf_mono s,
    ?_, ?_⟩
  · exact ⟨lineOf_ofText s n, exists_finds (bracket_lineOf_ofText s n),
      fun _ => lineOf_of_finds⟩
  · rw [lineOf_ofText, List.take_zero]
    rfl
  · rw [records_extract]
    exact pairwise_filterMap_callSites fun _ _ h => by rw [CallSite.location_of_record? h]
  · rw [skipped_extract]
    exact pairwise_filterMap_callSites fun _ _ h => by rw [CallSite.location_of_skipped? h]

/-- A place on a line feed is on the line that it ends, and one past the end on the last line. -/
example :
    [0, 1, 2, 5, 6, 99].map (LineIndex.ofText "a\nbc\n\nd".toList).lineOf = [1, 1, 2, 3, 4, 4] := by
  decide +kernel

end PotExtract
