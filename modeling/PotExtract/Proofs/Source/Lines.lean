import PotExtract.Proofs.Source.Bytes
import PotExtract.Source.Line

/-!
# Line numbers

The index of a text holds the places where its lines begin, and the line of a
place is found by bisection.

* `bracket_countUpTo`: on a sorted array, bisection parts the places up to an
  offset from the others;
* `mem_starts_ofText`: lines begin at the text and right after line feeds;
* `lineOf_ofText`: the line of a place is one more than the number of line
  feeds before it, also for a place past the end.
-/

namespace PotExtract.Source

/-! ## Bisection -/

/-- What a search between `low` and `high` has found out: everything below `low` counts, and
nothing from `high` on. -/
structure Bracket (starts : Array Nat) (offset low high : Nat) : Prop where
  ordered : low ≤ high
  inside : high ≤ starts.size
  below : ∀ i (h : i < starts.size), i < low → starts[i] ≤ offset
  above : ∀ i (h : i < starts.size), high ≤ i → offset < starts[i]

theorem Bracket.count {starts : Array Nat} {offset r : Nat} (h : Bracket starts offset r r) :
    starts.toList.countP (· ≤ offset) = r := by
  rw [← List.take_append_drop r starts.toList, List.countP_append]
  have first : (starts.toList.take r).countP (· ≤ offset) = r := by
    rw [List.countP_eq_length.2, List.length_take]
    · exact Nat.min_eq_left (by simpa using h.inside)
    · intro a ha
      obtain ⟨i, hi, rfl⟩ := List.mem_take_iff_getElem.1 ha
      have hs : i < starts.size := by simp at hi; omega
      simpa using h.below i hs (by omega)
  have second : (starts.toList.drop r).countP (· ≤ offset) = 0 := by
    rw [List.countP_eq_zero]
    intro a ha
    obtain ⟨i, hi, rfl⟩ := List.mem_drop_iff_getElem.1 ha
    have hs : r + i < starts.size := by simpa [Nat.add_comm] using hi
    simpa using h.above (r + i) hs (by omega)
  omega

/-- Bisection ends where nothing is left to find out. -/
theorem bracket_countUpTo {starts : Array Nat} {offset low high : Nat}
    (sorted : starts.toList.Pairwise (· < ·)) (h : Bracket starts offset low high) :
    Bracket starts offset (countUpTo starts offset low high)
      (countUpTo starts offset low high) := by
  have mono : ∀ i j (hi : i < starts.size) (hj : j < starts.size), i ≤ j →
      starts[i] ≤ starts[j] := by
    intro i j hi hj hij
    rcases Nat.lt_or_eq_of_le hij with hlt | rfl
    · exact Nat.le_of_lt (List.pairwise_iff_getElem.1 sorted i j hi hj hlt)
    · exact Nat.le_refl _
  fun_induction countUpTo starts offset low high with
  | case1 low high hlt middle hle ih =>
    have hm : middle < starts.size := by have := h.inside; omega
    have hle' : starts[middle] ≤ offset := by simpa [hm] using hle
    apply ih
    exact ⟨by omega, h.inside,
      fun i hi him => Nat.le_trans (mono i middle hi hm (by omega)) hle', h.above⟩
  | case2 low high hlt middle hgt ih =>
    have hm : middle < starts.size := by have := h.inside; omega
    have hgt' : offset < starts[middle] := by simpa [hm] using hgt
    apply ih
    exact ⟨by omega, by omega, h.below,
      fun i hi him => Nat.lt_of_lt_of_le hgt' (mono middle i hm hi him)⟩
  | case3 low high hge =>
    have heq : low = high := by have := h.ordered; omega
    subst heq
    exact h

/-! ## The places where lines begin -/

/-- The offsets right after the line feeds of a text that begins at `offset`. -/
def afterLineFeeds (offset : Nat) : List Char → List Nat
  | [] => []
  | c :: r =>
    let next := offset + c.utf8Size
    if c = '\n' then next :: afterLineFeeds next r else afterLineFeeds next r

theorem toList_lineStarts (starts : Array Nat) (offset : Nat) (s : List Char) :
    (lineStarts starts offset s).toList = starts.toList ++ afterLineFeeds offset s := by
  induction s generalizing starts offset with
  | nil => simp [lineStarts, afterLineFeeds]
  | cons c r ih =>
    simp only [lineStarts, afterLineFeeds, ih]
    split <;> simp

theorem lt_of_mem_afterLineFeeds {offset n : Nat} {s : List Char}
    (h : n ∈ afterLineFeeds offset s) : offset < n := by
  induction s generalizing offset with
  | nil => simp [afterLineFeeds] at h
  | cons c r ih =>
    have hpos := c.utf8Size_pos
    simp only [afterLineFeeds] at h
    split at h
    · rcases List.mem_cons.1 h with rfl | h
      · omega
      · exact Nat.lt_trans (by omega) (ih h)
    · exact Nat.lt_trans (by omega) (ih h)

theorem pairwise_afterLineFeeds (offset : Nat) (s : List Char) :
    (afterLineFeeds offset s).Pairwise (· < ·) := by
  induction s generalizing offset with
  | nil => exact List.Pairwise.nil
  | cons c r ih =>
    simp only [afterLineFeeds]
    split
    · exact List.Pairwise.cons (fun n hn => lt_of_mem_afterLineFeeds hn) (ih _)
    · exact ih _

/-- The byte of a line feed occurs in no other character. -/
theorem byteClass_lineFeed : ByteClass (· == '\n') (· == 0x0a) := by
  apply ByteClass.of_ascii false (by decide)
  · intro c hc
    simp only [beq_eq_false_iff_ne]
    rintro rfl
    exact absurd hc (by decide)
  · intro b hb
    simp only [beq_eq_false_iff_ne]
    rintro rfl
    exact absurd hb (by decide)

theorem count_take_utf8EncodeChar (c : Char) (n : Nat) :
    ((String.utf8EncodeChar c).take n).count 0x0a = if c = '\n' ∧ 0 < n then 1 else 0 := by
  by_cases hc : c = '\n'
  · subst hc
    rw [utf8EncodeChar_of_ascii (by decide)]
    cases n with
    | zero => rfl
    | succ n => simp
  · rw [if_neg (fun h => hc h.1), List.count_eq_zero]
    intro h
    have := byteClass_lineFeed c _ (List.mem_of_mem_take h)
    simp_all

/-- The lines that begin up to a place are as many as the line feeds before it. -/
theorem countP_afterLineFeeds (offset n : Nat) (s : List Char) :
    (afterLineFeeds offset s).countP (· ≤ n) = ((utf8 s).take (n - offset)).count 0x0a := by
  induction s generalizing offset with
  | nil => simp [afterLineFeeds]
  | cons c r ih =>
    rw [utf8_cons, List.take_append, List.count_append, count_take_utf8EncodeChar,
      String.length_utf8EncodeChar, Nat.sub_sub, ← ih]
    by_cases hc : c = '\n'
    · subst hc
      have size : Char.utf8Size '\n' = 1 := rfl
      simp only [afterLineFeeds, ↓reduceIte, List.countP_cons, true_and, size, decide_eq_true_eq]
      have : offset + 1 ≤ n ↔ 0 < n - offset := by omega
      simp only [this]
      omega
    · simp [afterLineFeeds, hc]

/-- The places are those right after a line feed. -/
theorem mem_afterLineFeeds {offset n : Nat} {s : List Char} :
    n ∈ afterLineFeeds offset s ↔ ∃ i, (utf8 s)[i]? = some 0x0a ∧ n = offset + i + 1 := by
  induction s generalizing offset with
  | nil => simp [afterLineFeeds]
  | cons c r ih =>
    -- A line feed is at the first character, or later by the size of that character.
    have parts : (∃ i, (utf8 (c :: r))[i]? = some 0x0a ∧ n = offset + i + 1) ↔
        (c = '\n' ∧ n = offset + 1) ∨
          ∃ i, (utf8 r)[i]? = some 0x0a ∧ n = offset + c.utf8Size + i + 1 := by
      rw [utf8_cons]
      constructor
      · rintro ⟨i, feed, rfl⟩
        by_cases hi : i < c.utf8Size
        · rw [List.getElem?_append_left (by simpa using hi)] at feed
          have hc : c = '\n' := by
            simpa using (byteClass_lineFeed c _ (List.mem_of_getElem? feed)).symm
          subst hc
          have first : i = 0 := Nat.lt_one_iff.1 hi
          exact .inl ⟨rfl, by rw [first]⟩
        · rw [List.getElem?_append_right (by simpa using hi), String.length_utf8EncodeChar] at feed
          exact .inr ⟨_, feed, by omega⟩
      · rintro (⟨rfl, rfl⟩ | ⟨i, feed, rfl⟩)
        · exact ⟨0, rfl, rfl⟩
        · refine ⟨c.utf8Size + i, ?_, by omega⟩
          rw [List.getElem?_append_right (by simp), String.length_utf8EncodeChar,
            Nat.add_sub_cancel_left]
          exact feed
    rw [parts, afterLineFeeds]
    by_cases hc : c = '\n'
    · subst hc
      simp only [↓reduceIte, List.mem_cons, ih, true_and]
      exact Iff.rfl
    · simp only [hc, ↓reduceIte, ih, false_and, false_or]

/-! ## The index of a text -/

theorem toList_starts_ofText (s : List Char) :
    (LineIndex.ofText s).starts.toList = 0 :: afterLineFeeds 0 s := by
  simp [LineIndex.ofText, toList_lineStarts]

theorem pairwise_starts_ofText (s : List Char) :
    (LineIndex.ofText s).starts.toList.Pairwise (· < ·) := by
  rw [toList_starts_ofText]
  exact List.Pairwise.cons (fun n hn => lt_of_mem_afterLineFeeds hn) (pairwise_afterLineFeeds 0 s)

/-- Lines begin at the text and right after line feeds. -/
theorem mem_starts_ofText {s : List Char} {n : Nat} :
    n ∈ (LineIndex.ofText s).starts ↔ n = 0 ∨ ∃ i, (utf8 s)[i]? = some 0x0a ∧ n = i + 1 := by
  rw [← Array.mem_toList_iff, toList_starts_ofText, List.mem_cons, mem_afterLineFeeds]
  simp only [Nat.zero_add]

/-- The line of a place parts the lines that begin up to it from the others. -/
theorem bracket_lineOf_ofText (s : List Char) (n : Nat) :
    Bracket (LineIndex.ofText s).starts n ((LineIndex.ofText s).lineOf n)
      ((LineIndex.ofText s).lineOf n) :=
  bracket_countUpTo (pairwise_starts_ofText s)
    ⟨Nat.zero_le _, Nat.le_refl _, fun i _ hi => absurd hi (Nat.not_lt_zero i),
      fun _ hi hge => absurd hi (Nat.not_lt_of_le hge)⟩

/-- The line of a place is one more than the number of line feeds before it. -/
theorem lineOf_ofText (s : List Char) (n : Nat) :
    (LineIndex.ofText s).lineOf n = 1 + ((utf8 s).take n).count 0x0a := by
  rw [← (bracket_lineOf_ofText s n).count, toList_starts_ofText, List.countP_cons,
    countP_afterLineFeeds]
  simp [Nat.add_comm]

theorem count_utf8_lineFeed (s : List Char) : (utf8 s).count 0x0a = s.count '\n' := by
  induction s with
  | nil => rfl
  | cons c r ih =>
    have whole := count_take_utf8EncodeChar c c.utf8Size
    rw [List.take_of_length_le (by simp)] at whole
    rw [utf8_cons, List.count_append, whole, ih, List.count_cons]
    simp [c.utf8Size_pos, Nat.add_comm]

end PotExtract.Source
