import PotExtract.Proofs.Call.Sites
import PotExtract.Proofs.Source.Reading
import Mathlib.Data.List.Basic

/-!
# Calls beside each other

A text cut at a semicolon has the calls of its two parts. What is before the
semicolon changes nothing after it but the line numbers, and what is after it
can only close a call that is still open.

* `callSites_append`: the calls of the two parts;
* `readCall_append`: a call that is closed is read without what follows it;
* `extract_append`: what the two parts yield.
-/

namespace PotExtract

open Source

/-! ## The calls of two parts -/

section
variable {p : Char → Bool} {c : Char}

theorem takeWhile_append_stop (hc : p c = false) (s t : List Char) :
    (s ++ c :: t).takeWhile p = s.takeWhile p := by
  induction s with
  | nil => simp [hc]
  | cons d s ih => simp [List.takeWhile_cons, ih]

theorem dropWhile_append_stop (hc : p c = false) (s t : List Char) :
    (s ++ c :: t).dropWhile p = s.dropWhile p ++ c :: t := by
  induction s with
  | nil => simp [hc]
  | cons d s ih =>
    simp only [List.cons_append, List.dropWhile_cons, ih]
    split <;> rfl

end

/-- A call in a text that goes on. -/
def CallSite.extend (x : List Char) (site : CallSite) : CallSite :=
  { site with rest := site.rest ++ x }

/-- A call in a text that begins `n` bytes later. -/
def CallSite.delay (n : Nat) (site : CallSite) : CallSite :=
  { site with offset := site.offset + n }

theorem callAt?_append (s t : List Char) :
    callAt? (s ++ ';' :: t) = (callAt? s).map fun (f, rest) => (f, rest ++ ';' :: t) := by
  have word : isWordChar ';' = false := rfl
  have space : isSpace ';' = false := rfl
  simp only [callAt?, takeWhile_append_stop word, dropWhile_append_stop word,
    dropWhile_append_stop space]
  cases Function.named? (String.ofList (s.takeWhile isWordChar)) with
  | none => rfl
  | some f =>
    cases h : (s.dropWhile isWordChar).dropWhile isSpace with
    | nil => rfl
    | cons d r =>
      by_cases hd : d = '('
      · simp [hd]
      · simp [hd]

theorem siteAt?_append (offset : Nat) (fresh : Bool) (s t : List Char) :
    siteAt? offset fresh (s ++ ';' :: t) =
      (siteAt? offset fresh s).map (CallSite.extend (';' :: t)) := by
  cases fresh with
  | false => rfl
  | true =>
    simp only [siteAt?, ↓reduceIte, callAt?_append, Option.map_map]
    rfl

theorem callSitesFrom_delay (offset n : Nat) (fresh : Bool) (s : List Char) :
    callSitesFrom [] (offset + n) fresh s =
      (callSitesFrom [] offset fresh s).map (CallSite.delay n) := by
  induction s generalizing offset fresh with
  | nil => rfl
  | cons c r ih =>
    have first : siteAt? (offset + n) fresh (c :: r) =
        (siteAt? offset fresh (c :: r)).map (CallSite.delay n) := by
      cases fresh with
      | false => rfl
      | true => simp [siteAt?, Function.comp_def, CallSite.delay]
    rw [callSitesFrom_cons, callSitesFrom_cons, List.map_append, ← ih, first,
      Nat.add_right_comm]
    cases siteAt? offset fresh (c :: r) <;> rfl

theorem callSitesFrom_append (offset : Nat) (fresh : Bool) (s t : List Char) :
    callSitesFrom [] offset fresh (s ++ ';' :: t) =
      (callSitesFrom [] offset fresh s).map (CallSite.extend (';' :: t)) ++
        callSitesFrom [] (offset + byteSize (s ++ [';'])) true t := by
  induction s generalizing offset fresh with
  | nil =>
    have none : siteAt? offset fresh (';' :: t) = none := by
      have := siteAt?_append offset fresh [] t
      rwa [siteAt?_nil] at this
    rw [List.nil_append, callSitesFrom_cons, none]
    rfl
  | cons c r ih =>
    have first := siteAt?_append offset fresh (c :: r) t
    rw [List.cons_append] at first
    rw [List.cons_append, callSitesFrom_cons, callSitesFrom_cons, ih, first, List.map_append,
      List.append_assoc, List.cons_append, byteSize_cons, Nat.add_assoc]
    cases siteAt? offset fresh (c :: r) <;> rfl

/-- The calls of a text cut at a semicolon are those of the two parts. -/
theorem callSites_append (s t : List Char) :
    callSites (s ++ ';' :: t) =
      (callSites s).map (CallSite.extend (';' :: t)) ++
        (callSites t).map (CallSite.delay (byteSize (s ++ [';']))) := by
  rw [callSites, callSitesFrom_append, callSitesFrom_delay]
  rfl

/-! ## Their places -/

/-- A place `n` lines further down. -/
def Location.shift (n : Nat) (l : Location) : Location :=
  { l with line := l.line + n }

/-- The record of a call `n` lines further down. -/
def Record.shift (n : Nat) (r : Record) : Record :=
  { r with location := Location.shift n r.location }

/-- A skipped call `n` lines further down. -/
def Skipped.shift (n : Nat) (k : Skipped) : Skipped :=
  { k with location := Location.shift n k.location }

theorem place_extend {path : String} {s : List Char} {site : CallSite} (h : site ∈ callSites s)
    (x : List Char) : (site.extend x).place path (s ++ x) = site.place path s := by
  obtain ⟨pre, suf, rfl, hoffset, -⟩ := mem_callSitesFrom.1 h
  have inside : site.offset ≤ (utf8 (pre ++ suf)).length := by
    simp [hoffset]
  simp only [CallSite.place, CallSite.extend, utf8_append (pre ++ suf),
    List.take_append_of_le_length inside]

theorem place_delay (path : String) (s t : List Char) (site : CallSite) :
    (site.delay (byteSize s)).place path (s ++ t) =
      Location.shift (s.count '\n') (site.place path t) := by
  have feeds : (utf8 s).count '\n'.toUInt8 = s.count '\n' := count_utf8_lineFeed s
  simp only [CallSite.place, CallSite.delay, Location.shift, utf8_append, List.take_append,
    length_utf8, Nat.add_sub_cancel, List.count_append, Location.mk.injEq, true_and]
  rw [List.take_of_length_le (by simp), feeds]
  omega

theorem record?_delay (n m : Nat) (site : CallSite) (l : Location) :
    (site.delay n).record? (Location.shift m l) = (site.record? l).map (Record.shift m) := by
  simp only [CallSite.record?, CallSite.delay]
  cases site.function.readCall site.rest <;> rfl

theorem skipped?_delay (n m : Nat) (site : CallSite) (l : Location) :
    (site.delay n).skipped? (Location.shift m l) = (site.skipped? l).map (Skipped.shift m) := by
  simp only [CallSite.skipped?, CallSite.delay]
  cases site.function.readCall site.rest <;> rfl

/-- What is read off the calls of two parts, at their places. -/
theorem filterMap_callSites_append {β : Type} {look : CallSite → Location → Option β}
    {shift : Nat → β → β}
    (hshift : ∀ n m site l,
      look (CallSite.delay n site) (Location.shift m l) = (look site l).map (shift m))
    (path : String) (s t : List Char) :
    ((callSites (s ++ ';' :: t)).filterMap fun site =>
        look site (site.place path (s ++ ';' :: t))) =
      (callSites s).filterMap (fun site => look (site.extend (';' :: t)) (site.place path s)) ++
        ((callSites t).filterMap fun site => look site (site.place path t)).map
          (shift (s.count '\n')) := by
  have after (site : CallSite) : (site.delay (byteSize (s ++ [';']))).place path (s ++ ';' :: t) =
      Location.shift (s.count '\n') (site.place path t) := by
    have whole : s ++ ';' :: t = (s ++ [';']) ++ t := by simp
    have feeds : (s ++ [';']).count '\n' = s.count '\n' := by simp
    rw [whole, place_delay, feeds]
  rw [callSites_append, List.filterMap_append, List.filterMap_map, List.filterMap_map,
    List.map_filterMap]
  congr 1
  · apply List.filterMap_congr
    intro site hsite
    simp only [Function.comp_apply, place_extend hsite]
  · simp only [Function.comp_def, after, hshift]

/-! ## What they say -/

/-- A call that is closed is read without what follows it. -/
theorem readCall_append {f : Function} {s : List Char} (x : List Char)
    (h : f.readCall s ≠ .error .unbalanced) : f.readCall (s ++ x) = f.readCall s := by
  simp only [Function.readCall] at h ⊢
  cases hs : closeParen? s with
  | none => simp [hs] at h
  | some p =>
    obtain ⟨inside, rest⟩ := p
    rw [closeParen?_append x hs]

/-- A call that is not left open by its own part is read the same in the whole. -/
theorem record?_extend {site : CallSite} (x : List Char) (l : Location)
    (h : site.function.readCall site.rest ≠ .error .unbalanced) :
    (site.extend x).record? l = site.record? l := by
  simp only [CallSite.record?, CallSite.extend, readCall_append x h]

theorem skipped?_extend {site : CallSite} (x : List Char) (l : Location)
    (h : site.function.readCall site.rest ≠ .error .unbalanced) :
    (site.extend x).skipped? l = site.skipped? l := by
  simp only [CallSite.skipped?, CallSite.extend, readCall_append x h]

theorem record?_extend_of_eq_some {site : CallSite} {x : List Char} {l : Location} {r : Record}
    (h : site.record? l = some r) : (site.extend x).record? l = some r := by
  rw [record?_extend x l, h]
  intro hopen
  simp [CallSite.record?, hopen] at h

theorem filterMap_sublist {α β : Type} {f g : α → Option β} {l : List α}
    (h : ∀ a ∈ l, ∀ b, f a = some b → g a = some b) : (l.filterMap f).Sublist (l.filterMap g) := by
  induction l with
  | nil => exact .slnil
  | cons a l ih =>
    have ih := ih fun b hb => h b (List.mem_cons_of_mem a hb)
    cases hf : f a with
    | none =>
      rw [List.filterMap_cons_none hf]
      refine ih.trans ?_
      rw [List.filterMap_cons]
      split
      · exact List.Sublist.refl _
      · exact List.sublist_cons_self _ _
    | some b =>
      rw [List.filterMap_cons_some hf, List.filterMap_cons_some (h a List.mem_cons_self b hf)]
      exact ih.cons_cons b

/-- **A broken call never hides or alters its neighbours.** Whatever is left open before a
semicolon, the part after it yields what it yields alone, some lines further down, and no record
of the part before it is lost. If that part leaves no call open, it too yields what it yields
alone. -/
theorem extract_append (path : String) (s t : List Char) :
    ∃ records skipped,
      (extract path (s ++ ';' :: t)).records =
        records ++ (extract path t).records.map (Record.shift (s.count '\n')) ∧
      (extract path (s ++ ';' :: t)).skipped =
        skipped ++ (extract path t).skipped.map (Skipped.shift (s.count '\n')) ∧
      (extract path s).records.Sublist records ∧
      ((∀ call ∈ (extract path s).skipped, call.reason ≠ .unbalanced) →
        records = (extract path s).records ∧ skipped = (extract path s).skipped) := by
  refine ⟨(callSites s).filterMap fun site => (site.extend (';' :: t)).record? (site.place path s),
    (callSites s).filterMap fun site => (site.extend (';' :: t)).skipped? (site.place path s),
    ?_, ?_, ?_, ?_⟩
  · rw [records_extract, records_extract]
    exact filterMap_callSites_append record?_delay path s t
  · rw [skipped_extract, skipped_extract]
    exact filterMap_callSites_append skipped?_delay path s t
  · rw [records_extract]
    apply filterMap_sublist
    intro site _ r hr
    exact record?_extend_of_eq_some hr
  · intro closed
    have hclosed : ∀ site ∈ callSites s, site.function.readCall site.rest ≠ .error .unbalanced := by
      intro site hsite hopen
      apply closed ⟨site.place path s, site.function, .unbalanced⟩ _ rfl
      rw [skipped_extract, List.mem_filterMap]
      exact ⟨site, hsite, by simp [CallSite.skipped?, hopen]⟩
    rw [records_extract, skipped_extract]
    constructor
    · apply List.filterMap_congr
      intro site hsite
      exact record?_extend _ _ (hclosed site hsite)
    · apply List.filterMap_congr
      intro site hsite
      exact skipped?_extend _ _ (hclosed site hsite)

end PotExtract
