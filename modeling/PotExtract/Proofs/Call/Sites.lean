import PotExtract.Call.Extract
import PotExtract.Proofs.Source.Lines

/-!
# Where calls stand

The calls of a text, told from its bytes alone: a place where a name may
begin, the longest run of name bytes from there, blanks, and a parenthesis.
The scan that finds them goes over the text once, character by character.

* `CallSite.StandsIn`: a call at a byte offset;
* `mem_callSitesFrom`: what a scan finds, by the place where it cuts the text;
* `mem_callSites`: a scan finds the calls, all of them and nothing else;
* `pairwise_callSites`: it finds them in order, each once;
* `extract_exact`: the records and the skipped calls of a text.
-/

namespace PotExtract

open Source

/-! ## Bytes of names and blanks -/

theorem isWordChar_of_le {c : Char} (h : 128 ≤ c.toNat) : isWordChar c = true := by
  simp [isWordChar, h]

theorem isWordByte_of_le {b : UInt8} (h : 128 ≤ b.toNat) : isWordByte b = true := by
  have hb : 0x80 ≤ b := h
  simp [isWordByte, hb]

theorem isSpaceByte_of_le {b : UInt8} (h : 128 ≤ b.toNat) : isSpaceByte b = false := by
  have ne : ∀ d : UInt8, d.toNat < 128 → b ≠ d := by
    rintro d hd rfl
    omega
  simp [isSpaceByte, ne]

theorem byteClass_word : ByteClass isWordChar isWordByte :=
  .of_ascii true (by decide) (fun _ h => isWordChar_of_le h) (fun _ h => isWordByte_of_le h)

theorem byteClass_endsWord : ByteClass endsWord fun b => !(isWordByte b || b == '$'.toUInt8) := by
  apply ByteClass.of_ascii false (by decide)
  · intro c h
    simp [endsWord, isWordChar_of_le h]
  · intro b h
    simp [isWordByte_of_le h]

theorem byteClass_space : ByteClass isSpace isSpaceByte := by
  apply ByteClass.of_ascii false (by decide)
  · intro c h
    have ne : ∀ d : Char, d.toNat < 128 → c ≠ d := by
      rintro d hd rfl
      omega
    simp [isSpace, ne]
  · intro b h
    exact isSpaceByte_of_le h

/-! ## Functions by their names -/

theorem Function.named?_eq_some {name : String} {f : Function} :
    Function.named? name = some f ↔ f ∈ Function.all ∧ f.name = name := by
  constructor
  · intro h
    exact ⟨List.mem_of_find?_eq_some h, by simpa using List.find?_some h⟩
  · rintro ⟨hf, rfl⟩
    have each : ∀ f ∈ Function.all, Function.named? f.name = some f := by decide
    exact each f hf

/-- Every name begins with an ASCII letter or an underscore. -/
theorem Function.exists_name_eq_cons {f : Function} (h : f ∈ Function.all) :
    ∃ c r, f.name.toList = c :: r ∧ isWordStart c = true ∧ c.toNat < 128 := by
  have each : ∀ f ∈ Function.all,
      f.name.toList.head?.any (fun c => isWordStart c && decide (c.toNat < 128)) = true := by
    decide
  obtain ⟨c, hc, hp⟩ := Option.any_eq_true _ _ |>.1 (each f h)
  obtain ⟨r, hr⟩ := List.head?_eq_some_iff.1 hc
  simp only [Bool.and_eq_true, decide_eq_true_eq] at hp
  exact ⟨c, r, hr, hp⟩

/-- The first argument of every function is the text, and it has to be there. -/
theorem Function.text_first {f : Function} (h : f ∈ Function.all) :
    0 < f.required ∧ ∃ roles, f.roles = .text :: roles := by
  have each : ∀ f ∈ Function.all, 0 < f.required ∧ f.roles.head? = some .text := by decide
  obtain ⟨hpos, hhead⟩ := each f h
  exact ⟨hpos, List.head?_eq_some_iff.1 hhead⟩

theorem callAt?_eq_some {s rest : List Char} {f : Function} :
    callAt? s = some (f, rest) ↔
      f ∈ Function.all ∧ s.takeWhile isWordChar = f.name.toList ∧
        (s.dropWhile isWordChar).dropWhile isSpace = '(' :: rest := by
  have named (g : Function) : Function.named? (String.ofList (s.takeWhile isWordChar)) = some g ↔
      g ∈ Function.all ∧ s.takeWhile isWordChar = g.name.toList := by
    rw [Function.named?_eq_some, ← String.toList_inj, String.toList_ofList,
      eq_comm (a := g.name.toList)]
  rw [← and_assoc, ← named]
  unfold callAt?
  split
  · simp_all
  · split <;> simp_all

theorem isWordStart_of_callAt? {c : Char} {r rest : List Char} {f : Function}
    (h : callAt? (c :: r) = some (f, rest)) : isWordStart c = true := by
  obtain ⟨hf, name, -⟩ := callAt?_eq_some.1 h
  obtain ⟨d, t, hd, start, -⟩ := Function.exists_name_eq_cons hf
  rw [hd, List.takeWhile_cons] at name
  split at name
  · cases name
    exact start
  · cases name

theorem callAt?_nil : callAt? [] = none := rfl

/-! ## The scan -/

/-- The call that begins a text, if a name may begin there. -/
def siteAt? (offset : Nat) (fresh : Bool) (s : List Char) : Option CallSite :=
  if fresh then (callAt? s).map fun (f, rest) => ⟨offset, f, rest⟩ else none

@[simp] theorem siteAt?_nil (offset : Nat) (fresh : Bool) : siteAt? offset fresh [] = none := by
  cases fresh <;> rfl

theorem siteAt?_eq_some {offset : Nat} {fresh : Bool} {s : List Char} {site : CallSite} :
    siteAt? offset fresh s = some site ↔
      fresh = true ∧ site.offset = offset ∧ callAt? s = some (site.function, site.rest) := by
  cases site
  simp only [siteAt?, Option.ite_none_right_eq_some, Option.map_eq_some_iff, Prod.exists,
    CallSite.mk.injEq]
  constructor
  · rintro ⟨hfresh, f, rest, hcall, rfl, rfl, rfl⟩
    exact ⟨hfresh, rfl, hcall⟩
  · rintro ⟨hfresh, rfl, hcall⟩
    exact ⟨hfresh, _, _, hcall, rfl, rfl, rfl⟩

theorem siteAt?_of_not_isWordStart {c : Char} (hc : isWordStart c = false) (offset : Nat)
    (fresh : Bool) (r : List Char) : siteAt? offset fresh (c :: r) = none := by
  rw [Option.eq_none_iff_forall_ne_some]
  intro site hsite
  have start := isWordStart_of_callAt? (siteAt?_eq_some.1 hsite).2.2
  rw [hc] at start
  cases start

theorem callSitesFrom_eq_append (found : List CallSite) (offset : Nat) (fresh : Bool)
    (s : List Char) :
    callSitesFrom found offset fresh s = found.reverse ++ callSitesFrom [] offset fresh s := by
  induction s generalizing found offset fresh with
  | nil => simp [callSitesFrom]
  | cons c r ih =>
    simp only [callSitesFrom]
    rw [ih]
    conv => rhs; rw [ih]
    split <;> simp

@[simp] theorem callSitesFrom_nil (offset : Nat) (fresh : Bool) :
    callSitesFrom [] offset fresh [] = [] := rfl

/-- One step of the scan. -/
theorem callSitesFrom_cons (offset : Nat) (fresh : Bool) (c : Char) (r : List Char) :
    callSitesFrom [] offset fresh (c :: r) =
      (siteAt? offset fresh (c :: r)).toList ++
        callSitesFrom [] (offset + c.utf8Size) (endsWord c) r := by
  have first : (if fresh && isWordStart c then callAt? (c :: r) else none) =
      if fresh then callAt? (c :: r) else none := by
    cases hcall : callAt? (c :: r) with
    | none => simp
    | some found =>
      rw [isWordStart_of_callAt? hcall, Bool.and_true]
  rw [callSitesFrom, first, callSitesFrom_eq_append]
  cases fresh <;> cases hcall : callAt? (c :: r) <;> simp [siteAt?, hcall]

/-- Whether a name may begin after a text, if it may begin before it. -/
def freshAfter (fresh : Bool) (pre : List Char) : Bool :=
  (pre.getLast?.map endsWord).getD fresh

@[simp] theorem freshAfter_nil (fresh : Bool) : freshAfter fresh [] = fresh := rfl

@[simp] theorem freshAfter_cons (fresh : Bool) (c : Char) (pre : List Char) :
    freshAfter fresh (c :: pre) = freshAfter (endsWord c) pre := by
  cases h : pre.getLast? <;> simp [freshAfter, List.getLast?_cons, h]

/-- What a scan finds: each cut of the text where a name may begin and a call follows. -/
theorem mem_callSitesFrom {offset : Nat} {fresh : Bool} {s : List Char} {site : CallSite} :
    site ∈ callSitesFrom [] offset fresh s ↔
      ∃ pre suf, s = pre ++ suf ∧ site.offset = offset + byteSize pre ∧
        freshAfter fresh pre = true ∧ callAt? suf = some (site.function, site.rest) := by
  induction s generalizing offset fresh with
  | nil =>
    simp only [callSitesFrom_nil, List.not_mem_nil, false_iff]
    rintro ⟨pre, suf, hs, -, -, hcall⟩
    obtain ⟨rfl, rfl⟩ := List.append_eq_nil_iff.1 hs.symm
    simp [callAt?_nil] at hcall
  | cons c r ih =>
    rw [callSitesFrom_cons, List.mem_append, Option.mem_toList, siteAt?_eq_some, ih]
    constructor
    · rintro (⟨hfresh, hoffset, hcall⟩ | ⟨pre, suf, rfl, hoffset, hfresh, hcall⟩)
      · exact ⟨[], c :: r, rfl, by simpa using hoffset, by simpa using hfresh, hcall⟩
      · exact ⟨c :: pre, suf, rfl, by simp [hoffset]; omega, by simpa using hfresh, hcall⟩
    · rintro ⟨pre, suf, hs, hoffset, hfresh, hcall⟩
      cases pre with
      | nil =>
        rw [List.nil_append] at hs
        subst hs
        exact .inl ⟨by simpa using hfresh, by simpa using hoffset, hcall⟩
      | cons d pre =>
        obtain ⟨rfl, rfl⟩ := List.cons.inj hs
        refine .inr ⟨pre, suf, rfl, ?_, by simpa using hfresh, hcall⟩
        simp only [byteSize_cons] at hoffset
        omega

theorem le_offset_of_mem {offset : Nat} {fresh : Bool} {s : List Char} {site : CallSite}
    (h : site ∈ callSitesFrom [] offset fresh s) : offset ≤ site.offset := by
  obtain ⟨pre, -, -, hoffset, -⟩ := mem_callSitesFrom.1 h
  omega

theorem pairwise_callSitesFrom (offset : Nat) (fresh : Bool) (s : List Char) :
    (callSitesFrom [] offset fresh s).Pairwise fun a b => a.offset < b.offset := by
  induction s generalizing offset fresh with
  | nil => exact List.Pairwise.nil
  | cons c r ih =>
    rw [callSitesFrom_cons, List.pairwise_append]
    refine ⟨?_, ih _ _, ?_⟩
    · cases siteAt? offset fresh (c :: r) <;> simp
    · intro a ha b hb
      rw [Option.mem_toList, siteAt?_eq_some] at ha
      have hb := le_offset_of_mem hb
      have hc := c.utf8Size_pos
      omega

/-- The calls of a text stand in it in order, each once. -/
theorem pairwise_callSites (s : List Char) :
    (callSites s).Pairwise fun a b => a.offset < b.offset :=
  pairwise_callSitesFrom 0 true s

/-! ## Calls in bytes -/

/-- A call stands at a byte offset of a text. -/
structure CallSite.StandsIn (s : List Char) (site : CallSite) : Prop where
  /-- The byte before continues no name and makes no variable of what follows. -/
  fresh : site.offset = 0 ∨ ∃ b, (utf8 s)[site.offset - 1]? = some b ∧
    isWordByte b = false ∧ b ≠ '$'.toUInt8
  listed : site.function ∈ Function.all
  /-- The longest run of name bytes is the name of the function. -/
  name : ((utf8 s).drop site.offset).takeWhile isWordByte = utf8 site.function.name.toList
  /-- Blanks and the parenthesis come after it. -/
  opens : (((utf8 s).drop site.offset).dropWhile isWordByte).dropWhile isSpaceByte =
    '('.toUInt8 :: utf8 site.rest

/-- The last byte of a text tells whether a name may begin after it. -/
theorem freshAfter_iff {pre suf : List Char} :
    freshAfter true pre = true ↔
      byteSize pre = 0 ∨ ∃ b, (utf8 (pre ++ suf))[byteSize pre - 1]? = some b ∧
        isWordByte b = false ∧ b ≠ '$'.toUInt8 := by
  rcases List.eq_nil_or_concat pre with rfl | ⟨init, c, rfl⟩
  · simp
  · have hpos : 0 < byteSize (init ++ [c]) := by
      have := c.utf8Size_pos
      simp
      omega
    obtain ⟨b, hb⟩ : ∃ b, (String.utf8EncodeChar c).getLast? = some b :=
      ⟨_, List.getLast?_eq_some_getLast String.utf8EncodeChar_ne_nil⟩
    have last : (utf8 ((init ++ [c]) ++ suf))[byteSize (init ++ [c]) - 1]? = some b := by
      rw [utf8_append, List.getElem?_append_left (by rw [length_utf8]; omega), ← length_utf8,
        ← List.getLast?_eq_getElem?, utf8_append, List.getLast?_append]
      simp [hb]
    have whole := byteClass_endsWord c b (List.mem_of_getLast? hb)
    simp only [freshAfter, List.concat_eq_append, List.getLast?_concat, Option.map_some,
      Option.getD_some, ← whole, last, Option.some.injEq, exists_eq_left', Nat.ne_of_gt hpos,
      false_or]
    simp

/-- A scan finds the calls of a text, and nothing else. -/
theorem mem_callSites {s : List Char} {site : CallSite} :
    site ∈ callSites s ↔ site.StandsIn s := by
  simp only [callSites, mem_callSitesFrom, Nat.zero_add, callAt?_eq_some]
  constructor
  · rintro ⟨pre, suf, rfl, hoffset, hfresh, hf, name, opens⟩
    have here : (utf8 (pre ++ suf)).drop site.offset = utf8 suf := by
      rw [hoffset, utf8_append, ← length_utf8, List.drop_left]
    refine ⟨hoffset ▸ freshAfter_iff.1 hfresh, hf, ?_, ?_⟩
    · rw [here, takeWhile_utf8 byteClass_word, name]
    · rw [here, dropWhile_utf8 byteClass_word, dropWhile_utf8 byteClass_space, opens]
      rfl
  · rintro ⟨fresh, hf, name, opens⟩
    obtain ⟨c, r, hname, -, ascii⟩ := Function.exists_name_eq_cons hf
    -- The name's first byte is ASCII, so the call begins between two characters.
    obtain ⟨b, bs, hb⟩ : ∃ b bs, (utf8 s).drop site.offset = b :: bs := by
      apply List.exists_cons_of_ne_nil
      intro hnil
      rw [hnil, hname, utf8_cons, utf8EncodeChar_of_ascii ascii] at name
      cases name
    have hbc : b = UInt8.ofNat c.toNat := by
      rw [hb, hname, utf8_cons, utf8EncodeChar_of_ascii ascii, List.takeWhile_cons] at name
      split at name
      · exact (List.cons.inj name).1
      · cases name
    obtain ⟨pre, suf, rfl, hoffset, hsuf⟩ := exists_drop_utf8 hb (by
      rw [hbc, UInt8.toNat_ofNat']
      omega)
    rw [hb, ← hsuf] at name opens
    refine ⟨pre, suf, rfl, hoffset.symm, freshAfter_iff.2 (hoffset ▸ fresh), hf, ?_, ?_⟩
    · rw [takeWhile_utf8 byteClass_word] at name
      exact utf8_injective name
    · rw [dropWhile_utf8 byteClass_word, dropWhile_utf8 byteClass_space] at opens
      exact utf8_injective opens

/-! ## What a text yields -/

/-- The place of a call: the line is one more than the number of line feeds before it. -/
def CallSite.place (path : String) (s : List Char) (site : CallSite) : Location :=
  ⟨path, 1 + ((utf8 s).take site.offset).count '\n'.toUInt8⟩

/-- A place between two characters, told by the text before it. -/
theorem place_append (path : String) (pre suf : List Char) {site : CallSite}
    (h : site.offset = byteSize pre) :
    site.place path (pre ++ suf) = ⟨path, 1 + pre.count '\n'⟩ := by
  have feeds : (utf8 pre).count '\n'.toUInt8 = pre.count '\n' := count_utf8_lineFeed pre
  rw [CallSite.place, h, utf8_append, ← length_utf8, List.take_left, feeds]

/-- The record of a call at a location, if its arguments can be read. -/
def CallSite.record? (site : CallSite) (location : Location) : Option Record :=
  match site.function.readCall site.rest with
  | .ok message => some { message with location }
  | .error _ => none

/-- The report of a call at a location, if its arguments cannot be read. -/
def CallSite.skipped? (site : CallSite) (location : Location) : Option Skipped :=
  match site.function.readCall site.rest with
  | .ok _ => none
  | .error reason => some ⟨location, site.function, reason⟩

theorem records_extract (path : String) (s : List Char) :
    (extract path s).records =
      (callSites s).filterMap fun site => site.record? (site.place path s) := by
  simp only [extract, List.filterMap_map]
  congr 1
  funext site
  simp only [Function.comp_apply, lineOf_ofText, CallSite.read, CallSite.record?]
  cases site.function.readCall site.rest <;> rfl

theorem skipped_extract (path : String) (s : List Char) :
    (extract path s).skipped =
      (callSites s).filterMap fun site => site.skipped? (site.place path s) := by
  simp only [extract, List.filterMap_map]
  congr 1
  funext site
  simp only [Function.comp_apply, lineOf_ofText, CallSite.read, CallSite.skipped?]
  cases site.function.readCall site.rest <;> rfl

/-- **Recognition is sound and complete.** The records of a text are those of its calls that can
be read, and its skipped calls are the others; both are in the order in which the calls stand,
and each has the line of its name. -/
theorem extract_exact (path : String) (s : List Char) :
    ∃ sites : List CallSite,
      (sites.Pairwise fun a b => a.offset < b.offset) ∧
      (∀ site, site ∈ sites ↔ site.StandsIn s) ∧
      (extract path s).records = sites.filterMap (fun site => site.record? (site.place path s)) ∧
      (extract path s).skipped = sites.filterMap fun site => site.skipped? (site.place path s) :=
  ⟨callSites s, pairwise_callSites s, fun _ => mem_callSites, records_extract path s,
    skipped_extract path s⟩

end PotExtract
