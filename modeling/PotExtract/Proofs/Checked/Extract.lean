import PotExtract.Checked.Extract
import PotExtract.Proofs.Call.Roles
import PotExtract.Proofs.Checked.Arguments

/-!
# Extraction in bytes

The scan for calls, with every byte it reads, every slice it takes and every
role it looks up. None of these goes wrong, on any text, and what the scan
yields is what the text says.

* `extractCall_eq`: a call is read, and its text is among its arguments;
* `scan_eq`: from between two characters, the scan finds the calls;
* `extract_checked`: extraction does not go wrong.
-/

namespace PotExtract.Checked

open Source

/-! ## Runs -/

theorem byteClass_wordStart : ByteClass isWordStart isWordStartByte := by
  apply ByteClass.of_ascii true (by decide)
  · intro c h
    simp [isWordStart, h]
  · intro b h
    have hb : 0x80 ≤ b := h
    simp [isWordStartByte, hb]

theorem isWordChar_of_isWordStart {c : Char} (hc : isWordStart c = true) : isWordChar c = true := by
  simp only [isWordStart, Bool.or_eq_true] at hc
  rcases hc with (alpha | low) | high
  · simp [isWordChar, Char.isAlphanum, alpha]
  · simp [isWordChar, low]
  · simp [isWordChar, high]

theorem runEnd_drop (q : UInt8 → Bool) (bytes : List UInt8) (i : Nat) :
    runEnd q bytes i = .ok (i + ((bytes.drop i).takeWhile q).length) := by
  induction h : bytes.length - i generalizing i with
  | zero =>
    rw [runEnd, if_neg (by omega), List.drop_of_length_le (by omega)]
    rfl
  | succ n ih =>
    have inside : i < bytes.length := by omega
    rw [runEnd, if_pos inside, byteAt_of_getElem? (List.getElem?_eq_getElem inside), ok_bind,
      List.drop_eq_getElem_cons inside, List.takeWhile_cons]
    split
    · rw [ih (i + 1) (by omega), List.length_cons]
      congr 1
      omega
    · rfl

section
variable {s pre r : List Char}

theorem runEnd_eq {p : Char → Bool} {q : UInt8 → Bool} (h : ByteClass p q) (hs : s = pre ++ r) :
    runEnd q (utf8 s) (byteSize pre) = .ok (byteSize (pre ++ r.takeWhile p)) := by
  rw [runEnd_drop, hs, drop_utf8, takeWhile_utf8 h, length_utf8, byteSize_append]

theorem openAfter_eq (hs : s = pre ++ r) :
    openAfter (utf8 s) (byteSize pre) =
      .ok (if (r.dropWhile isSpace).head? = some '(' then
        some (byteSize (pre ++ r.takeWhile isSpace)) else none) := by
  have whole : s = (pre ++ r.takeWhile isSpace) ++ r.dropWhile isSpace := by
    rw [hs, List.append_assoc, List.takeWhile_append_dropWhile]
  have byte : (utf8 s)[byteSize (pre ++ r.takeWhile isSpace)]? = some '('.toUInt8 ↔
      (r.dropWhile isSpace).head? = some '(' := by
    rw [getElem?_utf8 whole]
    cases r.dropWhile isSpace <;> simp [lead_eq_iff (show '('.toNat < 128 by decide)]
  rw [openAfter, runEnd_eq byteClass_space hs, ok_bind]
  simp only [byte]
  rfl

end

/-! ## What a call says -/

theorem readRole_eq (role : Role) (raw : List Char) :
    readRole role raw = .ok (role.read raw) := by
  rw [readRole, unwrap_eq, ok_bind, Role.read.eq_def]
  cases role <;> simp only [parse?_eq, ok_bind] <;>
    cases Literal.parse? (Source.unwrap raw) <;> rfl

theorem readAll_eq (roles : List Role) (args : List (List Char)) :
    readAll roles args = .ok (readRoles roles args) := by
  induction roles generalizing args with
  | nil => rfl
  | cons role roles ih =>
    cases args with
    | nil => rfl
    | cons raw args =>
      rw [readAll, readRole_eq, ok_bind, readRoles]
      cases role.read raw with
      | error reason => rfl
      | ok value =>
        simp only [ih, ok_bind]
        cases readRoles roles args <;> rfl

/-- With as many arguments as it has to have, a function finds its text among them. -/
theorem exists_lookup_text {f : Function} (listed : f ∈ Function.all) {args : List (List Char)}
    (enough : f.required ≤ args.length) {values : List (Role × String)}
    (h : readRoles f.roles args = .ok values) : ∃ text, values.lookup .text = some text := by
  obtain ⟨hpos, roles, hroles⟩ := Function.text_first listed
  obtain ⟨raw, args, rfl⟩ := List.exists_cons_of_length_pos (Nat.lt_of_lt_of_le hpos enough)
  rw [hroles] at h
  obtain ⟨value, others, -, -, rfl⟩ := readRoles_cons_eq_ok_iff.1 h
  exact ⟨value, rfl⟩

/-- A function has a role at each place before the last argument that it has to have. -/
theorem required_le_length (f : Function) : f.required ≤ f.roles.length := by
  have reversed : f.roles.reverse.length = f.roles.length := List.length_reverse
  rw [Function.required, ← reversed]
  exact (List.dropWhile_sublist _).length_le

theorem readMessage_eq {f : Function} (listed : f ∈ Function.all) (args : List (List Char)) :
    readMessage f args = .ok (f.read args) := by
  rw [readMessage, Function.read]
  by_cases few : args.length < f.required
  · have inside : args.length < f.roles.length := Nat.lt_of_lt_of_le few (required_le_length f)
    rw [if_pos few, if_pos few, List.getD_eq_getElem?_getD, List.getElem?_eq_getElem inside]
    rfl
  · rw [if_neg few, if_neg few, readAll_eq, ok_bind]
    cases h : readRoles f.roles args with
    | error reason => rfl
    | ok values =>
      obtain ⟨text, told⟩ := exists_lookup_text listed (Nat.le_of_not_lt few) h
      simp only [bind, Except.bind, told]
      rfl

/-- A call is read, up to the partner of its parenthesis. -/
theorem extractCall_eq {f : Function} (listed : f ∈ Function.all) {s pre r : List Char}
    (hs : s = pre ++ '(' :: r) : extractCall s f (byteSize pre) = .ok (f.readCall r) := by
  rw [extractCall, findParen_eq, ok_bind, matchingParen?_append hs, Function.readCall]
  cases hclose : closeParen? r with
  | none => rfl
  | some p =>
    obtain ⟨inside, rest⟩ := p
    obtain ⟨ts, rfl, reads, -⟩ := closeParen?_eq_some_iff.1 hclose
    have opens := byteSize_ascii (c := '(') (by decide) pre
    have whole : s = (pre ++ ['(']) ++ ts.flatMap Token.text ++ ')' :: rest := by
      rw [hs, reads.text]
      simp
    have cut := slice_append whole
    rw [byteSize_append (pre ++ ['(']), opens] at cut
    simp only [Option.map_some, cut, ok_bind, split_eq, readMessage_eq listed]

/-! ## The scan -/

theorem endsWord_of_isWordChar {c : Char} (hc : isWordChar c = true) : endsWord c = false := by
  simp [endsWord, hc]

/-- No name begins right after a name. -/
theorem freshAfter_word (fresh : Bool) (pre : List Char) {run : List Char} (ne : run ≠ [])
    (h : ∀ c ∈ run, isWordChar c = true) : freshAfter fresh (pre ++ run) = false := by
  have last := endsWord_of_isWordChar (h _ (List.getLast_mem ne))
  rw [freshAfter, List.getLast?_append, List.getLast?_eq_some_getLast ne]
  exact last

/-- No name begins within a name. -/
theorem callSitesFrom_word {run : List Char} (h : ∀ c ∈ run, isWordChar c = true) (offset : Nat)
    (r : List Char) :
    callSitesFrom [] offset false (run ++ r) =
      callSitesFrom [] (offset + byteSize run) false r := by
  induction run generalizing offset with
  | nil => rfl
  | cons c run ih =>
    obtain ⟨hc, more⟩ := List.forall_mem_cons.1 h
    rw [List.cons_append, callSitesFrom_cons, endsWord_of_isWordChar hc, ih more, byteSize_cons,
      Nat.add_assoc]
    rfl

/-- The scan for calls goes on after a name. -/
theorem callSitesFrom_name {c : Char} (hc : isWordChar c = true) (offset : Nat) (fresh : Bool)
    (r : List Char) :
    callSitesFrom [] offset fresh (c :: r) =
      (siteAt? offset fresh (c :: r)).toList ++
        callSitesFrom [] (offset + byteSize ((c :: r).takeWhile isWordChar)) false
          ((c :: r).dropWhile isWordChar) := by
  have name : ∀ d ∈ r.takeWhile isWordChar, isWordChar d = true :=
    fun _ hd => List.mem_takeWhile_imp hd
  conv => lhs; rw [callSitesFrom_cons, endsWord_of_isWordChar hc,
    ← List.takeWhile_append_dropWhile (p := isWordChar) (l := r), callSitesFrom_word name]
  rw [List.takeWhile_append_dropWhile, List.takeWhile_cons_of_pos hc, List.dropWhile_cons_of_pos hc,
    byteSize_cons, Nat.add_assoc]

section
variable {s pre r : List Char}

theorem mayBegin_eq (hs : s = pre ++ r) :
    mayBegin (utf8 s) (byteSize pre) = .ok (freshAfter true pre) := by
  rw [mayBegin, hs]
  by_cases first : byteSize pre = 0
  · rw [if_pos first, byteSize_eq_zero.1 first]
    rfl
  · obtain ⟨n, hn⟩ := Nat.exists_eq_succ_of_ne_zero first
    have inside : n < (utf8 (pre ++ r)).length := by
      rw [length_utf8, byteSize_append]
      omega
    have byte := List.getElem?_eq_getElem inside
    rw [if_neg first, hn, lower_succ, ok_bind, byteAt_of_getElem? byte, ok_bind]
    refine congrArg Except.ok ?_
    rw [Bool.eq_iff_iff, @freshAfter_iff pre r, hn, Nat.succ_sub_one, byte]
    simp

theorem lineAt_ofText (s : List Char) (offset : Nat) :
    lineAt (LineIndex.ofText s) offset = .ok ((LineIndex.ofText s).lineOf offset) := by
  have positive : (LineIndex.ofText s).lineOf offset ≠ 0 := by
    rw [lineOf_ofText]
    omega
  rw [lineAt, if_neg positive]

/-- Where a name may begin, the call that stands there is read, if there is one. -/
theorem callBetween_eq (path : String) (hs : s = pre ++ r) :
    callBetween path s (LineIndex.ofText s) (byteSize pre)
        (byteSize (pre ++ r.takeWhile isWordChar)) =
      .ok ((siteAt? (byteSize pre) (freshAfter true pre) r).map fun site =>
        site.read ⟨path, (LineIndex.ofText s).lineOf site.offset⟩) := by
  rw [callBetween, mayBegin_eq hs, ok_bind]
  cases freshAfter true pre with
  | false => rfl
  | true =>
    have whole : s = (pre ++ r.takeWhile isWordChar) ++ r.dropWhile isWordChar := by
      rw [hs, List.append_assoc, List.takeWhile_append_dropWhile]
    simp only [if_true, slice_append whole, Except.toOption, Option.bind_some, Function.comp_apply,
      siteAt?, callAt?, openAfter_eq whole]
    cases named : Function.named? (String.ofList (r.takeWhile isWordChar)) with
    | none => rfl
    | some f =>
      have listed := (Function.named?_eq_some.1 named).1
      cases opens : (r.dropWhile isWordChar).dropWhile isSpace with
      | nil => rfl
      | cons c rest =>
        by_cases hc : c = '('
        · subst hc
          have here : s = (pre ++ r.takeWhile isWordChar ++
              (r.dropWhile isWordChar).takeWhile isSpace) ++ '(' :: rest := by
            rw [← opens, List.append_assoc, List.takeWhile_append_dropWhile]
            exact whole
          simp only [List.head?_cons, if_true, ok_bind, lineAt_ofText, extractCall_eq listed here,
            Option.map_some, CallSite.read]
          cases f.readCall rest <;> rfl
        · simp [hc]
          rfl

/-- From between two characters, the scan finds the calls that stand there, and reads them. -/
theorem scan_eq (path : String) (hs : s = pre ++ r) :
    scan path s (LineIndex.ofText s) (byteSize pre) =
      .ok ((callSitesFrom [] (byteSize pre) (freshAfter true pre) r).map fun site =>
        site.read ⟨path, (LineIndex.ofText s).lineOf site.offset⟩) := by
  induction hn : r.length using Nat.strong_induction_on generalizing pre r with
  | _ n ih =>
    cases r with
    | nil =>
      rw [scan, if_neg (by simp [hs])]
      rfl
    | cons c r =>
      cases start : isWordStart c with
      | false =>
        have ascii : c.toNat < 128 := by
          by_contra high
          simp [isWordStart, Nat.le_of_not_lt high] at start
        have fresh : freshAfter true (pre ++ [c]) = endsWord c := by simp [freshAfter]
        have more : scan path s _ (byteSize (pre ++ [c])) = _ :=
          ih r.length (by simp at hn; omega) (by simp [hs]) rfl
        rw [scan, if_pos (lt_length hs), byteAt_lead hs, ok_bind, apply_lead byteClass_wordStart,
          start, if_neg Bool.false_ne_true, ← byteSize_ascii ascii, more, callSitesFrom_cons,
          siteAt?_of_not_isWordStart start, fresh]
        simp
      | true =>
        have word := isWordChar_of_isWordStart start
        have name : (c :: r).takeWhile isWordChar ≠ [] := by simp [word]
        have later := lt_byteSize_append pre name
        have whole : s = (pre ++ (c :: r).takeWhile isWordChar) ++
            (c :: r).dropWhile isWordChar := by
          rw [hs, List.append_assoc, List.takeWhile_append_dropWhile]
        have shorter : ((c :: r).dropWhile isWordChar).length < n := by
          have lengths := congrArg List.length
            (List.takeWhile_append_dropWhile (p := isWordChar) (l := c :: r))
          have pos := List.length_pos_iff.2 name
          rw [List.length_append] at lengths
          omega
        have more : scan path s _ (byteSize (pre ++ (c :: r).takeWhile isWordChar)) = _ :=
          ih _ shorter whole rfl
        rw [scan, if_pos (lt_length hs), byteAt_lead hs, ok_bind, apply_lead byteClass_wordStart,
          start, if_pos rfl, runEnd_eq byteClass_word hs, ok_bind, callBetween_eq path hs, ok_bind]
        simp only [advance_of_lt later, ok_bind, more]
        rw [freshAfter_word true pre name fun _ hd => List.mem_takeWhile_imp hd, byteSize_append,
          callSitesFrom_name word]
        cases siteAt? (byteSize pre) (freshAfter true pre) (c :: r) <;> rfl

end

/-- **Extraction does not go wrong.** No byte is read past the end, no slice is taken out of
order or within a character, no depth falls below zero, no role is looked up past the last, no
line is zero and no call is left without a text; nor are the searches for a parenthesis and for
arguments ever wrong on their own. What comes out is what the text says. -/
theorem extract_checked (path : String) (s : List Char) :
    extract path s = .ok (PotExtract.extract path s) ∧
      (∀ opens, findParen s opens = .ok (matchingParen? s opens)) ∧
      split s = .ok (arguments s) ∧
      unwrap s = .ok (Source.unwrap s) ∧
      parse? s = .ok (Literal.parse? s) ∧
      ∀ offset, lineAt (LineIndex.ofText s) offset = .ok ((LineIndex.ofText s).lineOf offset) := by
  have all := scan_eq path (List.nil_append s).symm
  rw [byteSize_nil] at all
  refine ⟨?_, findParen_eq s, split_eq s, unwrap_eq s, parse?_eq s, lineAt_ofText s⟩
  rw [extract, all]
  rfl

end PotExtract.Checked
