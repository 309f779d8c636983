import PotExtract.Calendar.Timestamp
import PotExtract.Proofs.Calendar.Gregorian
import PotExtract.Template.Header

/-!
# Dates read back

The text of a date names a local day, a minute of it and how far local time is
ahead. A reader that follows the calendar's rules finds the minute again, and
with it the year of the comment before a header.

* `Stamp`, `Stamp.read?`: what a text of this form says, and a reader of it;
* `number?_padded`, `year?_padded`: numbers of a fixed width read back;
* `seenFrom?_eq_some_iff`: the offsets from which a date is seen;
* `read?_text`: the text of a date read back;
* `text_denotes`: what is read is the minute of the date, in its place.
-/

namespace PotExtract

/-! ## The reader -/

/-- What the text of a date says. -/
structure Stamp where
  date : Date
  hour : Nat
  minute : Nat
  /-- The minutes that local time is ahead of universal time. -/
  ahead : Int
  deriving DecidableEq, Repr

namespace Stamp

/-- The first second of the minute, from the start of 1970 in universal time. -/
def seconds (s : Stamp) : Int :=
  (s.date.toDays * 1440 + s.hour * 60 + s.minute - s.ahead) * 60

/-- There is such a date, and such a time of day. -/
def IsValid (s : Stamp) : Prop :=
  s.date.IsValid ∧ s.hour < 24 ∧ s.minute < 60

instance (s : Stamp) : Decidable s.IsValid :=
  inferInstanceAs (Decidable (_ ∧ _))

/-- A number of so many digits, and what comes after it. -/
def number? (width : Nat) (s : List Char) : Option (Nat × List Char) :=
  let digits := s.take width
  if digits.length = width ∧ digits.all Char.isDigit then
    some (Nat.ofDigitChars 10 digits 0, s.drop width)
  else none

/-- A number of any digits that there are, and what comes after it. -/
def natural? (s : List Char) : Option (Nat × List Char) :=
  let digits := s.takeWhile Char.isDigit
  if digits = [] then none
  else some (Nat.ofDigitChars 10 digits 0, s.dropWhile Char.isDigit)

/-- A year, maybe with a minus sign, and what comes after it. -/
def year? : List Char → Option (Int × List Char)
  | '-' :: s => (natural? s).map fun (n, rest) => (-n, rest)
  | s => (natural? s).map fun (n, rest) => (n, rest)

/-- What comes after a character. -/
def mark? (c : Char) : List Char → Option (List Char)
  | [] => none
  | d :: r => if c = d then some r else none

/-- A sign, and what comes after it. -/
def sign? : List Char → Option (Int × List Char)
  | '+' :: r => some (1, r)
  | '-' :: r => some (-1, r)
  | _ => none

/-- A date, a time of day and an offset in hours and minutes. -/
def read? (text : String) : Option Stamp := do
  let (year, s) ← year? text.toList
  let (month, s) ← mark? '-' s >>= number? 2
  let (day, s) ← mark? '-' s >>= number? 2
  let (hour, s) ← mark? ' ' s >>= number? 2
  let (minute, s) ← mark? ':' s >>= number? 2
  let (sign, s) ← sign? s
  let (hours, s) ← number? 2 s
  let (minutes, s) ← number? 2 s
  let stamp : Stamp := ⟨⟨year, month, day⟩, hour, minute, sign * (hours * 60 + minutes)⟩
  if stamp.IsValid ∧ s = [] then some stamp else none

/-! ## Numbers -/

/-- The zeros and digits of a number. -/
def zeroed (zeros n : Nat) : List Char :=
  List.replicate zeros '0' ++ Nat.toDigits 10 n

theorem isDigit_of_mem_zeroed {zeros n : Nat} {c : Char} (h : c ∈ zeroed zeros n) :
    c.isDigit = true := by
  rcases List.mem_append.1 h with zero | digit
  · rw [List.eq_of_mem_replicate zero]
    rfl
  · exact Nat.isDigit_of_mem_toDigits (by decide) (by decide) digit

theorem zeroed_ne_nil (zeros n : Nat) : zeroed zeros n ≠ [] :=
  List.append_ne_nil_of_right_ne_nil _ Nat.toDigits_ne_nil

theorem ofDigitChars_zeroed (zeros n : Nat) : Nat.ofDigitChars 10 (zeroed zeros n) 0 = n := by
  induction zeros with
  | zero => exact Nat.ofDigitChars_toDigits (by decide) (by decide)
  | succ zeros ih =>
    rw [zeroed, List.replicate_succ, List.cons_append, Nat.ofDigitChars_cons]
    exact ih

theorem toList_padded (width : Nat) (n : Int) : ∃ zeros,
    (padded width n).toList = (if n < 0 then ['-'] else []) ++ zeroed zeros n.natAbs := by
  rw [padded, String.toList_ofList, List.append_assoc]
  exact ⟨_, rfl⟩

theorem length_padded {width n : Nat} (h : (Nat.toDigits 10 n).length ≤ width) :
    (padded width n).toList.length = width := by
  have positive : ¬ (n : Int) < 0 := by omega
  simp [padded, positive]
  omega

/-- A number of so many digits is read back. -/
theorem number?_padded {width n : Nat} (h : (Nat.toDigits 10 n).length ≤ width)
    (rest : List Char) : number? width ((padded width n).toList ++ rest) = some (n, rest) := by
  have length := length_padded h
  obtain ⟨zeros, hzeros⟩ := toList_padded width n
  have positive : ¬ (n : Int) < 0 := by omega
  rw [if_neg positive, List.nil_append, Int.natAbs_natCast] at hzeros
  have all : ∀ c ∈ zeroed zeros n, c.isDigit = true := fun c => isDigit_of_mem_zeroed
  rw [number?, List.take_left' length, List.drop_left' length, hzeros,
    if_pos ⟨hzeros ▸ length, List.all_eq_true.2 all⟩, ofDigitChars_zeroed]

theorem natural?_zeroed (zeros n : Nat) {rest : List Char}
    (stop : ∀ c ∈ rest.head?, c.isDigit = false) :
    natural? (zeroed zeros n ++ rest) = some (n, rest) := by
  have all : ∀ c ∈ zeroed zeros n, c.isDigit = true := fun c => isDigit_of_mem_zeroed
  have none : rest.takeWhile Char.isDigit = [] ∧ rest.dropWhile Char.isDigit = rest := by
    cases rest with
    | nil => exact ⟨rfl, rfl⟩
    | cons c rest => simp [stop c rfl]
  rw [natural?, List.takeWhile_append_of_pos all, List.dropWhile_append_of_pos all, none.1, none.2,
    List.append_nil, if_neg (zeroed_ne_nil zeros n), ofDigitChars_zeroed]

theorem minus_not_head_zeroed (zeros n : Nat) (rest s : List Char) :
    zeroed zeros n ++ rest ≠ '-' :: s := by
  intro h
  obtain ⟨c, r, hc⟩ := List.exists_cons_of_ne_nil (zeroed_ne_nil zeros n)
  have digit : c.isDigit = true := isDigit_of_mem_zeroed (hc ▸ List.mem_cons_self)
  rw [hc] at h
  cases h
  cases digit

/-- A year is read back, whatever it is. -/
theorem year?_padded (width : Nat) (n : Int) {rest : List Char}
    (stop : ∀ c ∈ rest.head?, c.isDigit = false) :
    year? ((padded width n).toList ++ rest) = some (n, rest) := by
  obtain ⟨zeros, hzeros⟩ := toList_padded width n
  have read := natural?_zeroed zeros n.natAbs stop
  rw [hzeros]
  split
  · have value : -(n.natAbs : Int) = n := by omega
    rw [List.append_assoc, List.singleton_append, year?, read, Option.map_some]
    simp only [value]
  · have value : (n.natAbs : Int) = n := by omega
    rw [List.nil_append, year?, read, Option.map_some]
    · simp only [value]
    · exact minus_not_head_zeroed zeros n.natAbs rest

end Stamp

/-! ## Offsets -/

namespace Offset

/-- The offset is some minutes, of which each part is small and has the sign of the others. -/
structure IsWhole (o : Offset) : Prop where
  hours : o.hours.natAbs ≤ 25
  minutes : o.minutes.natAbs ≤ 59
  seconds : o.seconds = 0
  sign : 0 ≤ o.hours ∧ 0 ≤ o.minutes ∨ o.hours ≤ 0 ∧ o.minutes ≤ 0

theorem natAbs_withSign (sign n : Int) : (withSign sign n).natAbs = n.natAbs := by
  unfold withSign
  split
  · rfl
  · split <;> omega

theorem withSign_zero (sign : Int) : withSign sign 0 = 0 :=
  Int.natAbs_eq_zero.1 (natAbs_withSign sign 0)

theorem sign_withSign (sign n : Int) :
    0 ≤ sign ∧ 0 ≤ withSign sign n ∨ sign ≤ 0 ∧ withSign sign n ≤ 0 := by
  unfold withSign
  split
  · omega
  · split <;> omega

/-- Hours and minutes give a whole offset. -/
theorem isWhole_of_ofParts? {hours minutes : Int} {o : Offset}
    (h : ofParts? hours minutes 0 = some o) : o.IsWhole := by
  rw [ofParts?] at h
  split at h
  · rename_i small
    cases h
    refine ⟨small.1, ?_, ?_, sign_withSign hours minutes⟩
    · rw [natAbs_withSign]
      exact small.2.1
    · rw [withSign_zero, withSign_zero]
  · cases h

/-- The sign of an offset. -/
def signChar (o : Offset) : Char :=
  if o.total < 0 then '-' else '+'

/-- The printed sign stands before the magnitudes of both parts. -/
theorem IsWhole.signed {o : Offset} (h : o.IsWhole) :
    (if o.total < 0 then -1 else 1) * ((o.hours.natAbs : Int) * 60 + o.minutes.natAbs) =
      o.hours * 60 + o.minutes := by
  have whole := h.seconds
  have sign := h.sign
  unfold Offset.total
  split <;> omega

theorem sign?_signChar (o : Offset) (rest : List Char) :
    Stamp.sign? (o.signChar :: rest) = some (if o.total < 0 then -1 else 1, rest) := by
  unfold Offset.signChar
  split <;> rfl

/-- The parts of a whole offset follow from its minutes. -/
theorem IsWhole.eq_of_minutes {o p : Offset} (ho : o.IsWhole) (hp : p.IsWhole)
    (h : o.hours * 60 + o.minutes = p.hours * 60 + p.minutes) : o = p := by
  obtain ⟨-, mo, so, signo⟩ := ho
  obtain ⟨-, mp, sp, signp⟩ := hp
  have hours : o.hours = p.hours := by omega
  have minutes : o.minutes = p.minutes := by omega
  cases o
  cases p
  exact (Offset.mk.injEq ..).mpr ⟨hours, minutes, so.trans sp.symm⟩

end Offset

/-! ## Dates -/

namespace Timestamp

/-- The range of dates is that of years with at most four digits. -/
theorem inRange_iff (t : Timestamp) :
    earliest ≤ t.localSeconds ∧ t.localSeconds ≤ latest ↔
      -9999 ≤ t.date.year ∧ t.date.year ≤ 9999 := by
  have valid := Date.ofDays_isValid (t.localSeconds / 86400)
  have first : -9999 ≤ t.date.year ↔ daysBeforeYear (-9999) ≤ t.localSeconds / 86400 :=
    valid.le_year_iff.trans (by rw [Date.toDays_ofDays])
  have last : 10000 ≤ t.date.year ↔ daysBeforeYear 10000 ≤ t.localSeconds / 86400 :=
    valid.le_year_iff.trans (by rw [Date.toDays_ofDays])
  have early : daysBeforeYear (-9999) * 86400 = earliest := by decide
  have late : daysBeforeYear 10000 * 86400 = latest + 1 := by decide
  omega

/-- A date is seen from an offset if its year there is in range. -/
theorem seenFrom?_eq_some_iff {t u : Timestamp} {offset : Offset} :
    t.seenFrom? offset = some u ↔
      u = ⟨t.seconds, offset⟩ ∧ -9999 ≤ u.date.year ∧ u.date.year ≤ 9999 := by
  have range := inRange_iff ⟨t.seconds, offset⟩
  simp only [seenFrom?]
  constructor
  · intro h
    split at h
    · rename_i inside
      cases h
      exact ⟨rfl, range.1 inside⟩
    · cases h
  · rintro ⟨rfl, years⟩
    exact if_pos (range.2 years)

/-- What the text of a date is to say. -/
def stamp (t : Timestamp) : Stamp where
  date := t.date
  hour := t.secondOfDay / 3600
  minute := t.secondOfDay / 60 % 60
  ahead := t.offset.hours * 60 + t.offset.minutes

theorem stamp_isValid (t : Timestamp) : t.stamp.IsValid := by
  refine ⟨Date.ofDays_isValid _, ?_, ?_⟩
  · simp only [stamp, secondOfDay]
    omega
  · exact Nat.mod_lt _ (by decide)

theorem seconds_stamp {t : Timestamp} (h : t.offset.IsWhole) :
    t.stamp.seconds = t.seconds / 60 * 60 := by
  have whole := h.seconds
  simp only [Stamp.seconds, stamp, date, Date.toDays_ofDays, secondOfDay, localSeconds,
    Offset.total, whole]
  omega

theorem toList_text (t : Timestamp) : t.text.toList =
    (padded 4 t.stamp.date.year).toList ++ '-' :: ((padded 2 t.stamp.date.month).toList ++ '-' ::
      ((padded 2 t.stamp.date.day).toList ++ ' ' :: ((padded 2 t.stamp.hour).toList ++ ':' ::
        ((padded 2 t.stamp.minute).toList ++ t.offset.signChar ::
          ((padded 2 t.offset.hours.natAbs).toList ++
            ((padded 2 t.offset.minutes.natAbs).toList ++ [])))))) := by
  have sign : (if t.offset.total < 0 then "-" else "+").toList = [t.offset.signChar] := by
    unfold Offset.signChar
    split <;> rfl
  simp [text, sign, stamp]

/-- The text of a date is read back. -/
theorem read?_text {t : Timestamp} (h : t.offset.IsWhole) :
    Stamp.read? t.text = some t.stamp := by
  obtain ⟨⟨-, month, -, day⟩, hour, minute⟩ := t.stamp_isValid
  have length := monthLength_le t.stamp.date.year t.stamp.date.month
  have ahead := h.signed
  obtain ⟨hours, minutes, -, -⟩ := h
  -- Every part but the year has two digits at most, so that a reader knows where it ends.
  have two {n : Nat} (small : n < 100) (rest : List Char) :
      Stamp.number? 2 ((padded 2 n).toList ++ rest) = some (n, rest) :=
    Stamp.number?_padded ((Nat.length_toDigits_le_iff (by decide) (by decide)).2 small) rest
  have year (rest : List Char) : Stamp.year? ((padded 4 t.stamp.date.year).toList ++ '-' :: rest) =
      some (t.stamp.date.year, '-' :: rest) := Stamp.year?_padded 4 _ (by simp)
  simp only [Stamp.read?, toList_text, year, two (by omega : t.stamp.date.month < 100),
    two (by omega : t.stamp.date.day < 100), two (by omega : t.stamp.hour < 100),
    two (by omega : t.stamp.minute < 100), two (by omega : t.offset.hours.natAbs < 100),
    two (by omega : t.offset.minutes.natAbs < 100), Stamp.mark?, Offset.sign?_signChar,
    Option.bind_eq_bind, Option.bind_some, if_pos, ahead]
  exact if_pos ⟨t.stamp_isValid, trivial⟩

/-- What is read from the text of a date is the minute of it and the year before the header, and
no date of another minute or another offset has that text. -/
theorem text_denotes {t : Timestamp} (h : t.offset.IsWhole) :
    ∃ stamp, Stamp.read? t.text = some stamp ∧ stamp.seconds = t.seconds / 60 * 60 ∧
      stamp.ahead * 60 = t.offset.total ∧
      (∀ header : Template.Header, (header.preamble t).head? =
        some ("# Copyright (C) " ++ toString stamp.date.year ++ " " ++ header.package)) ∧
      ∀ u : Timestamp, u.offset.IsWhole → u.text = t.text →
        u.offset = t.offset ∧ u.seconds / 60 = t.seconds / 60 := by
  have minute := seconds_stamp h
  refine ⟨t.stamp, read?_text h, minute, ?_, fun header => rfl, ?_⟩
  · have whole := h.seconds
    simp only [stamp, Offset.total, whole]
    omega
  · intro u hu text
    -- Both dates are what is read from the one text.
    have same : u.stamp = t.stamp := by
      have read := read?_text hu
      rw [text, read?_text h] at read
      exact (Option.some.inj read).symm
    constructor
    · exact hu.eq_of_minutes h (congrArg Stamp.ahead same)
    · have minute' := seconds_stamp hu
      rw [same] at minute'
      omega

/-- Half an hour behind, before the year zero. -/
theorem text_denotes_behind :
    Offset.IsWhole ⟨0, -30, 0⟩ ∧
      text ⟨-62200000001, ⟨0, -30, 0⟩⟩ = "-002-12-17 13:43-0030" ∧
      ∃ stamp, Stamp.read? "-002-12-17 13:43-0030" = some stamp ∧
        stamp.seconds = -62200000020 ∧ stamp.ahead = -30 := by
  have whole : Offset.IsWhole ⟨0, -30, 0⟩ := ⟨by decide, by decide, rfl, by decide⟩
  have text : text ⟨-62200000001, ⟨0, -30, 0⟩⟩ = "-002-12-17 13:43-0030" := by
    decide +kernel
  obtain ⟨stamp, read, minute, ahead, -, -⟩ :=
    text_denotes (t := ⟨-62200000001, ⟨0, -30, 0⟩⟩) whole
  have offset : Offset.total ⟨0, -30, 0⟩ = -1800 := rfl
  refine ⟨whole, text, stamp, text ▸ read, minute, ?_⟩
  simp only [offset] at ahead
  omega

end Timestamp

end PotExtract
