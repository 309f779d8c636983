import PotExtract.Calendar.Date
import Mathlib.Tactic.IntervalCases

/-!
# The calendar's rules

Every fourth year has a leap day, but of the years that end a century only
every fourth one has. A date names a day: the days before it are those of the
years and the months before its own, and of its month.

* `Date.IsValid`, `Date.toDays`: the dates that there are and what they name;
* `daysBeforeYear_succ`: years follow each other without a gap;
* `toDays_ofDays`, `ofDays_toDays`: dates and days name each other.
-/

namespace PotExtract

/-! ## Years and months -/

/-- The years with a 29th of February. -/
def IsLeap (year : Int) : Prop :=
  year % 4 = 0 ∧ (year % 100 ≠ 0 ∨ year % 400 = 0)

instance (year : Int) : Decidable (IsLeap year) :=
  inferInstanceAs (Decidable (_ ∧ _))

/-- The leap days of a year, which are one or none. -/
def leapDay (year : Int) : Nat :=
  if IsLeap year then 1 else 0

/-- The leap days from year one to the start of a year. -/
def leapDaysBefore (year : Int) : Int :=
  (year - 1) / 4 - (year - 1) / 100 + (year - 1) / 400

/-- The days of a month. -/
def monthLength (year : Int) : Nat → Nat
  | 2 => 28 + leapDay year
  | 4 | 6 | 9 | 11 => 30
  | _ => 31

/-- The days from the start of 1970 to the start of a year. -/
def daysBeforeYear (year : Int) : Int :=
  365 * (year - 1970) + leapDaysBefore year - leapDaysBefore 1970

/-- The days of a year before a month. -/
def daysBeforeMonth (year : Int) (month : Nat) : Nat :=
  ((List.range' 1 (month - 1)).map (monthLength year)).sum

theorem leapDay_le (year : Int) : leapDay year ≤ 1 := by
  unfold leapDay
  split <;> decide

theorem leapDaysBefore_succ (year : Int) :
    leapDaysBefore (year + 1) = leapDaysBefore year + leapDay year := by
  unfold leapDaysBefore leapDay
  by_cases leap : IsLeap year
  · rw [if_pos leap]
    unfold IsLeap at leap
    omega
  · rw [if_neg leap]
    unfold IsLeap at leap
    omega

theorem monthLength_le (year : Int) (month : Nat) : monthLength year month ≤ 31 := by
  have leap := leapDay_le year
  fun_cases monthLength year month <;> omega

theorem daysBeforeMonth_succ (year : Int) (m : Nat) :
    daysBeforeMonth year (m + 2) = daysBeforeMonth year (m + 1) + monthLength year (m + 1) := by
  simp [daysBeforeMonth, List.range'_1_concat, Nat.add_comm]

theorem daysBeforeMonth_mono (year : Int) {m k : Nat} (hm : 1 ≤ m) (h : m ≤ k) :
    daysBeforeMonth year m ≤ daysBeforeMonth year k := by
  induction h with
  | refl => exact Nat.le_refl _
  | @step k hk ih =>
    obtain ⟨k, rfl⟩ := Nat.exists_eq_add_of_le' (Nat.le_trans hm hk)
    rw [daysBeforeMonth_succ]
    omega

/-- The months of a year have 365 days, and one more in a leap year. -/
theorem daysBeforeMonth_end (year : Int) : daysBeforeMonth year 13 = 365 + leapDay year := by
  simp [daysBeforeMonth, monthLength, List.range']
  omega

theorem daysBeforeYear_succ (year : Int) :
    daysBeforeYear (year + 1) = daysBeforeYear year + daysBeforeMonth year 13 := by
  rw [daysBeforeMonth_end, daysBeforeYear, daysBeforeYear, leapDaysBefore_succ]
  omega

theorem daysBeforeYear_mono {a b : Int} (h : a ≤ b) : daysBeforeYear a ≤ daysBeforeYear b := by
  obtain ⟨years, rfl⟩ := Int.le.dest h
  clear h
  induction years with
  | zero => exact Int.le_of_eq (congrArg daysBeforeYear (Int.add_zero a).symm)
  | succ years ih =>
    have next := daysBeforeYear_succ (a + years)
    rw [Int.natCast_succ, ← Int.add_assoc]
    omega

namespace Date

/-- The dates that there are. -/
structure IsValid (d : Date) : Prop where
  month_pos : 1 ≤ d.month
  month_le : d.month ≤ 12
  day_pos : 1 ≤ d.day
  day_le : d.day ≤ monthLength d.year d.month

instance (d : Date) : Decidable d.IsValid :=
  decidable_of_iff (1 ≤ d.month ∧ d.month ≤ 12 ∧ 1 ≤ d.day ∧ d.day ≤ monthLength d.year d.month)
    ⟨fun ⟨a, b, c, e⟩ => ⟨a, b, c, e⟩, fun ⟨a, b, c, e⟩ => ⟨a, b, c, e⟩⟩

/-- The days from the start of 1970 to a date. -/
def toDays (d : Date) : Int :=
  daysBeforeYear d.year + daysBeforeMonth d.year d.month + d.day - 1

/-! ## Years that begin in March -/

/-- The date some days after the first of March of a year. -/
def ofMarch (year : Int) (dayOfYear : Nat) : Date :=
  let monthFromMarch := (5 * dayOfYear + 2) / 153
  let month := if monthFromMarch < 10 then monthFromMarch + 3 else monthFromMarch - 9
  { year := year + (if month ≤ 2 then 1 else 0)
    month
    day := dayOfYear - (153 * monthFromMarch + 2) / 5 + 1 }

/-- A day of 400 years by its century, the four years in that, the year in these and the day in
the year. Only the last of four years ends with a leap day, and of the last years of a century
only the last one does. -/
structure Parts (d c q r s : Nat) : Prop where
  sum : d = 36524 * c + 1461 * q + 365 * r + s
  century : c ≤ 3
  four : q ≤ 24
  year : r ≤ 3
  day : s ≤ 365
  leap : s = 365 → r = 3 ∧ (q < 24 ∨ c = 3)

theorem exists_parts {d : Nat} (h : d < 146097) : ∃ c q r s, Parts d c q r s := by
  -- The last day of all would be alone in a century of its own, and so would that of four years.
  obtain ⟨c, rest, hd, hc, hrest⟩ : ∃ c rest, d = 36524 * c + rest ∧ c ≤ 3 ∧
      (rest < 36524 ∨ c = 3 ∧ rest = 36524) := by
    rcases Nat.lt_or_ge d 146096 with earlier | last
    · exact ⟨d / 36524, d % 36524, by omega, by omega, by omega⟩
    · exact ⟨3, 36524, by omega, by omega, by omega⟩
  obtain ⟨r, s, hfour, hr, hs⟩ : ∃ r s, rest % 1461 = 365 * r + s ∧ r ≤ 3 ∧
      (s < 365 ∨ r = 3 ∧ s = 365) := by
    rcases Nat.lt_or_ge (rest % 1461) 1460 with earlier | last
    · exact ⟨rest % 1461 / 365, rest % 1461 % 365, by omega, by omega, by omega⟩
    · exact ⟨3, 365, by omega, by omega, by omega⟩
  exact ⟨c, rest / 1461, r, s, by omega, hc, by omega, hr, by omega, by omega⟩

namespace Parts
variable {d c q r s : Nat}

/-- Groups of four years of 365 days are counted once too often from some day of a year on, on its
leap day at the latest. -/
theorem fours (h : Parts d c q r s) : ∃ e, d / 1460 = 25 * c + q + e ∧ e ≤ s ∧ s < 365 + e := by
  obtain ⟨sum, century, four, year, day, leap⟩ := h
  have late : (24 * c + q + 365 * r + s) / 1460 ≤ s ∧
      s < 365 + (24 * c + q + 365 * r + s) / 1460 := by
    clear sum
    omega
  exact ⟨(24 * c + q + 365 * r + s) / 1460, by omega, late⟩

/-- Centuries without their leap days are counted once too often on the last day. -/
theorem centuries (h : Parts d c q r s) : d / 36524 = c + d / 146096 := by
  obtain ⟨sum, century, four, year, day, leap⟩ := h
  obtain ⟨rest, hd, bound⟩ : ∃ rest, d = 36524 * c + rest ∧
      (rest < 36524 ∨ rest = 36524 ∧ c = 3) := ⟨1461 * q + 365 * r + s, by omega, by omega⟩
  clear sum four year day leap
  rcases bound with within | ⟨rfl, rfl⟩
  · have before : d / 146096 = 0 := Nat.div_eq_of_lt (by omega)
    omega
  · omega

theorem year_eq (h : Parts d c q r s) :
    (d - d / 1460 + d / 36524 - d / 146096) / 365 = 100 * c + 4 * q + r := by
  obtain ⟨e, fours, less, more⟩ := h.fours
  have sum := h.sum
  rw [fours, h.centuries]
  generalize d / 146096 = last
  have years : d - (25 * c + q + e) + (c + last) - last =
      365 * (100 * c + 4 * q + r) + (s - e) := by omega
  omega

theorem day_eq (h : Parts d c q r s) :
    d - (365 * (100 * c + 4 * q + r) + (100 * c + 4 * q + r) / 4 - (100 * c + 4 * q + r) / 100) =
      s := by
  obtain ⟨sum, -, four, year, -, -⟩ := h
  omega

theorem ofDays_eq (h : Parts d c q r s) (era : Int) :
    ofDays (146097 * era + d - 719468) = ofMarch (400 * era + (100 * c + 4 * q + r : Nat)) s := by
  have small : d < 146097 := by
    obtain ⟨sum, century, four, year, day, leap⟩ := h
    omega
  have quotient : (146097 * era + (d : Int) - 719468 + 719468) / 146097 = era := by omega
  have rest : ((146097 * era + (d : Int) - 719468 + 719468) % 146097).toNat = d := by omega
  simp only [ofDays, quotient, rest, h.year_eq, h.day_eq, ofMarch]
  rw [Int.mul_comm era 400]

/-- The leap day that ends a year that begins in March is one of the next year. -/
theorem within_year (h : Parts d c q r s) (era : Int) :
    s < 365 + leapDay (400 * era + (100 * c + 4 * q + r : Nat) + 1) := by
  obtain ⟨-, -, four, -, day, leap⟩ := h
  rcases Nat.lt_or_ge s 365 with common | last
  · omega
  · obtain ⟨rfl, leap⟩ := leap (by omega)
    have next : IsLeap (400 * era + (100 * c + 4 * q + 3 : Nat) + 1) := by
      unfold IsLeap
      omega
    rw [leapDay, if_pos next]
    omega

end Parts

/-- The days from the start of 1970 to the first of March of a year. -/
def daysBeforeMarch (year : Int) : Int :=
  365 * year + year / 4 - year / 100 + year / 400 - 719468

theorem daysBeforeYear_next (year : Int) :
    daysBeforeYear (year + 1) = daysBeforeMarch year + 306 := by
  have epoch : leapDaysBefore 1970 = 477 := rfl
  unfold daysBeforeMarch daysBeforeYear leapDaysBefore
  omega

theorem daysBeforeMarch_eq (year : Int) :
    daysBeforeMarch year = daysBeforeYear year + daysBeforeMonth year 3 := by
  have next := daysBeforeYear_next year
  have months : daysBeforeMonth year 3 = 31 + monthLength year 2 := rfl
  rw [daysBeforeYear_succ, daysBeforeMonth_end] at next
  rw [months, monthLength]
  omega

/-- From March on, five months have 153 days. -/
theorem monthLength_march (year : Int) {m : Nat} (h : m < 10) :
    (153 * m + 2) / 5 + monthLength year (m + 3) = (153 * (m + 1) + 2) / 5 := by
  interval_cases m <;> rfl

theorem daysBeforeMonth_march (year : Int) {m : Nat} (h : m < 10) :
    daysBeforeMonth year (m + 3) = daysBeforeMonth year 3 + (153 * m + 2) / 5 := by
  induction m with
  | zero => rfl
  | succ m ih =>
    rw [Nat.add_right_comm, daysBeforeMonth_succ, ih (by omega), Nat.add_assoc,
      monthLength_march year (by omega)]

/-- There is such a date, and it names a day. -/
structure Names (d : Date) (n : Int) : Prop where
  valid : d.IsValid
  days : d.toDays = n

/-- The days of a month that starts `start` days after some day are named by its dates. -/
theorem names_of_month {year n : Int} {month start s : Nat} (pos : 1 ≤ month) (le : month ≤ 12)
    (first : start ≤ s) (last : s < start + monthLength year month)
    (day : n + start = daysBeforeYear year + daysBeforeMonth year month) :
    Names ⟨year, month, s - start + 1⟩ (n + s) := by
  refine ⟨⟨pos, le, Nat.le_add_left 1 _, ?_⟩, ?_⟩
  · simp only
    omega
  · simp only [toDays]
    omega

theorem ofMarch_names {year : Int} {s : Nat} (h : s < 365 + leapDay (year + 1)) :
    Names (ofMarch year s) (daysBeforeMarch year + s) := by
  obtain ⟨m, hm⟩ : ∃ m, (5 * s + 2) / 153 = m := ⟨_, rfl⟩
  have leap := leapDay_le (year + 1)
  have next := daysBeforeYear_next year
  rcases Nat.lt_or_ge m 10 with same | later
  · have date : ofMarch year s = ⟨year, m + 3, s - (153 * m + 2) / 5 + 1⟩ := by
      have month : ¬ m + 3 ≤ 2 := by omega
      simp [ofMarch, hm, same]
    have length := monthLength_march year same
    have before := daysBeforeMonth_march year same
    have march := daysBeforeMarch_eq year
    rw [date]
    exact names_of_month (by omega) (by omega) (by omega) (by omega) (by omega)
  -- January and February are months of the next year, and only February may have a leap day.
  · have month : m = 10 ∨ m = 11 := by omega
    rcases month with rfl | rfl
    · have date : ofMarch year s = ⟨year + 1, 1, s - 306 + 1⟩ := by
        simp [ofMarch, hm]
      have length : monthLength (year + 1) 1 = 31 := rfl
      have before : daysBeforeMonth (year + 1) 1 = 0 := rfl
      rw [date]
      exact names_of_month (by omega) (by omega) (by omega) (by omega) (by omega)
    · have date : ofMarch year s = ⟨year + 1, 2, s - 337 + 1⟩ := by
        simp [ofMarch, hm]
      have length : monthLength (year + 1) 2 = 28 + leapDay (year + 1) := rfl
      have before : daysBeforeMonth (year + 1) 2 = 31 := rfl
      rw [date]
      exact names_of_month (by omega) (by omega) (by omega) (by omega) (by omega)

/-! ## Dates and days -/

theorem exists_march (n : Int) : ∃ year s, ofDays n = ofMarch year s ∧
    s < 365 + leapDay (year + 1) ∧ daysBeforeMarch year + s = n := by
  obtain ⟨era, d, small, rfl⟩ : ∃ (era : Int) (d : Nat), d < 146097 ∧
      n = 146097 * era + d - 719468 :=
    ⟨(n + 719468) / 146097, ((n + 719468) % 146097).toNat, by omega, by omega⟩
  obtain ⟨c, q, r, s, parts⟩ := exists_parts small
  refine ⟨_, s, parts.ofDays_eq era, ?_, ?_⟩
  · exact parts.within_year era
  · obtain ⟨sum, century, four, year, -, -⟩ := parts
    unfold daysBeforeMarch
    omega

theorem ofDays_names (n : Int) : Names (ofDays n) n := by
  obtain ⟨year, s, date, within, rfl⟩ := exists_march n
  rw [date]
  exact ofMarch_names within

theorem ofDays_isValid (n : Int) : (ofDays n).IsValid :=
  (ofDays_names n).valid

/-- The date of a day names it. -/
theorem toDays_ofDays (n : Int) : (ofDays n).toDays = n :=
  (ofDays_names n).days

/-- A date lies in its year, and in the month of it. -/
theorem IsValid.within {d : Date} (h : d.IsValid) :
    daysBeforeYear d.year ≤ d.toDays ∧ d.toDays < daysBeforeYear (d.year + 1) ∧
      daysBeforeMonth d.year d.month + d.day ≤ daysBeforeMonth d.year (d.month + 1) := by
  obtain ⟨m, hm⟩ := Nat.exists_eq_add_of_le' h.month_pos
  have month : daysBeforeMonth d.year d.month + d.day ≤ daysBeforeMonth d.year (d.month + 1) := by
    have length := h.day_le
    rw [hm] at length ⊢
    rw [daysBeforeMonth_succ]
    omega
  have year : daysBeforeMonth d.year (d.month + 1) ≤ daysBeforeMonth d.year 13 :=
    daysBeforeMonth_mono d.year (Nat.le_add_left 1 d.month) (Nat.add_le_add_right h.month_le 1)
  have day := h.day_pos
  rw [daysBeforeYear_succ, toDays]
  omega

/-- The year of a date is the last one that has begun. -/
theorem IsValid.le_year_iff {d : Date} (h : d.IsValid) {year : Int} :
    year ≤ d.year ↔ daysBeforeYear year ≤ d.toDays := by
  obtain ⟨first, last, -⟩ := h.within
  constructor
  · intro le
    exact Int.le_trans (daysBeforeYear_mono le) first
  · intro begun
    by_contra later
    have next := daysBeforeYear_mono (Int.not_le.1 later)
    omega

theorem IsValid.year_mono {d e : Date} (hd : d.IsValid) (he : e.IsValid)
    (h : d.toDays ≤ e.toDays) : d.year ≤ e.year :=
  he.le_year_iff.2 (Int.le_trans hd.within.1 h)

theorem IsValid.month_mono {d e : Date} (hd : d.IsValid) (he : e.IsValid) (year : d.year = e.year)
    (h : d.toDays ≤ e.toDays) : d.month ≤ e.month := by
  by_contra later
  have mono := daysBeforeMonth_mono e.year (Nat.le_add_left 1 e.month) (Nat.not_le.1 later)
  have before := he.within.2.2
  have day := hd.day_pos
  rw [toDays, toDays, year] at h
  omega

theorem IsValid.eq_of_toDays_eq {d e : Date} (hd : d.IsValid) (he : e.IsValid)
    (h : d.toDays = e.toDays) : d = e := by
  have year := Int.le_antisymm (hd.year_mono he h.le) (he.year_mono hd h.ge)
  have month := Nat.le_antisymm (hd.month_mono he year h.le) (he.month_mono hd year.symm h.ge)
  have day : d.day = e.day := by
    rw [toDays, toDays, year, month] at h
    omega
  cases d
  cases e
  exact (Date.mk.injEq ..).mpr ⟨year, month, day⟩

/-- A day has no other name. -/
theorem ofDays_toDays {d : Date} (h : d.IsValid) : ofDays d.toDays = d :=
  (ofDays_isValid d.toDays).eq_of_toDays_eq h (toDays_ofDays d.toDays)

end Date

end PotExtract
