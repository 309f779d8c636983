import PotExtract.Calendar.Epoch
import PotExtract.Proofs.Text.Trimmed
import Mathlib.Data.List.Basic

/-!
# Dates given as numbers

A setting gives a date if it is a numeral with blanks around it, and the
number lies within the calendar. A numeral is a sign, or none, with digits
after it. Of what is wrong with any other text, the first from the left counts:
a character that is no digit, or the digit with which the number leaves the
range of 64 bits.

* `Denotes`, `Begins`: the number that a text is, or that it begins with;
* `readDigits_eq_ok_iff`, `readDigits_eq_overflow_iff`: how digits are read;
* `readNumeral_eq_ok_iff`, `readNumeral_eq_error_iff`: how a text is read;
* `Says`: what a setting says;
* `read_exact`: a setting is read as what it says.
-/

namespace PotExtract.Epoch

/-! ## Numerals -/

/-- What a numeral may begin with. -/
inductive Sign where
  | absent
  | plus
  | minus

namespace Sign

def text : Sign → List Char
  | absent => []
  | plus => ['+']
  | minus => ['-']

/-- The number of a sign and a magnitude. -/
def apply : Sign → Nat → Int
  | minus, n => -n
  | _, n => n

/-- The greatest magnitude of a number of 64 bits. -/
def limit : Sign → Nat
  | minus => Nat.pow 2 63
  | _ => Nat.pow 2 63 - 1

/-- What is wrong with a number beyond it. -/
def overflow : Sign → NumeralError
  | minus => .tooSmall
  | _ => .tooLarge

end Sign

/-- A text is a sign, or none, and at least one digit, which give a number. -/
def Denotes (s : List Char) (n : Int) : Prop :=
  ∃ (sign : Sign) (digits : List Char), s = sign.text ++ digits ∧ digits ≠ [] ∧
    (∀ c ∈ digits, c.isDigit = true) ∧ n = sign.apply (Nat.ofDigitChars 10 digits 0)

/-- A text begins with a sign, or none, and some digits, which give a number. -/
def Begins (s : List Char) (n : Int) : Prop :=
  ∃ (sign : Sign) (digits rest : List Char), s = sign.text ++ digits ++ rest ∧
    (∀ c ∈ digits, c.isDigit = true) ∧ n = sign.apply (Nat.ofDigitChars 10 digits 0)

/-- The numbers of 64 bits. -/
def Fits (n : Int) : Prop :=
  -(Nat.pow 2 63 : Int) ≤ n ∧ n < (Nat.pow 2 63 : Int)

instance (n : Int) : Decidable (Fits n) :=
  inferInstanceAs (Decidable (_ ∧ _))

/-- The first thing from the left that is wrong with a text. -/
def IsReason (s : List Char) : NumeralError → Prop
  | .tooLarge => ∃ n, Begins s n ∧ (Nat.pow 2 63 : Int) ≤ n
  | .tooSmall => ∃ n, Begins s n ∧ n < -(Nat.pow 2 63 : Int)
  | .invalidDigit => ∀ n, Begins s n → Fits n

theorem pow_bits : Nat.pow 2 63 = 9223372036854775808 := rfl

theorem fits_apply_iff {sign : Sign} {n : Nat} : Fits (sign.apply n) ↔ n ≤ sign.limit := by
  cases sign <;> simp only [Fits, Sign.apply, Sign.limit, pow_bits] <;> omega

theorem tooLarge_iff {sign : Sign} {n : Nat} :
    sign.overflow = .tooLarge ∧ sign.limit < n ↔ (Nat.pow 2 63 : Int) ≤ sign.apply n := by
  cases sign <;> simp only [Sign.apply, Sign.limit, Sign.overflow, pow_bits, reduceCtorEq, false_and,
    false_iff, true_and] <;> omega

theorem tooSmall_iff {sign : Sign} {n : Nat} :
    sign.overflow = .tooSmall ∧ sign.limit < n ↔ sign.apply n < -(Nat.pow 2 63 : Int) := by
  cases sign <;> simp only [Sign.apply, Sign.limit, Sign.overflow, pow_bits, reduceCtorEq, false_and,
    false_iff, true_and] <;> omega

/-! ## Digits -/

theorem le_ofDigitChars (value : Nat) (s : List Char) : value ≤ Nat.ofDigitChars 10 s value := by
  induction s generalizing value with
  | nil => exact Nat.le_refl _
  | cons c r ih =>
    have next := ih (10 * value + (c.toNat - '0'.toNat))
    rw [Nat.ofDigitChars_cons]
    omega

section
variable {limit value : Nat} {overflow : NumeralError}

theorem readDigits_digit {c : Char} (hc : c.isDigit = true) (r : List Char) :
    readDigits limit overflow value (c :: r) =
      if 10 * value + (c.toNat - '0'.toNat) ≤ limit then
        readDigits limit overflow (10 * value + (c.toNat - '0'.toNat)) r
      else .error overflow := by
  rw [readDigits, Nat.mul_comm value 10]
  simp [hc]

theorem readDigits_other {c : Char} (hc : c.isDigit = false) (r : List Char) :
    readDigits limit overflow value (c :: r) = .error .invalidDigit := by
  simp [readDigits, hc]

/-- Digits are read as their number if it is within the limit. -/
theorem readDigits_eq_ok_iff (h : value ≤ limit) {s : List Char} {n : Nat} :
    readDigits limit overflow value s = .ok n ↔
      (∀ c ∈ s, c.isDigit = true) ∧ Nat.ofDigitChars 10 s value = n ∧ n ≤ limit := by
  induction s generalizing value with
  | nil =>
    simp only [readDigits, Nat.ofDigitChars_nil, Except.ok.injEq]
    constructor
    · rintro rfl
      exact ⟨nofun, rfl, h⟩
    · exact fun h => h.2.1
  | cons c r ih =>
    cases hc : c.isDigit with
    | false => simp [readDigits_other hc, hc]
    | true =>
      rw [readDigits_digit hc, List.forall_mem_cons, Nat.ofDigitChars_cons]
      split
      · rename_i within
        rw [ih within]
        simp [hc]
      · rename_i beyond
        have more := le_ofDigitChars (10 * value + (c.toNat - '0'.toNat)) r
        constructor
        · nofun
        · rintro ⟨-, rfl, within⟩
          omega

/-- Some of the first digits give a number beyond the limit. -/
def Leaves (limit value : Nat) (s : List Char) : Prop :=
  ∃ digits rest, s = digits ++ rest ∧ (∀ c ∈ digits, c.isDigit = true) ∧
    limit < Nat.ofDigitChars 10 digits value

/-- Before the limit is left, there is a digit. -/
theorem leaves_cons_iff (h : value ≤ limit) {c : Char} {r : List Char} :
    Leaves limit value (c :: r) ↔
      c.isDigit = true ∧ Leaves limit (10 * value + (c.toNat - '0'.toNat)) r := by
  constructor
  · rintro ⟨digits, rest, whole, all, beyond⟩
    cases digits with
    | nil =>
      rw [Nat.ofDigitChars_nil] at beyond
      omega
    | cons d digits =>
      cases whole
      obtain ⟨first, all⟩ := List.forall_mem_cons.1 all
      rw [Nat.ofDigitChars_cons] at beyond
      exact ⟨first, digits, rest, rfl, all, beyond⟩
  · rintro ⟨first, digits, rest, rfl, all, beyond⟩
    rw [← Nat.ofDigitChars_cons] at beyond
    exact ⟨c :: digits, rest, rfl, List.forall_mem_cons.2 ⟨first, all⟩, beyond⟩

/-- Digits are refused for their number if some of them leave the limit before anything else is
wrong. -/
theorem readDigits_eq_overflow_iff (h : value ≤ limit) (ho : overflow ≠ .invalidDigit)
    {s : List Char} :
    readDigits limit overflow value s = .error overflow ↔ Leaves limit value s := by
  induction s generalizing value with
  | nil =>
    constructor
    · nofun
    · rintro ⟨digits, rest, whole, -, beyond⟩
      obtain ⟨rfl, rfl⟩ := List.append_eq_nil_iff.1 whole.symm
      rw [Nat.ofDigitChars_nil] at beyond
      omega
  | cons c r ih =>
    rw [leaves_cons_iff h]
    cases hc : c.isDigit with
    | false =>
      rw [readDigits_other hc]
      simp [ho.symm]
    | true =>
      rw [readDigits_digit hc]
      split
      · rename_i within
        rw [ih within]
        simp
      · rename_i beyond
        refine ⟨fun _ => ⟨rfl, [], r, rfl, nofun, ?_⟩, fun _ => rfl⟩
        rw [Nat.ofDigitChars_nil]
        omega

theorem readDigits_eq_error {s : List Char} {reason : NumeralError}
    (h : readDigits limit overflow value s = .error reason) :
    reason = .invalidDigit ∨ reason = overflow := by
  fun_induction readDigits limit overflow value s with
  | case1 => cases h
  | case2 =>
    cases h
    exact .inl rfl
  | case3 _ _ _ _ _ _ ih => exact ih h
  | case4 =>
    cases h
    exact .inr rfl

end

/-! ## Signs -/

/-- A text taken apart into its sign and what comes after it. -/
structure Splits (s : List Char) (sign : Sign) (digits : List Char) : Prop where
  whole : s = sign.text ++ digits
  bare : sign = .absent → ∀ c ∈ digits.head?, c ≠ '+' ∧ c ≠ '-'

/-- A text is read by its sign. -/
theorem exists_splits (s : List Char) : ∃ sign digits, Splits s sign digits ∧
    readNumeral s = if digits = [] then .error .invalidDigit
      else sign.apply <$> readDigits sign.limit sign.overflow 0 digits := by
  fun_cases readNumeral s with
  | case1 => exact ⟨.absent, [], ⟨rfl, nofun⟩, rfl⟩
  | case2 => exact ⟨.plus, [], ⟨rfl, nofun⟩, rfl⟩
  | case3 => exact ⟨.minus, [], ⟨rfl, nofun⟩, rfl⟩
  | case4 digits some =>
    refine ⟨.minus, digits, ⟨rfl, nofun⟩, ?_⟩
    rw [if_neg some, Sign.limit, Sign.overflow]
    cases readDigits (Nat.pow 2 63) .tooSmall 0 digits <;> rfl
  | case5 digits some =>
    refine ⟨.plus, digits, ⟨rfl, nofun⟩, ?_⟩
    rw [if_neg some, Sign.limit, Sign.overflow]
    · cases readDigits (Nat.pow 2 63 - 1) .tooLarge 0 digits <;> rfl
    · nofun
    · nofun
  | case6 s some _ _ noMinus noPlus =>
    refine ⟨.absent, s, ⟨rfl, fun _ c hc => ?_⟩, ?_⟩
    · obtain ⟨r, rfl⟩ := List.head?_eq_some_iff.1 hc
      constructor
      · rintro rfl
        exact noPlus r rfl
      · rintro rfl
        exact noMinus r rfl
    · rw [if_neg some, Sign.limit, Sign.overflow]
      · cases readDigits (Nat.pow 2 63 - 1) .tooLarge 0 s <;> rfl
      · nofun
      · nofun

/-- Where a digit comes first or after a sign, there is no other way to take the text apart. -/
theorem Splits.eq_of_digit {s : List Char} {sign : Sign} {digits : List Char}
    (h : Splits s sign digits) {sign' : Sign} {c : Char} {rest : List Char}
    (hc : c.isDigit = true) (whole : s = sign'.text ++ c :: rest) :
    sign' = sign ∧ c :: rest = digits := by
  obtain ⟨rfl, bare⟩ := h
  have plus : '+' ≠ c := by rintro rfl; cases hc
  have minus : '-' ≠ c := by rintro rfl; cases hc
  cases sign <;> cases sign' <;> simp_all [Sign.text]

/-- A numeral is read as the number that it denotes, if that fits. -/
theorem readNumeral_eq_ok_iff {s : List Char} {n : Int} :
    readNumeral s = .ok n ↔ Denotes s n ∧ Fits n := by
  obtain ⟨sign, digits, splits, read⟩ := exists_splits s
  have zero := Nat.zero_le sign.limit
  rw [read]
  constructor
  · intro h
    split at h
    · cases h
    · rename_i some
      cases hread : readDigits sign.limit sign.overflow 0 digits with
      | error e => simp [hread] at h
      | ok m =>
        rw [hread] at h
        cases h
        obtain ⟨all, rfl, within⟩ := (readDigits_eq_ok_iff zero).1 hread
        exact ⟨⟨sign, digits, splits.whole, some, all, rfl⟩, fits_apply_iff.2 within⟩
  · rintro ⟨⟨sign', digits', whole, some, all, rfl⟩, fits⟩
    obtain ⟨c, rest, rfl⟩ := List.exists_cons_of_ne_nil some
    obtain ⟨rfl, rfl⟩ := splits.eq_of_digit (all c List.mem_cons_self) whole
    rw [if_neg some, (readDigits_eq_ok_iff zero).2 ⟨all, rfl, fits_apply_iff.1 fits⟩]
    rfl

/-- A number that leaves the range is too large or too small. -/
theorem readNumeral_eq_overflow_iff {s : List Char} {reason : NumeralError}
    (hr : reason ≠ .invalidDigit) : readNumeral s = .error reason ↔
      ∃ (sign : Sign) (digits rest : List Char), s = sign.text ++ digits ++ rest ∧
        (∀ c ∈ digits, c.isDigit = true) ∧
          sign.overflow = reason ∧ sign.limit < Nat.ofDigitChars 10 digits 0 := by
  obtain ⟨sign, digits, splits, read⟩ := exists_splits s
  have zero := Nat.zero_le sign.limit
  have known : sign.overflow ≠ .invalidDigit := by cases sign <;> nofun
  rw [read]
  constructor
  · intro h
    split at h
    · cases h
      exact absurd rfl hr
    · cases hread : readDigits sign.limit sign.overflow 0 digits with
      | ok m => simp [hread] at h
      | error e =>
        rw [hread] at h
        cases h
        obtain rfl := (readDigits_eq_error hread).resolve_left hr
        obtain ⟨first, rest, rfl, all, beyond⟩ := (readDigits_eq_overflow_iff zero known).1 hread
        exact ⟨sign, first, rest, by rw [splits.whole, List.append_assoc], all, rfl, beyond⟩
  · rintro ⟨sign', first, rest, whole, all, rfl, beyond⟩
    cases first with
    | nil => cases beyond
    | cons c first =>
      rw [List.append_assoc] at whole
      obtain ⟨rfl, hd⟩ := splits.eq_of_digit (all c List.mem_cons_self) whole
      have stop := (readDigits_eq_overflow_iff zero known).2
        ⟨c :: first, rest, hd.symm, all, beyond⟩
      rw [stop, if_neg (hd ▸ List.cons_ne_nil _ _)]
      rfl

theorem readNumeral_eq_tooLarge_iff {s : List Char} :
    readNumeral s = .error .tooLarge ↔ IsReason s .tooLarge := by
  rw [readNumeral_eq_overflow_iff (by decide)]
  simp only [tooLarge_iff, IsReason, Begins]
  grind

theorem readNumeral_eq_tooSmall_iff {s : List Char} :
    readNumeral s = .error .tooSmall ↔ IsReason s .tooSmall := by
  rw [readNumeral_eq_overflow_iff (by decide)]
  simp only [tooSmall_iff, IsReason, Begins]
  grind

theorem isReason_invalidDigit_iff {s : List Char} :
    IsReason s .invalidDigit ↔ ¬ IsReason s .tooLarge ∧ ¬ IsReason s .tooSmall := by
  simp only [IsReason, Fits]
  constructor
  · intro fits
    constructor
    · rintro ⟨n, hn, large⟩
      have := fits n hn
      omega
    · rintro ⟨n, hn, small⟩
      have := fits n hn
      omega
  · rintro ⟨large, small⟩ n hn
    by_contra outside
    rcases Int.lt_or_le n (-(Nat.pow 2 63 : Int)) with below | above
    · exact small ⟨n, hn, below⟩
    · exact large ⟨n, hn, by omega⟩

/-- A text that denotes no number that fits is refused for the first thing that is wrong. -/
theorem readNumeral_eq_error_iff {s : List Char} {reason : NumeralError} :
    readNumeral s = .error reason ↔ (∀ n, Denotes s n → ¬ Fits n) ∧ IsReason s reason := by
  have other := @isReason_invalidDigit_iff s
  rw [← readNumeral_eq_tooLarge_iff, ← readNumeral_eq_tooSmall_iff] at other
  constructor
  · intro h
    constructor
    · intro n hn fits
      rw [readNumeral_eq_ok_iff.2 ⟨hn, fits⟩] at h
      cases h
    · cases reason with
      | tooLarge => exact readNumeral_eq_tooLarge_iff.1 h
      | tooSmall => exact readNumeral_eq_tooSmall_iff.1 h
      | invalidDigit =>
        rw [other, h]
        exact ⟨nofun, nofun⟩
  · rintro ⟨none, is⟩
    cases reason with
    | tooLarge => exact readNumeral_eq_tooLarge_iff.2 is
    | tooSmall => exact readNumeral_eq_tooSmall_iff.2 is
    | invalidDigit =>
      obtain ⟨notLarge, notSmall⟩ := other.1 is
      -- The other endings are excluded one by one.
      cases hread : readNumeral s with
      | ok n =>
        obtain ⟨hn, fits⟩ := readNumeral_eq_ok_iff.1 hread
        exact absurd fits (none n hn)
      | error e =>
        cases e with
        | invalidDigit => rfl
        | tooLarge => exact absurd hread notLarge
        | tooSmall => exact absurd hread notSmall

/-! ## Settings -/

theorem Denotes.ne_nil {s : List Char} {n : Int} (h : Denotes s n) : s ≠ [] := by
  obtain ⟨sign, digits, rfl, some, -⟩ := h
  exact List.append_ne_nil_of_right_ne_nil _ some

theorem denotes_repr (n : Int) : Denotes n.repr.toList n := by
  cases n with
  | ofNat n =>
    refine ⟨.absent, Nat.toDigits 10 n, ?_, Nat.toDigits_ne_nil, fun c hc =>
      Nat.isDigit_of_mem_toDigits (by decide) (by decide) hc, ?_⟩
    · simp [Int.repr, Sign.text]
    · rw [Nat.ofDigitChars_toDigits (by decide) (by decide)]
      rfl
  | negSucc n =>
    refine ⟨.minus, Nat.toDigits 10 (n + 1), ?_, Nat.toDigits_ne_nil, fun c hc =>
      Nat.isDigit_of_mem_toDigits (by decide) (by decide) hc, ?_⟩
    · simp [Int.repr, Sign.text]
    · rw [Nat.ofDigitChars_toDigits (by decide) (by decide)]
      rfl

theorem isBlank_of_isDigit {c : Char} (h : c.isDigit = true) : isBlank c = false := by
  have bounds : 48 ≤ c.toNat ∧ c.toNat ≤ 57 := by
    simp only [Char.isDigit, Bool.and_eq_true, decide_eq_true_eq] at h
    exact h
  simp only [isBlank, Bool.or_eq_false_iff, Bool.and_eq_false_iff, decide_eq_false_iff_not,
    beq_eq_false_iff_ne]
  omega

/-- A numeral has no blanks at its ends. -/
theorem Denotes.trims {left right body : List Char} {n : Int} (h : Denotes body n)
    (hl : ∀ c ∈ left, isBlank c = true) (hr : ∀ c ∈ right, isBlank c = true) :
    Trims (left ++ body ++ right) body := by
  obtain ⟨sign, digits, rfl, some, all, -⟩ := h
  refine ⟨⟨left, right, rfl, hl, hr⟩, ?_, ?_⟩
  · intro c hc
    cases sign with
    | absent => exact isBlank_of_isDigit (all c (List.mem_of_mem_head? hc))
    | plus =>
      cases hc
      rfl
    | minus =>
      cases hc
      rfl
  · intro c hc
    rw [List.getLast?_append_of_ne_nil _ some] at hc
    exact isBlank_of_isDigit (all c (List.mem_of_mem_getLast? hc))

/-- The seconds from the first of year -9999 to the last of year 9999. -/
def InRange (n : Int) : Prop :=
  -377705116800 ≤ n ∧ n ≤ 253402300799

instance (n : Int) : Decidable (InRange n) :=
  inferInstanceAs (Decidable (_ ∧ _))

/-- What a setting says: no date, a date, or something that is wrong with it. -/
inductive Says : Option String → Except Error (Option Timestamp) → Prop where
  | absent : Says none (.ok none)
  | blank {s : String} (blanks : ∀ c ∈ s.toList, isBlank c = true) : Says (some s) (.ok none)
  | date {s : String} {body : List Char} {n : Int} (trims : Trims s.toList body)
      (denotes : Denotes body n) (inside : InRange n) : Says (some s) (.ok (some ⟨n, .utc⟩))
  | outOfRange {s : String} {body : List Char} {n : Int} (trims : Trims s.toList body)
      (denotes : Denotes body n) (fits : Fits n) (outside : ¬ InRange n) :
      Says (some s) (.error (.outOfRange n))
  | invalid {s : String} {body : List Char} {reason : NumeralError} (trims : Trims s.toList body)
      (more : body ≠ []) (none : ∀ n, Denotes body n → ¬ Fits n) (first : IsReason body reason) :
      Says (some s) (.error (.invalid (String.ofList body) reason))

theorem read_of_blanks {s : String} (h : ∀ c ∈ s.toList, isBlank c = true) :
    read (some s) = .ok none := by
  rw [read, Option.map_some, Option.getD_some, trimBlanks_eq_nil_iff.2 h]

/-- A text that is not blank is read as a numeral. -/
theorem read_of_trims {s : String} {body : List Char} (trims : Trims s.toList body)
    (more : body ≠ []) :
    read (some s) = match readNumeral body with
      | .error reason => .error (.invalid (String.ofList body) reason)
      | .ok n =>
        match Timestamp.ofUnix? n with
        | none => .error (.outOfRange n)
        | some date => .ok (some date) := by
  have trimmed := trims_iff.1 trims
  rw [read, Option.map_some, Option.getD_some, trimmed]
  split
  · contradiction
  · rfl

theorem ofUnix?_eq (n : Int) :
    Timestamp.ofUnix? n = if InRange n then some ⟨n, .utc⟩ else none :=
  rfl

/-- A setting says what it is read as. -/
theorem says_read (setting : Option String) : Says setting (read setting) := by
  cases setting with
  | none => exact .absent
  | some s =>
    have trims := trims_trimBlanks s.toList
    by_cases blank : trimBlanks s.toList = []
    · have blanks := trimBlanks_eq_nil_iff.1 blank
      rw [read_of_blanks blanks]
      exact .blank blanks
    · rw [read_of_trims trims blank]
      cases hread : readNumeral (trimBlanks s.toList) with
      | error reason =>
        obtain ⟨none, first⟩ := readNumeral_eq_error_iff.1 hread
        exact .invalid trims blank none first
      | ok n =>
        obtain ⟨denotes, fits⟩ := readNumeral_eq_ok_iff.1 hread
        simp only [ofUnix?_eq]
        by_cases inside : InRange n
        · rw [if_pos inside]
          exact .date trims denotes inside
        · rw [if_neg inside]
          exact .outOfRange trims denotes fits inside

theorem InRange.fits {n : Int} (h : InRange n) : Fits n := by
  unfold InRange at h
  rw [Fits, pow_bits]
  omega

/-- What a setting says is what it is read as. -/
theorem Says.read_eq {setting : Option String} {r : Except Error (Option Timestamp)}
    (h : Says setting r) : read setting = r := by
  cases h with
  | absent => rfl
  | blank blanks => exact read_of_blanks blanks
  | date trims denotes inside =>
    rw [read_of_trims trims denotes.ne_nil, readNumeral_eq_ok_iff.2 ⟨denotes, inside.fits⟩]
    simp only [ofUnix?_eq, if_pos inside]
  | outOfRange trims denotes fits outside =>
    rw [read_of_trims trims denotes.ne_nil, readNumeral_eq_ok_iff.2 ⟨denotes, fits⟩]
    simp only [ofUnix?_eq, if_neg outside]
  | invalid trims more none first =>
    rw [read_of_trims trims more, readNumeral_eq_error_iff.2 ⟨none, first⟩]

/-- A setting is read as what it says, and every number within the calendar is read from its
digits with any blanks around them. -/
theorem read_exact :
    (∀ setting r, read setting = r ↔ Says setting r) ∧
      ∀ (n : Int) (left right : String), InRange n → (∀ c ∈ left.toList, isBlank c = true) →
        (∀ c ∈ right.toList, isBlank c = true) →
          read (some (left ++ toString n ++ right)) = .ok (some ⟨n, .utc⟩) := by
  constructor
  · intro setting r
    constructor
    · rintro rfl
      exact says_read setting
    · exact Says.read_eq
  · intro n left right inside hl hr
    have denotes := denotes_repr n
    apply Says.read_eq
    refine .date ?_ denotes inside
    rw [String.toList_append, String.toList_append]
    exact denotes.trims hl hr

/-- Both ends of the calendar, a number just beyond, and one that leaves 64 bits before a letter. -/
theorem read_exact_ends :
    read (some ("\u00a0" ++ toString (-377705116800 : Int) ++ "\u2003\n")) =
        .ok (some ⟨-377705116800, .utc⟩) ∧
      read (some "+000253402300799") = .ok (some ⟨253402300799, .utc⟩) ∧
      read (some " 253402300800") = .error (.outOfRange 253402300800) ∧
      read (some "-9223372036854775809s") =
        .error (.invalid "-9223372036854775809s" .tooSmall) := by
  have trims (s : String) : Trims s.toList (trimBlanks s.toList) := trims_trimBlanks s.toList
  have blanks (s : String) (h : s.toList.all isBlank = true) : ∀ c ∈ s.toList, isBlank c = true :=
    List.all_eq_true.1 h
  have digits (s : String) (h : s.toList.all Char.isDigit = true) :
      ∀ c ∈ s.toList, c.isDigit = true := List.all_eq_true.1 h
  refine ⟨read_exact.2 _ _ _ (by decide) (blanks _ rfl) (blanks _ rfl), ?_, ?_, ?_⟩
  · refine (read_exact.1 _ _).2 (.date (trims _) ?_ (by decide))
    exact ⟨.plus, "000253402300799".toList, rfl, by decide, digits _ rfl, rfl⟩
  · refine (read_exact.1 _ _).2 (.outOfRange (trims _) ?_ (by decide) (by decide))
    exact ⟨.absent, "253402300800".toList, rfl, by decide, digits _ rfl, rfl⟩
  · refine (read_exact.1 _ _).2 (.invalid (trims_iff.2 rfl) (by decide) ?_ ?_)
    · rintro n ⟨sign, digits, whole, -, digit, -⟩
      have letter : 's' ∈ sign.text ++ digits := whole ▸ by decide
      rcases List.mem_append.1 letter with first | later
      · cases sign <;> simp [Sign.text] at first
      · cases digit 's' later
    · exact ⟨_, ⟨.minus, "9223372036854775809".toList, ['s'], rfl, digits _ rfl, rfl⟩, by decide⟩

end PotExtract.Epoch
