import PotExtract.Calendar.Timestamp
import PotExtract.Text.Blank
import PotExtract.Text.Quoted

/-!
# A creation date given as a number

Reproducible builds set the creation date as a decimal number of seconds.

* `Epoch.read`: the date of a setting that may be absent or blank.
-/

namespace PotExtract.Epoch

/-- Why a numeral is no number of 64 bits. -/
inductive NumeralError where
  | invalidDigit
  | tooLarge
  | tooSmall
  deriving DecidableEq, Repr

/-- A reason in words. -/
def NumeralError.message : NumeralError → String
  | .invalidDigit => "invalid digit found in string"
  | .tooLarge => "number too large to fit in target type"
  | .tooSmall => "number too small to fit in target type"

/-- Why a setting gives no date. -/
inductive Error where
  /-- The text, without the blanks around it, is no number. -/
  | invalid (text : String) (reason : NumeralError)
  /-- The number lies outside the calendar. -/
  | outOfRange (seconds : Int)
  deriving DecidableEq, Repr

/-- An error in words. -/
def Error.message : Error → String
  | .invalid text reason =>
    "Invalid SOURCE_DATE_EPOCH: " ++ quotedText text ++ ": " ++ reason.message
  | .outOfRange seconds =>
    "SOURCE_DATE_EPOCH out of range: " ++ toString seconds ++ ": timestamp was not in range"

/-- The magnitude that the digits give after `value`, as long as it is at most `limit`. What is
wrong first, from the left, decides. -/
def readDigits (limit : Nat) (overflow : NumeralError) (value : Nat) :
    List Char → Except NumeralError Nat
  | [] => .ok value
  | c :: r =>
    if !c.isDigit then .error .invalidDigit
    else
      let value := value * 10 + (c.toNat - '0'.toNat)
      if value ≤ limit then readDigits limit overflow value r else .error overflow

/-- The number of 64 bits a numeral denotes: an optional sign and at least one digit. -/
def readNumeral (s : List Char) : Except NumeralError Int :=
  match s with
  | [] | ['+'] | ['-'] => .error .invalidDigit
  | '-' :: digits => (fun n => -(n : Int)) <$> readDigits (Nat.pow 2 63) .tooSmall 0 digits
  | '+' :: digits => (fun n => (n : Int)) <$> readDigits (Nat.pow 2 63 - 1) .tooLarge 0 digits
  | digits => (fun n => (n : Int)) <$> readDigits (Nat.pow 2 63 - 1) .tooLarge 0 digits

/-- The date a setting gives. An absent or blank setting gives none. -/
def read (setting : Option String) : Except Error (Option Timestamp) :=
  match (setting.map fun s => trimBlanks s.toList).getD [] with
  | [] => .ok none
  | text =>
    match readNumeral text with
    | .error reason => .error (.invalid (String.ofList text) reason)
    | .ok seconds =>
      match Timestamp.ofUnix? seconds with
      | none => .error (.outOfRange seconds)
      | some date => .ok (some date)

end PotExtract.Epoch
