import PotExtract.Source.Bytes

/-!
# Byte access that can fail

A scan over the bytes of a text reads them by index, cuts the text at byte
offsets and counts down depths. Each of these can go wrong; here it says so.

* `Fault`, `Checked`: what can go wrong, and a result that may have;
* `byteAt`, `slice`: a byte, and the text between two offsets;
* `lower`, `advance`: what a count and a loop ask for.
-/

namespace PotExtract

open Source

/-- What can go wrong in a scan over bytes. -/
inductive Checked.Fault where
  /-- A byte is read past the end. -/
  | index (i : Nat)
  /-- The ends of a slice are out of order, past the end, or within a character. -/
  | slice (start stop : Nat)
  /-- One is taken from zero. -/
  | negative
  /-- A loop goes on from where it is. -/
  | stuck (i : Nat)
  /-- A function has no role at a place. -/
  | role (place : Nat)
  /-- A place is on no line. -/
  | line (offset : Nat)
  /-- The arguments are all read, and none is the text. -/
  | noText
  deriving DecidableEq, Repr

/-- A result, or what went wrong. -/
abbrev Checked := Except Checked.Fault

namespace Checked

@[simp] theorem ok_bind {α β : Type} (a : α) (f : α → Checked β) : Except.ok a >>= f = f a := rfl

/-- The byte at an index. -/
def byteAt (bytes : List UInt8) (i : Nat) : Checked UInt8 :=
  match bytes[i]? with
  | some b => .ok b
  | none => .error (.index i)

/-- A number less one. -/
def lower : Nat → Checked Nat
  | 0 => .error .negative
  | n + 1 => .ok n

@[simp] theorem lower_succ (n : Nat) : lower (n + 1) = .ok n := rfl

/-- A loop that goes on at `next` has to be past `i`. -/
def advance (i next : Nat) : Checked { n // i < n } :=
  if h : i < next then .ok ⟨next, h⟩ else .error (.stuck i)

theorem advance_of_lt {i next : Nat} (h : i < next) : advance i next = .ok ⟨next, h⟩ :=
  dif_pos h

/-- The first characters of a text, as many as take so many bytes. -/
def takeBytes : Nat → List Char → Option (List Char)
  | 0, _ => some []
  | _ + 1, [] => none
  | n + 1, c :: r =>
    if c.utf8Size ≤ n + 1 then (c :: ·) <$> takeBytes (n + 1 - c.utf8Size) r else none

/-- The text between two byte offsets, both between characters. -/
def slice (text : List Char) (start stop : Nat) : Checked (List Char) :=
  if start ≤ stop then
    match (dropBytes start text).bind (takeBytes (stop - start)) with
    | some inside => .ok inside
    | none => .error (.slice start stop)
  else .error (.slice start stop)

end Checked

end PotExtract
