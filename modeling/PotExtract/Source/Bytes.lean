/-!
# Texts in bytes

Places in a text are counted in bytes of its UTF-8 form.

* `utf8`, `byteSize`: the bytes of a text, and how many they are;
* `dropBytes`: the text from a byte offset on;
* `isWordByte`, `isSpaceByte`: the bytes of names and of blanks.
-/

namespace PotExtract

namespace Source

/-- A text in UTF-8. -/
def utf8 (s : List Char) : List UInt8 :=
  s.flatMap String.utf8EncodeChar

@[simp] theorem utf8_nil : utf8 [] = [] := rfl

@[simp] theorem utf8_cons (c : Char) (s : List Char) :
    utf8 (c :: s) = String.utf8EncodeChar c ++ utf8 s := rfl

@[simp] theorem utf8_append (s t : List Char) : utf8 (s ++ t) = utf8 s ++ utf8 t := by
  simp [utf8]

/-- The number of bytes a text takes in UTF-8. -/
def byteSize (s : List Char) : Nat :=
  s.foldr (fun c n => c.utf8Size + n) 0

@[simp] theorem byteSize_nil : byteSize [] = 0 := rfl

@[simp] theorem byteSize_cons (c : Char) (s : List Char) :
    byteSize (c :: s) = c.utf8Size + byteSize s := rfl

@[simp] theorem byteSize_append (s t : List Char) :
    byteSize (s ++ t) = byteSize s + byteSize t := by
  induction s with
  | nil => simp
  | cons c s ih => simp [ih, Nat.add_assoc]

@[simp] theorem length_utf8 (s : List Char) : (utf8 s).length = byteSize s := by
  induction s with
  | nil => rfl
  | cons c r ih => simp [ih]

/-- The text from a byte offset on, if a character begins there. -/
def dropBytes : Nat → List Char → Option (List Char)
  | 0, s => some s
  | _ + 1, [] => none
  | n + 1, c :: r => if c.utf8Size ≤ n + 1 then dropBytes (n + 1 - c.utf8Size) r else none

end Source

/-- ASCII letters, digits and the underscore, and every byte outside ASCII. -/
def isWordByte (b : UInt8) : Bool :=
  ('0'.toUInt8 ≤ b && b ≤ '9'.toUInt8) || ('A'.toUInt8 ≤ b && b ≤ 'Z'.toUInt8) ||
    ('a'.toUInt8 ≤ b && b ≤ 'z'.toUInt8) || b == '_'.toUInt8 || 0x80 ≤ b

/-- Space, tab, line feed, form feed and carriage return. -/
def isSpaceByte (b : UInt8) : Bool :=
  b == 0x20 || b == 0x09 || b == 0x0a || b == 0x0c || b == 0x0d

end PotExtract
