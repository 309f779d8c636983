import PotExtract.Proofs.Source.Literal
import Mathlib.Data.List.Basic

/-!
# Escapes

Read from the left, with each backslash taken together with the character
after it, a text falls into units. The body of a literal falls into characters
and pairs, and the decoder goes over it one unit at a time.

* `EscapeUnit`, `units`: the units, and those of a text;
* `flatMap_text_units`, `units_flatMap_text`: a text is its units, and falls
  into them in one way;
* `body_iff_units`: which units may stand between two marks;
* `unescape_eq_flatMap`: decoding takes the units one by one;
* `Sayable`, `writeDoubled`: what a literal in double quotes can say, and how;
* `says_exact`: what the literals of each style say.
-/

namespace PotExtract.Source

/-- What a text falls into if each backslash is taken together with the next character. -/
inductive EscapeUnit where
  /-- A character that is no backslash. -/
  | plain (c : Char)
  /-- A backslash and the character after it. -/
  | pair (c : Char)
  /-- A backslash with nothing after it. -/
  | dangling
  deriving DecidableEq, Repr

namespace EscapeUnit

/-- A unit as it is written. -/
def text : EscapeUnit → List Char
  | plain c => [c]
  | pair c => ['\\', c]
  | dangling => ['\\']

/-- What a unit of a body stands for. -/
def decode (style : QuoteStyle) : EscapeUnit → List Char
  | plain c => [c]
  | pair c => if style.escapes c then [c] else ['\\', c]
  | dangling => ['\\']

/-- A unit that may stand anywhere in a text. -/
def IsWhole : EscapeUnit → Prop
  | plain c => c ≠ '\\'
  | pair _ => True
  | dangling => False

theorem IsWhole.ne_dangling {u : EscapeUnit} (h : u.IsWhole) : u ≠ dangling := by
  rintro rfl
  exact h

/-- A unit that may stand between the marks of a literal. -/
def FitsIn (style : QuoteStyle) (u : EscapeUnit) : Prop :=
  u.IsWhole ∧ u ≠ plain style.mark

end EscapeUnit

open EscapeUnit

/-- The units of a text. -/
def units : List Char → List EscapeUnit
  | [] => []
  | '\\' :: c :: r => .pair c :: units r
  | c :: r => (if c = '\\' then .dangling else .plain c) :: units r

theorem units_cons {c : Char} (hc : c ≠ '\\') (r : List Char) :
    units (c :: r) = .plain c :: units r := by
  rw [units, if_neg hc]
  exact fun _ _ h => absurd h hc

theorem flatMap_text_units (s : List Char) : (units s).flatMap EscapeUnit.text = s := by
  fun_induction units s with
  | case1 => rfl
  | case2 c r ih => simp [EscapeUnit.text, ih]
  | case3 c r _ ih =>
    split
    · rename_i hc
      simp [EscapeUnit.text, ih, hc]
    · simp [EscapeUnit.text, ih]

/-- Whole units, written one after another, are what a text falls into. -/
theorem units_flatMap_text {us : List EscapeUnit} (whole : ∀ u ∈ us, u.IsWhole) :
    units (us.flatMap EscapeUnit.text) = us := by
  induction us with
  | nil => rfl
  | cons u us ih =>
    obtain ⟨hu, hus⟩ := List.forall_mem_cons.1 whole
    cases u with
    | plain c => simp [EscapeUnit.text, units_cons hu, ih hus]
    | pair c => simp [EscapeUnit.text, units, ih hus]
    | dangling => exact absurd hu id

/-- Only a backslash at the end of a text is no whole unit. -/
theorem isWhole_of_mem_units {s : List Char} {u : EscapeUnit} (hu : u ∈ units s)
    (complete : u ≠ .dangling) : u.IsWhole := by
  fun_induction units s with
  | case1 => cases hu
  | case2 c r ih =>
    rcases List.mem_cons.1 hu with rfl | hu
    · trivial
    · exact ih hu
  | case3 c r _ ih =>
    rcases List.mem_cons.1 hu with rfl | hu
    · by_cases hc : c = '\\'
      · simp [hc] at complete
      · rw [if_neg hc]
        exact hc
    · exact ih hu

/-- Decoding takes the units of a text one by one. -/
theorem unescape_eq_flatMap (style : QuoteStyle) (s : List Char) :
    unescape style s = (units s).flatMap (EscapeUnit.decode style) := by
  fun_induction units s with
  | case1 => rfl
  | case2 c r ih =>
    rw [unescape, ih, List.flatMap_cons, EscapeUnit.decode]
    split <;> rfl
  | case3 c r single ih =>
    rw [unescape.eq_3 _ _ _ single, ih, List.flatMap_cons]
    split
    · rename_i hc
      simp [EscapeUnit.decode, hc]
    · rfl

/-- What may stand between two marks is made of the units that may. -/
theorem body_iff_units {style : QuoteStyle} {s : List Char} :
    Body style.mark s ↔
      ∃ us : List EscapeUnit, (∀ u ∈ us, u.FitsIn style) ∧ s = us.flatMap EscapeUnit.text := by
  constructor
  · intro h
    induction h with
    | nil => exact ⟨[], by simp, rfl⟩
    | @plain c r notMark notBackslash _ ih =>
      obtain ⟨us, fits, rfl⟩ := ih
      have here : (EscapeUnit.plain c).FitsIn style := ⟨notBackslash, by simpa using notMark⟩
      exact ⟨.plain c :: us, List.forall_mem_cons.2 ⟨here, fits⟩, rfl⟩
    | @pair c r _ ih =>
      obtain ⟨us, fits, rfl⟩ := ih
      have here : (EscapeUnit.pair c).FitsIn style := ⟨trivial, by simp⟩
      exact ⟨.pair c :: us, List.forall_mem_cons.2 ⟨here, fits⟩, rfl⟩
  · rintro ⟨us, fits, rfl⟩
    induction us with
    | nil => exact .nil
    | cons u us ih =>
      obtain ⟨⟨whole, notMark⟩, more⟩ := List.forall_mem_cons.1 fits
      cases u with
      | plain c => exact .plain (by simpa using notMark) whole (ih more)
      | pair c => exact .pair (ih more)
      | dangling => exact absurd whole id

theorem fitsIn_of_mem_units {style : QuoteStyle} {body : List Char} (h : Body style.mark body)
    {u : EscapeUnit} (hu : u ∈ units body) : u.FitsIn style := by
  obtain ⟨us, fits, rfl⟩ := body_iff_units.1 h
  rw [units_flatMap_text fun u hu => (fits u hu).1] at hu
  exact fits u hu

/-! ## What literals say -/

/-- A text is one literal of a style, and stands for another. -/
def Says (style : QuoteStyle) (s t : List Char) : Prop :=
  ∃ body, Literal.parse? s = some ⟨style, body⟩ ∧ Literal.decode ⟨style, body⟩ = t

/-- What can be said in double quotes, which keep most pairs as they are written: no backslash is
last, and none stands before a mark. -/
def Sayable (t : List Char) : Prop :=
  ∀ u ∈ units t, u ≠ .dangling ∧ u ≠ .pair '"'

instance (t : List Char) : Decidable (Sayable t) :=
  inferInstanceAs (Decidable (∀ u ∈ units t, u ≠ .dangling ∧ u ≠ .pair '"'))

/-- A unit of a body in double quotes, decoded. -/
def EscapeUnit.bared : EscapeUnit → EscapeUnit
  | pair '"' => plain '"'
  | u => u

/-- A unit of a text, as it is written in double quotes. -/
def EscapeUnit.escaped : EscapeUnit → EscapeUnit
  | plain '"' => pair '"'
  | u => u

/-- A text as the body of a literal in double quotes: each mark that follows no backslash of its
own gets one. -/
def writeDoubled (t : List Char) : List Char :=
  (units t).flatMap fun u => u.escaped.text

namespace EscapeUnit

theorem decode_double (u : EscapeUnit) : u.decode .double = u.bared.text := by
  fun_cases bared u with
  | case1 => rfl
  | case2 u notMark =>
    cases u with
    | plain c | dangling => rfl
    | pair c =>
      have kept : QuoteStyle.double.escapes c = false := by
        have ne : c ≠ '"' := fun h => notMark (h ▸ rfl)
        simpa [QuoteStyle.escapes, QuoteStyle.mark] using ne
      rw [decode, kept]
      rfl

theorem isWhole_bared {u : EscapeUnit} (h : u.IsWhole) :
    u.bared.IsWhole ∧ u.bared ≠ pair '"' := by
  fun_cases bared u with
  | case1 => exact ⟨show '"' ≠ '\\' by decide, by simp⟩
  | case2 u notMark => exact ⟨h, notMark⟩

theorem fitsIn_escaped {u : EscapeUnit} (h : u.IsWhole) : u.escaped.FitsIn .double := by
  fun_cases escaped u with
  | case1 => exact ⟨trivial, by simp⟩
  | case2 u notMark => exact ⟨h, notMark⟩

theorem escaped_bared {u : EscapeUnit} (h : u ≠ plain '"') : u.bared.escaped = u := by
  fun_cases bared u with
  | case1 => rfl
  | case2 u => rw [escaped.eq_2 _ h]

theorem bared_escaped {u : EscapeUnit} (h : u ≠ pair '"') : u.escaped.bared = u := by
  fun_cases escaped u with
  | case1 => rfl
  | case2 u => rw [bared.eq_2 _ h]

end EscapeUnit

theorem unescape_double (s : List Char) :
    unescape .double s = ((units s).map EscapeUnit.bared).flatMap EscapeUnit.text := by
  rw [unescape_eq_flatMap, List.flatMap_map]
  congr 1
  funext u
  exact u.decode_double

/-- The decoded text of a body falls into the units of the body, each decoded. -/
theorem units_unescape_double {body : List Char} (h : Body QuoteStyle.double.mark body) :
    units (unescape .double body) = (units body).map EscapeUnit.bared := by
  rw [unescape_double]
  exact units_flatMap_text <| List.forall_mem_map.2 fun u hu =>
    (isWhole_bared (fitsIn_of_mem_units h hu).1).1

theorem sayable_unescape {body : List Char} (h : Body QuoteStyle.double.mark body) :
    Sayable (unescape .double body) := by
  rw [Sayable, units_unescape_double h]
  refine List.forall_mem_map.2 fun u hu => ?_
  obtain ⟨whole, notMark⟩ := isWhole_bared (fitsIn_of_mem_units h hu).1
  exact ⟨whole.ne_dangling, notMark⟩

theorem writeDoubled_unescape {body : List Char} (h : Body QuoteStyle.double.mark body) :
    writeDoubled (unescape .double body) = body := by
  have back : ∀ u ∈ units body, u.bared.escaped.text = u.text := fun u hu => by
    rw [escaped_bared (fitsIn_of_mem_units h hu).2]
  rw [writeDoubled, units_unescape_double h, List.flatMap_map]
  exact (List.flatMap_congr back).trans (flatMap_text_units body)

theorem body_writeDoubled {t : List Char} (h : Sayable t) :
    Body QuoteStyle.double.mark (writeDoubled t) := by
  refine body_iff_units.2 ⟨(units t).map EscapeUnit.escaped, ?_, ?_⟩
  · exact List.forall_mem_map.2 fun u hu => fitsIn_escaped (isWhole_of_mem_units hu (h u hu).1)
  · rw [writeDoubled, List.flatMap_map]

theorem unescape_writeDoubled {t : List Char} (h : Sayable t) :
    unescape .double (writeDoubled t) = t := by
  have fallen : units (writeDoubled t) = (units t).map EscapeUnit.escaped := by
    rw [writeDoubled, ← List.flatMap_map]
    exact units_flatMap_text <| List.forall_mem_map.2 fun u hu =>
      (fitsIn_escaped (isWhole_of_mem_units hu (h u hu).1)).1
  have back : ∀ u ∈ units t, u.escaped.bared.text = u.text := fun u hu => by
    rw [bared_escaped (h u hu).2]
  rw [unescape_double, fallen, List.map_map, List.flatMap_map]
  exact (List.flatMap_congr back).trans (flatMap_text_units t)

/-- **What literals say.** Single quotes say every text, with a backslash before each backslash and
each mark. Double quotes say the texts in which no backslash is last or stands before a mark, and
each in one way only: with a backslash before each mark. -/
theorem says_exact (t : List Char) :
    Says .single ('\'' :: (QuoteStyle.single.write t ++ ['\''])) t ∧
      ∀ s, Says .double s t ↔ Sayable t ∧ s = '"' :: (writeDoubled t ++ ['"']) := by
  constructor
  · have takes : QuoteStyle.single.Takes t := nofun
    exact ⟨_, parse?_literal (body_write takes), unescape_write takes⟩
  · intro s
    constructor
    · rintro ⟨body, hparse, rfl⟩
      obtain ⟨hbody, rfl⟩ := parse?_eq_some_iff.1 hparse
      refine ⟨sayable_unescape hbody, ?_⟩
      rw [Literal.decode, writeDoubled_unescape hbody]
      rfl
    · rintro ⟨sayable, rfl⟩
      exact ⟨_, parse?_literal (body_writeDoubled sayable),
        unescape_writeDoubled sayable⟩

end PotExtract.Source
