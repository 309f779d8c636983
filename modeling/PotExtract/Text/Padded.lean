/-!
# Numbers of a fixed width
-/

namespace PotExtract

/-- A number with zeros before its digits up to a width, in which a minus sign counts. -/
def padded (width : Nat) (n : Int) : String :=
  let sign := if n < 0 then ['-'] else []
  let digits := Nat.toDigits 10 n.natAbs
  String.ofList (sign ++ List.replicate (width - sign.length - digits.length) '0' ++ digits)

end PotExtract
