import GmlLift.Decimal.Shortest

/-!
# Layout of numbers

How a shortest decimal becomes text: which exponents are written out positionally, and whether a
whole number keeps a fraction. The two formats in use are `NumberLayout.plain`, for listings, and
`NumberLayout.tagged`, for syntax trees, where a floating-point number must not look like an
integer.
-/

namespace GmlLift

/-- The decisions of a number format. -/
structure NumberLayout where
  /-- The decimal exponents of the leading digit that are written without an exponent; all, if none
  are given. -/
  positional : Option (Int × Int)
  /-- Does a whole number end in `.0`? -/
  wholeFraction : Bool
  deriving DecidableEq, Repr

namespace NumberLayout

/-- Never an exponent, and no fraction on whole numbers. -/
def plain : NumberLayout := ⟨none, false⟩

/-- An exponent below `1e-4` and from `1e16` on, and `.0` on whole numbers. -/
def tagged : NumberLayout := ⟨some (-4, 15), true⟩

def zeros (n : Nat) : String := String.ofList (List.replicate n '0')

/-- Writes the digits with a point after the first `point` of them. -/
def writePositional (l : NumberLayout) (digits : List Char) (point : Int) : String :=
  if point ≤ 0 then
    "0." ++ zeros (-point).toNat ++ String.ofList digits
  else if point.toNat < digits.length then
    String.ofList (digits.take point.toNat) ++ "." ++ String.ofList (digits.drop point.toNat)
  else
    String.ofList digits ++ zeros (point.toNat - digits.length) ++
      if l.wholeFraction then ".0" else ""

/-- Writes the digits with a point after the first and an exponent. -/
def writeScientific (digits : List Char) (exponent : Int) : String :=
  let fraction := if digits.length ≤ 1 then "" else "." ++ String.ofList (digits.drop 1)
  String.ofList (digits.take 1) ++ fraction ++ "e" ++ toString exponent

/-- The text of a positive decimal. -/
def write (l : NumberLayout) (d : Decimal) : String :=
  let digits := (toString d.coefficient).toList
  let point : Int := digits.length + d.exponent
  match l.positional with
  | none => l.writePositional digits point
  | some (least, greatest) =>
    if least ≤ point - 1 && point - 1 ≤ greatest then l.writePositional digits point
    else writeScientific digits (point - 1)

/-- The text of a binary number. Zeros and infinities keep their sign; what is not a number has
none. -/
def render (l : NumberLayout) : BinaryNumber → String
  | .nan => "NaN"
  | .infinity negative => signed negative "inf"
  | .zero negative => signed negative (if l.wholeFraction then "0.0" else "0")
  | .finite negative v => signed negative (l.write v.shortest)
where
  signed (negative : Bool) (text : String) : String := if negative then "-" ++ text else text

/-- The text of a 64-bit pattern. -/
def double (l : NumberLayout) (bits : UInt64) : String :=
  l.render (BinaryFormat.binary64.read bits.toNat)

/-- The text of a 32-bit pattern. -/
def float (l : NumberLayout) (bits : UInt32) : String :=
  l.render (BinaryFormat.binary32.read bits.toNat)

end NumberLayout

end GmlLift
