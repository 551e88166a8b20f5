/-!
# Binary floating-point numbers

A bit pattern is read into what it denotes: not a number, an infinity, a zero, or a sign with a
positive magnitude `significand * 2 ^ exponent`.
-/

namespace GmlLift

/-- The widths of a binary interchange format. -/
structure BinaryFormat where
  fractionBits : Nat
  exponentBits : Nat
  deriving DecidableEq, Repr

namespace BinaryFormat

def binary64 : BinaryFormat := ⟨52, 11⟩

def binary32 : BinaryFormat := ⟨23, 8⟩

end BinaryFormat

/-- A positive number `significand * 2 ^ exponent` of a binary format. -/
structure Magnitude where
  significand : Nat
  exponent : Int
  /-- The number below is only half as far away as the number above. -/
  nearBelow : Bool
  deriving DecidableEq, Repr

/-- What a bit pattern denotes. -/
inductive BinaryNumber where
  | nan
  | infinity (negative : Bool)
  | zero (negative : Bool)
  | finite (negative : Bool) (magnitude : Magnitude)
  deriving DecidableEq, Repr

/-- Reads a bit pattern: fraction in the low bits, then the biased exponent, then the sign. -/
def BinaryFormat.read (f : BinaryFormat) (bits : Nat) : BinaryNumber :=
  let fraction := bits % Nat.pow 2 f.fractionBits
  let biased := bits / Nat.pow 2 f.fractionBits % Nat.pow 2 f.exponentBits
  let negative := bits / Nat.pow 2 (f.fractionBits + f.exponentBits) % 2 == 1
  let lowest : Int := 2 - Nat.pow 2 (f.exponentBits - 1) - f.fractionBits
  if biased = Nat.pow 2 f.exponentBits - 1 then
    if fraction = 0 then .infinity negative else .nan
  else if biased = 0 then
    if fraction = 0 then .zero negative else .finite negative ⟨fraction, lowest, false⟩
  else
    .finite negative
      ⟨Nat.pow 2 f.fractionBits + fraction, lowest + (biased - 1), fraction == 0 && biased != 1⟩

end GmlLift
