import GmlLift.Decimal.Binary

/-!
# Shortest decimals

The fewest decimal digits that still name a binary number: among the decimals that round to it,
those with the coarsest grid, and of these the nearest. All arithmetic is exact, in natural
numbers.

The decimals that round to `m * 2 ^ q` fill the interval that ends half way to its two neighbours,
ends included exactly when `m` is even. On each grid of multiples of `10 ^ k` only the two multiples
next to the number need a test, since the interval contains the number.
-/

namespace GmlLift

/-- The decimal `coefficient * 10 ^ exponent`. -/
structure Decimal where
  coefficient : Nat
  exponent : Int
  deriving DecidableEq, Repr

namespace Magnitude

/-! ## The interval, in quarters of the last binary place -/

def center (v : Magnitude) : Nat := 4 * v.significand

def upper (v : Magnitude) : Nat := v.center + 2

def lower (v : Magnitude) : Nat := v.center - if v.nearBelow then 1 else 2

/-- Multiples of `10 ^ k` and quarter places over a common unit: `c` of the first and `x` of the
second are the same number exactly when `c * (v.grid k).1 = x * (v.grid k).2`. -/
def grid (v : Magnitude) (k : Int) : Nat × Nat :=
  let q := v.exponent - 2
  (Nat.pow 10 k.toNat * Nat.pow 2 (-q).toNat, Nat.pow 2 q.toNat * Nat.pow 10 (-k).toNat)

/-- Does `c * 10 ^ k` round to the number? -/
def admits (v : Magnitude) (k : Int) (c : Nat) : Bool :=
  let (a, b) := v.grid k
  if v.significand % 2 = 0 then v.lower * b ≤ c * a && c * a ≤ v.upper * b
  else v.lower * b < c * a && c * a < v.upper * b

/-- The multiple of `10 ^ k` just below the number, or the number itself. -/
def floorOn (v : Magnitude) (k : Int) : Nat :=
  let (a, b) := v.grid k
  v.center * b / a

/-- The nearest multiple of `10 ^ k` that rounds to the number; a tie goes up. -/
def nearestOn? (v : Magnitude) (k : Int) : Option Nat :=
  let (a, b) := v.grid k
  let c := v.floorOn k
  match v.admits k c, v.admits k (c + 1) with
  | false, false => none
  | true, false => some c
  | false, true => some (c + 1)
  | true, true => if v.center * b - c * a < (c + 1) * a - v.center * b then some c else some (c + 1)

/-- Tries the grids `10 ^ k`, `10 ^ (k - 1)`, ... in turn. -/
def searchFrom (v : Magnitude) : Nat → Int → Decimal
  | 0, k => ⟨v.floorOn k, k⟩
  | steps + 1, k =>
    match v.nearestOn? k with
    | some c => ⟨c, k⟩
    | none => v.searchFrom steps (k - 1)

/-- A power of ten above the number, by a rational bound on the decimal logarithm of two. -/
def topExponent (v : Magnitude) : Int :=
  (v.significand.log2 + v.exponent + 1) * 30103 / 100000 + 1

/-- The shortest decimal that rounds to the number. Seventeen digits suffice for every format up to
64 bits, and the search starts at most three places above the first of them. -/
def shortest (v : Magnitude) : Decimal :=
  v.searchFrom 20 v.topExponent

end Magnitude

end GmlLift
