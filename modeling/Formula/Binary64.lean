/-!
The doubles from zero to infinity, counted in increasing order: the place of a double in the count
is its bit pattern without the sign.
-/

namespace Formula.Binary64

/-- The number of doubles from a power of two up to the next. -/
def binade : Nat := 0x10000000000000

def infinity : Nat := 0x7FF0000000000000

def signBit : Nat := 0x8000000000000000

/-- The finest spacing of doubles is this power of two. -/
def minExponent : Int := -1074

def value (place : Nat) : Rat :=
  if place < binade then mkRat place 1 * (mkRat 2 1) ^ minExponent
  else mkRat (binade + place % binade : Nat) 1 *
    (mkRat 2 1) ^ (minExponent + (place / binade : Nat) - 1)

/-- The greatest power of two that is at most the positive number `q`, as an exponent. -/
def log2 (q : Rat) : Int :=
  let exponent : Int := (q.num.toNat.log2 : Int) - (q.den.log2 : Int)
  if (mkRat 2 1) ^ exponent ≤ q then exponent else exponent - 1

/-- The whole number next to the non-negative number `q`, of two the even one. -/
def roundEven (q : Rat) : Nat :=
  let whole := q.num.toNat / q.den
  let rest := q.num.toNat % q.den
  if 2 * rest < q.den ∨ 2 * rest = q.den ∧ whole % 2 = 0 then whole else whole + 1

/-- The place of the double next to the non-negative number `q`, of two the even one. -/
def nearest (q : Rat) : Nat :=
  if q.num = 0 then 0
  else
    let exponent := max (log2 q - 52) minExponent
    let steps := roundEven (q * (mkRat 2 1) ^ (-exponent))
    min ((exponent - minExponent).toNat * binade + steps) infinity

theorem nearest_le_infinity (q : Rat) : nearest q ≤ infinity := by
  unfold nearest
  split
  · exact Nat.zero_le _
  · exact Nat.min_le_right _ _

def notANumber : Float := Float.ofBits 0x7FF8000000000000

def toFloat (negative : Bool) (place : Nat) : Float :=
  Float.ofBits (if negative then signBit + place else place).toUInt64

end Formula.Binary64
