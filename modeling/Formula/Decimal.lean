import Formula.Binary64

namespace Formula

/-- The number `coefficient * 10 ^ exponent`. -/
structure Decimal where
  coefficient : Nat
  exponent : Int
deriving DecidableEq

namespace Decimal

def value (d : Decimal) : Rat := mkRat d.coefficient 1 * (mkRat 10 1) ^ d.exponent

/-- The digits around the point, or the digits alone where no place is left for a fraction. -/
def positional (d : Decimal) : String :=
  let digits := Nat.toDigits 10 d.coefficient
  if 0 ≤ d.exponent then String.ofList (digits ++ List.replicate d.exponent.toNat '0')
  else
    let places := (-d.exponent).toNat
    let digits := List.replicate (places + 1 - digits.length) '0' ++ digits
    let whole := digits.length - places
    String.ofList (digits.take whole ++ '.' :: digits.drop whole)

inductive LiteralError where
  | empty
  | invalid
deriving DecidableEq

def LiteralError.message : LiteralError → String
  | empty => "cannot parse float from empty string"
  | invalid => "invalid float literal"

def ofDigits (digits : List Char) : Nat :=
  digits.foldl (fun n c => 10 * n + (c.toNat - '0'.toNat)) 0

def sign : List Char → Bool × List Char
  | '-' :: text => (true, text)
  | '+' :: text => (false, text)
  | text => (false, text)

/-- The size of an exponent: from 65536 on it takes no further digits. -/
def exponentSize (digits : List Char) : Nat :=
  digits.foldl (fun n c => if n < 65536 then 10 * n + (c.toNat - '0'.toNat) else n) 0

def exponent? : List Char → Option Int
  | [] => some 0
  | c :: text =>
    let (negative, digits) := sign text
    if (c = 'e' ∨ c = 'E') ∧ digits ≠ [] ∧ digits.all Char.isDigit then
      some (if negative then -(exponentSize digits : Int) else exponentSize digits)
    else none

/-- The place of the double next to the number with these digits, the last of them standing for
`10 ^ exponent`. Numbers of `10 ^ 309` and more are infinite, numbers below `10 ^ (-324)` zero. -/
def placeOf (digits : List Char) (exponent : Int) : Nat :=
  let digits := digits.dropWhile (· == '0')
  let top := exponent + digits.length
  if digits = [] ∨ top < -323 then 0
  else if 309 < top then Binary64.infinity
  else Binary64.nearest (value ⟨ofDigits digits, exponent⟩)

/-- The place of the double next to an unsigned number: digits, with a point anywhere among them or
none, then an exponent or none. -/
def place? (text : List Char) : Option Nat :=
  let whole := text.takeWhile Char.isDigit
  let rest := text.dropWhile Char.isDigit
  let (fraction, rest) := match rest with
    | '.' :: rest => (rest.takeWhile Char.isDigit, rest.dropWhile Char.isDigit)
    | rest => ([], rest)
  let digits := whole ++ fraction
  if digits = [] then none
  else (exponent? rest).map fun exponent => placeOf digits (exponent - fraction.length)

/-- Reads a double: a number or, in any case, `inf`, `infinity` or `nan`; a sign may stand first. -/
def read (text : String) : Except LiteralError Float :=
  if text.isEmpty then .error .empty
  else
    let (negative, unsigned) := sign text.toList
    let word := unsigned.map Char.toLower
    if word = "nan".toList then .ok Binary64.notANumber
    else if word = "inf".toList ∨ word = "infinity".toList then
      .ok (Binary64.toFloat negative Binary64.infinity)
    else match place? unsigned with
      | some place => .ok (Binary64.toFloat negative place)
      | none => .error .invalid

/-- The multiple of `10 ^ exponent` next to the double at `place` that reads back as this double;
of two equally near ones the greater. -/
def onGrid (place : Nat) (exponent : Int) : Option Decimal :=
  let scaled := Binary64.value place * (mkRat 10 1) ^ (-exponent)
  let below : Decimal := ⟨scaled.floor.toNat, exponent⟩
  let above : Decimal := ⟨scaled.floor.toNat + 1, exponent⟩
  let readsBack (d : Decimal) : Bool := Binary64.nearest d.value == place
  if readsBack below && (!readsBack above || scaled - scaled.floor < mkRat 1 2) then some below
  else if readsBack above then some above
  else none

/-- The decimal with the fewest digits that reads back as the positive double at `place`. The search
starts at a power of ten above the double, the logarithm of 2 to base 10 being just below 0.30103;
seventeen digits always do. -/
def shortest (place : Nat) : Decimal :=
  let top := (Binary64.log2 (Binary64.value place) + 1) * 30103 / 100000 + 1
  (((List.range 20).map fun n => top - Int.ofNat n).findSome? (onGrid place)).getD ⟨0, 0⟩

def write (x : Float) : String :=
  if x.isNaN then "NaN"
  else
    let bits := x.toBits.toNat
    let place := bits % Binary64.signBit
    let sign := if bits < Binary64.signBit then "" else "-"
    if place = 0 then sign ++ "0"
    else if place = Binary64.infinity then sign ++ "inf"
    else sign ++ (shortest place).positional

end Decimal

end Formula
