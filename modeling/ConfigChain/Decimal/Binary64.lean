/-!
Finite non-negative numbers of the binary64 format, in exact integer arithmetic. `nearest` rounds a
ratio of whole numbers to the format, a tie going to the even significand; every operation here is an
exact one followed by that rounding. `ofDecimal` reads a decimal significand and power of ten.
-/

namespace ConfigChain

/-- The number `significand * 2 ^ exponent`. Numbers of the format have a significand below `2 ^ 53`
and an exponent from `-1074` to `971`, and above `-1074` the significand is at least `2 ^ 52`. -/
structure Binary64 where
  significand : Nat
  exponent : Int
deriving DecidableEq, Repr

namespace Binary64

def zero : Binary64 := ⟨0, -1074⟩

/-- The numerator of the number as a ratio. -/
def numerator (x : Binary64) : Nat := x.significand * Nat.pow 2 x.exponent.toNat

/-- The denominator of the number as a ratio. -/
def denominator (x : Binary64) : Nat := Nat.pow 2 (-x.exponent).toNat

/-- A quotient rounded to a whole number, a tie going to the even neighbour. -/
def roundQuotient (n d : Nat) : Nat :=
  let whole := n / d
  let twice := 2 * (n % d)
  if d < twice ∨ (twice = d ∧ whole % 2 = 1) then whole + 1 else whole

/-- The exponent that gives the significand of `n / d` 53 binary digits, or as many as fit above the
least exponent. -/
def exponentFor (n d : Nat) : Int :=
  let guess : Int := (Nat.log2 n : Int) - Nat.log2 d - 52
  let short := n * Nat.pow 2 (-guess).toNat < d * Nat.pow 2 guess.toNat * Nat.pow 2 52
  max (-1074) (if short then guess - 1 else guess)

/-- The number of the format nearest to `n / d`; none beyond the greatest. -/
def nearest (n d : Nat) : Option Binary64 :=
  if n = 0 then some zero
  else
    let exponent := exponentFor n d
    let significand := roundQuotient (n * Nat.pow 2 (-exponent).toNat) (d * Nat.pow 2 exponent.toNat)
    let x : Binary64 :=
      if significand = Nat.pow 2 53 then ⟨Nat.pow 2 52, exponent + 1⟩ else ⟨significand, exponent⟩
    if 971 < x.exponent then none else some x

/-- The product of two numbers, rounded. -/
def times? (x y : Binary64) : Option Binary64 :=
  nearest (x.numerator * y.numerator) (x.denominator * y.denominator)

/-- The quotient of two numbers, rounded. -/
def dividedBy? (x y : Binary64) : Option Binary64 :=
  nearest (x.numerator * y.denominator) (x.denominator * y.numerator)

/-- A power of ten, rounded. -/
def powerOfTen? (n : Nat) : Option Binary64 := nearest (Nat.pow 10 n) 1

/-- The greatest power of ten of the format. -/
def greatestPower : Nat := 308

/-- A number divided `rounds` times by the greatest power of ten and then by `10 ^ left`. -/
def shrink? (x : Binary64) : Nat → Nat → Option Binary64
  | 0, left => (powerOfTen? left).bind x.dividedBy?
  | rounds + 1, left =>
    if x.significand = 0 then some x
    else match (powerOfTen? greatestPower).bind x.dividedBy? with
      | none => none
      | some y => shrink? y rounds left

/-- The number `significand * 10 ^ exponent`, taken in two roundings: the significand, then one
product or quotient with a power of ten. None when it is beyond the format. -/
def ofDecimal? (significand : Nat) (exponent : Int) : Option Binary64 :=
  (nearest significand 1).bind fun x =>
    if 0 ≤ exponent then
      if exponent.toNat ≤ greatestPower then (powerOfTen? exponent.toNat).bind x.times?
      else if x.significand = 0 then some x
      else none
    else
      let rounds := ((-exponent).toNat - 1) / greatestPower
      x.shrink? rounds ((-exponent).toNat - rounds * greatestPower)

/-- The 64 bits of the format, as a number. -/
def bits (negative : Bool) (x : Binary64) : Nat :=
  let magnitude :=
    if x.significand < Nat.pow 2 52 then x.significand
    else (x.exponent + 1075).toNat * Nat.pow 2 52 + (x.significand - Nat.pow 2 52)
  if negative then Nat.pow 2 63 + magnitude else magnitude

end Binary64

end ConfigChain
