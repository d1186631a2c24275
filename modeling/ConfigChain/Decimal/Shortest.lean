import ConfigChain.Decimal.Binary64

/-!
Writing a binary64 number with the fewest decimal digits that read back as the same number.

`shortest` goes through ever finer powers of ten. On each of these grids it looks at the two neighbours
of the number; the first grid with a neighbour that reads back wins, and of two such neighbours the
nearer one, a tie going to the even one. `Binary64.text` then places the point.
-/

namespace ConfigChain

/-- The number `digits * 10 ^ power`. -/
structure Decimal where
  digits : Nat
  power : Int
deriving DecidableEq, Repr

namespace Binary64

/-- How many decimal digits a whole number takes; none for zero. -/
def decimalWidth (n : Nat) : Nat := if n = 0 then 0 else (Nat.toDigits 10 n).length

/-- The power of ten of the first digit. -/
def leadingPower (x : Binary64) : Int :=
  if x.denominator ≤ x.numerator then (decimalWidth (x.numerator / x.denominator) : Int) - 1
  else -(decimalWidth ((x.denominator - 1) / x.numerator) : Int)

/-- The neighbours of `x` on the grid of multiples of `10 ^ power` that read back as `x`, best first.
Everything is measured in quarters of the last binary place, brought over one denominator: between
`lowest` and `highest` a number rounds to `x`, the ends themselves only to an even significand. -/
def onGrid? (x : Binary64) (power : Int) : Option Nat :=
  let quarter := Nat.pow 2 (x.exponent - 2).toNat * Nat.pow 10 (-power).toNat
  let grid := Nat.pow 10 power.toNat * Nat.pow 2 (2 - x.exponent).toNat
  let value := 4 * x.significand * quarter
  let below := if x.significand = Nat.pow 2 52 ∧ -1074 < x.exponent then 1 else 2
  let lowest := (4 * x.significand - below) * quarter
  let highest := (4 * x.significand + 2) * quarter
  let readsBack (n : Nat) : Bool :=
    if x.significand % 2 = 0 then lowest ≤ n * grid ∧ n * grid ≤ highest
    else lowest < n * grid ∧ n * grid < highest
  let floor := value / grid
  let down := value - floor * grid
  let up := (floor + 1) * grid - value
  if readsBack floor ∧ readsBack (floor + 1) then
    if down < up ∨ (down = up ∧ floor % 2 = 0) then some floor else some (floor + 1)
  else if readsBack floor then some floor
  else if readsBack (floor + 1) then some (floor + 1)
  else none

/-- The first grid with an answer, from `power` downwards. -/
def search (x : Binary64) : Nat → Int → Decimal
  | 0, power => ⟨0, power⟩
  | n + 1, power =>
    match onGrid? x power with
    | some digits => ⟨digits, power⟩
    | none => search x n (power - 1)

/-- The fewest digits that read back as `x`: seventeen always do. -/
def shortest (x : Binary64) : Decimal := search x 17 x.leadingPower

/-- Trailing zeros moved into the power. -/
def Decimal.trim (digits : List Char) (power : Int) : List Char × Int :=
  let kept := (digits.reverse.dropWhile (· == '0')).reverse
  (kept, power + (digits.length - kept.length : Nat))

/-- Digits with the point placed. Numbers from `10 ^ -5` up to `10 ^ 16` are written out with at least
one digit after the point; all others as one digit, the rest after a point, and a signed power. -/
def pointed (digits : List Char) (power : Int) : List Char :=
  let places : Int := digits.length + power
  if 0 ≤ power ∧ places ≤ 16 then
    digits ++ List.replicate power.toNat '0' ++ ['.', '0']
  else if 0 < places ∧ places ≤ 16 then
    digits.take places.toNat ++ '.' :: digits.drop places.toNat
  else if -5 < places ∧ places ≤ 0 then
    ['0', '.'] ++ List.replicate (-places).toNat '0' ++ digits
  else
    let rest := digits.drop 1
    let sign := if 0 < places then '+' else '-'
    digits.take 1 ++ (if rest.isEmpty then [] else '.' :: rest) ++
      'e' :: sign :: (toString (places - 1).natAbs).toList

/-- The text of a number: its shortest digits, with a sign in front when it is negative. -/
def text (negative : Bool) (x : Binary64) : String :=
  let body :=
    if x.significand = 0 then ['0', '.', '0']
    else
      let d := x.shortest
      let (digits, power) := Decimal.trim (Nat.toDigits 10 d.digits) d.power
      pointed digits power
  String.ofList (if negative then '-' :: body else body)

end Binary64

end ConfigChain
