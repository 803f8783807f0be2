import StreamQuery.Numeric.Double

/-!
# The shortest decimal text of a double

A finite double stands for the interval of reals that round to it. Its text is
the coarsest decimal that lies in that interval: the grids of multiples of
`10 ^ p` are tried for falling `p`, and on the first grid with a point in the
interval the nearer of the double's two neighbours is taken, the upper one in
a tie. All of it is exact integer arithmetic. The digits are then written
without an exponent.
-/

namespace StreamQuery

/-- The positive rational `numerator * 10 ^ exponent` as digits and a place. -/
structure Decimal where
  digits : Nat
  exponent : Int
  deriving DecidableEq, Repr

namespace Double

/-- The reals that round to a positive double, in quarters of its last place:
the double itself is at `center`. -/
structure RoundingInterval where
  low : Nat
  center : Nat
  high : Nat
  /-- Whether the two ends round to the double as well. -/
  closed : Bool
  exponent : Int

def roundingInterval (x : Double) : RoundingInterval :=
  let m := x.significand
  -- Below a power of two the doubles lie twice as densely.
  let below := if m = hiddenBit ∧ 1 < x.exponentField then 1 else 2
  { low := 4 * m - below, center := 4 * m, high := 4 * m + 2,
    closed := m % 2 = 0, exponent := x.exponent - 2 }

namespace RoundingInterval

def contains (i : RoundingInterval) (scale point : Nat) : Bool :=
  if i.closed then i.low * scale ≤ point && point ≤ i.high * scale
  else i.low * scale < point && point < i.high * scale

/-- The multiple of `10 ^ p` in the interval that is nearest to the center,
divided by `10 ^ p`. -/
def onGrid (i : RoundingInterval) (p : Int) : Option Nat :=
  let grid := Nat.pow 10 p.toNat <<< (-i.exponent).toNat
  let scale := Nat.pow 10 (-p).toNat <<< i.exponent.toNat
  let center := i.center * scale
  let floor := center / grid
  let below := i.contains scale (floor * grid)
  let above := i.contains scale ((floor + 1) * grid)
  if below && above then
    if 2 * (center % grid) < grid then some floor else some (floor + 1)
  else if below then some floor
  else if above then some (floor + 1)
  else none

def coarsest (i : RoundingInterval) : Nat → Int → Decimal
  | 0, p => ⟨(i.onGrid p).getD i.center, p⟩
  | steps + 1, p =>
    match i.onGrid p with
    | some digits => ⟨digits, p⟩
    | none => coarsest i steps (p - 1)

end RoundingInterval

/-- The shortest decimal that rounds to a positive double. The walk starts
above the double, as `log₁₀ 2 < 0.30103`, and ends at the latest on the grid
of `10 ^ min 0 exponent`, which holds the double itself. -/
def shortest (x : Double) : Decimal :=
  let i := x.roundingInterval
  let binary : Int := (i.high.log2 : Int) + 1 + i.exponent
  let start := binary * 30103 / 100000 + 1
  i.coarsest (start - min 0 i.exponent).toNat start

end Double

def Decimal.positional (d : Decimal) : String :=
  let digits := toString d.digits
  if 0 ≤ d.exponent then digits.pushn '0' d.exponent.toNat
  else
    let places := (-d.exponent).toNat
    if places < digits.length then
      let whole := digits.length - places
      String.ofList (digits.toList.take whole) ++ "." ++ String.ofList (digits.toList.drop whole)
    else "0." ++ String.ofList (List.replicate (places - digits.length) '0') ++ digits

def Double.render (x : Double) : String :=
  if x.isNaN then "NaN"
  else
    let text :=
      if x.isInfinite then "inf"
      else if x.magnitude = 0 then "0"
      else x.shortest.positional
    if x.isNegative then "-" ++ text else text

end StreamQuery
