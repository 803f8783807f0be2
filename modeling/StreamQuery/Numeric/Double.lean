/-!
# Binary floating point numbers

A `Double` is the 64 bits of an IEEE 754 binary64 number. Identity, order and
the conversions from and to integers are computed on those bits, so that they
can be reasoned about; addition, multiplication and division go through the
processor's arithmetic and nothing is claimed about them here.
-/

namespace StreamQuery

structure Double where
  bits : UInt64
  deriving DecidableEq, Repr

namespace Double

def zero : Double := ⟨0⟩
def nan : Double := ⟨0x7ff8000000000000⟩

instance : Inhabited Double := ⟨zero⟩

def signBit : Nat := 0x8000000000000000

def isNegative (x : Double) : Bool := signBit ≤ x.bits.toNat

/-- The bits below the sign. They grow with the absolute value. -/
def magnitude (x : Double) : Nat := x.bits.toNat % signBit

def infinityMagnitude : Nat := 0x7ff0000000000000

def isNaN (x : Double) : Bool := infinityMagnitude < x.magnitude

def isInfinite (x : Double) : Bool := x.magnitude = infinityMagnitude

/-- One representative for both zeros and one for every NaN. Two numbers are
the same value when their representatives have the same bits. -/
def normalize (x : Double) : Double :=
  if x.isNaN then nan else if x.magnitude = 0 then zero else x

/-- The place on the number line, with both zeros at one place. -/
def rank (x : Double) : Int :=
  if x.isNegative then -(x.magnitude : Int) else x.magnitude

/-- A total order in which the one NaN lies above positive infinity. -/
def totalOrder (x y : Double) : Ordering :=
  compare x.normalize.rank y.normalize.rank

def numericOrder (x y : Double) : Option Ordering :=
  if x.isNaN || y.isNaN then none else some (compare x.rank y.rank)

/-! ## Decoding -/

/-- The bit of the significand that a normal double leaves out. -/
def hiddenBit : Nat := 0x10000000000000

def exponentField (x : Double) : Nat := x.magnitude / hiddenBit

/-- The integer `m` with `|x| = m * 2 ^ x.exponent`, for finite `x`. -/
def significand (x : Double) : Nat :=
  if x.exponentField = 0 then x.magnitude else hiddenBit + x.magnitude % hiddenBit

def exponent (x : Double) : Int :=
  if x.exponentField = 0 then -1074 else (x.exponentField : Int) - 1075

/-! ## Integers -/

/-- Rounds `n` divided by two to the `shift` to the nearest integer, and a tie to the even one. -/
def roundShift (n shift : Nat) : Nat :=
  let unit := 1 <<< shift
  let quotient := n / unit
  let twice := 2 * (n % unit)
  if twice < unit then quotient
  else if unit < twice then quotient + 1
  else quotient + quotient % 2

/-- The double nearest to `n`, a tie going to the even significand. The sum
of exponent and significand carries when rounding reaches a power of two. -/
def ofNat (n : Nat) : Double :=
  if n = 0 then zero
  else
    let high := n.log2
    let scaled := if high ≤ 52 then n <<< (52 - high) else roundShift n (high - 52)
    let magnitude := (high + 1022) * hiddenBit + scaled
    ⟨UInt64.ofNat (min magnitude infinityMagnitude)⟩

def neg (x : Double) : Double := ⟨x.bits ^^^ 0x8000000000000000⟩

def ofInt : Int → Double
  | .ofNat n => ofNat n
  | .negSucc n => (ofNat (n + 1)).neg

def integerMagnitude (x : Double) : Nat :=
  if 0 ≤ x.exponent then x.significand <<< x.exponent.toNat
  else x.significand >>> (-x.exponent).toNat

/-- The integer part, cut off at the ends of the 64-bit range; zero for a NaN. -/
def toInt64 (x : Double) : Int64 :=
  if x.isNaN then 0
  else
    let whole : Int := if x.isNegative then -x.integerMagnitude else x.integerMagnitude
    Int64.ofInt (max Int64.minValue.toInt (min Int64.maxValue.toInt whole))

/-! ## Arithmetic -/

def toFloat (x : Double) : Float := Float.ofBits x.bits

def ofFloat (x : Float) : Double := ⟨x.toBits⟩

instance : Add Double := ⟨fun x y => ofFloat (x.toFloat + y.toFloat)⟩
instance : Sub Double := ⟨fun x y => ofFloat (x.toFloat - y.toFloat)⟩
instance : Mul Double := ⟨fun x y => ofFloat (x.toFloat * y.toFloat)⟩
instance : Div Double := ⟨fun x y => ofFloat (x.toFloat / y.toFloat)⟩

end Double

end StreamQuery
