/-!
# Double-precision numbers

Durations in beats and the length of a beat are double-precision numbers.  This
file defines them over the natural numbers, so that every operation is exact
integer arithmetic followed by one rounding.

A number is a sign and a *rank*: the count of non-negative doubles below its
magnitude.  Ranks are consecutive, hence

* `Binary64.rankOfRatio` rounds a ratio of natural numbers to the nearest rank,
  a half going to the even one, and a carry out of the significand lands on the
  next power of two by itself;
* the rank `infinityRank` is infinity, and the ranks above it are not numbers.

The magnitude of a finite number is `significand * 2 ^ exponent`.
-/

namespace SpeechMarkup

/-- The number of significands that share an exponent, and the least significand of
a normal number. -/
def significandStep : Nat := 0x10000000000000

/-- A double-precision number as a sign and a rank among the magnitudes. -/
structure Binary64 where
  negative : Bool
  rank : Nat
  /-- A rank has 63 bits. -/
  rank_lt : rank < 0x8000000000000000 := by decide
deriving Repr, DecidableEq

namespace Binary64

/-- The rank of infinity. -/
def infinityRank : Nat := 0x7ff0000000000000

/-- The number with the given rank; a rank too large for 63 bits is infinity. -/
def ofRank (negative : Bool) (rank : Nat) : Binary64 :=
  if h : rank < 0x8000000000000000 then
    ⟨negative, rank, h⟩
  else
    ⟨negative, infinityRank, by decide⟩

def nan : Binary64 :=
  { negative := false, rank := 0x7ff8000000000000 }

def infinity (negative : Bool) : Binary64 :=
  { negative := negative, rank := infinityRank }

def zero (negative : Bool) : Binary64 :=
  { negative := negative, rank := 0 }

/-- The 64-bit pattern: the sign bit above the rank. -/
def bits (x : Binary64) : Nat :=
  (if x.negative then 0x8000000000000000 else 0) + x.rank

/-- The number with the given 64-bit pattern; higher bits are dropped. -/
def ofBits (b : Nat) : Binary64 :=
  ⟨b / 0x8000000000000000 % 2 = 1, b % 0x8000000000000000, Nat.mod_lt _ (by decide)⟩

def isNaN (x : Binary64) : Bool :=
  infinityRank < x.rank

def isInfinite (x : Binary64) : Bool :=
  x.rank = infinityRank

/-- The significand of a finite number. -/
def significand (x : Binary64) : Nat :=
  if x.rank < significandStep then x.rank else x.rank % significandStep + significandStep

/-- The power of two that a finite number's significand is scaled by. -/
def exponent (x : Binary64) : Int :=
  if x.rank < significandStep then -1074 else (x.rank / significandStep : Nat) - 1075

/-- Numerator of a finite magnitude as a ratio of natural numbers. -/
def numerator (x : Binary64) : Nat :=
  x.significand <<< x.exponent.toNat

/-- Denominator of a finite magnitude as a ratio of natural numbers. -/
def denominator (x : Binary64) : Nat :=
  1 <<< (-x.exponent).toNat

/-- The quotient of natural numbers rounded to the nearest, a half to even. -/
def divNearest (n d : Nat) : Nat :=
  let q := n / d
  let r := n % d
  if 2 * r < d then q
  else if d < 2 * r then q + 1
  else if q % 2 = 0 then q else q + 1

/-- The exponent of the largest power of two that is at most `n / d`. -/
def log2Ratio (n d : Nat) : Int :=
  let k : Int := (n.log2 : Int) - d.log2
  if n <<< (-k).toNat < d <<< k.toNat then k - 1 else k

/--
The rank nearest to the positive ratio `n / d`, at most that of infinity.

The ratio is scaled so that the rounded quotient has 53 bits, or fewer at the
least exponent; counting `significandStep` ranks for each exponent turns the quotient
into a rank.
-/
def rankOfRatio (n d : Nat) : Nat :=
  if n = 0 then 0
  else
    let e := max (log2Ratio n d - 52) (-1074)
    let m := divNearest (n <<< (-e).toNat) (d <<< e.toNat)
    min ((e + 1074).toNat * significandStep + m) infinityRank

/-- The double nearest to a signed ratio of natural numbers. -/
def ofRatio (negative : Bool) (n d : Nat) : Binary64 :=
  ofRank negative (rankOfRatio n d)

/-- The double nearest to an integer. -/
def ofInt (v : Int) : Binary64 :=
  ofRatio (v < 0) v.natAbs 1

def mul (x y : Binary64) : Binary64 :=
  let sign := x.negative != y.negative
  if x.isNaN || y.isNaN then nan
  else if x.isInfinite || y.isInfinite then
    if x.rank = 0 || y.rank = 0 then nan else infinity sign
  else
    ofRatio sign (x.numerator * y.numerator) (x.denominator * y.denominator)

def div (x y : Binary64) : Binary64 :=
  let sign := x.negative != y.negative
  if x.isNaN || y.isNaN then nan
  else if x.isInfinite then
    if y.isInfinite then nan else infinity sign
  else if y.isInfinite then zero sign
  else if y.rank = 0 then
    if x.rank = 0 then nan else infinity sign
  else
    ofRatio sign (x.numerator * y.denominator) (x.denominator * y.numerator)

instance : Mul Binary64 := ⟨mul⟩

instance : Div Binary64 := ⟨div⟩

/-- Numeric equality: a number that is not one differs from itself, and the
two zeros agree. -/
def equal (x y : Binary64) : Bool :=
  !x.isNaN && !y.isNaN &&
    ((x.rank = 0 && y.rank = 0) || (x.negative = y.negative && x.rank = y.rank))

/-- Finite and without a fraction. -/
def isWhole (x : Binary64) : Bool :=
  x.rank < infinityRank && x.numerator % x.denominator = 0

/-- The largest integer that is at most a finite number. -/
def floorFinite (x : Binary64) : Int :=
  let n : Int := x.numerator
  Int.fdiv (if x.negative then -n else n) x.denominator

end Binary64

/-- The least value of a signed 64-bit word. -/
def minWord : Int := -9223372036854775808

/-- The largest value of a signed 64-bit word. -/
def maxWord : Int := 9223372036854775807

/-- The floor of a number as a signed word: values out of range go to the
nearer end, and what is not a number gives zero. -/
def Binary64.toWord (x : Binary64) : Int :=
  if x.isNaN then 0
  else if x.isInfinite then (if x.negative then minWord else maxWord)
  else max minWord (min maxWord x.floorFinite)

end SpeechMarkup
