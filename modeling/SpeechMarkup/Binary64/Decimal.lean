import SpeechMarkup.Binary64

/-!
# Decimal text of double-precision numbers

Reading is one rounding of a ratio.  Writing has two forms, neither with an
exponent part:

* `Binary64.plain` writes the fewest decimal digits that read back as the same
  number, the nearest of them if there are several;
* `Binary64.exactTenth` writes a whole number exactly, with one decimal.

A decimal is a pair of a natural number and a power of ten.  The shortest one is
found by trying one digit, two digits, and so on, each time with the two
neighbours of the number on that decimal grid; each candidate is accepted only
if it reads back as the number, so `Binary64.shortest` cannot return a decimal
of another number.
-/

namespace SpeechMarkup

/-- The decimal number `digits * 10 ^ scale`. -/
structure Decimal where
  digits : Nat
  scale : Int
deriving Repr, DecidableEq

namespace Decimal

def numerator (d : Decimal) : Nat :=
  d.digits * Nat.pow 10 d.scale.toNat

def denominator (d : Decimal) : Nat :=
  Nat.pow 10 (-d.scale).toNat

/-- The double nearest to a decimal. -/
def nearest (d : Decimal) (negative : Bool) : Binary64 :=
  Binary64.ofRatio negative d.numerator d.denominator

/-- The same decimal without trailing zeros, of which at most `fuel` are dropped. -/
def trim (d : Decimal) : Nat → Decimal
  | 0 => d
  | fuel + 1 =>
    if d.digits ≠ 0 ∧ d.digits % 10 = 0 then
      trim ⟨d.digits / 10, d.scale + 1⟩ fuel
    else d

/-- Positional text: all digits of the whole part, then as many decimals as the
scale asks for. -/
def text (d : Decimal) : String :=
  let whole := Nat.repr (d.numerator / d.denominator)
  let places := (-d.scale).toNat
  if places = 0 then whole
  else
    let part := Nat.toDigits 10 (d.numerator % d.denominator)
    let zeros := List.replicate (places - part.length) '0'
    whole ++ "." ++ String.ofList (zeros ++ part)

end Decimal

/-- The value of a run of decimal digits. -/
def digitsValue (cs : List Char) : Nat :=
  cs.foldl (fun n c => 10 * n + (c.toNat - '0'.toNat)) 0

namespace Binary64

/-- The number written by `whole`, a point, and `part`. -/
def ofDigits (whole part : List Char) : Binary64 :=
  Decimal.nearest ⟨digitsValue (whole ++ part), -(part.length : Int)⟩ false

/-- The least `k` with the positive ratio `n / d` below `10 ^ k`. -/
def decade (n d : Nat) : Int :=
  if d ≤ n then
    (Nat.toDigits 10 (n / d)).length
  else
    -- `d / n` has `j` digits, so that `n / d` lies between `10 ^ -j` and `10 ^ (1 - j)`
    let j := (Nat.toDigits 10 (d / n)).length
    if n * Nat.pow 10 (j - 1) < d then 1 - (j : Int) else 2 - (j : Int)

/-- The decimals with `count` digits on both sides of the magnitude of `x` that
read back as `x`, the nearer first and the larger first of two equally near. -/
def candidates (x : Binary64) (count : Nat) : List Decimal :=
  let n := x.numerator
  let d := x.denominator
  let scale := decade n d - count
  let top := n * Nat.pow 10 (-scale).toNat
  let bottom := d * Nat.pow 10 scale.toNat
  let below : Decimal := ⟨top / bottom, scale⟩
  let above : Decimal := ⟨top / bottom + 1, scale⟩
  let order := if 2 * (top % bottom) < bottom then [below, above] else [above, below]
  order.filter fun c => (c.nearest x.negative).rank = x.rank

/-- The magnitude of `x` written out in full. -/
def expansion (x : Binary64) : Decimal :=
  ⟨x.numerator * Nat.pow 5 (-x.exponent).toNat, min x.exponent 0⟩

/-- The first candidate among those with `count`, `count + 1`, … digits. -/
def search (x : Binary64) (count : Nat) : Nat → Decimal
  | 0 => x.expansion
  | fuel + 1 =>
    match x.candidates count with
    | c :: _ => c
    | [] => search x (count + 1) fuel

/-- The shortest decimal that reads back as the magnitude of a finite number. -/
def shortest (x : Binary64) : Decimal :=
  if x.rank = 0 then ⟨0, 0⟩ else (search x 1 17).trim 17

def sign (x : Binary64) : String :=
  if x.negative then "-" else ""

/-- The fewest digits that read back, laid out without an exponent. -/
def plain (x : Binary64) : String :=
  if x.isNaN then "NaN"
  else if x.isInfinite then x.sign ++ "inf"
  else x.sign ++ x.shortest.text

/-- A whole number in full with one decimal. -/
def exactTenth (x : Binary64) : String :=
  x.sign ++ Nat.repr (x.numerator / x.denominator) ++ ".0"

/-- The text of a number in a source: it always shows a point, or is no number
that a source can write. -/
def render (x : Binary64) : String :=
  if x.isWhole then x.exactTenth else x.plain

end Binary64

end SpeechMarkup
