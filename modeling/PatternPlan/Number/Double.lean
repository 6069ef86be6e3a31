import PatternPlan.Number.Decimal

/-!
# Binary64 numbers, exactly

A finite binary64 number as sign, mantissa and exponent, with the roundings the language needs.
Nothing here uses machine floating point: every step is exact arithmetic on naturals.

* `Double` — the number `± mantissa · 2 ^ exponent`; zero keeps its sign;
* `Double.ofRatio` — a quotient rounded to the nearest double, ties to the even mantissa, `none`
  past the largest finite number;
* `Double.ofDecimal` — the same for `digits · 10 ^ power`;
* `Double.same`, `Double.less` — comparison by value, so that both zeros are the same.
-/

namespace PatternPlan

/-- A finite binary64 number: `mantissa · 2 ^ exponent`, negated when `negative` is set.  The
mantissa is below `2 ^ 53`; a non-zero number has a mantissa of at least `2 ^ 52` unless its
exponent is the least one, `-1074`; zero has exponent `0`. -/
structure Double where
  negative : Bool
  mantissa : Nat
  exponent : Int
deriving DecidableEq, Inhabited

namespace Double

/-- Zero with the given sign. -/
def zero (negative : Bool) : Double := ⟨negative, 0, 0⟩

/-- The same number with the other sign. -/
def neg (d : Double) : Double := { d with negative := !d.negative }

def isZero (d : Double) : Bool := d.mantissa = 0

/-- `num / den` rounded to the nearest integer, a tie to the even one. -/
def roundDiv (num den : Nat) : Nat :=
  let q := num / den
  let r := num % den
  if 2 * r < den then q
  else if den < 2 * r then q + 1
  else if q % 2 = 0 then q else q + 1

/-- Numerator and denominator of `num / den / 2 ^ e`. -/
def scaled (num den : Nat) (e : Int) : Nat × Nat :=
  if 0 ≤ e then (num, den * powTwo e.toNat) else (num * powTwo (-e).toNat, den)

/-- The exponent at which the quotient `num / den` has a mantissa of 53 bits, or the least
exponent if that is larger. -/
def exponentOf (num den : Nat) : Int :=
  let e : Int := (num.log2 : Int) - den.log2 - 52
  let s := scaled num den e
  max (if s.1 / s.2 < powTwo 52 then e - 1 else e) (-1074)

/-- The double nearest to `num / den`, ties to the even mantissa; `none` beyond the largest. -/
def ofRatio (negative : Bool) (num den : Nat) : Option Double :=
  if num = 0 then some (zero negative)
  else
    let e := exponentOf num den
    let s := scaled num den e
    let m := roundDiv s.1 s.2
    let d : Double := if m = powTwo 53 then ⟨negative, powTwo 52, e + 1⟩ else ⟨negative, m, e⟩
    if d.mantissa = 0 then some (zero negative)
    else if d.exponent > 971 then none
    else some d

/-- The double nearest to `digits · 10 ^ power`.  Powers that put the number far above the
largest or far below the least positive double are settled without forming the power of ten. -/
def ofDecimal (negative : Bool) (digits : Nat) (power : Int) : Option Double :=
  if digits = 0 then some (zero negative)
  else
    let top : Int := (Decimal.digits digits).length + power
    if top > 400 then none
    else if top < -400 then some (zero negative)
    else if 0 ≤ power then ofRatio negative (digits * powTen power.toNat) 1
    else ofRatio negative digits (powTen (-power).toNat)

/-- The double nearest to an integer. -/
def ofInt (i : Int) : Option Double := ofRatio (i < 0) i.natAbs 1

/-- The signed mantissa of `d` at an exponent no larger than its own. -/
def scaledTo (d : Double) (e : Int) : Int :=
  let m : Int := d.mantissa * powTwo (d.exponent - e).toNat
  if d.negative then -m else m

/-- Equality of values: the two zeros are the same. -/
def same (a b : Double) : Bool :=
  let e := min a.exponent b.exponent
  a.scaledTo e = b.scaledTo e

/-- Order of values. -/
def less (a b : Double) : Bool :=
  let e := min a.exponent b.exponent
  a.scaledTo e < b.scaledTo e

end Double

end PatternPlan
