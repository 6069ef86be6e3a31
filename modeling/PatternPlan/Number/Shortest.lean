import PatternPlan.Number.Double

/-!
# The shortest decimal of a double

* `Scientific` — `digits · 10 ^ power` with a natural `digits`;
* `Double.shortest` — among the decimals with the fewest digits that round to the double, the one
  nearest to it, a tie going to the even last digit;
* `DoubleStyle` — where positional notation ends and how long an exponent is written;
* `Double.render` — a double in a style; `Double.positional` — always without an exponent.
-/

namespace PatternPlan

/-- The decimal `digits · 10 ^ power`. -/
structure Scientific where
  digits : Nat
  power : Int
deriving DecidableEq

namespace Scientific

/-- Moves trailing zeros of the digits into the power. -/
def trim : (fuel : Nat) → Scientific → Scientific
  | 0, s => s
  | fuel + 1, s =>
    if s.digits ≠ 0 && s.digits % 10 = 0 then trim fuel ⟨s.digits / 10, s.power + 1⟩ else s

end Scientific

namespace Double

/-- The least `k ≤ start + fuel` from `start` on with `num / den < 10 ^ k`. -/
def leadingPower (num den : Nat) : (fuel : Nat) → (k : Int) → Int
  | 0, k => k
  | fuel + 1, k =>
    let below : Bool :=
      if 0 ≤ k then num < den * powTen k.toNat else num * powTen (-k).toNat < den
    if below then k else leadingPower num den fuel (k + 1)

/-- `num / den` divided by `10 ^ p`, as a numerator and a denominator. -/
def scaledTen (num den : Nat) (p : Int) : Nat × Nat :=
  if 0 ≤ p then (num, den * powTen p.toNat) else (num * powTen (-p).toNat, den)

/-- The candidate of the grid `10 ^ p` for the number `4 · m` in an interval from `4 · m - down`
to `4 · m + 2` quarter units, the ends included if `closed`.  A unit is `num / den`. -/
def onGrid (m down : Nat) (closed : Bool) (num den : Nat) (p : Int) : Option Nat :=
  let s := scaledTen num den p
  -- the number is `4 * m * s.1 / s.2` grid steps
  let v := 4 * m * s.1
  let f := v / s.2
  let lo := (4 * m - down) * s.1
  let hi := (4 * m + 2) * s.1
  let inside (x : Nat) : Bool :=
    if closed then lo ≤ x * s.2 && x * s.2 ≤ hi else lo < x * s.2 && x * s.2 < hi
  let r := v - f * s.2
  match inside f, inside (f + 1) with
  | true, true =>
    if 2 * r < s.2 then some f
    else if s.2 < 2 * r then some (f + 1)
    else if f % 2 = 0 then some f else some (f + 1)
  | true, false => some f
  | false, true => some (f + 1)
  | false, false => none

/-- The first grid, from coarse to fine, that holds a decimal rounding to the double. -/
def firstGrid (m down : Nat) (closed : Bool) (num den : Nat) : (fuel : Nat) → (p : Int) → Scientific
  | 0, p => ⟨0, p⟩
  | fuel + 1, p =>
    match onGrid m down closed num den p with
    | some d => ⟨d, p⟩
    | none => firstGrid m down closed num den fuel (p - 1)

/-- The nearest of the decimals with the fewest digits that round to `d` (its sign aside). -/
def shortest (d : Double) : Scientific :=
  if d.mantissa = 0 then ⟨0, 0⟩
  else
    -- lengths are measured in quarters of a unit in the last place
    let q := d.exponent - 2
    let num := if 0 ≤ q then powTwo q.toNat else 1
    let den := if 0 ≤ q then 1 else powTwo (-q).toNat
    let down := if d.mantissa = powTwo 52 && d.exponent > -1074 then 1 else 2
    let k := leadingPower (4 * d.mantissa * num) den 700 (-330)
    Scientific.trim 20 (firstGrid d.mantissa down (d.mantissa % 2 = 0) num den 20 (k - 1))

end Double

/-- How a double is written: positional when the decimal exponent `x` of its first digit satisfies
`plainFrom ≤ x < plainBelow`, otherwise with an exponent of at least `exponentDigits` digits. -/
structure DoubleStyle where
  plainFrom : Int
  plainBelow : Int
  exponentDigits : Nat

namespace Scientific

/-- The exponent of the first digit. -/
def leading (s : Scientific) : Int := (Decimal.digits s.digits).length + s.power - 1

/-- Positional notation. -/
def positional (s : Scientific) : List Char :=
  let ds := Decimal.digits s.digits
  if 0 ≤ s.power then
    if s.digits = 0 then ['0'] else ds ++ List.replicate s.power.toNat '0'
  else
    let places := (-s.power).toNat
    if places < ds.length then
      ds.take (ds.length - places) ++ '.' :: ds.drop (ds.length - places)
    else '0' :: '.' :: (List.replicate (places - ds.length) '0' ++ ds)

/-- One digit before the point and a signed exponent of at least `width` digits. -/
def withExponent (width : Nat) (s : Scientific) : List Char :=
  let mantissa := match Decimal.digits s.digits with
    | [] => []
    | [d] => [d]
    | d :: ds => d :: '.' :: ds
  let x := Decimal.digits s.leading.natAbs
  mantissa ++ 'e' :: (if s.leading < 0 then '-' else '+') ::
    (List.replicate (width - x.length) '0' ++ x)

end Scientific

namespace Double

/-- The sign in front of a number. -/
def sign (d : Double) : List Char := if d.negative then ['-'] else []

/-- `d` with the fewest digits that read back, without an exponent. -/
def positional (d : Double) : String := String.ofList (d.sign ++ d.shortest.positional)

/-- `d` with the fewest digits that read back, in the given style. -/
def render (style : DoubleStyle) (d : Double) : String :=
  let s := d.shortest
  if d.isZero || (style.plainFrom ≤ s.leading && s.leading < style.plainBelow) then
    String.ofList (d.sign ++ s.positional)
  else String.ofList (d.sign ++ s.withExponent style.exponentDigits)

end Double

end PatternPlan
