import PatternPlan.Json.Reader
import PatternPlan.Number.Decimal
import PatternPlan.Number.Double

/-!
# What a plain scalar stands for

* `Yaml.isTimestamp` — whether a scalar is a date, with a time of day or without one;
* `Yaml.Quantity` — a binary64 number, the infinite ones and the one that is none included;
* `Yaml.Value` — nothing, a truth value, a number, a point in time, or a text;
* `Yaml.Value.ofPlain` — the value of a plain scalar: its first character tells what it may be;
* `Yaml.Value.int?` — the whole number of 64 bits that a value stands for.
-/

namespace PatternPlan.Yaml

/-! ### Points in time

A date is a year of four digits, a month and a day; a time of day may follow it.  Behind `T` or `t`
it has a zone, and behind blanks it has none. -/

namespace Timestamp

/-- One or two digits. -/
def short? : List Char → Option (Nat × List Char)
  | c :: cs =>
    if !Decimal.isDigit c then none
    else match cs with
      | d :: rest =>
        if Decimal.isDigit d then some (Decimal.value [c, d], rest)
        else some (Decimal.value [c], cs)
      | [] => some (Decimal.value [c], [])
  | [] => none

/-- What follows a character. -/
def after? (c : Char) : List Char → Option (List Char)
  | d :: rest => if d = c then some rest else none
  | [] => none

def isLeap (year : Nat) : Bool := year % 4 = 0 && (year % 100 ≠ 0 || year % 400 = 0)

/-- The number of days of a month. -/
def days (year month : Nat) : Nat :=
  if month = 2 then (if isLeap year then 29 else 28)
  else if month ∈ [4, 6, 9, 11] then 30
  else 31

/-- What follows a date. -/
def date? (cs : List Char) : Option (List Char) := do
  let year := cs.takeWhile Decimal.isDigit
  guard (year.length = 4)
  let rest ← after? '-' (cs.drop 4)
  let (month, rest) ← short? rest
  let rest ← after? '-' rest
  let (day, rest) ← short? rest
  guard (1 ≤ month && month ≤ 12 && 1 ≤ day && day ≤ days (Decimal.value year) month)
  return rest

/-- Drops a point or comma with the digits behind it. -/
def dropFraction (cs : List Char) : List Char :=
  match cs with
  | p :: d :: rest =>
    if (p = '.' || p = ',') && Decimal.isDigit d then rest.dropWhile Decimal.isDigit else cs
  | _ => cs

/-- What follows a time of day. -/
def time? (cs : List Char) : Option (List Char) := do
  let (hour, rest) ← short? cs
  let rest ← after? ':' rest
  let (minute, rest) ← short? rest
  let rest ← after? ':' rest
  let (second, rest) ← short? rest
  guard (hour < 24 && minute < 60 && second < 60)
  return dropFraction rest

/-- Whether a text is a zone: `Z`, or a sign with two digits for hours and two for minutes. -/
def isZone : List Char → Bool
  | ['Z'] => true
  | [sign, a, b, ':', c, d] =>
    (sign = '+' || sign = '-') && [a, b, c, d].all Decimal.isDigit
      && Decimal.value [a, b] ≤ 24 && Decimal.value [c, d] ≤ 60
  | _ => false

/-- Whether what follows a date makes it a point in time. -/
def isTimeOfDay : List Char → Bool
  | [] => true
  | c :: cs =>
    if c = 'T' || c = 't' then ((time? cs).map isZone).getD false
    else c = ' ' && ((time? (cs.dropWhile (· = ' '))).map List.isEmpty).getD false

end Timestamp

/-- Whether a scalar is a date, with a time of day or without one. -/
def isTimestamp (s : String) : Bool :=
  ((Timestamp.date? s.toList).map Timestamp.isTimeOfDay).getD false

/-! ### Values -/

/-- A binary64 number. -/
inductive Quantity where
  | finite (d : Double)
  | infinite (negative : Bool)
  | undefined
deriving DecidableEq

/-- What a plain scalar stands for.  The key of a merge is a text with a tag of its own. -/
inductive Value where
  | null
  | bool (b : Bool)
  | int (i : Int)
  | float (q : Quantity)
  | timestamp
  | merge
  | text (s : String)
deriving DecidableEq

namespace Value

/-- The tag of a value. -/
def tag : Value → String
  | null => "!!null"
  | bool _ => "!!bool"
  | int _ => "!!int"
  | float _ => "!!float"
  | timestamp => "!!timestamp"
  | merge => "!!merge"
  | text _ => "!!str"

/-- The plain scalars with a meaning of their own. -/
def words : List (String × Value) :=
  [("", .null), ("~", .null), ("null", .null), ("Null", .null), ("NULL", .null),
   ("true", .bool true), ("True", .bool true), ("TRUE", .bool true),
   ("false", .bool false), ("False", .bool false), ("FALSE", .bool false),
   (".nan", .float .undefined), (".NaN", .float .undefined), (".NAN", .float .undefined),
   (".inf", .float (.infinite false)), (".Inf", .float (.infinite false)),
   (".INF", .float (.infinite false)), ("+.inf", .float (.infinite false)),
   ("+.Inf", .float (.infinite false)), ("+.INF", .float (.infinite false)),
   ("-.inf", .float (.infinite true)), ("-.Inf", .float (.infinite true)),
   ("-.INF", .float (.infinite true)), ("<<", .merge)]

/-! ### Whole numbers -/

/-- Splits off a sign. -/
def splitSign : List Char → Option Bool × List Char
  | '-' :: cs => (some true, cs)
  | '+' :: cs => (some false, cs)
  | cs => (none, cs)

/-- The value of digits in a base. -/
def digitsIn? (base : Nat) (cs : List Char) : Option Nat :=
  if cs.isEmpty then none
  else cs.foldlM (fun v c => (Json.hexValue? c).bind fun d =>
    if d < base then some (v * base + d) else none) 0

/-- A whole number without a sign: decimal, or in the base that its first characters name. -/
def natural? : List Char → Option Nat
  | '0' :: c :: cs =>
    if c = 'x' || c = 'X' then digitsIn? 16 cs
    else if c = 'o' || c = 'O' then digitsIn? 8 cs
    else if c = 'b' || c = 'B' then digitsIn? 2 cs
    else digitsIn? 8 (c :: cs)
  | cs => digitsIn? 10 cs

/-- A number of 64 bits, without a sign if none is given. -/
def signed? (sign : Option Bool) (n : Nat) : Option Int :=
  let i : Int := if sign = some true then -(n : Int) else n
  if fitsInt64 i || (sign.isNone && n < powTwo 64) then some i else none

/-- A whole number of 64 bits, read by `read` behind its sign. -/
def integer? (read : List Char → Option Nat) (cs : List Char) : Option Int :=
  let (sign, digits) := splitSign cs
  (read digits).bind (signed? sign)

/-- A whole number whose base is named in front of its sign. -/
def basedInteger? : List Char → Option Int
  | '0' :: 'b' :: cs => integer? (digitsIn? 2) cs
  | '0' :: 'o' :: cs => integer? (digitsIn? 8) cs
  | '-' :: '0' :: 'b' :: cs => (digitsIn? 2 cs).bind (signed? (some true))
  | '-' :: '0' :: 'o' :: cs => (digitsIn? 8 cs).bind (signed? (some true))
  | _ => none

/-! ### Decimal numbers -/

/-- A mark before an exponent. -/
def isExponentMark (c : Char) : Bool := c = 'e' || c = 'E'

/-- The exponent of a decimal number, with its mark; none is zero. -/
def exponent? : List Char → Option Int
  | [] => some 0
  | _ :: cs =>
    let (sign, digits) := splitSign cs
    if digits.isEmpty || !digits.all Decimal.isDigit then none
    else some (if sign = some true then -(Decimal.value digits : Int) else Decimal.value digits)

/-- A decimal number: digits with a point among or in front of them, and an exponent. -/
def decimal? (cs : List Char) : Option Double := do
  let (sign, body) := splitSign cs
  let mantissa := body.takeWhile fun c => !isExponentMark c
  let e ← exponent? (body.drop mantissa.length)
  let whole := mantissa.takeWhile (· ≠ '.')
  let fraction := (mantissa.drop whole.length).drop 1
  if (whole ++ fraction).isEmpty || !(whole ++ fraction).all Decimal.isDigit then none
  else Double.ofDecimal (sign = some true) (Decimal.value (whole ++ fraction)) (e - fraction.length)

/-! ### Scalars -/

/-- A scalar that starts with a digit or a sign; underscores do not count. -/
def ofNumber (s : String) : Value :=
  let cs := s.toList.filter (· ≠ '_')
  if isTimestamp s then .timestamp
  else match (integer? natural? cs).map .int with
  | some v => v
  | none =>
    match decimal? cs with
    | some d => .float (.finite d)
    | none => ((basedInteger? cs).map .int).getD (.text s)

/-- The value of a plain scalar. -/
def ofPlain (s : String) : Value :=
  match words.lookup s with
  | some v => v
  | none =>
    match s.toList with
    | '.' :: cs => ((decimal? ('.' :: cs)).map fun d => .float (.finite d)).getD (.text s)
    | c :: _ => if c = '+' || c = '-' || Decimal.isDigit c then ofNumber s else .text s
    | [] => .null

/-- The whole part of a finite number, cut off toward zero. -/
def truncated (d : Double) : Int :=
  let n := if 0 ≤ d.exponent then d.mantissa * powTwo d.exponent.toNat
    else d.mantissa / powTwo (-d.exponent).toNat
  if d.negative then -(n : Int) else n

/-- The least whole number of 64 bits. -/
def leastInt : Int := -9223372036854775808

/-- The whole number of 64 bits that a value stands for.  A fraction is cut off, and a number below
the least one, or one that is its negation, becomes the least one. -/
def int? : Value → Option Int
  | int i => if fitsInt64 i then some i else none
  | float (.finite d) =>
    let i := truncated d
    if -leastInt < i then none else some (if fitsInt64 i then i else leastInt)
  | float (.infinite true) => some leastInt
  | _ => none

end Value

end PatternPlan.Yaml
