import PatternPlan.Json.Value

/-!
# Reading JSON

* `Json.scan` — the first value of a text and what follows it;
* `Json.read?` — the value of a text that holds one value and blanks only;
* `Json.readFirst?` — the first value, whatever follows.

Arrays and objects nest at most `Json.maxNesting` deep.  An unpaired surrogate escape stands for
U+FFFD.
-/

namespace PatternPlan

namespace Json

/-- The four blanks of JSON. -/
def isSpace (c : Char) : Bool := c = ' ' || c = '\t' || c = '\n' || c = '\r'

/-- What follows the blanks. -/
def skipSpace (cs : List Char) : List Char := cs.dropWhile isSpace

/-- The value of a hexadecimal digit. -/
def hexValue? (c : Char) : Option Nat :=
  if '0' ≤ c && c ≤ '9' then some (c.toNat - 48)
  else if 'a' ≤ c && c ≤ 'f' then some (c.toNat - 87)
  else if 'A' ≤ c && c ≤ 'F' then some (c.toNat - 55)
  else none

/-- The four hexadecimal digits in front of a text. -/
def hex4? : List Char → Option (Nat × List Char)
  | a :: b :: c :: d :: rest => do
    let a ← hexValue? a
    let b ← hexValue? b
    let c ← hexValue? c
    let d ← hexValue? d
    some (a * 4096 + b * 256 + c * 16 + d, rest)
  | _ => none

/-- The character of a UTF-16 unit that stands alone. -/
def ofUnit (u : Nat) : Char :=
  if 0xD800 ≤ u && u < 0xE000 then '\uFFFD' else Char.ofNat u

/-- The second half of a surrogate pair, if one follows as an escape. -/
def lowHalf? : List Char → Option (Nat × List Char)
  | '\\' :: 'u' :: rest =>
    match hex4? rest with
    | some (u, rest) => if 0xDC00 ≤ u && u < 0xE000 then some (u, rest) else none
    | none => none
  | _ => none

/-- The character of an escape whose `\u` has been read. -/
def unicodeEscape? (cs : List Char) : Option (Char × List Char) :=
  match hex4? cs with
  | none => none
  | some (u, rest) =>
    if 0xD800 ≤ u && u < 0xDC00 then
      match lowHalf? rest with
      | some (l, rest') => some (Char.ofNat (0x10000 + (u - 0xD800) * 1024 + (l - 0xDC00)), rest')
      | none => some ('\uFFFD', rest)
    else some (ofUnit u, rest)

/-- The character of a one-letter escape. -/
def letterEscape? (c : Char) : Option Char :=
  match c with
  | '"' => some '"'
  | '\\' => some '\\'
  | '/' => some '/'
  | 'b' => some '\x08'
  | 'f' => some '\x0c'
  | 'n' => some '\n'
  | 'r' => some '\r'
  | 't' => some '\t'
  | _ => none

/-- The raw inside of a string up to its closing quote, escapes left as they are, and what
follows the quote. -/
def rawString : List Char → Option (List Char × List Char)
  | [] => none
  | '"' :: rest => some ([], rest)
  | '\\' :: c :: rest => (rawString rest).map fun r => ('\\' :: c :: r.1, r.2)
  | c :: rest =>
    if c.toNat < 0x20 then none else (rawString rest).map fun r => (c :: r.1, r.2)

/-- The characters that the raw inside of a string stands for. -/
def unescape? : (fuel : Nat) → List Char → Option (List Char)
  | _, [] => some []
  | 0, _ => none
  | fuel + 1, '\\' :: 'u' :: rest => do
    let (c, rest) ← unicodeEscape? rest
    let cs ← unescape? fuel rest
    some (c :: cs)
  | fuel + 1, '\\' :: e :: rest => do
    let c ← letterEscape? e
    let cs ← unescape? fuel rest
    some (c :: cs)
  | fuel + 1, c :: rest => (unescape? fuel rest).map (c :: ·)

/-- The rest of a string after its opening quote. -/
def scanString (cs : List Char) : Option (String × List Char) := do
  let (raw, rest) ← rawString cs
  let inside ← unescape? raw.length raw
  some (String.ofList inside, rest)

/-- A run of digits, at least one. -/
def scanDigits (cs : List Char) : Option (List Char × List Char) :=
  match cs.takeWhile Decimal.isDigit with
  | [] => none
  | ds => some (ds, cs.dropWhile Decimal.isDigit)

/-- The whole part of a number: no leading zero. -/
def scanWhole : List Char → Option (List Char × List Char)
  | '0' :: rest => some (['0'], rest)
  | cs => scanDigits cs

/-- The fraction of a number, if there is one. -/
def scanFraction : List Char → Option (List Char × List Char)
  | '.' :: rest => (scanDigits rest).map fun r => ('.' :: r.1, r.2)
  | cs => some ([], cs)

/-- The exponent of a number, if there is one. -/
def scanExponent : List Char → Option (List Char × List Char)
  | c :: rest =>
    if c = 'e' || c = 'E' then
      match rest with
      | '+' :: rest => (scanDigits rest).map fun r => (c :: '+' :: r.1, r.2)
      | '-' :: rest => (scanDigits rest).map fun r => (c :: '-' :: r.1, r.2)
      | rest => (scanDigits rest).map fun r => (c :: r.1, r.2)
    else some ([], c :: rest)
  | [] => some ([], [])

/-- A number. -/
def scanNumber (cs : List Char) : Option (String × List Char) := do
  let (sign, cs) := match cs with
    | '-' :: rest => (['-'], rest)
    | cs => ([], cs)
  let (whole, cs) ← scanWhole cs
  let (fraction, cs) ← scanFraction cs
  let (exponent, cs) ← scanExponent cs
  some (String.ofList (sign ++ whole ++ fraction ++ exponent), cs)

/-- The items of an array after the first blank-skipped position, up to the closing bracket. -/
def scanItems (value : List Char → Option (Json × List Char)) :
    (fuel : Nat) → List Char → Option (List Json × List Char)
  | 0, _ => none
  | fuel + 1, cs => do
    let (v, rest) ← value cs
    match skipSpace rest with
    | ',' :: rest => do
      let (vs, rest) ← scanItems value fuel rest
      some (v :: vs, rest)
    | ']' :: rest => some ([v], rest)
    | _ => none

/-- The fields of an object up to the closing brace. -/
def scanFields (value : List Char → Option (Json × List Char)) :
    (fuel : Nat) → List Char → Option (List (String × Json) × List Char)
  | 0, _ => none
  | fuel + 1, cs =>
    match skipSpace cs with
    | '"' :: rest => do
      let (key, rest) ← scanString rest
      match skipSpace rest with
      | ':' :: rest => do
        let (v, rest) ← value rest
        match skipSpace rest with
        | ',' :: rest => do
          let (fs, rest) ← scanFields value fuel rest
          some ((key, v) :: fs, rest)
        | '\x7d' :: rest => some ([(key, v)], rest)
        | _ => none
      | _ => none
    | _ => none

/-- The first value of a text, with at most `room` levels of nesting and `size` items in each
array or object. -/
def scan (size : Nat) : (room : Nat) → List Char → Option (Json × List Char)
  | room, cs =>
    match skipSpace cs with
    | 'n' :: 'u' :: 'l' :: 'l' :: rest => some (.null, rest)
    | 't' :: 'r' :: 'u' :: 'e' :: rest => some (.bool true, rest)
    | 'f' :: 'a' :: 'l' :: 's' :: 'e' :: rest => some (.bool false, rest)
    | '"' :: rest =>
      (scanString rest).map fun r => (.text r.1, r.2)
    | '[' :: rest =>
      match room with
      | 0 => none
      | room + 1 =>
        match skipSpace rest with
        | ']' :: rest => some (.array [], rest)
        | _ => (scanItems (scan size room) size rest).map fun r => (.array r.1, r.2)
    | '\x7b' :: rest =>
      match room with
      | 0 => none
      | room + 1 =>
        match skipSpace rest with
        | '\x7d' :: rest => some (.object [], rest)
        | _ => (scanFields (scan size room) size rest).map fun r => (.object r.1, r.2)
    | cs => (scanNumber cs).map fun r => (.number r.1, r.2)

/-- The first value of a text and what follows it: no array or object has more items than the
text has characters. -/
def scanText (cs : List Char) : Option (Json × List Char) := scan (cs.length + 1) maxNesting cs

/-- The first value of a text, whatever follows it. -/
def readFirst? (s : String) : Option Json := (scanText s.toList).map (·.1)

/-- The value of a text that holds nothing else. -/
def read? (s : String) : Option Json :=
  match scanText s.toList with
  | some (v, rest) => if (skipSpace rest).isEmpty then some v else none
  | none => none

/-! ### Numerals -/

/-- The integer a numeral without fraction and exponent stands for. -/
def intOfNumeral? (numeral : String) : Option Int :=
  match numeral.toList with
  | '-' :: ds => if ds.all Decimal.isDigit then some (-(Decimal.value ds : Int)) else none
  | ds => if ds.all Decimal.isDigit then some (Decimal.value ds) else none

/-- The signed exponent after its mark. -/
def exponentValue : List Char → Int
  | '-' :: ds => -(Decimal.value ds : Int)
  | '+' :: ds => Decimal.value ds
  | ds => Decimal.value ds

/-- The double nearest to a numeral; `none` when it is too large. -/
def doubleOfNumeral? (numeral : String) : Option Double :=
  let (negative, cs) : Bool × List Char := match numeral.toList with
    | '-' :: rest => (true, rest)
    | cs => (false, cs)
  let isMark (c : Char) : Bool := c = 'e' || c = 'E'
  let mantissa := cs.takeWhile fun c => !isMark c
  let exponent := exponentValue ((cs.dropWhile fun c => !isMark c).drop 1)
  let whole := mantissa.takeWhile (· ≠ '.')
  let fraction := (mantissa.dropWhile (· ≠ '.')).drop 1
  Double.ofDecimal negative (Decimal.value (whole ++ fraction)) (exponent - fraction.length)

end Json

end PatternPlan
