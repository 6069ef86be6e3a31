import PatternPlan.Text.Printable

/-!
# Quoted text in messages

How a message shows a piece of source text between double quotes, or one character between single
ones.

* `Quoted.glyph` — a printable character as it is, a control character by its short escape or
  `\xNN`, any other character by `\uNNNN` or `\UNNNNNNNN`, a stray byte by `\xNN`;
* `Text.quoted`, `quoted` — a whole text between its quotes;
* `quotedScalar` — the character of a number.
-/

namespace PatternPlan

namespace Quoted

/-- The digit `n < 16` in lower-case hexadecimal. -/
def hexDigit (n : Nat) : Char :=
  if n < 10 then Char.ofNat (48 + n) else Char.ofNat (87 + n)

/-- The lowest `k` hexadecimal digits of `n`, most significant first. -/
def hex : (k : Nat) → (n : Nat) → List Char
  | 0, _ => []
  | k + 1, n => hex k (n / 16) ++ [hexDigit (n % 16)]

/-- The escape of a character that has a letter of its own. -/
def letterEscape (c : Char) : Option Char :=
  match c.toNat with
  | 7 => some 'a'
  | 8 => some 'b'
  | 9 => some 't'
  | 10 => some 'n'
  | 11 => some 'v'
  | 12 => some 'f'
  | 13 => some 'r'
  | _ => none

/-- One character between quotes of the given kind. -/
def char (quote c : Char) : List Char :=
  if c = quote || c = '\\' then ['\\', c]
  else if isPrintable c then [c]
  else match letterEscape c with
    | some l => ['\\', l]
    | none =>
      if c.toNat < 0x20 || c.toNat = 0x7f then '\\' :: 'x' :: hex 2 c.toNat
      else if c.toNat < 0x10000 then '\\' :: 'u' :: hex 4 c.toNat
      else '\\' :: 'U' :: hex 8 c.toNat

/-- One glyph between double quotes. -/
def glyph : Glyph → List Char
  | .char c => char '"' c
  | .stray b => '\\' :: 'x' :: hex 2 b.toNat

end Quoted

/-- A text between double quotes, every glyph that is not printable escaped. -/
def Text.quoted (t : Text) : String :=
  String.ofList ('"' :: t.flatMap Quoted.glyph ++ ['"'])

/-- A string between double quotes, every character that is not printable escaped. -/
def quoted (s : String) : String := (Text.ofString s).quoted

/-- The character with a number between single quotes; a number that is no character stands for the
replacement character. -/
def quotedScalar (i : Int) : String :=
  let c := if 0 ≤ i && i.toNat.isValidChar then Char.ofNat i.toNat else '\uFFFD'
  String.ofList ('\'' :: Quoted.char '\'' c ++ ['\''])

end PatternPlan
