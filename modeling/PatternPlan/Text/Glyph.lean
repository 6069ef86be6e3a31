/-!
# Source text that may hold stray bytes

A source file is a byte string.  Reading it from the left, either a whole UTF-8 character starts
at a position or the byte there belongs to none.

* `Glyph` — one character, or one byte that starts no character;
* `Text` — a list of glyphs, with `Text.ofBytes`, `Text.bytes` and `Text.width` (in bytes);
* `Glyph.shown` — what a reader sees: a stray byte is shown as U+FFFD;
* `isWhiteSpace` — the white space of Unicode: the controls that move the cursor, and the separators;
* `Text.trim` — a text without the white space at its two ends; a stray byte is none.

`Text.length` counts characters, `Text.width` counts bytes: columns use the first, offsets the
second.
-/

namespace PatternPlan

/-- One step of reading a byte string: a character, or a byte that starts none. -/
inductive Glyph where
  | char (c : Char)
  | stray (b : UInt8)
deriving DecidableEq, Inhabited

/-- A byte string, cut into the glyphs it is read as. -/
abbrev Text := List Glyph

namespace Glyph

/-- The character shown in place of a byte that is part of no character. -/
def replacement : Char := '\uFFFD'

/-- The character a reader sees. -/
def shown : Glyph → Char
  | .char c => c
  | .stray _ => replacement

/-- The bytes the glyph stands for. -/
def bytes : Glyph → List UInt8
  | .char c => String.utf8EncodeChar c
  | .stray b => [b]

/-- The number of bytes the glyph takes. -/
def width : Glyph → Nat
  | .char c => c.utf8Size
  | .stray _ => 1

end Glyph

/-! ### Reading bytes -/

namespace Utf8

/-- A continuation byte. -/
def isTail (b : UInt8) : Bool := 0x80 ≤ b && b ≤ 0xBF

/-- The low six bits of a continuation byte. -/
def payload (b : UInt8) : Nat := b.toNat % 64

/-- The second bytes allowed after a first byte: no overlong forms, no surrogates, nothing above
U+10FFFF. -/
def secondAllowed (first second : UInt8) : Bool :=
  if first = 0xE0 then 0xA0 ≤ second && second ≤ 0xBF
  else if first = 0xED then 0x80 ≤ second && second ≤ 0x9F
  else if first = 0xF0 then 0x90 ≤ second && second ≤ 0xBF
  else if first = 0xF4 then 0x80 ≤ second && second ≤ 0x8F
  else isTail second

/-- The first glyph of a non-empty byte string, and how many bytes after the first it takes. -/
def first (b : UInt8) (rest : List UInt8) : Glyph × Nat :=
  if b < 0x80 then (.char (Char.ofNat b.toNat), 0)
  else if 0xC2 ≤ b && b ≤ 0xDF then
    match rest with
    | b1 :: _ =>
      if isTail b1 then (.char (Char.ofNat ((b.toNat % 32) * 64 + payload b1)), 1)
      else (.stray b, 0)
    | [] => (.stray b, 0)
  else if 0xE0 ≤ b && b ≤ 0xEF then
    match rest with
    | b1 :: b2 :: _ =>
      if secondAllowed b b1 && isTail b2 then
        (.char (Char.ofNat ((b.toNat % 16) * 4096 + payload b1 * 64 + payload b2)), 2)
      else (.stray b, 0)
    | _ => (.stray b, 0)
  else if 0xF0 ≤ b && b ≤ 0xF4 then
    match rest with
    | b1 :: b2 :: b3 :: _ =>
      if secondAllowed b b1 && isTail b2 && isTail b3 then
        (.char (Char.ofNat
          ((b.toNat % 8) * 262144 + payload b1 * 4096 + payload b2 * 64 + payload b3)), 3)
      else (.stray b, 0)
    | _ => (.stray b, 0)
  else (.stray b, 0)

end Utf8

namespace Text

/-- Reads a byte string from the left. -/
def ofBytes : List UInt8 → Text
  | [] => []
  | b :: rest =>
    let g := Utf8.first b rest
    g.1 :: ofBytes (rest.drop g.2)
termination_by bs => bs.length
decreasing_by simp only [List.length_drop, List.length_cons]; omega

/-- A text without stray bytes. -/
def ofString (s : String) : Text := s.toList.map .char

/-- The bytes of a text. -/
def bytes (t : Text) : List UInt8 := t.flatMap Glyph.bytes

/-- The length of a text in bytes. -/
def width : Text → Nat
  | [] => 0
  | g :: rest => g.width + width rest

/-- The characters a reader sees. -/
def chars (t : Text) : List Char := t.map Glyph.shown

/-- The text as a reader sees it, each stray byte shown as U+FFFD. -/
def shown (t : Text) : String := String.ofList t.chars

@[simp] theorem width_nil : width [] = 0 := rfl

@[simp] theorem width_cons (g : Glyph) (t : Text) : width (g :: t) = g.width + width t := rfl

theorem width_append (s t : Text) : width (s ++ t) = width s + width t := by
  induction s with
  | nil => simp
  | cons g s ih => simp [ih, Nat.add_assoc]

end Text

/-! ### White space -/

/-- White space. -/
def isWhiteSpace (c : Char) : Bool :=
  let n := c.toNat
  (0x09 ≤ n && n ≤ 0x0D) || n = 0x20 || n = 0x85 || n = 0xA0 || n = 0x1680
    || (0x2000 ≤ n && n ≤ 0x200A) || n = 0x2028 || n = 0x2029 || n = 0x202F || n = 0x205F
    || n = 0x3000

/-- White space that is not a stray byte. -/
def Glyph.isWhiteSpace : Glyph → Bool
  | .char c => PatternPlan.isWhiteSpace c
  | .stray _ => false

namespace Text

/-- The text without the white space at its two ends. -/
def trim (t : Text) : Text :=
  ((t.dropWhile Glyph.isWhiteSpace).reverse.dropWhile Glyph.isWhiteSpace).reverse

end Text

end PatternPlan
