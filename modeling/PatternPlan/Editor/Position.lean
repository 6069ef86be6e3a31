/-!
# Places in a document

An editor counts lines from 0 and, in a line, bytes from 0.

* `Position`, `Range` — a place, and the text between two places;
* `Position.offset` — the offset of a place in a content: a place past the end of its line is the
  end of the line, one past the last line the end of the content;
* `Position.ofOffset` — the place of an offset;
* `Position.atEnd` — the place behind the whole content.
-/

namespace PatternPlan

namespace Editor

/-- A line and a byte in it, both counted from 0. -/
structure Position where
  line : Int := 0
  character : Int := 0
deriving DecidableEq

/-- The text between two places. -/
structure Range where
  start : Position := {}
  stop : Position := {}
deriving DecidableEq

/-- The byte that ends a line. -/
def newline : UInt8 := 10

/-- The bytes up to the end of the first line. -/
def firstLine (content : List UInt8) : List UInt8 := content.takeWhile (· ≠ newline)

/-- The bytes from the end of the first line on. -/
def fromBreak (content : List UInt8) : List UInt8 := content.dropWhile (· ≠ newline)

/-- What follows the first `n` lines, with its offset; `none` if there are not more than `n`
lines. -/
def skipLines : (n : Nat) → List UInt8 → Option (Nat × List UInt8)
  | 0, content => some (0, content)
  | n + 1, content =>
    match fromBreak content with
    | [] => none
    | _ :: rest =>
      (skipLines n rest).map fun r => ((firstLine content).length + 1 + r.1, r.2)

namespace Position

/-- The offset of a place. -/
def offset (content : List UInt8) (p : Position) : Int :=
  match skipLines p.line.toNat content with
  | none => content.length
  | some (start, rest) => start + min p.character (firstLine rest).length

/-- The place behind some bytes. -/
def behind (before : List UInt8) : Position where
  line := before.count newline
  character := (before.reverse.takeWhile (· ≠ newline)).length

/-- The place of an offset; one outside the content is moved to its nearer end. -/
def ofOffset (content : List UInt8) (offset : Int) : Position :=
  behind (content.take offset.toNat)

/-- The place behind the whole content. -/
def atEnd (content : List UInt8) : Position := behind content

end Position

/-- The range of a span; one that ends before it starts is empty. -/
def Range.ofSpan (content : List UInt8) (start stop : Int) : Range :=
  ⟨.ofOffset content start, .ofOffset content (max start stop)⟩

end Editor

end PatternPlan
