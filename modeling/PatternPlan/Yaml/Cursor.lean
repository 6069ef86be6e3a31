import PatternPlan.Number.Decimal

/-!
# The characters of a text

A text is read in blocks, and a block is read when one of its characters is first looked at; a block
that holds a control character cannot be read.  The end of a text reads as NUL, which no text holds.

* `Problem`, `Error` — what keeps a text from being read, and the line it is reported at;
* `Cursor` — what is left of a text, the place it starts at, and the blocks still to be read;
* `Cursor.ofString` — the start of a text, behind its mark of byte order;
* `Cursor.need` — makes sure that some characters are read;
* `Cursor.skip`, `Cursor.skipBreak`, `Cursor.breakText` — moving on;
* `Cursor.lineComment`, `Cursor.toToken` — moving past blanks and comments.
-/

namespace PatternPlan.Yaml

/-! ### Problems

A problem has two places: where the construct began, and where it went wrong.  It is reported at the
first of them that is not on the first line.  Problems of characters count lines from one; problems
of structure name the line before. -/

/-- What may be wrong with a text. -/
inductive Problem where
  | control | cannotStart | missingColon | entryPlace | keyPlace | valuePlace | tabIndentation
  | documentMark | endOfText | unknownEscape | hexEscape | invalidEscape | depth
  | nodeContent | expectedKey | expectedEntry | expectedBracket | expectedBrace
deriving DecidableEq

def Problem.text : Problem → String
  | control => "control characters are not allowed"
  | cannotStart => "found character that cannot start any token"
  | missingColon => "could not find expected ':'"
  | entryPlace => "block sequence entries are not allowed in this context"
  | keyPlace => "mapping keys are not allowed in this context"
  | valuePlace => "mapping values are not allowed in this context"
  | tabIndentation => "found a tab character that violates indentation"
  | documentMark => "found unexpected document indicator"
  | endOfText => "found unexpected end of stream"
  | unknownEscape => "found unknown escape character"
  | hexEscape => "did not find expected hexdecimal number"
  | invalidEscape => "found invalid Unicode character escape code"
  | depth => "exceeded max depth of 10000"
  | nodeContent => "did not find expected node content"
  | expectedKey => "did not find expected key"
  | expectedEntry => "did not find expected '-' indicator"
  | expectedBracket => "did not find expected ',' or ']'"
  | expectedBrace => "did not find expected ',' or '\x7d'"

/-- A problem, and the line it is reported at if there is one. -/
structure Error where
  problem : Problem
  line : Option Nat := none

namespace Error

/-- A problem of characters: the construct began on line `start`, and the problem is on line
`here`, both counted from zero. -/
def ofChars (problem : Problem) (start here : Nat) : Error :=
  ⟨problem, if start ≠ 0 then some (start + 1) else if here ≠ 0 then some (here + 1) else none⟩

/-- A problem of structure: the construct began on line `start`, and the problem is on line
`here`, both counted from zero. -/
def ofTokens (problem : Problem) (start here : Nat) : Error :=
  ⟨problem, if start ≠ 0 then some start else if here ≠ 0 then some here else none⟩

def message (e : Error) : String :=
  match e.line with
  | some n => "yaml: line " ++ decimal n ++ ": " ++ e.problem.text
  | none => "yaml: " ++ e.problem.text

end Error

/-! ### Characters -/

/-- What the end of a text reads as. -/
def nul : Char := '\x00'

/-- The mark of byte order. -/
def byteOrderMark : Char := '\uFEFF'

def isBlank (c : Char) : Bool := c = ' ' || c = '\t'

def isBreak (c : Char) : Bool :=
  c = '\n' || c = '\r' || c = '\u0085' || c = '\u2028' || c = '\u2029'

/-- The end of a line, or of the text. -/
def endsLine (c : Char) : Bool := isBreak c || c = nul

/-- A blank, or the end of a line or of the text. -/
def endsWord (c : Char) : Bool := isBlank c || endsLine c

/-- A character that may stand in a text. -/
def isAllowed (c : Char) : Bool :=
  let n := c.toNat
  n = 0x09 || n = 0x0A || n = 0x0D || (0x20 ≤ n && n ≤ 0x7E) || n = 0x85
    || (0xA0 ≤ n && n ≤ 0xFFFD) || 0x10000 ≤ n

/-! ### Blocks -/

/-- A block: the index behind its last character, and whether it can be read. -/
structure Block where
  stop : Nat
  readable : Bool

/-- How many bytes a block holds at most. -/
def blockSize : Nat := 512

/-- The blocks of a text, each as long as possible; the first holds `used` bytes already. -/
def blocks : (used : Nat) → (readable : Bool) → (index : Nat) → List Char → List Block
  | _, readable, index, [] => [⟨index, readable⟩]
  | used, readable, index, c :: cs =>
    if used + c.utf8Size ≤ blockSize then
      blocks (used + c.utf8Size) (readable && isAllowed c) (index + 1) cs
    else ⟨index, readable⟩ :: blocks c.utf8Size (isAllowed c) (index + 1) cs

/-- Reads blocks until the character before `target` is there, or else the NUL behind the text;
the result is what is still to be read, and the index behind what was. -/
def load (target : Nat) : List Block → (loaded : Nat) → Option (List Block × Nat)
  | [], loaded => some ([], loaded + 1)
  | b :: bs, _ =>
    if !b.readable then none
    else if target ≤ b.stop then some (bs, b.stop)
    else load target bs b.stop

/-! ### Cursors -/

/-- What is left of a text.  `index` counts all characters before it, `breaks` the line breaks since
the last character that was not blank.  `marked` tells whether the characters in memory, which start
where a block was last asked for, start with a mark of byte order.  `room` bounds the number of steps
that move on. -/
structure Cursor where
  rest : List Char
  room : Nat
  index : Nat := 0
  line : Nat := 0
  column : Nat := 0
  breaks : Nat := 0
  pending : List Block := []
  loaded : Nat := 0
  marked : Bool := false

namespace Cursor

/-- The start of a text. -/
def ofString (s : String) : Cursor :=
  match s.toList with
  | [] => { rest := ['\n'], room := 2, pending := blocks 0 true 0 ['\n'] }
  | c :: cs =>
    let room := cs.length + 2
    if c = byteOrderMark then { rest := cs, room, pending := blocks c.utf8Size true 0 cs }
    else { rest := c :: cs, room, pending := blocks 0 true 0 (c :: cs) }

/-- The character at a distance. -/
def peek (k : Cursor) (n : Nat) : Char := (k.rest[n]?).getD nul

/-- The next character. -/
def head (k : Cursor) : Char := k.peek 0

/-- Makes sure that `n` characters are read. -/
def need (k : Cursor) (n : Nat) : Except Error Cursor :=
  if k.index + n ≤ k.loaded then .ok k
  else match load (k.index + n) k.pending k.loaded with
    | none => .error ⟨.control, none⟩
    | some (pending, loaded) => .ok { k with pending, loaded, marked := k.head = byteOrderMark }

/-- Moves past a character of a line. -/
def skip (k : Cursor) : Cursor :=
  { k with
    rest := k.rest.drop 1
    index := k.index + 1
    column := k.column + 1
    breaks := if isBlank k.head then k.breaks else 0 }

/-- Moves past `n` characters of a line. -/
def skipMany (k : Cursor) : Nat → Cursor
  | 0 => k
  | n + 1 => k.skip.skipMany n

/-- How many characters a line break takes. -/
def breakWidth (k : Cursor) : Nat := if k.head = '\r' && k.peek 1 = '\n' then 2 else 1

/-- Moves past a line break. -/
def skipBreak (k : Cursor) : Cursor :=
  { k with
    rest := k.rest.drop k.breakWidth
    index := k.index + k.breakWidth
    line := k.line + 1
    column := 0
    breaks := k.breaks + 1 }

/-- What a line break adds to a scalar. -/
def breakText (k : Cursor) : Char :=
  if k.head = '\u2028' || k.head = '\u2029' then k.head else '\n'

/-- Moves past blanks and line breaks up to an index. -/
def skipTo (target : Nat) : (room : Nat) → Cursor → Cursor
  | 0, k => k
  | room + 1, k =>
    if target ≤ k.index then k
    else skipTo target room (if isBreak k.head then k.skipBreak else k.skip)

/-! ### Comments -/

/-- Moves to the end of the line. -/
def toLineEnd : (room : Nat) → Cursor → Except Error Cursor
  | 0, k => .ok k
  | room + 1, k => do
    let k ← k.need 1
    if endsLine k.head then return k else toLineEnd room k.skip

/-- How far other characters are searched for a comment. -/
def commentReach : Nat := 512

/-- Where the next comment starts, if only blanks and line breaks precede it; the search starts
`distance` characters from here and goes on for `left` characters. -/
def nextComment : (left distance : Nat) → (ahead : List Char) → Cursor →
    Except Error (Option Nat × Cursor)
  | 0, _, _, k => .ok (none, k)
  | left + 1, distance, ahead, k => do
    let k ← k.need (distance + 1)
    let c := ahead.head?.getD nul
    if isBlank c || c = '\n' || c = '\r' then nextComment left (distance + 1) (ahead.drop 1) k
    else if isBreak c && left ≠ 0 then return (none, ← k.need (distance + 2))
    else return (if c = '#' then some distance else none, k)

/-- Moves past a comment and past those that follow it. -/
def comments : (room : Nat) → Cursor → Except Error Cursor
  | 0, k => .ok k
  | room + 1, k => do
    let k ← toLineEnd k.room k
    match ← nextComment (commentReach - 1) 1 (k.rest.drop 1) k with
    | (none, k) => return k
    | (some n, k) => comments room (skipTo (k.index + n) k.room k)

/-- Where a comment starts, if only blanks precede it. -/
def commentOnLine : (left distance : Nat) → (ahead : List Char) → Cursor →
    Except Error (Option Nat × Cursor)
  | 0, _, _, k => .ok (none, k)
  | left + 1, distance, ahead, k => do
    let k ← k.need (distance + 1)
    let c := ahead.head?.getD nul
    if isBlank c then commentOnLine left (distance + 1) (ahead.drop 1) k
    else return (if c = '#' then some distance else none, k)

/-- Moves past a comment behind a token on its line. -/
def lineComment (k : Cursor) : Except Error Cursor :=
  if k.breaks ≠ 0 then .ok k
  else do
    match ← commentOnLine commentReach 0 k.rest k with
    | (none, k) => return k
    | (some n, k) => toLineEnd k.room (k.skipMany n)

/-! ### Blanks between tokens -/

/-- Moves past spaces, and past tabs where they may stand. -/
def blanks (tabs : Bool) : (room : Nat) → Cursor → Except Error Cursor
  | 0, k => .ok k
  | room + 1, k =>
    if k.head = ' ' || (tabs && k.head = '\t') then (k.skip.need 1).bind (blanks tabs room)
    else .ok k

/-- Moves to the next token.  Tabs may stand between brackets, and where no key may start; outside
brackets a key may start on every new line. -/
def toToken (inFlow : Bool) : (room : Nat) → (keyAllowed : Bool) → Cursor →
    Except Error (Bool × Cursor)
  | 0, keyAllowed, k => .ok (keyAllowed, k)
  | room + 1, keyAllowed, k => do
    let k ← k.need 1
    let k ← (if k.column = 0 && k.marked then k.skip else k).need 1
    let k ← blanks (inFlow || !keyAllowed) k.room k
    let k ← if k.head = '#' then comments k.room k else .ok k
    if isBreak k.head then
      let k ← k.need 2
      toToken inFlow room (keyAllowed || !inFlow) k.skipBreak
    else return (keyAllowed, k)

end Cursor

end PatternPlan.Yaml
