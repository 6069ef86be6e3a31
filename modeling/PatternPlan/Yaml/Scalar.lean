import PatternPlan.Json.Reader
import PatternPlan.Yaml.Cursor

/-!
# Scalars

A scalar may go on in later lines: a single line break between two words reads as a blank, and of
several all but one are kept.

* `Gap` — what stands between two words, and the text it adds to a scalar;
* `Cursor.quoted` — the rest of a scalar in quotes;
* `Cursor.plain` — a scalar without quotes.
-/

namespace PatternPlan.Yaml

/-! ### Gaps -/

/-- Blanks between two words, or line breaks: the first, and those that follow.  A line break that a
backslash escapes makes a gap `broken` without a first one. -/
structure Gap where
  broken : Bool := false
  blanks : List Char := []
  first : List Char := []
  more : List Char := []

/-- The text of a gap between two words. -/
def Gap.text (g : Gap) : List Char :=
  if g.broken then
    match g.first with
    | '\n' :: _ => if g.more.isEmpty then [' '] else g.more
    | first => first ++ g.more
  else g.blanks

/-- The gap with a line break behind it. -/
def Gap.addBreak (g : Gap) (c : Char) : Gap :=
  if g.broken then { g with more := g.more ++ [c] }
  else { g with broken := true, blanks := [], first := [c] }

namespace Cursor

/-- Whether a mark between documents starts here. -/
def atDocumentMark (k : Cursor) : Bool :=
  k.column = 0 && (k.rest.take 3 = ['-', '-', '-'] || k.rest.take 3 = ['.', '.', '.'])
    && endsWord (k.peek 3)

/-- Reads a gap.  In a plain scalar that began on line `start` no tab may stand left of the column
`least`, on a later line. -/
def gap (tabLimit : Option (Int × Nat)) : (room : Nat) → Gap → Cursor → Except Error (Gap × Cursor)
  | 0, g, k => .ok (g, k)
  | room + 1, g, k => do
    let k ← k.need 1
    if isBlank k.head then
      match tabLimit with
      | some (least, start) =>
        if g.broken && k.head = '\t' && (k.column : Int) < least then
          .error (.ofChars .tabIndentation start k.line)
        else next room g k
      | none => next room g k
    else if isBreak k.head then
      let k ← k.need 2
      gap tabLimit room (g.addBreak k.breakText) k.skipBreak
    else return (g, k)
where
  /-- Moves past a blank. -/
  next (room : Nat) (g : Gap) (k : Cursor) : Except Error (Gap × Cursor) :=
    gap tabLimit room (if g.broken then g else { g with blanks := g.blanks ++ [k.head] }) k.skip

/-! ### Scalars in quotes -/

/-- The characters that a character after a backslash stands for. -/
def escapeLetter? (c : Char) : Option Char :=
  match c with
  | '0' => some '\x00'
  | 'a' => some '\x07'
  | 'b' => some '\x08'
  | 't' | '\t' => some '\t'
  | 'n' => some '\n'
  | 'v' => some '\x0b'
  | 'f' => some '\x0c'
  | 'r' => some '\r'
  | 'e' => some '\x1b'
  | ' ' => some ' '
  | '"' => some '"'
  | '\'' => some '\''
  | '\\' => some '\\'
  | 'N' => some '\u0085'
  | '_' => some '\u00a0'
  | 'L' => some '\u2028'
  | 'P' => some '\u2029'
  | _ => none

/-- How many hexadecimal digits follow a letter after a backslash. -/
def escapeWidth? (c : Char) : Option Nat :=
  match c with
  | 'x' => some 2
  | 'u' => some 4
  | 'U' => some 8
  | _ => none

/-- The value of `n` hexadecimal digits. -/
def hexNumber? : (n : Nat) → (value : Nat) → List Char → Option Nat
  | 0, value, _ => some value
  | _ + 1, _, [] => none
  | n + 1, value, c :: cs => (Json.hexValue? c).bind fun d => hexNumber? n (value * 16 + d) cs

/-- The character of an escape in a scalar that began on line `start`. -/
def escape (start : Nat) (k : Cursor) : Except Error (Char × Cursor) :=
  match escapeLetter? (k.peek 1), escapeWidth? (k.peek 1) with
  | some c, _ => .ok (c, k.skipMany 2)
  | none, none => .error (.ofChars .unknownEscape start k.line)
  | none, some n => do
    let k ← (k.skipMany 2).need n
    match hexNumber? n 0 k.rest with
    | none => .error (.ofChars .hexEscape start k.line)
    | some v =>
      if v.isValidChar then return (Char.ofNat v, k.skipMany n)
      else .error (.ofChars .invalidEscape start k.line)

/-- Reads a word of a scalar in quotes; `done` holds what was read of the scalar, latest first.  The
result tells whether an escaped line break ends the word. -/
def quotedWord (quote : Char) (start : Nat) : (room : Nat) → (done : List Char) → Cursor →
    Except Error (List Char × Bool × Cursor)
  | 0, done, k => .ok (done, false, k)
  | room + 1, done, k => do
    if endsWord k.head then return (done, false, k)
    else if quote = '\'' && k.head = '\'' && k.peek 1 = '\'' then
      quotedWord quote start room ('\'' :: done) (← (k.skipMany 2).need 2)
    else if k.head = quote then return (done, false, k)
    else if quote = '"' && k.head = '\\' then
      if isBreak (k.peek 1) then
        let k ← k.need 3
        return (done, true, ← k.skip.skipBreak.need 1)
      else
        let (c, k) ← escape start k
        quotedWord quote start room (c :: done) (← k.need 2)
    else quotedWord quote start room (k.head :: done) (← k.skip.need 2)

/-- Reads the words of a scalar in quotes. -/
def quotedFrom (quote : Char) (start : Nat) : (room : Nat) → (done : List Char) → Cursor →
    Except Error (String × Cursor)
  | 0, done, k => .ok (String.ofList done.reverse, k)
  | room + 1, done, k => do
    let k ← k.need 4
    if k.atDocumentMark then .error (.ofChars .documentMark start k.line)
    else if k.head = nul then .error (.ofChars .endOfText start k.line)
    else
      let (done, broken, k) ← quotedWord quote start k.room done k
      let k ← k.need 1
      if k.head = quote then return (String.ofList done.reverse, k.skip)
      else
        let (g, k) ← gap none k.room { broken } k
        quotedFrom quote start room (g.text.reverse ++ done) k

/-- Reads a scalar in quotes. -/
def quoted (k : Cursor) : Except Error (String × Cursor) :=
  quotedFrom k.head k.line k.room [] k.skip

/-! ### Scalars without quotes -/

/-- A mark that ends a word between brackets. -/
def isFlowMark (c : Char) : Bool := c ∈ [',', '?', '[', ']', '\x7b', '\x7d']

/-- Reads a word of a scalar without quotes; `word` holds what was read of it, latest first. -/
def plainWord (inFlow : Bool) : (room : Nat) → (word : List Char) → Cursor →
    Except Error (List Char × Cursor)
  | 0, word, k => .ok (word, k)
  | room + 1, word, k =>
    if endsWord k.head || (k.head = ':' && endsWord (k.peek 1)) || (inFlow && isFlowMark k.head) then
      .ok (word, k)
    else (k.skip.need 2).bind (plainWord inFlow room (k.head :: word))

/-- Reads the words of a scalar without quotes, which began on line `start`; outside brackets they
stand at the column `least` or further right.  The result tells whether the scalar ends behind a
line break. -/
def plainFrom (inFlow : Bool) (least : Int) (start : Nat) : (room : Nat) → (done : List Char) →
    Gap → Cursor → Except Error (String × Bool × Cursor)
  | 0, done, g, k => .ok (String.ofList done.reverse, g.broken, k)
  | room + 1, done, g, k => do
    let k ← k.need 4
    if k.atDocumentMark || k.head = '#' then return (String.ofList done.reverse, g.broken, k)
    else
      let (word, k) ← plainWord inFlow k.room [] k
      let (done, g) := if word.isEmpty then (done, g) else (word ++ (g.text.reverse ++ done), {})
      if !(isBlank k.head || isBreak k.head) then
        return (String.ofList done.reverse, g.broken, k)
      else
        let k ← k.need 1
        let (g, k) ← gap (some (least, start)) k.room g k
        if !inFlow && (k.column : Int) < least then
          return (String.ofList done.reverse, g.broken, k)
        else plainFrom inFlow least start room done g k

/-- Reads a scalar without quotes. -/
def plain (inFlow : Bool) (least : Int) (k : Cursor) : Except Error (String × Bool × Cursor) :=
  plainFrom inFlow least k.line k.room [] {} k

end Cursor

end PatternPlan.Yaml
