import PatternPlan.Yaml.Scalar

/-!
# From characters to tokens

A key of a mapping is written like any other node: that it is one shows at the colon behind it, which
has to stand on the same line and within 1024 characters.  So tokens wait in a queue until it is
known whether a key starts at the first of them.

* `TokenKind` — the marks of a text, those that stand for its indentation included, and scalars;
* `Token` — a token and the line it starts on;
* `SimpleKey` — a place where a key may have started;
* `Scanner` — the cursor, the queue, and what decides which tokens may come;
* `Scanner.fetch` — reads the next token into the queue;
* `Scanner.fill` — reads tokens until the first of the queue is settled.
-/

namespace PatternPlan.Yaml

/-- The kinds of tokens.  A `key` is written `?` or stands before the first word of an entry. -/
inductive TokenKind where
  | streamStart | streamEnd | documentStart | documentEnd
  | blockSequenceStart | blockMappingStart | blockEnd
  | flowSequenceStart | flowSequenceEnd | flowMappingStart | flowMappingEnd
  | blockEntry | flowEntry | key | value
  | scalar (isPlain : Bool) (text : String)
deriving DecidableEq

/-- A token and the line it starts on, counted from zero. -/
structure Token where
  kind : TokenKind
  line : Nat

/-- A place where a key may have started: the number of its token, and where it stands.  A key is
required where nothing else may stand. -/
structure SimpleKey where
  possible : Bool := false
  required : Bool := false
  token : Nat := 0
  index : Nat := 0
  line : Nat := 0
  column : Nat := 0

/-- The state of reading tokens.  `taken` counts the tokens that left the queue.  `indents` are the
columns of the open block nodes, innermost first, with `-1` below them; `keys` has an element for the
block nodes and one for each of the `depth` open brackets, innermost first.  `keyLevels` tells by the
number of a token which element of `keys`, counted from the outermost, started there. -/
structure Scanner where
  cursor : Cursor
  started : Bool := false
  queue : List Token := []
  taken : Nat := 0
  indents : List Int := [-1]
  keyAllowed : Bool := true
  keys : List SimpleKey := [{}]
  depth : Nat := 0
  keyLevels : List (Nat × Nat) := []

namespace Scanner

/-- How deep nodes may nest. -/
def maxDepth : Nat := 10000

/-- How far a colon may stand behind the start of its key. -/
def keyReach : Nat := 1024

/-- How many tokens are read ahead. -/
def lookAhead : Nat := 3

/-- Whether a bracket is open. -/
def inFlow (s : Scanner) : Bool := 0 < s.depth

/-- The column of the innermost block node. -/
def indent (s : Scanner) : Int := s.indents.head?.getD (-1)

/-- The innermost place where a key may have started. -/
def key (s : Scanner) : SimpleKey := s.keys.head?.getD {}

/-- The number of the next token. -/
def nextToken (s : Scanner) : Nat := s.taken + s.queue.length

/-- Puts a token at the end of the queue. -/
def push (s : Scanner) (kind : TokenKind) (line : Nat) : Scanner :=
  { s with queue := s.queue ++ [⟨kind, line⟩] }

/-- Puts a token in front of the one with a number. -/
def insert (s : Scanner) (number : Nat) (kind : TokenKind) (line : Nat) : Scanner :=
  let n := number - s.taken
  { s with queue := s.queue.take n ++ ⟨kind, line⟩ :: s.queue.drop n }

/-- Reads a token of `n` characters that stand on one line. -/
def mark (s : Scanner) (kind : TokenKind) (n : Nat) : Scanner :=
  { s.push kind s.cursor.line with cursor := s.cursor.skipMany n }

/-! ### Keys -/

/-- Replaces the innermost place where a key may have started. -/
def setKey (s : Scanner) (key : SimpleKey) : Scanner := { s with keys := key :: s.keys.drop 1 }

/-- Forgets which key started at a token. -/
def forget (s : Scanner) (token : Nat) : Scanner :=
  { s with keyLevels := s.keyLevels.filter fun e => e.1 ≠ token }

/-- Whether a key may still have started at a place.  It is an error if one is required there and
cannot have. -/
def isOpen (s : Scanner) (key : SimpleKey) : Except Error Bool :=
  if !key.possible then .ok false
  else if key.line < s.cursor.line || key.index + keyReach < s.cursor.index then
    if key.required then .error (.ofChars .missingColon key.line s.cursor.line) else .ok false
  else .ok true

/-- Gives up the innermost key. -/
def dropKey (s : Scanner) : Except Error Scanner :=
  if !s.key.possible then .ok s
  else if s.key.required then .error (.ofChars .missingColon s.key.line s.cursor.line)
  else .ok ((s.setKey { s.key with possible := false }).forget s.key.token)

/-- Notes that a key may start here. -/
def saveKey (s : Scanner) : Except Error Scanner :=
  if !s.keyAllowed then .ok s
  else do
    let key : SimpleKey := {
      possible := true
      required := !s.inFlow && s.indent = s.cursor.column
      token := s.nextToken
      index := s.cursor.index
      line := s.cursor.line
      column := s.cursor.column }
    let s ← s.dropKey
    let s := (s.setKey key).forget key.token
    return { s with
      keyLevels := (key.token, s.depth) :: s.keyLevels.filter fun e => s.taken ≤ e.1 }

/-! ### Indentation -/

/-- Opens a block node at a column, unless one is open there; its token stands in front of the token
with a number, or at the end. -/
def openBlock (s : Scanner) (column line : Nat) (number : Option Nat) (kind : TokenKind) :
    Except Error Scanner :=
  if s.inFlow || (column : Int) ≤ s.indent then .ok s
  else
    let s := { s with indents := (column : Int) :: s.indents }
    if maxDepth + 1 < s.indents.length then .error (.ofChars .depth s.key.line s.cursor.line)
    else .ok (s.insert (number.getD s.nextToken) kind line)

/-- Closes the block nodes to the right of a column. -/
def closeBlocks (s : Scanner) (column : Int) : Scanner :=
  if s.inFlow then s
  else
    let n := (s.indents.takeWhile (column < ·)).length
    { s with
      indents := s.indents.drop n
      queue := s.queue ++ List.replicate n ⟨.blockEnd, s.cursor.line⟩ }

/-! ### Tokens -/

/-- The end of the text. -/
def fetchEnd (s : Scanner) : Except Error Scanner := do
  let k := s.cursor
  let k := if k.column = 0 then k else { k with column := 0, line := k.line + 1 }
  let s ← { s with cursor := k }.closeBlocks (-1) |>.dropKey
  return { s with keyAllowed := false }.push .streamEnd k.line

/-- A mark between documents. -/
def fetchDocument (s : Scanner) (kind : TokenKind) : Except Error Scanner := do
  let s ← (s.closeBlocks (-1)).dropKey
  return { s with keyAllowed := false }.mark kind 3

/-- An opening bracket. -/
def fetchOpen (s : Scanner) (kind : TokenKind) : Except Error Scanner := do
  let s ← s.saveKey
  let k := s.cursor
  let s := { s with
    keys := { token := s.nextToken, index := k.index, line := k.line, column := k.column } :: s.keys
    depth := s.depth + 1 }
  if maxDepth < s.depth then .error (.ofChars .depth k.line k.line)
  else return { s with keyAllowed := true }.mark kind 1

/-- A closing bracket. -/
def fetchClose (s : Scanner) (kind : TokenKind) : Except Error Scanner := do
  let s ← s.dropKey
  let s := if s.inFlow then
      { s.forget s.key.token with keys := s.keys.drop 1, depth := s.depth - 1 }
    else s
  return { s with keyAllowed := false }.mark kind 1

/-- A comma between brackets. -/
def fetchComma (s : Scanner) : Except Error Scanner := do
  let s ← s.dropKey
  return { s with keyAllowed := true }.mark .flowEntry 1

/-- The mark of an item by indentation. -/
def fetchEntry (s : Scanner) : Except Error Scanner := do
  let k := s.cursor
  if !s.inFlow && !s.keyAllowed then .error (.ofChars .entryPlace k.line k.line)
  else
    let s ← s.openBlock k.column k.line none .blockSequenceStart
    let s ← s.dropKey
    return { s with keyAllowed := true }.mark .blockEntry 1

/-- The mark of a key. -/
def fetchKey (s : Scanner) : Except Error Scanner := do
  let k := s.cursor
  if !s.inFlow && !s.keyAllowed then .error (.ofChars .keyPlace k.line k.line)
  else
    let s ← s.openBlock k.column k.line none .blockMappingStart
    let s ← s.dropKey
    return { s with keyAllowed := !s.inFlow }.mark .key 1

/-- The mark of a value: a key started at the innermost place, if it may have. -/
def fetchValue (s : Scanner) : Except Error Scanner := do
  let k := s.cursor
  let key := s.key
  if ← s.isOpen key then
    let s := s.insert key.token .key key.line
    let s ← s.openBlock key.column key.line (some key.token) .blockMappingStart
    let s := (s.setKey { key with possible := false }).forget key.token
    return { s with keyAllowed := false }.mark .value 1
  else
    let s := s.setKey { key with possible := false }
    if !s.inFlow && !s.keyAllowed then .error (.ofChars .valuePlace k.line k.line)
    else
      let s ← s.openBlock k.column k.line none .blockMappingStart
      return { s with keyAllowed := !s.inFlow }.mark .value 1

/-- A scalar in quotes. -/
def fetchQuoted (s : Scanner) : Except Error Scanner := do
  let s ← s.saveKey
  let (text, k) ← s.cursor.quoted
  return { s.push (.scalar false text) s.cursor.line with cursor := k, keyAllowed := false }

/-- A scalar without quotes. -/
def fetchPlain (s : Scanner) : Except Error Scanner := do
  let s ← s.saveKey
  let (text, broken, k) ← s.cursor.plain s.inFlow (s.indent + 1)
  return { s.push (.scalar true text) s.cursor.line with cursor := k, keyAllowed := broken }

/-- Whether a scalar without quotes starts here. -/
def startsPlain (s : Scanner) : Bool :=
  let c := s.cursor.head
  if c = '-' then !isBlank (s.cursor.peek 1)
  else if c = '?' || c = ':' then !s.inFlow && !endsWord (s.cursor.peek 1)
  else !(endsWord c || c ∈ [',', '[', ']', '\x7b', '\x7d', '#', '&', '*', '!', '|', '>', '\'', '"', '%',
    '@', '\x60'])

/-- The token that starts here. -/
def fetchHere (s : Scanner) : Except Error Scanner :=
  let k := s.cursor
  let isMark := s.inFlow || endsWord (k.peek 1)
  match k.head with
  | '[' => s.fetchOpen .flowSequenceStart
  | '\x7b' => s.fetchOpen .flowMappingStart
  | ']' => s.fetchClose .flowSequenceEnd
  | '\x7d' => s.fetchClose .flowMappingEnd
  | ',' => s.fetchComma
  | c =>
    if c = '-' && endsWord (k.peek 1) then s.fetchEntry
    else if c = '?' && isMark then s.fetchKey
    else if c = ':' && isMark then s.fetchValue
    else if c = '\'' || c = '"' then s.fetchQuoted
    else if s.startsPlain then s.fetchPlain
    else .error (.ofChars .cannotStart k.line k.line)

/-- Reads the next token into the queue, and the comment behind it on its line. -/
def fetch (s : Scanner) : Except Error Scanner := do
  let k ← s.cursor.need 1
  if !s.started then return { s with cursor := k, started := true }.push .streamStart k.line
  else
    let (keyAllowed, k) ← Cursor.toToken s.inFlow k.room s.keyAllowed k
    let s := { s with cursor := k, keyAllowed }.closeBlocks k.column
    let k ← k.need 4
    let s := { s with cursor := k }
    if k.head = nul then s.fetchEnd
    else if k.atDocumentMark then
      s.fetchDocument (if k.head = '-' then .documentStart else .documentEnd)
    else
      let s ← s.fetchHere
      match s.queue.getLast? with
      | some ⟨.blockEntry, _⟩ => return s
      | _ => return { s with cursor := ← s.cursor.lineComment }

/-! ### The queue -/

/-- Reads tokens until the first of the queue is settled: enough tokens follow it, and no key may
have started at it. -/
def fillUpTo : (room : Nat) → Scanner → Except Error Scanner
  | 0, s => .ok s
  | room + 1, s =>
    if s.queue.length < lookAhead then s.fetch.bind (fillUpTo room)
    else match s.keyLevels.lookup s.taken with
      | none => .ok s
      | some level => do
        let place := s.depth - level
        match s.keys[place]? with
        | none => return s
        | some key =>
          if ← s.isOpen key then s.fetch.bind (fillUpTo room)
          else return { s with keys := s.keys.set place { key with possible := false } }

/-- Reads tokens until the first of the queue is settled. -/
def fill (s : Scanner) : Except Error Scanner := fillUpTo (s.cursor.room + 2 * lookAhead) s

/-- The start of a text. -/
def ofString (s : String) : Scanner := { cursor := Cursor.ofString s }

end Scanner

end PatternPlan.Yaml
