import PatternPlan.Surface.Tree
import PatternPlan.Source.Lexer
import PatternPlan.Diagnostic.Basic

/-!
# Parsing steps

A parser reads tokens from the left, records what it finds wrong, and may give up.

* `State` — the tokens left, the diagnostics recorded, whether the input ended too early, and how
  many levels of nesting are open;
* `Parser` — a function on states with an optional result; `none` means that it gave up;
* `iterate` — a loop, bounded by the number of tokens that are left;
* `nested`, `tooDeep`, `withRoom` — the nesting limit.
-/

namespace PatternPlan.Surface

/-- How many levels expressions and patterns may nest. -/
def maxNesting : Nat := 256

/-- What a parser reads and records. -/
structure State where
  tokens : List Token
  eof : Token
  errors : List Diagnostic := []
  incomplete : Bool := false
  depth : Nat := 0

namespace State

/-- The token being read. -/
def current (s : State) : Token := s.tokens.headD s.eof

/-- The token after it. -/
def next (s : State) : Token := (s.tokens.drop 1).headD s.eof

/-- The token after that. -/
def afterNext (s : State) : Token := (s.tokens.drop 2).headD s.eof

end State

/-- A parser: an optional result and the state after it. -/
def Parser (α : Type) : Type := State → Option α × State

namespace Parser

variable {α β : Type}

instance : Monad Parser where
  pure a := fun s => (some a, s)
  bind m f := fun s =>
    match m s with
    | (some a, s') => f a s'
    | (none, s') => (none, s')

/-- Gives up. -/
def fail : Parser α := fun s => (none, s)

/-- Reads something off the state. -/
def observe (f : State → α) : Parser α := fun s => (some (f s), s)

def current : Parser Token := observe State.current

def next : Parser Token := observe State.next

/-- Whether the current token has a kind. -/
def currentIs (k : TokenKind) : Parser Bool := observe fun s => s.current.kind = k

/-- Whether the next token has a kind. -/
def nextIs (k : TokenKind) : Parser Bool := observe fun s => s.next.kind = k

/-- Moves on by one token; the end of input stays current. -/
def advance : Parser Unit := fun s => (some (), { s with tokens := s.tokens.tail })

/-- Records a diagnostic at a token. -/
def record (code : Code) (place : Token) (args : List Arg) : Parser Unit := fun s =>
  (some (), { s with errors := s.errors ++ [Diagnostic.new code place.span args] })

/-- Records a diagnostic at a token and gives up. -/
def reject (code : Code) (place : Token) (args : List Arg) : Parser α := do
  record code place args
  fail

/-- Records that the input ended where more was expected, and gives up. -/
def rejectEnd (place : Token) (expected : String) : Parser α := fun s =>
  reject .unexpectedEnd place [.str expected] { s with incomplete := true }

/-- Gives up because the next token is not what was expected. -/
def rejectNext (expected : String) : Parser α := do
  let t ← next
  if t.kind = .eof then rejectEnd t expected
  else reject .unexpectedToken t [.str expected, .str t.described]

/-- Moves on to the next token if it has the kind, else gives up. -/
def expect (k : TokenKind) (expected : String) : Parser Unit := do
  if ← nextIs k then advance else rejectNext expected

/-- Moves on if the next token has the kind, and tells whether it had. -/
def skip (k : TokenKind) : Parser Bool := do
  if ← nextIs k then
    advance
    return true
  else return false

/-- Moves on if the next token has one of two kinds, and tells whether it had. -/
def skipEither (k l : TokenKind) : Parser Bool := do
  if ← skip k then return true else skip l

/-- The bytes from a token through the current one. -/
def spanFrom (start : Token) : Parser Span := observe fun s => start.span.join s.current.span

/-- The mark of a node that starts with a token and ends with the current one. -/
def markFrom (start : Token) : Parser Mark := do
  return ⟨start, ← spanFrom start⟩

/-! ### Loops -/

/-- The outcome of one round of a loop. -/
inductive Round (α β : Type) where
  | again (a : α)
  | done (b : β)

/-- Runs rounds until one is done; gives up when there is no fuel left. -/
def loop (round : α → Parser (Round α β)) : (fuel : Nat) → α → Parser β
  | 0, _ => fail
  | fuel + 1, a => do
    match ← round a with
    | .again a => loop round fuel a
    | .done b => return b

/-- A loop each of whose rounds moves on by a token at least, so that the tokens left bound the
number of rounds. -/
def iterate (round : α → Parser (Round α β)) (a : α) : Parser β := fun s =>
  loop round (s.tokens.length + 1) a s

/-- Items separated by commas up to a closing token, the current token standing before the first
item. -/
def commaList (item : Parser α) (close : TokenKind) (expected : String) : Parser (List α) :=
  iterate (fun items => do
    advance
    let a ← item
    if ← skip .comma then return .again (items ++ [a])
    else
      expect close expected
      return .done (items ++ [a])) []

/-- As `commaList`, or no item at all. -/
def commaListOrNone (item : Parser α) (close : TokenKind) (expected : String) :
    Parser (List α) := do
  if ← skip close then return [] else commaList item close expected

/-! ### Nesting -/

/-- Runs a parser one level deeper. -/
def nested (p : Parser α) : Parser α := fun s =>
  let r := p { s with depth := s.depth + 1 }
  (r.1, { r.2 with depth := r.2.depth - 1 })

/-- Refuses to go deeper.  The refused level stays open, so that every refusal leaves one level
less to what is read later. -/
def tooDeep : Parser α := fun s =>
  (do reject .nestingTooDeep (← current) [.number maxNesting] : Parser α)
    { s with depth := s.depth + 1 }

/-- Runs a parser with as many levels as are left. -/
def withRoom (p : Nat → Parser α) : Parser α := fun s => p (maxNesting - s.depth) s

end Parser

end PatternPlan.Surface
