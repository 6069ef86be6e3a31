import PatternPlan.Surface.Parser.Pattern

/-!
# Expressions

* `Parser.exprWithin` — an expression whose operators bind tighter than a given precedence, with a
  given number of nesting levels left;
* `Parser.expression` — an expression with as many levels as are left.

The bodies are written over `expr`, the parser of the expressions inside (a function of the
precedence), and `pattern`, the parser of alternatives.
-/

namespace PatternPlan.Surface.Parser

/-- How tightly the next token binds to what stands before it. -/
def nextPrecedence : Parser Nat :=
  observe fun s => match s.next.kind with
    | .lparen => Precedence.call
    | .dot => Precedence.field
    | k => match BinaryOp.ofKind? k with
      | some op => op.precedence
      | none => Precedence.lowest

/-- Arguments up to a closing token, the current token being the opening one. -/
def exprList (expr : Nat → Parser Expr) (close : TokenKind) : Parser (List Expr) :=
  commaListOrNone (expr Precedence.lowest) close close.name

/-- A constructor with its arguments, which must open on its line. -/
def constructor (expr : Nat → Parser Expr) : Parser Expr := do
  let t ← current
  let n ← next
  let args ← if n.kind = .lparen && n.line = t.line then do
      advance
      exprList expr .rparen
    else pure []
  return .construct (← markFrom t) t.text args

/-- An expression in parentheses: unit, a group, or a tuple. -/
def group (expr : Nat → Parser Expr) : Parser Expr := do
  let start ← current
  if ← skip .rparen then return .literal (← markFrom start) .unit
  else
    let es ← exprList expr .rparen
    match es with
    | [e] => return e
    | es => return .tuple (← markFrom start) es

/-- A record, the current token being the opening brace. -/
def recordLiteral (expr : Nat → Parser Expr) : Parser Expr := do
  let start ← current
  let fields ← iterate (fun (fields : List (String × Expr)) => do
    expect .lower "field name"
    let name := (← current).text
    expect .colon ":"
    advance
    let e ← expr Precedence.lowest
    let fields := fields ++ [(name, e)]
    if ← skip .comma then
      if ← nextIs .rbrace then return .done fields else return .again fields
    else return .done fields) []
  expect .rbrace "\x7d"
  return .record (← markFrom start) fields

/-- The bindings and the result of a block, up to its closing brace. -/
def blockBody (expr : Nat → Parser Expr) : Parser (List (String × Expr) × Option Expr) :=
  iterate (fun (lets : List (String × Expr)) => do
    if ← skip .rbrace then return .done (lets, none)
    else
      advance
      if ← currentIs .kwLet then
        expect .lower "binding name"
        let name := (← current).text
        expect .assign "="
        advance
        let e ← expr Precedence.lowest
        let _ ← skip .semicolon
        return .again (lets ++ [(name, e)])
      else
        let e ← expr Precedence.lowest
        let _ ← skip .semicolon
        expect .rbrace "\x7d"
        return .done (lets, some e)) []

/-- A record if a field name and a colon follow the brace, else a block. -/
def recordOrBlock (expr : Nat → Parser Expr) : Parser Expr := do
  let start ← current
  if ← observe fun s => s.next.kind = .lower && s.afterNext.kind = .colon then recordLiteral expr
  else
    let (lets, result) ← blockBody expr
    return .block (← markFrom start) lets result

/-- `if c then a`, with or without `else b`. -/
def conditional (expr : Nat → Parser Expr) : Parser Expr := do
  let start ← current
  advance
  let test ← expr Precedence.lowest
  expect .kwThen "then"
  advance
  let yes ← expr Precedence.lowest
  let no ← if ← skip .kwElse then do
      advance
      pure (some (← expr Precedence.lowest))
    else pure none
  return .cond (← markFrom start) test yes no

/-- `perform Name`, with or without arguments. -/
def performance (expr : Nat → Parser Expr) : Parser Expr := do
  let start ← current
  expect .upper "effect name"
  let effect := (← current).text
  let args ← if ← skip .lparen then exprList expr .rparen else pure []
  return .perform (← markFrom start) effect args

/-- What may stand between a pattern and its arrow. -/
structure ArmHead where
  asName : Option Alias := none
  guard : Option Expr := none
  usedIf : Bool := false

/-- An alias and a guard, each at most once, in either order. -/
def armHead (expr : Nat → Parser Expr) : Parser ArmHead :=
  iterate (fun (h : ArmHead) => do
    let n ← next
    if n.kind = .kwAs && h.asName.isNone then
      advance
      expect .lower "alias name"
      let name ← current
      return .again { h with asName := some ⟨name.text, name.span⟩ }
    else if (n.kind = .kwWhen || n.kind = .kwIf) && h.guard.isNone then
      advance
      advance
      let g ← expr Precedence.lowest
      return .again { h with guard := some g, usedIf := n.kind = .kwIf }
    else return .done h) {}

/-- One arm, the current token being its bar. -/
def arm (expr : Nat → Parser Expr) (pattern : Parser Pattern) : Parser (Arm Pattern Expr) := do
  let bar ← current
  advance
  let p ← pattern
  let h ← armHead expr
  expect .arrow "->"
  advance
  let body ← expr Precedence.lowest
  return ⟨← spanFrom bar, p, h.guard, h.usedIf, h.asName, body⟩

/-- `match e with` and its arms. -/
def selection (expr : Nat → Parser Expr) (pattern : Parser Pattern) : Parser Expr := do
  let start ← current
  advance
  let target ← expr Precedence.lowest
  expect .kwWith "with"
  if ← nextIs .pipe then
    let arms ← iterate (fun (arms : List (Arm Pattern Expr)) => do
      if ← skip .pipe then
        let a ← arm expr pattern
        return .again (arms ++ [a])
      else return .done arms) []
    return .select (← markFrom start) target arms
  else rejectNext "| to start a match arm"

/-- A prefix operator and its operand. -/
def unaryWith (expr : Nat → Parser Expr) (op : UnaryOp) : Parser Expr := do
  let t ← current
  advance
  let e ← expr Precedence.unary
  return .unary (← markFrom t) op e

/-- The expression that starts at the current token, before any operator. -/
def atom (expr : Nat → Parser Expr) (pattern : Parser Pattern) : Parser Expr := do
  let t ← current
  match t.kind with
  | .lower => return .ident ⟨t, t.span⟩ t.text
  | .upper => constructor expr
  | .int | .float | .string | .kwTrue | .kwFalse =>
    return .literal ⟨t, t.span⟩ (t.value.getD .unit)
  | .minus => unaryWith expr .negate
  | .bang => unaryWith expr .not
  | .lparen => group expr
  | .lbracket =>
    let es ← exprList expr .rbracket
    return .array (← markFrom t) es
  | .lbrace => recordOrBlock expr
  | .kwIf => conditional expr
  | .kwMatch => selection expr pattern
  | .kwPerform => performance expr
  | .eof => rejectEnd t "an expression"
  | _ => reject .expectedExpression t [.str t.described]

/-- Puts the operator at the current token, and what follows it, behind `left`. -/
def extended (expr : Nat → Parser Expr) (left : Expr) : Parser Expr := do
  let t ← current
  match t.kind with
  | .lparen =>
    let args ← exprList expr .rparen
    return .call ⟨t, left.span.join (← current).span⟩ left args
  | .dot =>
    expect .lower "field name"
    let name ← current
    return .field ⟨t, left.span.join name.span⟩ left name.text
  | k =>
    match BinaryOp.ofKind? k with
    | some op =>
      advance
      let right ← expr op.precedence
      return .binary ⟨t, left.span.join right.span⟩ op left right
    | none => fail

/-- An expression whose operators bind tighter than `precedence`.  A call must open on the line on
which its callee ends; otherwise the parenthesis starts an expression of its own. -/
def exprBody (expr : Nat → Parser Expr) (pattern : Parser Pattern) (precedence : Nat) :
    Parser Expr := do
  let first ← atom expr pattern
  iterate (fun left => do
    let t ← current
    let n ← next
    if precedence < (← nextPrecedence) && !(n.kind = .lparen && n.line ≠ t.line) then
      advance
      let e ← extended expr left
      return .again e
    else return .done left) first

/-- An expression with at most `room` levels of nesting. -/
def exprWithin : (room : Nat) → (precedence : Nat) → Parser Expr
  | 0, _ => tooDeep
  | room + 1, precedence => nested (exprBody (exprWithin room) (orWithin room) precedence)

/-- An expression with as many levels of nesting as are left. -/
def expression : Parser Expr := withRoom fun room => exprWithin room Precedence.lowest

end PatternPlan.Surface.Parser
