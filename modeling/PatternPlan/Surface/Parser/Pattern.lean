import PatternPlan.Surface.Parser.Basic

/-!
# Patterns

* `Parser.primaryWithin`, `Parser.orWithin` — one pattern, and alternatives separated by `|`, with
  a given number of nesting levels left;
* `Parser.nestedPattern` — a pattern inside another one, where `p as name` is a binding;
* `Parser.recognizerName` — `(|Name|)` or `(|Name|_|)`.

Each function is written over the parsers of the patterns inside, so that the two mutually
recursive ones recurse on the levels left.
-/

namespace PatternPlan.Surface.Parser

/-- The constant with its sign changed. -/
def negated : Literal → Literal
  | .int i => .int (-i)
  | .float d => .float d.neg
  | l => l

/-- Whether the next token may start a bound of a range. -/
def nextStartsBound : Parser Bool :=
  observe fun s => match s.next.kind with
    | .int | .float | .string | .minus => true
    | _ => false

/-- A constant starting at the current token; numbers may be negative. -/
def bound : Parser Bound := do
  let t ← current
  match t.kind with
  | .int | .float | .string | .kwTrue | .kwFalse => return ⟨⟨t, t.span⟩, t.value.getD .unit⟩
  | .minus =>
    let n ← next
    if n.kind = .int || n.kind = .float then
      advance
      return ⟨← markFrom t, negated (n.value.getD .unit)⟩
    else rejectNext "number"
  | _ => reject .expectedPattern t [.str t.described]

/-- The rest of a range after its start, the current token being the range operator. -/
def rangeAfter (start : Bound) : Parser Pattern := do
  let op ← current
  let inclusive := op.kind = .dotDotEq
  if ← nextStartsBound then
    advance
    let stop ← bound
    let last ← current
    return .range ⟨op, start.mark.span.join last.span⟩ (some start) (some stop) inclusive
  else if inclusive then rejectNext "range end"
  else return .range ⟨op, start.mark.span.join op.span⟩ (some start) none inclusive

/-- A range without a start.  When its end cannot be read the range stays, with no bound. -/
def rangeBefore : Parser Pattern := do
  let op ← current
  let inclusive := op.kind = .dotDotEq
  if ← nextStartsBound then
    advance
    let stop ← fun s => match bound s with
      | (some b, s') => (some (some b), s')
      | (none, s') => (some none, s')
    return .range (← markFrom op) none stop inclusive
  else rejectNext "range end"

/-- `|Name|)` or `|Name|_|)`, the current token being the opening parenthesis. -/
def recognizerName : Parser (String × RecognizerKind) := do
  expect .pipe "|"
  expect .upper "active pattern name"
  let name := (← current).text
  expect .pipe "|"
  let kind ← if ← skip .underscore then do
      expect .pipe "|"
      pure RecognizerKind.optional
    else pure .total
  expect .rparen ")"
  return (name, kind)

/-- Whether the next token may start the argument of a recognizer. -/
def nextStartsArgument : Parser Bool :=
  observe fun s => match s.next.kind with
    | .underscore | .lower | .upper | .int | .float | .string | .kwTrue | .kwFalse | .minus
    | .lparen | .lbracket | .lbrace | .regex => true
    | _ => false

/-- A pattern inside another one: alternatives, then any number of `as name`. -/
def nestedPattern (alternatives : Parser Pattern) : Parser Pattern := do
  let p ← alternatives
  iterate (fun p => do
    if ← skip .kwAs then
      let asToken ← current
      expect .lower "binding name"
      let name ← current
      return .again (.binding ⟨asToken, p.span.join name.span⟩ name.text false p)
    else return .done p) p

/-- A slice pattern, the current token being the opening bracket. -/
def slicePattern (element : Parser Pattern) : Parser Pattern := do
  let start ← current
  if ← skip .rbracket then return .slice (← markFrom start) []
  else
    let items ← iterate (fun (items : List (SliceItem Pattern)) => do
      advance
      let t ← current
      let item : SliceItem Pattern ←
        if t.kind = .dotDot && !(← nextStartsBound) then
          if ← skip .lower then pure (.rest (← current).text t.span) else pure (.rest "" t.span)
        else pure (.element (← element))
      if ← skip .comma then return .again (items ++ [item])
      else
        expect .rbracket ", or ]"
        return .done (items ++ [item])) []
    return .slice (← markFrom start) items

/-- The fields of a record pattern and whether it ends in `..`. -/
def recordFields (value : Parser Pattern) : Parser (List (String × Pattern) × Bool) :=
  iterate (fun (fields : List (String × Pattern)) => do
    advance
    let t ← current
    match t.kind with
    | .dotDot =>
      expect .rbrace "\x7d after .."
      return .done (fields, true)
    | .lower =>
      let p ← if ← skip .colon then do
          advance
          value
        else pure (.var ⟨t, t.span⟩ t.text)
      let fields := fields ++ [(t.text, p)]
      if ← skip .comma then return .again fields
      else
        expect .rbrace ", or \x7d"
        return .done (fields, false)
    | _ => reject .unexpectedToken t [.str "field name or ..", .str t.described]) []

/-- A record pattern, the current token being the opening brace. -/
def recordPattern (value : Parser Pattern) : Parser Pattern := do
  let start ← current
  if ← skip .rbrace then return .record (← markFrom start) [] false
  else
    let (fields, hasRest) ← recordFields value
    return .record (← markFrom start) fields hasRest

/-- A pattern in parentheses: unit, a group, or a tuple. -/
def groupPattern (inner : Parser Pattern) : Parser Pattern := do
  let start ← current
  if ← skip .rparen then return .literal (← markFrom start) .unit
  else
    let ps ← commaList inner .rparen ")"
    match ps with
    | [p] => return p
    | ps => return .tuple (← markFrom start) ps

/-- A recognizer call, the current token being the opening parenthesis. -/
def activePattern (primary : Parser Pattern) : Parser Pattern := do
  let start ← current
  let (name, kind) ← recognizerName
  let arg ← if ← nextStartsArgument then do
      advance
      pure (some (← primary))
    else pure none
  return .active (← markFrom start) name kind arg

/-- One pattern starting at the current token, given the parsers of alternatives and of one
pattern a level deeper. -/
def primaryBody (alternatives primary : Parser Pattern) : Parser Pattern := do
  let t ← current
  let inner := nestedPattern alternatives
  match t.kind with
  | .underscore => return .wildcard ⟨t, t.span⟩
  | .lower =>
    if ← skip .atSign then
      advance
      let p ← primary
      return .binding (← markFrom t) t.text true p
    else return .var ⟨t, t.span⟩ t.text
  | .int | .float | .string | .kwTrue | .kwFalse | .minus =>
    let b ← bound
    if ← skipEither .dotDot .dotDotEq then rangeAfter b
    else return .literal b.mark b.value
  | .dotDot | .dotDotEq => rangeBefore
  | .upper =>
    let args ← if ← skip .lparen then commaListOrNone inner .rparen ")" else pure []
    return .construct (← markFrom t) t.text args
  | .lparen => if ← nextIs .pipe then activePattern primary else groupPattern inner
  | .lbracket => slicePattern inner
  | .lbrace => recordPattern inner
  | .regex =>
    let source := match t.value with
      | some (.text s) => s
      | _ => ""
    return .regex ⟨t, t.span⟩ source
  | .eof => rejectEnd t "a pattern"
  | _ => reject .expectedPattern t [.str t.described]

/-- Alternatives separated by `|`, given the parser of one. -/
def alternativesBody (primary : Parser Pattern) : Parser Pattern := do
  let first ← primary
  let bar ← next
  if bar.kind = .pipe then
    let ps ← iterate (fun ps => do
      if ← skip .pipe then
        advance
        let p ← primary
        return .again (ps ++ [p])
      else return .done ps) [first]
    let last ← current
    return .or ⟨bar, first.span.join last.span⟩ ps
  else return first

mutual

/-- One pattern, with at most `room` levels of nesting. -/
def primaryWithin : (room : Nat) → Parser Pattern
  | 0 => tooDeep
  | room + 1 => nested (primaryBody (orWithin room) (primaryWithin room))

/-- Alternatives, with at most `room` levels of nesting. -/
def orWithin : (room : Nat) → Parser Pattern
  | 0 => tooDeep
  | room + 1 => nested (alternativesBody (primaryWithin room))

end

end PatternPlan.Surface.Parser
