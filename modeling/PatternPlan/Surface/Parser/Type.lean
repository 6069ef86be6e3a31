import PatternPlan.Surface.Parser.Basic

/-!
# Type annotations and type declarations

* `Parser.type` — `Int`, `Option<Int>`, `(Int, String)`, `[Int]`; parentheses around one type are
  dropped;
* `Parser.typeDeclaration` — sum types and record types.
-/

namespace PatternPlan.Surface.Parser

/-- A type starting at the current token, given the parser of the types inside it. -/
def typeBody (inner : Parser TypeExpr) : Parser TypeExpr := do
  let start ← current
  match start.kind with
  | .upper =>
    let args ← if ← skip .less then commaList inner .greater ">" else pure []
    return .named (← markFrom start) start.text args
  | .lparen =>
    let elements ← commaListOrNone inner .rparen ")"
    match elements with
    | [t] => return t
    | ts => return .tuple (← markFrom start) ts
  | .lbracket =>
    advance
    let element ← inner
    expect .rbracket "]"
    return .array (← markFrom start) element
  | _ => reject .unexpectedToken start [.str "type", .str start.described]

/-- A type that nests at most `fuel` deep. -/
def typeWithin : (fuel : Nat) → Parser TypeExpr
  | 0 => fail
  | fuel + 1 => typeBody (typeWithin fuel)

/-- A type starting at the current token; it cannot nest deeper than there are tokens. -/
def type : Parser TypeExpr := fun s => typeWithin (s.tokens.length + 1) s

/-- The fields of a record type after the opening brace. -/
def recordTypeFields : Parser (List (String × TypeExpr)) :=
  iterate (fun fields => do
    if ← nextIs .rbrace then return .done fields
    else
      expect .lower "field name"
      let name := (← current).text
      expect .colon ":"
      advance
      let t ← type
      if ← skip .comma then return .again (fields ++ [(name, t)])
      else return .done (fields ++ [(name, t)])) []

/-- The constructors of a sum type. -/
def variants : Parser (List Variant) :=
  iterate (fun vs => do
    expect .upper "constructor name"
    let name := (← current).text
    let fields ← if ← skip .lparen then commaList type .rparen ")" else pure []
    let vs := vs ++ [⟨name, fields⟩]
    if ← skip .pipe then return .again vs else return .done vs) []

/-- `type Shape = | Circle(Int) | Square` or `type Point = \x7b x: Int \x7d`, the current token
being `type`; the declaration starts at `start`. -/
def typeDeclaration (start : Token) (isPublic : Bool) : Parser TypeDecl := do
  let keyword ← current
  expect .upper "type name"
  let name := (← current).text
  expect .assign "="
  if ← skip .lbrace then
    let fields ← recordTypeFields
    expect .rbrace "\x7d"
    return ⟨⟨keyword, ← spanFrom start⟩, name, [], fields, isPublic⟩
  else
    let _ ← skip .pipe
    let vs ← variants
    return ⟨⟨keyword, ← spanFrom start⟩, name, vs, [], isPublic⟩

end PatternPlan.Surface.Parser
