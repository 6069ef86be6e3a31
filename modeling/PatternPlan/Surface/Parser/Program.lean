import PatternPlan.Surface.Parser.Expr
import PatternPlan.Surface.Parser.Type

/-!
# Declarations and files

* `Parser.declaration` — one declaration or expression;
* `Parser.program` — a whole file; after an error it goes on with the next token that can begin a
  declaration;
* `parse` — the tree of a list of tokens, with the diagnostics and whether the input ended early.
-/

namespace PatternPlan.Surface

namespace Parser

/-- A parameter with or without a type. -/
def param : Parser Param := do
  expect .lower "parameter name"
  let name := (← current).text
  if ← skip .colon then
    advance
    return ⟨name, some (← type)⟩
  else return ⟨name, none⟩

/-- Parameters in parentheses, after the current token. -/
def params : Parser (List Param) := do
  expect .lparen "("
  if ← skip .rparen then return []
  else
    iterate (fun ps => do
      let p ← param
      if ← skip .comma then return .again (ps ++ [p])
      else
        expect .rparen ", or )"
        return .done (ps ++ [p])) []

/-- The result type after `->`, if there is one. -/
def resultType : Parser (Option TypeExpr) := do
  if ← skip .arrow then
    advance
    return some (← type)
  else return none

/-- `= body`. -/
def definition : Parser Expr := do
  expect .assign "="
  advance
  expression

/-- A function, the current token being `fn`. -/
def function (start : Token) (isPublic : Bool) (annotations : List String) : Parser Function := do
  let keyword ← current
  if ← skipEither .lower .upper then
    let name := (← current).text
    let ps ← params
    let returns ← resultType
    let body ← definition
    return ⟨⟨keyword, ← spanFrom start⟩, name, ps, returns, body, isPublic, annotations⟩
  else rejectNext "function name"

/-- Records the annotations a recognizer cannot have; only `pure` is known. -/
def checkAnnotations (start : Token) : List String → Parser Unit
  | [] => return
  | a :: as => do
    if a ≠ "pure" then record .annotationUnknown start [.str a]
    checkAnnotations start as

/-- A recognizer, the current token being `pattern`. -/
def recognizer (start : Token) (isPublic : Bool) (annotations : List String) :
    Parser Recognizer := do
  let keyword ← current
  checkAnnotations start annotations
  expect .lparen "(|"
  let (name, kind) ← recognizerName
  let ps ← params
  let returns ← resultType
  let body ← definition
  return ⟨⟨keyword, ← spanFrom start⟩, name, kind, ps, returns, body, isPublic,
    annotations.contains "pure"⟩

/-- The annotations in front of a declaration. -/
def annotationNames : Parser (List String) :=
  iterate (fun names => do
    if ← currentIs .atSign then
      expect .lower "annotation name"
      let name := (← current).text
      advance
      return .again (names ++ [name])
    else return .done names) []

/-- One declaration or expression, starting at the current token and ending there. -/
def declaration : Parser Decl := do
  let start ← current
  let annotations ← annotationNames
  let isPublic ← currentIs .kwPub
  if isPublic then advance
  let t ← current
  match t.kind with
  | .kwFn => return .function (← function start isPublic annotations)
  | .kwPattern => return .recognizer (← recognizer start isPublic annotations)
  | .kwType => return .type (← typeDeclaration start isPublic)
  | _ =>
    if !annotations.isEmpty || isPublic then
      reject .unexpectedToken t [.str "fn, pattern or type", .str t.described]
    else
      let e ← expression
      return .expr (← markFrom start) e

/-- Moves on by one token, and then to the next one that can begin a declaration. -/
def synchronize : Parser Unit := fun s =>
  (some (), { s with tokens := s.tokens.tail.dropWhile fun t => !t.kind.startsDeclaration })

/-- One round of reading declarations: what was read, if anything, and the state after it. -/
def step (s : State) : Option Decl × State :=
  let r := declaration s
  let clean := r.1.isSome && r.2.errors.length = s.errors.length
  (r.1, if clean then (advance r.2).2 else (synchronize r.2).2)

/-- The declarations up to the end of input, each round using up a token at least. -/
def declarations : (fuel : Nat) → State → List Decl × State
  | 0, s => ([], s)
  | fuel + 1, s =>
    if s.current.kind = .eof then ([], s)
    else
      let r := step s
      let rest := declarations fuel r.2
      (r.1.toList ++ rest.1, rest.2)

/-- `Name.Name`, after a `module` or `use` keyword; what was read counts even if more was
expected. -/
def path : (fuel : Nat) → State → List String × State
  | 0, s => ([], s)
  | fuel + 1, s =>
    if s.next.kind = .upper || s.next.kind = .lower then
      let s' := (advance s).2
      if s'.next.kind = .dot then
        let rest := path fuel (advance s').2
        (s'.current.text :: rest.1, rest.2)
      else ([s'.current.text], s')
    else ([], (rejectNext "module path" s : Option Unit × State).2)

/-- A line that starts with `module` or `use`. -/
def pathLine (s : State) : PathLine × State :=
  let start := s.current
  let r := path (s.tokens.length + 1) s
  (⟨⟨start, start.span.join r.2.current.span⟩, r.1⟩, (advance r.2).2)

/-- The `use` lines. -/
def useLines : (fuel : Nat) → State → List PathLine × State
  | 0, s => ([], s)
  | fuel + 1, s =>
    if s.current.kind = .kwUse then
      let r := pathLine s
      let rest := useLines fuel r.2
      (r.1 :: rest.1, rest.2)
    else ([], s)

/-- A whole file. -/
def program (s : State) : Program × State :=
  let (header, s) : Option PathLine × State :=
    if s.current.kind = .kwModule then
      let r := pathLine s
      (some r.1, r.2)
    else (none, s)
  let uses := useLines (s.tokens.length + 1) s
  let decls := declarations (uses.2.tokens.length + 1) uses.2
  (⟨header, uses.1, decls.1⟩, decls.2)

end Parser

/-- What parsing yields: a tree in any case, the diagnostics, and whether the input ended where
more was expected. -/
structure Parsed where
  program : Program
  errors : List Diagnostic
  incomplete : Bool

/-- The tree of a list of tokens. -/
def parse (l : Lexed) : Parsed :=
  let r := Parser.program { tokens := l.tokens, eof := l.eof }
  ⟨r.1, r.2.errors, r.2.incomplete⟩

end PatternPlan.Surface
