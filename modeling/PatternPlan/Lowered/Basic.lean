import PatternPlan.Plan.Basic

/-!
# Lowered modules

What a backend receives: declarations whose bodies are tables of numbered expressions, patterns
as flat records, and the plans of all matches.

* `PatternForm`, `ExprForm` — the forms, each with the tag it is stored under; `other` keeps a tag
  that names no form;
* `Lowered.Pattern` — a pattern; its form tells which fields mean something;
* `Lowered.Expr` — a row of an expression table, which refers to other rows by number;
* `Lowered.Function`, `Lowered.Recognizer`, `Lowered.Module` — declarations and the whole module.

These are records of what a document says, right or wrong: what a backend may rely on is checked
separately.
-/

namespace PatternPlan.Lowered

/-- The version of the documents described here. -/
def schemaVersion : String := "matchcore.mir/1"

/-- The forms of patterns. -/
inductive PatternForm where
  | wildcard | var | literal | tuple | record | construct | binding | or | slice | range | regex
  | active
  | other (tag : String)
deriving DecidableEq

instance : Inhabited PatternForm := ⟨.other ""⟩

namespace PatternForm

/-- The tag of a form. -/
def name : PatternForm → String
  | wildcard => "wildcard"
  | var => "var"
  | literal => "literal"
  | tuple => "tuple"
  | record => "record"
  | construct => "constructor"
  | binding => "binding"
  | or => "or"
  | slice => "slice"
  | range => "range"
  | regex => "regex"
  | active => "active"
  | other tag => tag

/-- The form with a tag. -/
def ofName (s : String) : PatternForm :=
  match s with
  | "wildcard" => wildcard
  | "var" => var
  | "literal" => literal
  | "tuple" => tuple
  | "record" => record
  | "constructor" => construct
  | "binding" => binding
  | "or" => or
  | "slice" => slice
  | "range" => range
  | "regex" => regex
  | "active" => active
  | tag => other tag

end PatternForm

/-- The call of a recognizer; the argument is a `π`. -/
structure Call (π : Type) where
  name : String := ""
  kind : RecognizerKind := .total
  argument : Option π := none
  inputBinding : String := ""
  missTarget : Option JumpTarget := none

/-- A lowered pattern.  Where a document may say nothing in place of a pattern, there is `none`.
`rest` is the name a rest marker binds, empty if it binds none. -/
structure Pattern where
  form : PatternForm := .other ""
  span : Span := {}
  ty : String := ""
  name : String := ""
  literal : Option Literal := none
  elements : List (Option Pattern) := []
  fields : List (String × Option Pattern) := []
  hasRest : Bool := false
  args : List (Option Pattern) := []
  inner : Option Pattern := none
  viaAt : Bool := false
  variants : List (Option Pattern) := []
  head : List (Option Pattern) := []
  rest : Option String := none
  tail : List (Option Pattern) := []
  start : Option Pattern := none
  stop : Option Pattern := none
  inclusive : Bool := false
  regex : String := ""
  call : Option (Call Pattern) := none

instance : Inhabited Pattern := ⟨{}⟩

/-- The forms of expressions. -/
inductive ExprForm where
  | identifier | literal | construct | call | unary | binary | cond | select | block | perform
  | tuple | array | record | field
  | other (tag : String)
deriving DecidableEq

instance : Inhabited ExprForm := ⟨.other ""⟩

namespace ExprForm

/-- The tag of a form. -/
def name : ExprForm → String
  | identifier => "identifier"
  | literal => "literal"
  | construct => "constructor"
  | call => "call"
  | unary => "unary"
  | binary => "binary"
  | cond => "if_else"
  | select => "match"
  | block => "block"
  | perform => "perform_call"
  | tuple => "tuple"
  | array => "array"
  | record => "record"
  | field => "field_access"
  | other tag => tag

/-- The form with a tag. -/
def ofName (s : String) : ExprForm :=
  match s with
  | "identifier" => identifier
  | "literal" => literal
  | "constructor" => construct
  | "call" => call
  | "unary" => unary
  | "binary" => binary
  | "if_else" => cond
  | "match" => select
  | "block" => block
  | "perform_call" => perform
  | "tuple" => tuple
  | "array" => array
  | "record" => record
  | "field_access" => field
  | tag => other tag

end ExprForm

/-- An arm of a match: the alias is bound before the guard runs, and is empty if there is none. -/
structure MatchArm where
  pattern : Option Pattern := none
  guard : Option Nat := none
  asName : String := ""
  body : Nat := 0
deriving Inhabited

/-- A row of an expression table. -/
structure Expr where
  id : Nat := 0
  span : Span := {}
  ty : String := ""
  form : ExprForm := .other ""
  name : String := ""
  literal : Option Literal := none
  operator : String := ""
  callee : Option Nat := none
  args : List Nat := []
  keys : List String := []
  statements : List (String × Nat) := []
  tail : Option Nat := none
  condition : Option Nat := none
  yes : Option Nat := none
  no : Option Nat := none
  target : Option Nat := none
  arms : List MatchArm := []
  plan : Option Plan := none
deriving Inhabited

/-- Every row that a row refers to. -/
def Expr.references (e : Expr) : List Nat :=
  e.args ++ e.callee.toList ++ e.tail.toList ++ e.condition.toList ++ e.yes.toList ++ e.no.toList
    ++ e.target.toList ++ e.statements.map (·.2)
    ++ e.arms.flatMap fun a => a.body :: a.guard.toList

/-- A parameter and its type. -/
structure Param where
  name : String := ""
  ty : String := ""
deriving DecidableEq, Inhabited

/-- A function: its body is a row of its table. -/
structure Function where
  name : String := ""
  span : Span := {}
  params : Listed Param := none
  returnType : String := ""
  body : Nat := 0
  exprs : Listed Expr := none
deriving Inhabited

/-- A recognizer: its body is a row of its table. -/
structure Recognizer where
  name : String := ""
  span : Span := {}
  kind : RecognizerKind := .total
  carrier : Carrier := .value
  hasMissPath : Bool := false
  params : Listed Param := none
  body : Nat := 0
  exprs : Listed Expr := none
deriving Inhabited

/-- A lowered source file. -/
structure Module where
  schema : String := ""
  file : String := ""
  functions : Listed Function := none
  recognizers : Listed Recognizer := none
  plans : Listed Plan := none
deriving Inhabited

end PatternPlan.Lowered
