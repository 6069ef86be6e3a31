import PatternPlan.Recognizer
import PatternPlan.Source.Token

/-!
# Syntax trees

The tree of a source file, as written.

* `Mark` — the token a node is named after, and the bytes it covers;
* `TypeExpr`, `Pattern`, `Expr` — type annotations, patterns and expressions;
* `SliceItem`, `Arm` — the parts of slice patterns and of matches, shared with the typed trees;
* `Decl`, `Program` — declarations and whole files.
-/

namespace PatternPlan

/-- An item of a slice pattern: an element, or a rest marker with the name it binds (empty when it
binds none) and its place. -/
inductive SliceItem (π : Type) where
  | element (pattern : π)
  | rest (name : String) (span : Span)
deriving Inhabited

namespace SliceItem

def isRest {π : Type} : SliceItem π → Bool
  | .rest _ _ => true
  | .element _ => false

/-- The pattern of an element. -/
def element? {π : Type} : SliceItem π → Option π
  | .element p => some p
  | .rest _ _ => none

end SliceItem

/-- The name an arm gives to the whole target. -/
structure Alias where
  name : String
  span : Span
deriving DecidableEq, Inhabited

/-- One arm of a match.  The alias is bound before the guard is evaluated, whichever was written
first. -/
structure Arm (π ε : Type) where
  span : Span
  pattern : π
  guard : Option ε
  usedIf : Bool
  asName : Option Alias
  body : ε

/-- The prefix operators. -/
inductive UnaryOp where
  | negate | not
deriving DecidableEq, Inhabited

def UnaryOp.symbol : UnaryOp → String
  | negate => "-"
  | not => "!"

/-- The infix operators. -/
inductive BinaryOp where
  | or | and | eq | notEq | less | greater | lessEq | greaterEq
  | add | sub | mul | div | mod
deriving DecidableEq, Inhabited

namespace BinaryOp

def symbol : BinaryOp → String
  | or => "||" | and => "&&" | eq => "==" | notEq => "!="
  | less => "<" | greater => ">" | lessEq => "<=" | greaterEq => ">="
  | add => "+" | sub => "-" | mul => "*" | div => "/" | mod => "%"

/-- How tightly an operator binds; all of them associate to the left. -/
def precedence : BinaryOp → Nat
  | or => 1
  | and => 2
  | eq | notEq => 3
  | less | greater | lessEq | greaterEq => 4
  | add | sub => 5
  | mul | div | mod => 6

/-- The operator a token stands for between two operands. -/
def ofKind? : TokenKind → Option BinaryOp
  | .orOr => some or
  | .andAnd => some and
  | .eq => some eq
  | .notEq => some notEq
  | .less => some less
  | .greater => some greater
  | .lessEq => some lessEq
  | .greaterEq => some greaterEq
  | .plus => some add
  | .minus => some sub
  | .star => some mul
  | .slash => some div
  | .percent => some mod
  | _ => none

end BinaryOp

/-- How tightly anything but an infix operator binds. -/
def Precedence.lowest : Nat := 0

def Precedence.unary : Nat := 7

def Precedence.call : Nat := 8

def Precedence.field : Nat := 9

namespace Surface

/-- The token a node is named after, and the bytes the node covers. -/
structure Mark where
  token : Token
  span : Span
deriving DecidableEq, Inhabited

/-- A type annotation. -/
inductive TypeExpr where
  | named (mark : Mark) (name : String) (args : List TypeExpr)
  | tuple (mark : Mark) (elements : List TypeExpr)
  | array (mark : Mark) (element : TypeExpr)
deriving Inhabited

/-- A bound of a range pattern. -/
structure Bound where
  mark : Mark
  value : Literal
deriving DecidableEq, Inhabited

/-- A pattern.  A range with neither bound is what is left of a range whose end could not be
read. -/
inductive Pattern where
  | wildcard (mark : Mark)
  | var (mark : Mark) (name : String)
  | literal (mark : Mark) (value : Literal)
  | tuple (mark : Mark) (elements : List Pattern)
  | record (mark : Mark) (fields : List (String × Pattern)) (hasRest : Bool)
  | construct (mark : Mark) (name : String) (args : List Pattern)
  | binding (mark : Mark) (name : String) (viaAt : Bool) (inner : Pattern)
  | or (mark : Mark) (alternatives : List Pattern)
  | slice (mark : Mark) (items : List (SliceItem Pattern))
  | range (mark : Mark) (start stop : Option Bound) (inclusive : Bool)
  | regex (mark : Mark) (source : String)
  | active (mark : Mark) (name : String) (kind : RecognizerKind) (arg : Option Pattern)
deriving Inhabited

/-- An expression. -/
inductive Expr where
  | ident (mark : Mark) (name : String)
  | literal (mark : Mark) (value : Literal)
  | construct (mark : Mark) (name : String) (args : List Expr)
  | call (mark : Mark) (callee : Expr) (args : List Expr)
  | unary (mark : Mark) (op : UnaryOp) (operand : Expr)
  | binary (mark : Mark) (op : BinaryOp) (left right : Expr)
  | cond (mark : Mark) (test yes : Expr) (no : Option Expr)
  | select (mark : Mark) (target : Expr) (arms : List (Arm Pattern Expr))
  | block (mark : Mark) (lets : List (String × Expr)) (result : Option Expr)
  | perform (mark : Mark) (effect : String) (args : List Expr)
  | tuple (mark : Mark) (elements : List Expr)
  | array (mark : Mark) (elements : List Expr)
  | record (mark : Mark) (fields : List (String × Expr))
  | field (mark : Mark) (record : Expr) (name : String)
deriving Inhabited

namespace TypeExpr

def mark : TypeExpr → Mark
  | named m _ _ | tuple m _ | array m _ => m

mutual

/-- A type annotation as it is written. -/
def text : TypeExpr → String
  | named _ n [] => n
  | named _ n (t :: ts) => n ++ "<" ++ ", ".intercalate (text t :: texts ts) ++ ">"
  | tuple _ ts => "(" ++ ", ".intercalate (texts ts) ++ ")"
  | array _ t => "[" ++ text t ++ "]"

def texts : List TypeExpr → List String
  | [] => []
  | t :: ts => text t :: texts ts

end

end TypeExpr

namespace Pattern

def mark : Pattern → Mark
  | wildcard m | var m _ | literal m _ | tuple m _ | record m _ _ | construct m _ _
  | binding m _ _ _ | or m _ | slice m _ | range m _ _ _ | regex m _ | active m _ _ _ => m

/-- The bytes a pattern covers. -/
def span (p : Pattern) : Span := p.mark.span

mutual

/-- Whether a range without bounds occurs in a pattern. -/
def hasMissingBound : Pattern → Bool
  | wildcard _ | var _ _ | literal _ _ | regex _ _ => false
  | tuple _ ps | construct _ _ ps | or _ ps => anyMissingBound ps
  | record _ fs _ => anyFieldMissingBound fs
  | binding _ _ _ p => hasMissingBound p
  | slice _ items => anyItemMissingBound items
  | range _ start stop _ => start.isNone && stop.isNone
  | active _ _ _ arg =>
    match arg with
    | some p => hasMissingBound p
    | none => false

def anyMissingBound : List Pattern → Bool
  | [] => false
  | p :: ps => hasMissingBound p || anyMissingBound ps

def anyFieldMissingBound : List (String × Pattern) → Bool
  | [] => false
  | (_, p) :: fs => hasMissingBound p || anyFieldMissingBound fs

def anyItemMissingBound : List (SliceItem Pattern) → Bool
  | [] => false
  | .element p :: is => hasMissingBound p || anyItemMissingBound is
  | .rest _ _ :: is => anyItemMissingBound is

end

end Pattern

namespace Expr

def mark : Expr → Mark
  | ident m _ | literal m _ | construct m _ _ | call m _ _ | unary m _ _ | binary m _ _ _
  | cond m _ _ _ | select m _ _ | block m _ _ | perform m _ _ | tuple m _ | array m _
  | record m _ | field m _ _ => m

/-- The bytes an expression covers. -/
def span (e : Expr) : Span := e.mark.span

end Expr

/-- A match expression: the bytes it covers, its target and its arms. -/
structure Match where
  mark : Mark
  target : Expr
  arms : List (Arm Pattern Expr)

namespace Expr

mutual

/-- Every match in an expression, outer ones before the ones inside, in source order. -/
def allMatches : Expr → List Match
  | ident _ _ | literal _ _ => []
  | construct _ _ es | perform _ _ es | tuple _ es | array _ es => allMatchesOfList es
  | call _ f es => allMatches f ++ allMatchesOfList es
  | unary _ _ e | field _ e _ => allMatches e
  | binary _ _ l r => allMatches l ++ allMatches r
  | cond _ c y n => allMatches c ++ allMatches y ++ allMatchesOfOption n
  | select m t arms => ⟨m, t, arms⟩ :: (allMatches t ++ allMatchesOfArms arms)
  | block _ lets r => allMatchesOfFields lets ++ allMatchesOfOption r
  | record _ fs => allMatchesOfFields fs

def allMatchesOfList : List Expr → List Match
  | [] => []
  | e :: es => allMatches e ++ allMatchesOfList es

def allMatchesOfOption : Option Expr → List Match
  | none => []
  | some e => allMatches e

def allMatchesOfFields : List (String × Expr) → List Match
  | [] => []
  | (_, e) :: fs => allMatches e ++ allMatchesOfFields fs

def allMatchesOfArms : List (Arm Pattern Expr) → List Match
  | [] => []
  | ⟨_, _, guard, _, _, body⟩ :: arms =>
    allMatchesOfOption guard ++ allMatches body ++ allMatchesOfArms arms

end

end Expr

/-! ### Declarations -/

/-- A parameter; its type may be left out. -/
structure Param where
  name : String
  ty : Option TypeExpr

/-- A function. -/
structure Function where
  mark : Mark
  name : String
  params : List Param
  returns : Option TypeExpr
  body : Expr
  isPublic : Bool
  annotations : List String

/-- A recognizer, called from patterns. -/
structure Recognizer where
  mark : Mark
  name : String
  kind : RecognizerKind
  params : List Param
  returns : Option TypeExpr
  body : Expr
  isPublic : Bool
  isPure : Bool

/-- A constructor of a sum type. -/
structure Variant where
  name : String
  fields : List TypeExpr

/-- A sum type, or a record type when it has no constructors. -/
structure TypeDecl where
  mark : Mark
  name : String
  variants : List Variant
  fields : List (String × TypeExpr)
  isPublic : Bool

def TypeDecl.isRecord (d : TypeDecl) : Bool := d.variants.isEmpty

/-- A declaration, or an expression on its own. -/
inductive Decl where
  | function (f : Function)
  | recognizer (r : Recognizer)
  | type (t : TypeDecl)
  | expr (mark : Mark) (e : Expr)

namespace Decl

def mark : Decl → Mark
  | function f => f.mark
  | recognizer r => r.mark
  | type t => t.mark
  | expr m _ => m

/-- The name a declaration introduces; empty for an expression. -/
def name : Decl → String
  | function f => f.name
  | recognizer r => r.name
  | type t => t.name
  | expr _ _ => ""

/-- The expression of a declaration that has one. -/
def body? : Decl → Option Expr
  | function f => some f.body
  | recognizer r => some r.body
  | type _ => none
  | expr _ e => some e

end Decl

/-- A `module` or `use` line. -/
structure PathLine where
  mark : Mark
  path : List String

/-- A source file. -/
structure Program where
  header : Option PathLine := none
  uses : List PathLine := []
  decls : List Decl := []
deriving Inhabited

namespace Program

/-- The first token of the first declaration, as text. -/
def firstToken (p : Program) : String :=
  match p.decls with
  | d :: _ => d.mark.token.text
  | [] => ""

def functions (p : Program) : List Function :=
  p.decls.filterMap fun
    | .function f => some f
    | _ => none

def recognizers (p : Program) : List Recognizer :=
  p.decls.filterMap fun
    | .recognizer r => some r
    | _ => none

def types (p : Program) : List TypeDecl :=
  p.decls.filterMap fun
    | .type t => some t
    | _ => none

/-- The expressions that stand on their own. -/
def expressions (p : Program) : List Expr :=
  p.decls.filterMap fun
    | .expr _ e => some e
    | _ => none

/-- Every match of a file, outer ones before the ones inside, in source order. -/
def allMatches (p : Program) : List Match :=
  p.decls.flatMap fun d =>
    match d.body? with
    | some e => e.allMatches
    | none => []

/-- Whether some range in the file has lost its end. -/
def hasMissingBound (p : Program) : Bool :=
  p.allMatches.any fun m => m.arms.any fun a => a.pattern.hasMissingBound

end Program

end Surface

end PatternPlan
