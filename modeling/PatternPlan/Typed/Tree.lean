import PatternPlan.Types.Table

/-!
# Typed trees

Patterns, expressions and declarations annotated with types.

* `Info` — the bytes a node covers, and its type;
* `Typed.Pattern`, `Typed.Expr` — nodes of the same shapes as in the surface trees;
* `Typed.Match` — a match with its typed target and arms;
* `Typed.Module` — the declarations of a file.
-/

namespace PatternPlan.Typed

/-- The bytes a node covers, and its type. -/
structure Info where
  span : Span
  ty : Ty
deriving Inhabited

/-- A bound of a range pattern. -/
structure Bound where
  span : Span
  value : Literal
deriving DecidableEq, Inhabited

def Bound.ty (b : Bound) : Ty := .ofLiteral b.value

/-- A typed pattern.  A recognizer call is unresolved when no recognizer of its name is
declared. -/
inductive Pattern where
  | wildcard (info : Info)
  | var (info : Info) (name : String)
  | literal (info : Info) (value : Literal)
  | tuple (info : Info) (elements : List Pattern)
  | record (info : Info) (fields : List (String × Pattern)) (hasRest : Bool)
  | construct (info : Info) (name : String) (args : List Pattern)
  | binding (info : Info) (name : String) (viaAt : Bool) (inner : Pattern)
  | or (info : Info) (alternatives : List Pattern)
  | slice (info : Info) (items : List (SliceItem Pattern))
  | range (info : Info) (start stop : Option Bound) (inclusive : Bool)
  | regex (info : Info) (source : String)
  | active (info : Info) (name : String) (kind : RecognizerKind) (unresolved : Bool)
      (arg : Option Pattern)
deriving Inhabited

/-- A typed expression. -/
inductive Expr where
  | ident (info : Info) (name : String)
  | literal (info : Info) (value : Literal)
  | construct (info : Info) (name : String) (args : List Expr)
  | call (info : Info) (callee : Expr) (args : List Expr)
  | unary (info : Info) (op : UnaryOp) (operand : Expr)
  | binary (info : Info) (op : BinaryOp) (left right : Expr)
  | cond (info : Info) (test yes : Expr) (no : Option Expr)
  | select (info : Info) (target : Expr) (arms : List (Arm Pattern Expr))
  | block (info : Info) (lets : List (String × Expr)) (result : Option Expr)
  | perform (info : Info) (effect : String) (args : List Expr)
  | tuple (info : Info) (elements : List Expr)
  | array (info : Info) (elements : List Expr)
  | record (info : Info) (fields : List (String × Expr))
  | field (info : Info) (record : Expr) (name : String)
deriving Inhabited

namespace Pattern

def info : Pattern → Info
  | wildcard i | var i _ | literal i _ | tuple i _ | record i _ _ | construct i _ _
  | binding i _ _ _ | or i _ | slice i _ | range i _ _ _ | regex i _ | active i _ _ _ _ => i

def span (p : Pattern) : Span := p.info.span

def ty (p : Pattern) : Ty := p.info.ty

/-- The name of the form of a pattern. -/
def form : Pattern → String
  | wildcard _ => "wildcard"
  | var _ _ => "var"
  | literal _ _ => "literal"
  | tuple _ _ => "tuple"
  | record _ _ _ => "record"
  | construct _ _ _ => "constructor"
  | binding _ _ _ _ => "binding"
  | or _ _ => "or"
  | slice _ _ => "slice"
  | range _ _ _ _ => "range"
  | regex _ _ => "regex"
  | active _ _ _ _ _ => "active"

mutual

/-- A pattern and all patterns inside it, each before the ones inside it.  Bounds of ranges are
not patterns of their own. -/
def nodes : Pattern → List Pattern
  | wildcard i => [wildcard i]
  | var i n => [var i n]
  | literal i v => [literal i v]
  | tuple i ps => tuple i ps :: nodesOfList ps
  | record i fs r => record i fs r :: nodesOfFields fs
  | construct i n ps => construct i n ps :: nodesOfList ps
  | binding i n v p => binding i n v p :: nodes p
  | or i ps => or i ps :: nodesOfList ps
  | slice i is => slice i is :: nodesOfItems is
  | range i a b c => [range i a b c]
  | regex i s => [regex i s]
  | active i n k u none => [active i n k u none]
  | active i n k u (some p) => active i n k u (some p) :: nodes p

def nodesOfList : List Pattern → List Pattern
  | [] => []
  | p :: ps => nodes p ++ nodesOfList ps

def nodesOfFields : List (String × Pattern) → List Pattern
  | [] => []
  | (_, p) :: fs => nodes p ++ nodesOfFields fs

def nodesOfItems : List (SliceItem Pattern) → List Pattern
  | [] => []
  | .element p :: is => nodes p ++ nodesOfItems is
  | .rest _ _ :: is => nodesOfItems is

end

/-- Whether a pattern is a call of a recognizer that may miss. -/
def isOptionalCall : Pattern → Bool
  | active _ _ kind _ _ => kind = .optional
  | _ => false

/-- Whether a recognizer that may miss is called anywhere in a pattern. -/
def usesOptional (p : Pattern) : Bool := p.nodes.any isOptionalCall

mutual

/-- How deep a pattern nests. -/
def depth : Pattern → Nat
  | wildcard _ | var _ _ | literal _ _ | range _ _ _ _ | regex _ _ => 1
  | tuple _ ps | construct _ _ ps | or _ ps => depthOfList ps + 1
  | record _ fs _ => depthOfFields fs + 1
  | binding _ _ _ p => depth p + 1
  | slice _ is => depthOfItems is + 1
  | active _ _ _ _ none => 1
  | active _ _ _ _ (some p) => depth p + 1

def depthOfList : List Pattern → Nat
  | [] => 0
  | p :: ps => max (depth p) (depthOfList ps)

def depthOfFields : List (String × Pattern) → Nat
  | [] => 0
  | (_, p) :: fs => max (depth p) (depthOfFields fs)

def depthOfItems : List (SliceItem Pattern) → Nat
  | [] => 0
  | .element p :: is => max (depth p) (depthOfItems is)
  | .rest _ _ :: is => depthOfItems is

end

end Pattern

namespace Expr

def info : Expr → Info
  | ident i _ | literal i _ | construct i _ _ | call i _ _ | unary i _ _ | binary i _ _ _
  | cond i _ _ _ | select i _ _ | block i _ _ | perform i _ _ | tuple i _ | array i _
  | record i _ | field i _ _ => i

def span (e : Expr) : Span := e.info.span

def ty (e : Expr) : Ty := e.info.ty

/-- The name of the form of an expression. -/
def form : Expr → String
  | ident _ _ => "ident"
  | literal _ _ => "literal"
  | construct _ _ _ => "constructor"
  | call _ _ _ => "call"
  | unary _ _ _ => "prefix"
  | binary _ _ _ _ => "infix"
  | cond _ _ _ _ => "if"
  | select _ _ _ => "match"
  | block _ _ _ => "block"
  | perform _ _ _ => "perform"
  | tuple _ _ => "tuple"
  | array _ _ => "array"
  | record _ _ => "record"
  | field _ _ _ => "field"

end Expr

/-- A typed match: the bytes it covers, its target and its arms. -/
structure Match where
  span : Span
  target : Expr
  arms : List (Arm Pattern Expr)

namespace Expr

mutual

/-- Every match in an expression, outer ones before the ones inside, in source order. -/
def allMatches : Expr → List Match
  | ident _ _ | literal _ _ => []
  | construct _ _ es | perform _ _ es | tuple _ es | array _ es => allMatchesOfList es
  | call _ f es => allMatches f ++ allMatchesOfList es
  | unary _ _ e | field _ e _ => allMatches e
  | binary _ _ l r => allMatches l ++ allMatches r
  | cond _ c y n => allMatches c ++ allMatches y ++ allMatchesOfOption n
  | select i t arms => ⟨i.span, t, arms⟩ :: (allMatches t ++ allMatchesOfArms arms)
  | block _ lets r => allMatchesOfFields lets ++ allMatchesOfOption r
  | record _ fs => allMatchesOfFields fs

def allMatchesOfList : List Expr → List Match
  | [] => []
  | e :: es => allMatches e ++ allMatchesOfList es

def allMatchesOfOption : Option Expr → List Match
  | none => []
  | some e => allMatches e

def allMatchesOfFields : List (String × Expr) → List Match
  | [] => []
  | (_, e) :: fs => allMatches e ++ allMatchesOfFields fs

def allMatchesOfArms : List (Arm Pattern Expr) → List Match
  | [] => []
  | ⟨_, _, guard, _, _, body⟩ :: arms =>
    allMatchesOfOption guard ++ allMatches body ++ allMatchesOfArms arms

end

end Expr

/-! ### Declarations -/

/-- A parameter with its type. -/
structure Param where
  name : String
  ty : Ty

/-- A function. -/
structure Function where
  name : String
  params : List Param
  result : Ty
  body : Expr
  isPublic : Bool
  span : Span

/-- A recognizer: `declared` is its annotation, `returns` what its body produces if that is
known. -/
structure Recognizer where
  name : String
  kind : RecognizerKind
  params : List Param
  declared : Ty
  returns : Ty
  body : Expr
  isPure : Bool
  isPublic : Bool
  span : Span

namespace Recognizer

/-- What a call of the recognizer binds. -/
def payload (r : Recognizer) : Ty :=
  match r.kind with
  | .optional => r.returns.payload
  | .total => r.returns

/-- The name of the recognizer as it is called. -/
def label (r : Recognizer) : String := r.kind.label r.name

end Recognizer

/-- The declarations of a file; `inline` holds the expressions that stand on their own. -/
structure Module where
  name : String
  file : String
  functions : List Function
  recognizers : List Recognizer
  inline : List Expr
  types : TypeTable

namespace Module

/-- The matches of a file: in recognizers, then in functions, then in expressions on their own. -/
def allMatches (m : Module) : List Match :=
  m.recognizers.flatMap (fun r => r.body.allMatches)
    ++ m.functions.flatMap (fun f => f.body.allMatches)
    ++ m.inline.flatMap Expr.allMatches

end Module

end PatternPlan.Typed
