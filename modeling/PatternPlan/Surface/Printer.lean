import PatternPlan.Surface.Tree

/-!
# Printing programs

A tree as source text that parses back to the same tree.

* `Literal.source` — a constant as the lexer reads it;
* `Pattern.print` — a pattern in one of three positions (`Position`), with parentheses only where
  the position needs them;
* `Expr.print` — an expression; operands get parentheses by precedence, and a match that more text
  follows gets them in any case, since it would take in what follows;
* `Program.print` — a whole file, a blank line between declarations.
-/

namespace PatternPlan

/-- One character of a string literal. -/
def sourceEscape (c : Char) : List Char :=
  if c = '\\' then ['\\', '\\']
  else if c = '"' then ['\\', '"']
  else if c = '\n' then ['\\', 'n']
  else if c = '\t' then ['\\', 't']
  else if c = '\r' then ['\\', 'r']
  else if c = '\x00' then ['\\', '0']
  else [c]

/-- A string literal. -/
def sourceString (s : String) : String :=
  String.ofList ('"' :: s.toList.flatMap sourceEscape ++ ['"'])

/-- A regex literal. -/
def sourceRegex (s : String) : String :=
  String.ofList ('r' :: '"' ::
    s.toList.flatMap (fun c => if c = '"' then ['\\', '"'] else [c]) ++ ['"'])

/-- A float literal: without an exponent, and with a point. -/
def sourceDouble (d : Double) : String :=
  let s := d.positional
  if s.toList.contains '.' then s else s ++ ".0"

/-- A constant as the lexer reads it. -/
def Literal.source : Literal → String
  | .int i => decimal i
  | .float d => sourceDouble d
  | .text s => sourceString s
  | .bool b => if b then "true" else "false"
  | .unit => "()"

/-- A text in parentheses, or as it is. -/
def parenthesized (b : Bool) (s : String) : String := if b then "(" ++ s ++ ")" else s

namespace Surface

/-- Where a pattern stands: at the top of an arm, inside another pattern, or where only one
pattern without `|` and `as` may stand. -/
inductive Position where
  | arm | nested | primary
deriving DecidableEq

namespace Pattern

/-- Whether a pattern is the variable with a given name. -/
def isVar (name : String) : Pattern → Bool
  | var _ n => n = name
  | _ => false

/-- The operator of a range. -/
def rangeSymbol (inclusive : Bool) : String := if inclusive then "..=" else ".."

/-- A bound of a range, if it has it. -/
def printBound : Option Bound → String
  | some b => b.value.source
  | none => ""

mutual

/-- A pattern as it is written in a position. -/
def print (place : Position) : Pattern → String
  | wildcard _ => "_"
  | var _ n => n
  | literal _ v => v.source
  | tuple _ ps => "(" ++ ", ".intercalate (printAll .nested ps) ++ ")"
  | record _ [] false => "\x7b\x7d"
  | record _ [] true => "\x7b .. \x7d"
  | record _ (f :: fs) rest =>
    "\x7b " ++ ", ".intercalate (printFields (f :: fs)) ++ (if rest then ", .." else "") ++ " \x7d"
  | construct _ n [] => n
  | construct _ n (p :: ps) => n ++ "(" ++ ", ".intercalate (printAll .nested (p :: ps)) ++ ")"
  | binding _ n true p => n ++ " @ " ++ print .primary p
  | binding _ n false p => parenthesized (place ≠ .nested) (print .nested p ++ " as " ++ n)
  | or _ ps => parenthesized (place = .primary) (" | ".intercalate (printAll .primary ps))
  | slice _ items => "[" ++ ", ".intercalate (printItems items) ++ "]"
  | range _ start stop inclusive =>
    printBound start ++ rangeSymbol inclusive ++ printBound stop
  | regex _ s => sourceRegex s
  | active _ n kind none => kind.label n
  | active _ n kind (some p) => kind.label n ++ " " ++ print .primary p

def printAll (place : Position) : List Pattern → List String
  | [] => []
  | p :: ps => print place p :: printAll place ps

def printFields : List (String × Pattern) → List String
  | [] => []
  | (n, p) :: fs => (if p.isVar n then n else n ++ ": " ++ print .nested p) :: printFields fs

def printItems : List (SliceItem Pattern) → List String
  | [] => []
  | .element p :: is => print .nested p :: printItems is
  | .rest n _ :: is => (".." ++ n) :: printItems is

end

/-- A pattern as it is written at the top of an arm. -/
def text (p : Pattern) : String := p.print .arm

end Pattern

namespace Expr

/-- How tightly an expression binds; what needs no parentheses anywhere binds tightest. -/
def precedence : Expr → Nat
  | binary _ op _ _ => op.precedence
  | unary _ _ _ => Precedence.unary
  | call _ _ _ | field _ _ _ => Precedence.call
  | cond _ _ _ _ | select _ _ _ => Precedence.lowest
  | _ => Precedence.field

/-- Whether an expression is a match. -/
def isSelect : Expr → Bool
  | select _ _ _ => true
  | _ => false

/-- The printed form of an operand of an operator. -/
def operand (parent : Nat) (e : Expr) (printed : String) : String :=
  parenthesized (e.precedence < parent) printed

/-- The printed form of an expression that more text follows. -/
def followed (e : Expr) (printed : String) : String := parenthesized e.isSelect printed

/-- The name and guard of an arm between its pattern and its arrow. -/
def printAlias : Option Alias → String
  | some a => " as " ++ a.name
  | none => ""

/-- A new line at a level of indentation. -/
def newline (level : Nat) : String :=
  String.ofList ('\n' :: List.replicate (4 * level) ' ')

mutual

/-- An expression as it is written where no parentheses are needed, the matches in it standing at
a level of indentation. -/
def print (level : Nat) : Expr → String
  | ident _ n => n
  | literal _ v => v.source
  | construct _ n [] => n
  | construct _ n (e :: es) => n ++ "(" ++ ", ".intercalate (printList level (e :: es)) ++ ")"
  | call _ f es =>
    operand Precedence.call f (print level f) ++ "(" ++ ", ".intercalate (printList level es) ++ ")"
  | field _ e n => operand Precedence.call e (print level e) ++ "." ++ n
  | unary _ op e => op.symbol ++ operand Precedence.unary e (print level e)
  | binary _ op l r =>
    operand op.precedence l (print level l) ++ " " ++ op.symbol ++ " "
      ++ operand (op.precedence + 1) r (print level r)
  | cond _ c y n =>
    "if " ++ followed c (print level c) ++ " then " ++ followed y (print level y)
      ++ (match n with
        | some e => " else " ++ followed e (print level e)
        | none => "")
  | select _ t arms =>
    "match " ++ followed t (print level t) ++ " with" ++ printArms (level + 1) arms
  | block _ lets result =>
    "\x7b " ++ printLets level lets
      ++ (match result with
        | some e => print level e ++ " "
        | none => "") ++ "\x7d"
  | perform _ n es => "perform " ++ n ++ "(" ++ ", ".intercalate (printList level es) ++ ")"
  | tuple _ es => "(" ++ ", ".intercalate (printList level es) ++ ")"
  | array _ es => "[" ++ ", ".intercalate (printList level es) ++ "]"
  | record _ fs => "\x7b " ++ ", ".intercalate (printFields level fs) ++ " \x7d"

def printList (level : Nat) : List Expr → List String
  | [] => []
  | e :: es => followed e (print level e) :: printList level es

def printLets (level : Nat) : List (String × Expr) → String
  | [] => ""
  | (n, e) :: ls => "let " ++ n ++ " = " ++ followed e (print level e) ++ "; " ++ printLets level ls

def printFields (level : Nat) : List (String × Expr) → List String
  | [] => []
  | (n, e) :: fs => (n ++ ": " ++ followed e (print level e)) :: printFields level fs

def printArms (level : Nat) : List (Arm Pattern Expr) → String
  | [] => ""
  | ⟨_, p, guard, usedIf, asName, body⟩ :: arms =>
    newline level ++ "| " ++ p.text ++ printAlias asName
      ++ (match guard with
        | some g => (if usedIf then " if " else " when ") ++ followed g (print level g)
        | none => "")
      ++ " -> "
      ++ (if arms.isEmpty then print level body else followed body (print level body))
      ++ printArms level arms

end

/-- An expression as it is written on its own. -/
def text (e : Expr) : String := e.print 0

end Expr

/-! ### Declarations -/

/-- Parameters in parentheses. -/
def printParams (ps : List Param) : String :=
  let one (p : Param) : String := match p.ty with
    | some t => p.name ++ ": " ++ t.text
    | none => p.name
  "(" ++ ", ".intercalate (ps.map one) ++ ")"

/-- A result type with its arrow. -/
def printResult : Option TypeExpr → String
  | some t => " -> " ++ t.text
  | none => ""

def printPublic (isPublic : Bool) : String := if isPublic then "pub " else ""

def Variant.print (v : Variant) : String :=
  match v.fields with
  | [] => "| " ++ v.name
  | fs => "| " ++ v.name ++ "(" ++ ", ".intercalate (fs.map TypeExpr.text) ++ ")"

def TypeDecl.print (d : TypeDecl) : String :=
  printPublic d.isPublic ++ "type " ++ d.name ++ " = "
    ++ (if d.isRecord then
        "\x7b " ++ ", ".intercalate (d.fields.map fun f => f.1 ++ ": " ++ f.2.text) ++ " \x7d"
      else " ".intercalate (d.variants.map Variant.print))

def Function.print (f : Function) : String :=
  String.join (f.annotations.map fun a => "@" ++ a ++ " ") ++ printPublic f.isPublic
    ++ "fn " ++ f.name ++ printParams f.params ++ printResult f.returns ++ " = " ++ f.body.text

def Recognizer.print (r : Recognizer) : String :=
  (if r.isPure then "@pure " else "") ++ printPublic r.isPublic ++ "pattern "
    ++ r.kind.label r.name ++ printParams r.params ++ printResult r.returns ++ " = " ++ r.body.text

def Decl.print : Decl → String
  | .function f => f.print
  | .recognizer r => r.print
  | .type t => t.print
  | .expr _ e => e.text

/-- A whole file: the module and use lines, then the declarations with a blank line between
them. -/
def Program.print (p : Program) : String :=
  let line (keyword : String) (l : PathLine) : String :=
    keyword ++ " " ++ ".".intercalate l.path ++ "\n"
  let head := p.header.toList.map (line "module") ++ p.uses.map (line "use")
  String.join head ++ (if head.isEmpty then "" else "\n")
    ++ "\n".intercalate (p.decls.map fun d => d.print ++ "\n")

/-- The text of a file; there is none when a range in it has lost its end. -/
def Program.print? (p : Program) : Option String :=
  if p.hasMissingBound then none else some p.print

end Surface

end PatternPlan
