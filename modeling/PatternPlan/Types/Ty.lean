import PatternPlan.Surface.Tree

/-!
# Types

* `Ty` — the types of the language; `unknown` stands for a type that could not be determined;
* `Ty.text` — a type as messages show it;
* `Ty.agrees` — structural equality, `unknown` agreeing with anything;
* `Ty.join` — the type of two branches, keeping what is known;
* `Ty.ofTypeExpr` — the type a written annotation stands for.
-/

namespace PatternPlan

/-- A type.  A declared record carries its name; an empty name means a record written out. -/
inductive Ty where
  | con (name : String)
  | app (name : String) (args : List Ty)
  | tuple (elements : List Ty)
  | array (element : Ty)
  | record (name : String) (fields : List (String × Ty))
  | func (params : List Ty) (result : Ty)
  | unknown
deriving Inhabited

namespace Ty

def int : Ty := con "Int"

def float : Ty := con "Float"

def string : Ty := con "String"

def bytes : Ty := con "Bytes"

def bool : Ty := con "Bool"

def unit : Ty := con "()"

def option (t : Ty) : Ty := app "Option" [t]

def result (ok err : Ty) : Ty := app "Result" [ok, err]

mutual

/-- A type as messages show it. -/
def text : Ty → String
  | con n => n
  | app n ts => n ++ "<" ++ ", ".intercalate (texts ts) ++ ">"
  | tuple ts => "(" ++ ", ".intercalate (texts ts) ++ ")"
  | array t => "[" ++ text t ++ "]"
  | record "" fs => "\x7b " ++ ", ".intercalate (fieldTexts fs) ++ " \x7d"
  | record n _ => n
  | func ps r => "(" ++ ", ".intercalate (texts ps) ++ ") -> " ++ text r
  | unknown => "?"

def texts : List Ty → List String
  | [] => []
  | t :: ts => text t :: texts ts

def fieldTexts : List (String × Ty) → List String
  | [] => []
  | (n, t) :: fs => (n ++ ": " ++ text t) :: fieldTexts fs

end

def isUnknown : Ty → Bool
  | unknown => true
  | _ => false

/-- Whether a type is `Option` of something. -/
def isOption : Ty → Bool
  | app n _ => n = "Option"
  | _ => false

/-- Whether a type is `Result` of something. -/
def isResult : Ty → Bool
  | app n _ => n = "Result"
  | _ => false

/-- What an option holds. -/
def payload : Ty → Ty
  | app n [t] => if n = "Option" then t else unknown
  | _ => unknown

/-- Whether regexes can be matched against values of the type. -/
def isTextual : Ty → Bool
  | con n => n = "String" || n = "Bytes"
  | _ => false

/-- Whether range patterns can be used on values of the type. -/
def isOrdered : Ty → Bool
  | con n => n = "Int" || n = "Float" || n = "String"
  | _ => false

/-- The type of a field. -/
def field? (name : String) : List (String × Ty) → Option Ty
  | [] => none
  | (n, t) :: fs => if n = name then some t else field? name fs

mutual

/-- Equality of types; `unknown` agrees with anything, and declared records agree by name. -/
def agrees : Ty → Ty → Bool
  | unknown, _ => true
  | con a, u => match u with
    | unknown => true
    | con b => a = b
    | _ => false
  | app a ts, u => match u with
    | unknown => true
    | app b us => a = b && agreesAll ts us
    | _ => false
  | tuple ts, u => match u with
    | unknown => true
    | tuple us => agreesAll ts us
    | _ => false
  | array t, u => match u with
    | unknown => true
    | array u => agrees t u
    | _ => false
  | record a fs, u => match u with
    | unknown => true
    | record b gs => if a ≠ "" || b ≠ "" then a = b else agreesFields fs gs
    | _ => false
  | func ps r, u => match u with
    | unknown => true
    | func qs s => agreesAll ps qs && agrees r s
    | _ => false

def agreesAll : List Ty → List Ty → Bool
  | [], [] => true
  | t :: ts, u :: us => agrees t u && agreesAll ts us
  | _, _ => false

def agreesFields : List (String × Ty) → List (String × Ty) → Bool
  | [], [] => true
  | (a, t) :: fs, (b, u) :: gs => a = b && agrees t u && agreesFields fs gs
  | _, _ => false

end

mutual

/-- The type of two branches: what is known of either; `unknown` if they disagree. -/
def join : Ty → Ty → Ty
  | unknown, u => u
  | app a ts, u => match u with
    | unknown => app a ts
    | app b us =>
      if a = b && ts.length = us.length then app a (joinAll ts us)
      else if agrees (app a ts) (app b us) then app a ts else unknown
    | u => if agrees (app a ts) u then app a ts else unknown
  | t, u => if u.isUnknown || agrees t u then t else unknown

def joinAll : List Ty → List Ty → List Ty
  | t :: ts, u :: us => join t u :: joinAll ts us
  | _, _ => []

end

/-- The type of a constant. -/
def ofLiteral : Literal → Ty
  | .int _ => int
  | .float _ => float
  | .text _ => string
  | .bool _ => bool
  | .unit => unit

/-- The type of an applied name. -/
def ofName (name : String) (args : List Ty) : Ty :=
  match name, args with
  | "Int", _ => int
  | "Float", _ => float
  | "String", _ => string
  | "Bytes", _ => bytes
  | "Bool", _ => bool
  | "Array", [t] => array t
  | "List", [t] => array t
  | n, [] => con n
  | n, ts => app n ts

mutual

/-- The type an annotation stands for. -/
def ofTypeExpr : Surface.TypeExpr → Ty
  | .named _ n ts => ofName n (ofTypeExprs ts)
  | .tuple _ [] => unit
  | .tuple _ (t :: ts) => tuple (ofTypeExpr t :: ofTypeExprs ts)
  | .array _ t => array (ofTypeExpr t)

def ofTypeExprs : List Surface.TypeExpr → List Ty
  | [] => []
  | t :: ts => ofTypeExpr t :: ofTypeExprs ts

end

/-- The type of an annotation that may be left out. -/
def ofTypeExpr? : Option Surface.TypeExpr → Ty
  | some t => ofTypeExpr t
  | none => unknown

end Ty

end PatternPlan
