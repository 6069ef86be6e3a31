import PatternPlan.Typed.Tree
import PatternPlan.Diagnostic.Basic

/-!
# Typing

A shallow assignment of types: annotations and what follows from the form of an expression;
everything else stays unknown.

* `Env`, `Scope` — the declarations of the file, and the names bound around a place;
* `typePattern` — a pattern against the type of the value it is matched with; names it binds are
  added to the scope;
* `typeExpr` — an expression in a scope;
* `typeProgram` — a whole file.  Recognizers are typed first, each seeing what is already known of
  the others, then functions, then the expressions on their own.
-/

namespace PatternPlan

open Typed (Info)

/-- What the type of a function is known to be. -/
structure Signature where
  name : String
  params : List Ty
  result : Ty

/-- The declarations of a file: of two with one name the first counts. -/
structure Env where
  types : TypeTable
  functions : List Signature
  payloads : List (String × Ty)

namespace Env

/-- The type of a declared function. -/
def function? (env : Env) (name : String) : Option Ty :=
  (env.functions.find? fun f => f.name = name).map fun f => .func f.params f.result

/-- What a call of a declared recognizer binds. -/
def payload? (env : Env) (name : String) : Option Ty := Ty.field? name env.payloads

end Env

/-- The names bound around a place, innermost first. -/
abbrev Scope := List (String × Ty)

/-! ### Patterns -/

/-- The element types a tuple pattern of `n` elements gets from the type it is matched with. -/
def tupleElements (n : Nat) : Ty → Option (List Ty)
  | .tuple ts => if ts.length = n then some ts else none
  | _ => none

/-- The element type of an array. -/
def elementType : Ty → Ty
  | .array t => t
  | _ => .unknown

/-- Binds the name of a rest marker, if it has one. -/
def bindRest (name : String) (element : Ty) (scope : Scope) : Scope :=
  if name = "" then scope else (name, .array element) :: scope

/-- A typed bound. -/
def typeBound (b : Surface.Bound) : Typed.Bound := ⟨b.mark.span, b.value⟩

/-- The field types of a constructor pattern, and the type the pattern has when nothing else is
known. -/
def constructorInfo (types : TypeTable) (name : String) (expected : Ty) : List Ty × Ty :=
  match types.constructor? name with
  | some v =>
    (types.fieldTypes v expected, if expected.isUnknown then types.ownerType v else expected)
  | none => ([], expected)

mutual

/-- A pattern matched against a value of type `expected`. -/
def typePattern (env : Env) :
    Surface.Pattern → (expected : Ty) → Scope → Typed.Pattern × Scope
  | .wildcard m, t, scope => (.wildcard ⟨m.span, t⟩, scope)
  | .var m n, t, scope => (.var ⟨m.span, t⟩ n, (n, t) :: scope)
  | .literal m v, _, scope => (.literal ⟨m.span, .ofLiteral v⟩ v, scope)
  | .tuple m ps, t, scope =>
    let known := tupleElements ps.length t
    let r := typePatterns env ps (known.getD []) scope
    let ty := if known.isNone && t.isUnknown then .tuple (r.1.map Typed.Pattern.ty) else t
    (.tuple ⟨m.span, ty⟩ r.1, r.2)
  | .record m fs hasRest, t, scope =>
    let r := typeFields env fs (env.types.recordFields t) scope
    (.record ⟨m.span, t⟩ r.1 hasRest, r.2)
  | .construct m n ps, t, scope =>
    let known := constructorInfo env.types n t
    let r := typePatterns env ps known.1 scope
    (.construct ⟨m.span, known.2⟩ n r.1, r.2)
  | .binding m n viaAt p, t, scope =>
    let r := typePattern env p t scope
    (.binding ⟨m.span, t⟩ n viaAt r.1, (n, t) :: r.2)
  | .or m ps, t, scope =>
    let r := typePatterns env ps (ps.map fun _ => t) scope
    (.or ⟨m.span, t⟩ r.1, r.2)
  | .slice m items, t, scope =>
    let r := typeItems env items (elementType t) scope
    (.slice ⟨m.span, t⟩ r.1, r.2)
  | .range m a b inclusive, t, scope =>
    (.range ⟨m.span, t⟩ (a.map typeBound) (b.map typeBound) inclusive, scope)
  | .regex m s, t, scope => (.regex ⟨m.span, t⟩ s, scope)
  | .active m n kind none, t, scope =>
    (.active ⟨m.span, t⟩ n kind (env.payload? n).isNone none, scope)
  | .active m n kind (some p), t, scope =>
    let r := typePattern env p ((env.payload? n).getD .unknown) scope
    (.active ⟨m.span, t⟩ n kind (env.payload? n).isNone (some r.1), r.2)

/-- Patterns against types; where there is no type, against the unknown one. -/
def typePatterns (env : Env) :
    List Surface.Pattern → (expected : List Ty) → Scope → List Typed.Pattern × Scope
  | [], _, scope => ([], scope)
  | p :: ps, ts, scope =>
    let r := typePattern env p (ts.headD .unknown) scope
    let rest := typePatterns env ps ts.tail r.2
    (r.1 :: rest.1, rest.2)

/-- The fields of a record pattern. -/
def typeFields (env : Env) : List (String × Surface.Pattern) → (known : List (String × Ty)) →
    Scope → List (String × Typed.Pattern) × Scope
  | [], _, scope => ([], scope)
  | (n, p) :: fs, known, scope =>
    let r := typePattern env p ((Ty.field? n known).getD .unknown) scope
    let rest := typeFields env fs known r.2
    ((n, r.1) :: rest.1, rest.2)

/-- The items of a slice pattern. -/
def typeItems (env : Env) : List (SliceItem Surface.Pattern) → (element : Ty) → Scope →
    List (SliceItem Typed.Pattern) × Scope
  | [], _, scope => ([], scope)
  | .element p :: items, t, scope =>
    let r := typePattern env p t scope
    let rest := typeItems env items t r.2
    (.element r.1 :: rest.1, rest.2)
  | .rest n s :: items, t, scope =>
    let rest := typeItems env items t (bindRest n t scope)
    (.rest n s :: rest.1, rest.2)

end

/-! ### Expressions -/

/-- The type of an identifier: a bound name, or else a function. -/
def identType (env : Env) (scope : Scope) (name : String) : Ty :=
  match Ty.field? name scope with
  | some t => t
  | none => (env.function? name).getD .unknown

/-- The type of a constructor applied to arguments. -/
def constructorType (types : TypeTable) (name : String) (args : List Ty) : Ty :=
  match name with
  | "Some" => .option (args.headD .unknown)
  | "None" => .option .unknown
  | "Ok" => .result (args.headD .unknown) .unknown
  | "Err" => .result .unknown (args.headD .unknown)
  | _ => match types.constructor? name with
    | some v => .con v.owner
    | none => .unknown

/-- What a value of a type gives when it is called. -/
def calledResult : Ty → Ty
  | .func _ r => r
  | _ => .unknown

/-- The type of an infix operation. -/
def binaryType (op : BinaryOp) (l r : Ty) : Ty :=
  match op with
  | .eq | .notEq | .less | .lessEq | .greater | .greaterEq | .and | .or => .bool
  | .add => if l.isTextual then l else l.join r
  | _ => l.join r

/-- The type of several branches. -/
def branchType : List Ty → Ty
  | [] => .unknown
  | t :: ts => ts.foldl Ty.join t

/-- The type of the body of an arm. -/
def armType (a : Arm Typed.Pattern Typed.Expr) : Ty := a.body.ty

mutual

/-- An expression in a scope. -/
def typeExpr (env : Env) (scope : Scope) : Surface.Expr → Typed.Expr
  | .ident m n => .ident ⟨m.span, identType env scope n⟩ n
  | .literal m v => .literal ⟨m.span, .ofLiteral v⟩ v
  | .construct m n es =>
    let args := typeExprs env scope es
    .construct ⟨m.span, constructorType env.types n (args.map Typed.Expr.ty)⟩ n args
  | .call m f es =>
    let callee := typeExpr env scope f
    .call ⟨m.span, calledResult callee.ty⟩ callee (typeExprs env scope es)
  | .unary m op e =>
    let operand := typeExpr env scope e
    .unary ⟨m.span, match op with
      | .not => .bool
      | .negate => operand.ty⟩ op operand
  | .binary m op l r =>
    let left := typeExpr env scope l
    let right := typeExpr env scope r
    .binary ⟨m.span, binaryType op left.ty right.ty⟩ op left right
  | .cond m c y none => .cond ⟨m.span, .unit⟩ (typeExpr env scope c) (typeExpr env scope y) none
  | .cond m c y (some n) =>
    let yes := typeExpr env scope y
    let no := typeExpr env scope n
    .cond ⟨m.span, yes.ty.join no.ty⟩ (typeExpr env scope c) yes (some no)
  | .select m t arms =>
    let target := typeExpr env scope t
    let typed := typeArms env scope target.ty arms
    .select ⟨m.span, branchType (typed.map armType)⟩ target typed
  | .block m lets none =>
    .block ⟨m.span, .unit⟩ (typeLets env scope lets).1 none
  | .block m lets (some e) =>
    let r := typeLets env scope lets
    let result := typeExpr env r.2 e
    .block ⟨m.span, result.ty⟩ r.1 (some result)
  | .perform m n es => .perform ⟨m.span, .unknown⟩ n (typeExprs env scope es)
  | .tuple m es =>
    let elements := typeExprs env scope es
    .tuple ⟨m.span, .tuple (elements.map Typed.Expr.ty)⟩ elements
  | .array m es =>
    let elements := typeExprs env scope es
    .array ⟨m.span, .array ((elements.map Typed.Expr.ty).foldl Ty.join .unknown)⟩ elements
  | .record m fs =>
    let fields := typeRecord env scope fs
    .record ⟨m.span, .record "" (fields.map fun f => (f.1, f.2.ty))⟩ fields
  | .field m e n =>
    let r := typeExpr env scope e
    .field ⟨m.span, (Ty.field? n (env.types.recordFields r.ty)).getD .unknown⟩ r n

def typeExprs (env : Env) (scope : Scope) : List Surface.Expr → List Typed.Expr
  | [] => []
  | e :: es => typeExpr env scope e :: typeExprs env scope es

/-- The bindings of a block, each seeing the ones before it, and the scope after them. -/
def typeLets (env : Env) (scope : Scope) :
    List (String × Surface.Expr) → List (String × Typed.Expr) × Scope
  | [] => ([], scope)
  | (n, e) :: ls =>
    let v := typeExpr env scope e
    let rest := typeLets env ((n, v.ty) :: scope) ls
    ((n, v) :: rest.1, rest.2)

def typeRecord (env : Env) (scope : Scope) :
    List (String × Surface.Expr) → List (String × Typed.Expr)
  | [] => []
  | (n, e) :: fs => (n, typeExpr env scope e) :: typeRecord env scope fs

/-- The arms of a match on a value of type `target`.  The alias is in scope in the guard. -/
def typeArms (env : Env) (scope : Scope) (target : Ty) :
    List (Arm Surface.Pattern Surface.Expr) → List (Arm Typed.Pattern Typed.Expr)
  | [] => []
  | ⟨span, p, guard, usedIf, asName, body⟩ :: arms =>
    let r := typePattern env p target scope
    let inner := match asName with
      | some a => (a.name, target) :: r.2
      | none => r.2
    ⟨span, r.1, (match guard with
      | some g => some (typeExpr env inner g)
      | none => none), usedIf, asName, typeExpr env inner body⟩ :: typeArms env scope target arms

end

theorem length_typeArms (env : Env) (scope : Scope) (target : Ty)
    (arms : List (Arm Surface.Pattern Surface.Expr)) :
    (typeArms env scope target arms).length = arms.length := by
  induction arms with
  | nil => rfl
  | cons a arms ih => rw [typeArms.eq_def, List.length_cons, List.length_cons, ih]

/-! ### Files -/

/-- Declares a type, or reports why it cannot be declared. -/
def declareType (r : TypeTable × List Diagnostic) (d : Surface.TypeDecl) :
    TypeTable × List Diagnostic :=
  let declared :=
    if d.isRecord then
      r.1.declareRecord d.name (d.fields.map fun f => (f.1, .ofTypeExpr f.2))
    else
      r.1.declareSum
        { name := d.name
          variants := d.variants.map fun v => TypeTable.variant v.name (Ty.ofTypeExprs v.fields) }
  match declared with
  | .ok t => (t, r.2)
  | .error e => (r.1, r.2 ++ [Diagnostic.new .typeDuplicate d.mark.span [.str e.message]])

/-- Parameters with their types. -/
def typeParams (ps : List Surface.Param) : List Typed.Param :=
  ps.map fun p => ⟨p.name, .ofTypeExpr? p.ty⟩

/-- The scope of a body; of two parameters with one name the last counts. -/
def paramScope (ps : List Typed.Param) : Scope := (ps.map fun p => (p.name, p.ty)).reverse

/-- What is known of a function before its body is typed. -/
def declaredSignature (f : Surface.Function) : Signature :=
  ⟨f.name, (typeParams f.params).map Typed.Param.ty, .ofTypeExpr? f.returns⟩

/-- What is known of a function after its body is typed. -/
def inferredSignature (f : Typed.Function) : Signature :=
  ⟨f.name, f.params.map Typed.Param.ty, f.result⟩

/-- What a call of a recognizer binds, as far as its annotation tells. -/
def declaredPayload (r : Surface.Recognizer) : String × Ty :=
  (r.name, match r.kind with
    | .optional => (Ty.ofTypeExpr? r.returns).payload
    | .total => .ofTypeExpr? r.returns)

/-- A recognizer with its body typed. -/
def typeRecognizer (env : Env) (r : Surface.Recognizer) : Typed.Recognizer :=
  let params := typeParams r.params
  let declared := Ty.ofTypeExpr? r.returns
  let body := typeExpr env (paramScope params) r.body
  { name := r.name
    kind := r.kind
    params := params
    declared := declared
    returns := if body.ty.isUnknown then declared else body.ty
    body := body
    isPure := r.isPure
    isPublic := r.isPublic
    span := r.mark.span }

/-- Recognizers in order, each seeing the inferred payloads of the ones before it. -/
def typeRecognizers (types : TypeTable) (functions : List Signature) :
    (done : List Typed.Recognizer) → List Surface.Recognizer → List Typed.Recognizer
  | done, [] => done
  | done, r :: rs =>
    let payloads := done.map (fun d => (d.name, d.payload)) ++ (r :: rs).map declaredPayload
    typeRecognizers types functions (done ++ [typeRecognizer ⟨types, functions, payloads⟩ r]) rs

/-- A function with its body typed; an unknown result becomes the type of the body. -/
def typeFunction (env : Env) (f : Surface.Function) : Typed.Function :=
  let params := typeParams f.params
  let declared := Ty.ofTypeExpr? f.returns
  let body := typeExpr env (paramScope params) f.body
  { name := f.name
    params := params
    result := if declared.isUnknown then body.ty else declared
    body := body
    isPublic := f.isPublic
    span := f.mark.span }

/-- Functions in order, each seeing the inferred results of the ones before it. -/
def typeFunctions (types : TypeTable) (payloads : List (String × Ty)) :
    (done : List Typed.Function) → List Surface.Function → List Typed.Function
  | done, [] => done
  | done, f :: fs =>
    let signatures := done.map inferredSignature ++ (f :: fs).map declaredSignature
    typeFunctions types payloads (done ++ [typeFunction ⟨types, signatures, payloads⟩ f]) fs

/-- A whole file, with the declarations that clash. -/
def typeProgram (file : String) (p : Surface.Program) : Typed.Module × List Diagnostic :=
  let (types, clashes) := p.types.foldl declareType (TypeTable.builtin, [])
  let recognizers :=
    typeRecognizers types (p.functions.map declaredSignature) [] p.recognizers
  let payloads := recognizers.map fun r => (r.name, r.payload)
  let functions := typeFunctions types payloads [] p.functions
  let env : Env := ⟨types, functions.map inferredSignature, payloads⟩
  ({ name := match p.header with
      | some h => ".".intercalate h.path
      | none => ""
     file := file
     functions := functions
     recognizers := recognizers
     inline := p.expressions.map (typeExpr env [])
     types := types }, clashes)

end PatternPlan
