import PatternPlan.Document.Writer
import PatternPlan.Json.Shape

/-!
# Reading documents

A record is read from the values written to its fields.  A strict reader refuses unknown keys; inside
patterns and constants they are skipped.

* `Plan.reader`, `Lowered.Pattern.reader`, `Lowered.Module.reader` — the types of the format;
* `Plan.ofJson?`, `Lowered.Pattern.ofJson?`, `Lowered.Module.ofJson?` — what a value describes;
* `PlanSet.decode`, `Plan.decode`, `Lowered.Module.decode` — documents that keep their contract.
-/

namespace PatternPlan

open Reader

/-! ### Plans -/

def Span.reader (strict : Bool) : Reader Span :=
  record strict ["start", "end", "line", "column"] fun values => do
    let start ← int (values "start")
    let stop ← int (values "end")
    let line ← int (values "line")
    let column ← int (values "column")
    return { start, stop, line, column }

/-- A node of a plan, nested less than `room` deep. -/
def PlanNode.reader (strict : Bool) : (room : Nat) → Reader PlanNode
  | 0 => fun _ => none
  | room + 1 =>
    record strict ["label", "miss_on_none", "always_matches", "children"] fun values => do
      let label ← text (values "label")
      let missOnNone ← flag (values "miss_on_none")
      let alwaysMatches ← flag (values "always_matches")
      let children ← list (reader strict room) (values "children")
      return { label, missOnNone, alwaysMatches, children }

def PlanArm.reader (strict : Bool) (room : Nat) : Reader PlanArm :=
  record strict ["pattern", "has_guard", "alias"] fun values => do
    let node ← PlanNode.reader strict room (values "pattern")
    let hasGuard ← flag (values "has_guard")
    let asName ← text (values "alias")
    return { node, hasGuard, asName }

def Plan.reader (strict : Bool) (room : Nat) : Reader Plan :=
  record strict ["owner", "span", "target_type", "arm_count", "arms"] fun values => do
    let owner ← text (values "owner")
    let span ← Span.reader strict (values "span")
    let targetType ← text (values "target_type")
    let armCount ← int (values "arm_count")
    let arms ← listed (PlanArm.reader strict room) (values "arms")
    return { owner, span, targetType, armCount, arms }

/-- The plan a value describes. -/
def Plan.ofJson? (strict : Bool) (j : Json) : Option Plan := Plan.reader strict (j.depth + 1) [j]

def PlanSet.reader (room : Nat) : Reader PlanSet :=
  record true ["schema_version", "file", "run_id", "plans"] fun values => do
    let schema ← text (values "schema_version")
    let file ← text (values "file")
    let run ← text (values "run_id")
    let plans ← listed (Plan.reader true room) (values "plans")
    return { schema, file, run, plans }

/-- The set of plans a value describes. -/
def PlanSet.ofJson? (j : Json) : Option PlanSet := PlanSet.reader (j.depth + 1) [j]

/-! ### Patterns -/

/-- The constant that a type and a value describe.  Where the value may not be missing, `null` stands
for the default. -/
def Literal.ofParts? (type : String) (value : Option Json) : Option Literal :=
  match type with
  | "int" => value.bind fun v => (Reader.int [v]).map .int
  | "float" => match value with
    | some .null => some (.float (.zero false))
    | some (.number n) => (Json.doubleOfNumeral? n).map .float
    | _ => none
  | "string" => value.bind fun v => (Reader.text [v]).map .text
  | "bool" => (Reader.flag value.toList).map .bool
  | "unit" => some .unit
  | _ => none

/-- The constant a value describes. -/
def Literal.ofJson? (j : Json) : Option Literal :=
  record false ["type", "value"] (fun values =>
    (Reader.text (values "type")).bind fun type => ofParts? type (values "value").getLast?) [j]

/-- A constant: each value replaces the one before. -/
def Literal.reader : Reader Literal := plain Literal.ofJson? .unit

namespace Lowered

/-- The call of a recognizer, with an argument that `argument` reads. -/
def Call.reader (argument : Reader Pattern) : Reader (Call Pattern) :=
  record false ["name", "kind", "argument", "input_binding", "miss_target"] fun values => do
    let name ← text (values "name")
    let kind ← named RecognizerKind.ofName? .total (values "kind")
    let argument ← option argument (values "argument")
    let inputBinding ← text (values "input_binding")
    let missTarget ← option (named JumpTarget.ofName? .nextArm) (values "miss_target")
    return { name, kind, argument, inputBinding, missTarget }

/-- The field of a record pattern, with a value that `value` reads. -/
def fieldReader (value : Reader Pattern) : Reader (String × Option Pattern) :=
  record false ["key", "value"] fun values => do
    let key ← text (values "key")
    let value ← option value (values "value")
    return (key, value)

/-- The key that holds the inner pattern of a binding, or the source of a regular expression. -/
def sharedKey : String := "pattern"

/-- The keys of a pattern. -/
def Pattern.keys : List String := [
  "kind", "span", "ty", "name", "literal", "elements", "fields", "has_rest", "args", "via_at",
  "variants", "head", "rest", "tail", "start", "end", "inclusive", "call", sharedKey]

/-- The fields of a pattern, the shared one apart; the patterns inside it are read by `inner`. -/
def Pattern.build (inner : Reader Pattern) (values : String → List Json) : Option Pattern := do
  let patterns := list (option inner)
  let form ← text (values "kind")
  let span ← Span.reader false (values "span")
  let ty ← text (values "ty")
  let name ← text (values "name")
  let literal ← option Literal.reader (values "literal")
  let elements ← patterns (values "elements")
  let fields ← list (fieldReader inner) (values "fields")
  let hasRest ← flag (values "has_rest")
  let args ← patterns (values "args")
  let viaAt ← flag (values "via_at")
  let variants ← patterns (values "variants")
  let head ← patterns (values "head")
  let rest ← option (record false ["binding"] fun values => text (values "binding")) (values "rest")
  let tail ← patterns (values "tail")
  let start ← option inner (values "start")
  let stop ← option inner (values "end")
  let inclusive ← flag (values "inclusive")
  let call ← option (Call.reader inner) (values "call")
  return { form := .ofName form, span, ty, name, literal, elements, fields, hasRest, args, viaAt,
           variants, head, rest, tail, start, stop, inclusive, call }

/-- What the shared key means depends on the form: the form so far, and what was read. -/
structure Shared where
  form : String := ""
  inner : Option Pattern := none
  regex : String := ""

/-- The shared key of one object.  An inner pattern is read anew each time. -/
def Shared.step (inner : Reader Pattern) (s : Shared) (fields : List (String × Json)) :
    Option Shared := do
  let form ← text (.text s.form :: valuesOf fields "kind")
  let s := { s with form }
  match (valuesOf fields sharedKey).getLast? with
  | none => return s
  | some j =>
    match PatternForm.ofName form with
    | .binding => (inner [j]).map fun p => { s with inner := some p }
    | .regex => (text [.text s.regex, j]).map fun r => { s with regex := r }
    | _ => none

/-- A pattern, nested less than `room` deep. -/
def Pattern.reader : (room : Nat) → Reader Pattern
  | 0 => fun _ => none
  | room + 1 => fun js => do
    let os ← objects false Pattern.keys js
    let p ← Pattern.build (reader room) (valuesOf os.flatten)
    let s ← os.foldlM (Shared.step (reader room)) {}
    return { p with inner := s.inner, regex := s.regex }

/-- The pattern a value describes; `null` describes none. -/
def Pattern.ofJson? (j : Json) : Option (Option Pattern) :=
  option (Pattern.reader (j.depth + 1)) [j]

/-! ### Modules -/

def MatchArm.reader (room : Nat) : Reader MatchArm :=
  record true ["pattern", "guard", "alias", "body"] fun values => do
    let pattern ← option (Pattern.reader room) (values "pattern")
    let guard ← option nat (values "guard")
    let asName ← text (values "alias")
    let body ← nat (values "body")
    return { pattern, guard, asName, body }

/-- A name that is bound, and the row of its value. -/
def statementReader : Reader (String × Nat) :=
  record true ["name", "value"] fun values => do
    let name ← text (values "name")
    let value ← nat (values "value")
    return (name, value)

/-- The keys of an expression. -/
def Expr.keyNames : List String := [
  "id", "span", "ty", "kind", "name", "literal", "operator", "callee", "args", "keys",
  "statements", "tail", "condition", "then_branch", "else_branch", "target", "arms", "lowering"]

def Expr.reader (room : Nat) : Reader Expr :=
  record true Expr.keyNames fun values => do
    let id ← nat (values "id")
    let span ← Span.reader true (values "span")
    let ty ← text (values "ty")
    let form ← text (values "kind")
    let name ← text (values "name")
    let literal ← option Literal.reader (values "literal")
    let operator ← text (values "operator")
    let callee ← option nat (values "callee")
    let args ← list nat (values "args")
    let keys ← list text (values "keys")
    let statements ← list statementReader (values "statements")
    let tail ← option nat (values "tail")
    let condition ← option nat (values "condition")
    let yes ← option nat (values "then_branch")
    let no ← option nat (values "else_branch")
    let target ← option nat (values "target")
    let arms ← list (MatchArm.reader room) (values "arms")
    let plan ← option (Plan.reader true room) (values "lowering")
    return { id, span, ty, form := .ofName form, name, literal, operator, callee, args, keys,
             statements, tail, condition, yes, no, target, arms, plan }

def Param.reader : Reader Param :=
  record true ["name", "ty"] fun values => do
    let name ← text (values "name")
    let ty ← text (values "ty")
    return { name, ty }

def Function.reader (room : Nat) : Reader Function :=
  record true ["name", "span", "params", "return_type", "body", "exprs"] fun values => do
    let name ← text (values "name")
    let span ← Span.reader true (values "span")
    let params ← listed Param.reader (values "params")
    let returnType ← text (values "return_type")
    let body ← nat (values "body")
    let exprs ← listed (Expr.reader room) (values "exprs")
    return { name, span, params, returnType, body, exprs }

/-- The keys of a recognizer. -/
def Recognizer.keyNames : List String := [
  "name", "span", "kind", "return_carrier", "has_miss_path", "params", "body", "exprs"]

def Recognizer.reader (room : Nat) : Reader Recognizer :=
  record true Recognizer.keyNames fun values => do
    let name ← text (values "name")
    let span ← Span.reader true (values "span")
    let kind ← named RecognizerKind.ofName? .total (values "kind")
    let carrier ← named Carrier.ofName? .value (values "return_carrier")
    let hasMissPath ← flag (values "has_miss_path")
    let params ← listed Param.reader (values "params")
    let body ← nat (values "body")
    let exprs ← listed (Expr.reader room) (values "exprs")
    return { name, span, kind, carrier, hasMissPath, params, body, exprs }

/-- The keys of a module. -/
def Module.keyNames : List String := [
  "schema_version", "file", "functions", "active_patterns", "match_lowerings"]

def Module.reader (room : Nat) : Reader Module :=
  record true Module.keyNames fun values => do
    let schema ← text (values "schema_version")
    let file ← text (values "file")
    let functions ← listed (Function.reader room) (values "functions")
    let recognizers ← listed (Recognizer.reader room) (values "active_patterns")
    let plans ← listed (Plan.reader true room) (values "match_lowerings")
    return { schema, file, functions, recognizers, plans }

/-- The module a value describes. -/
def Module.ofJson? (j : Json) : Option Module := Module.reader (j.depth + 1) [j]

end Lowered

/-! ### Documents -/

/-- Why a document is refused: it cannot be read, or it breaks its contract. -/
inductive DocumentError (ε : Type) where
  | unreadable
  | invalid (error : ε)

/-- What may be wrong with a set of plans. -/
inductive SetError where
  | schema (version : String)
  | plan (e : PlanSetError)

def SetError.message : SetError → String
  | schema v => "unsupported schema version " ++ quoted v
  | plan e => e.message

/-- The set of plans in a text. -/
def PlanSet.decode (s : String) : Except (DocumentError SetError) PlanSet :=
  match (Json.readFirst? s).bind PlanSet.ofJson? with
  | none => .error .unreadable
  | some set =>
    if set.schema ≠ Lowered.schemaVersion then .error (.invalid (.schema set.schema))
    else match PlanSet.firstError? 0 (set.plans.getD []) with
      | some e => .error (.invalid (.plan e))
      | none => .ok set

/-- The plan in a text. -/
def Plan.decode (s : String) : Except (DocumentError (List PlanError)) Plan :=
  match (Json.readFirst? s).bind (Plan.ofJson? true) with
  | none => .error .unreadable
  | some p =>
    match p.errors with
    | [] => .ok p
    | es => .error (.invalid es)

/-- The module in a text. -/
def Lowered.Module.decode (s : String) :
    Except (DocumentError (List Lowered.ModuleError)) Lowered.Module :=
  match (Json.readFirst? s).bind Lowered.Module.ofJson? with
  | none => .error .unreadable
  | some m =>
    match m.errors with
    | [] => .ok m
    | es => .error (.invalid es)

end PatternPlan
