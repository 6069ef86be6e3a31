import PatternPlan.Lowered.Validate
import PatternPlan.Json.Writer
import PatternPlan.Diagnostic.Basic

/-!
# Documents

The JSON forms of plans and lowered modules.  Fields stand in a fixed order; those that say
nothing (an empty text or list, `false`, an absent part) are left out where the format allows it.

* `PlanSet` — the plans of a file, with the version of the format and the run they come from;
* `toJson` for each type;
* `PlanSet.encode`, `Plan.encode`, `Lowered.Module.encode` — documents as text; what breaks its
  contract is refused, and so is what nests too deep where its text is read once more.
-/

namespace PatternPlan

/-! ### Fields that may be left out -/

namespace Json

/-- A field, left out when it says nothing. -/
def fieldUnless (absent : Bool) (key : String) (value : Json) : List (String × Json) :=
  if absent then [] else [(key, value)]

/-- A text, left out when empty. -/
def textField (key s : String) : List (String × Json) := fieldUnless (s = "") key (.text s)

/-- A truth value, left out when false. -/
def flagField (key : String) (b : Bool) : List (String × Json) := fieldUnless (!b) key (.bool b)

/-- A list, left out when empty. -/
def listField (key : String) (items : List Json) : List (String × Json) :=
  fieldUnless items.isEmpty key (.array items)

/-- A part, left out when absent. -/
def optionField (key : String) : Option Json → List (String × Json)
  | none => []
  | some v => [(key, v)]

/-- A number of a row. -/
def nat (n : Nat) : Json := .int n

/-- A list that may be missing. -/
def listed {α : Type} (f : α → Json) (l : Listed α) : Json :=
  Json.option (fun items => .array (items.map f)) l

end Json

open Json

/-! ### Plans -/

namespace PlanNode

mutual

def toJson : PlanNode → Json
  | ⟨label, missOnNone, alwaysMatches, children⟩ =>
    .object ([("label", .text label), ("miss_on_none", .bool missOnNone),
        ("always_matches", .bool alwaysMatches)]
      ++ listField "children" (toJsonList children))

def toJsonList : List PlanNode → List Json
  | [] => []
  | n :: ns => toJson n :: toJsonList ns

end

end PlanNode

def PlanArm.toJson (a : PlanArm) : Json :=
  .object ([("pattern", a.node.toJson), ("has_guard", .bool a.hasGuard)]
    ++ textField "alias" a.asName)

def Plan.toJson (p : Plan) : Json :=
  .object [("owner", .text p.owner), ("span", p.span.toJson), ("target_type", .text p.targetType),
    ("arm_count", .int p.armCount), ("arms", listed PlanArm.toJson p.arms)]

/-- The plans of one file. -/
structure PlanSet where
  schema : String := ""
  file : String := ""
  run : String := ""
  plans : Listed Plan := none

namespace PlanSet

/-- Plans under the current version. -/
def of (file run : String) (plans : List Plan) : PlanSet :=
  ⟨Lowered.schemaVersion, file, run, some plans⟩

def toJson (s : PlanSet) : Json :=
  .object ([("schema_version", .text s.schema)] ++ textField "file" s.file
    ++ textField "run_id" s.run ++ [("plans", listed Plan.toJson s.plans)])

end PlanSet

/-! ### Patterns -/

/-- A constant, with its type beside it. -/
def Literal.toJson : Literal → Json
  | .int i => .object [("type", .text "int"), ("value", .int i)]
  | .float d => .object [("type", .text "float"), ("value", .double d)]
  | .text s => .object [("type", .text "string"), ("value", .text s)]
  | .bool b => .object [("type", .text "bool"), ("value", .bool b)]
  | .unit => .object [("type", .text "unit")]

namespace Lowered

namespace Pattern

/-- The part of a pattern that shares one key: the inner pattern of a binding, or the source of a
regular expression. -/
def sharedField (form : PatternForm) (inner : Option Json) (regex : String) :
    List (String × Json) :=
  match form with
  | .binding => optionField "pattern" inner
  | .regex => [("pattern", .text regex)]
  | _ => []

mutual

def toJson : Pattern → Json
  | ⟨form, span, ty, name, literal, elements, fields, hasRest, args, inner, viaAt, variants, head,
      rest, tail, start, stop, inclusive, regex, call⟩ =>
    .object ([("kind", .text form.name), ("span", span.toJson)] ++ textField "ty" ty
      ++ textField "name" name ++ optionField "literal" (literal.map Literal.toJson)
      ++ listField "elements" (toJsonList elements) ++ listField "fields" (toJsonFields fields)
      ++ flagField "has_rest" hasRest ++ listField "args" (toJsonList args)
      ++ flagField "via_at" viaAt ++ listField "variants" (toJsonList variants)
      ++ listField "head" (toJsonList head)
      ++ optionField "rest" (rest.map fun n => .object (textField "binding" n))
      ++ listField "tail" (toJsonList tail) ++ optionField "start" (toJson? start)
      ++ optionField "end" (toJson? stop) ++ flagField "inclusive" inclusive
      ++ optionField "call" (callToJson? call) ++ sharedField form (toJson? inner) regex)

def toJson? : Option Pattern → Option Json
  | none => none
  | some p => some (toJson p)

def toJsonList : List (Option Pattern) → List Json
  | [] => []
  | p :: ps => (toJson? p).getD .null :: toJsonList ps

def toJsonFields : List (String × Option Pattern) → List Json
  | [] => []
  | (k, p) :: fs =>
    .object ([("key", .text k)] ++ optionField "value" (toJson? p)) :: toJsonFields fs

def callToJson? : Option (Call Pattern) → Option Json
  | none => none
  | some ⟨name, kind, argument, inputBinding, missTarget⟩ =>
    some (.object ([("name", .text name), ("kind", .text kind.name)]
      ++ optionField "argument" (toJson? argument) ++ textField "input_binding" inputBinding
      ++ optionField "miss_target" (missTarget.map fun j => .text j.name)))

end

end Pattern

namespace Pattern

/-- What stands in front of the reason why a pattern is refused. -/
def refusalLead : String := "json: error calling MarshalJSON for type *mir.Pattern: "

mutual

/-- The reason why a pattern is refused that nests too deep: it is that of the first pattern inside
that does so itself, and every pattern around adds its lead. -/
def refusalText? : Pattern → Option String
  | ⟨form, span, ty, name, literal, elements, fields, hasRest, args, inner, viaAt, variants, head,
      rest, tail, start, stop, inclusive, regex, call⟩ =>
    let inside := (refusalTextAll? elements).or <| (refusalTextFields? fields).or <|
      (refusalTextAll? args).or <| (refusalTextAll? variants).or <| (refusalTextAll? head).or <|
      (refusalTextAll? tail).or <| (refusalTextOf? start).or <| (refusalTextOf? stop).or <|
      (refusalTextCall? call).or <| if form = .binding then refusalTextOf? inner else none
    (inside.or (toJson ⟨form, span, ty, name, literal, elements, fields, hasRest, args, inner, viaAt,
      variants, head, rest, tail, start, stop, inclusive, regex, call⟩).refusal?).map (refusalLead ++ ·)

def refusalTextOf? : Option Pattern → Option String
  | none => none
  | some p => refusalText? p

def refusalTextAll? : List (Option Pattern) → Option String
  | [] => none
  | p :: ps => (refusalTextOf? p).or (refusalTextAll? ps)

def refusalTextFields? : List (String × Option Pattern) → Option String
  | [] => none
  | (_, p) :: fs => (refusalTextOf? p).or (refusalTextFields? fs)

def refusalTextCall? : Option (Call Pattern) → Option String
  | none => none
  | some ⟨_, _, argument, _, _⟩ => refusalTextOf? argument

end

/-- Why a pattern is refused, whose text is read once more while the text around it is written. -/
def refusal? (p : Pattern) : Option String :=
  if p.toJson.depth ≤ maxNesting then none else p.refusalText?

end Pattern

/-! ### Modules -/

def MatchArm.toJson (a : MatchArm) : Json :=
  .object ([("pattern", Json.option Pattern.toJson a.pattern)]
    ++ optionField "guard" (a.guard.map Json.nat) ++ textField "alias" a.asName
    ++ [("body", .nat a.body)])

def Expr.toJson (e : Expr) : Json :=
  .object ([("id", .nat e.id), ("span", e.span.toJson), ("ty", .text e.ty),
      ("kind", .text e.form.name)]
    ++ textField "name" e.name ++ optionField "literal" (e.literal.map Literal.toJson)
    ++ textField "operator" e.operator ++ optionField "callee" (e.callee.map Json.nat)
    ++ listField "args" (e.args.map Json.nat) ++ listField "keys" (e.keys.map Json.text)
    ++ listField "statements"
      (e.statements.map fun s => .object [("name", .text s.1), ("value", .nat s.2)])
    ++ optionField "tail" (e.tail.map Json.nat) ++ optionField "condition" (e.condition.map Json.nat)
    ++ optionField "then_branch" (e.yes.map Json.nat)
    ++ optionField "else_branch" (e.no.map Json.nat)
    ++ optionField "target" (e.target.map Json.nat) ++ listField "arms" (e.arms.map MatchArm.toJson)
    ++ optionField "lowering" (e.plan.map Plan.toJson))

def Param.toJson (p : Param) : Json := .object [("name", .text p.name), ("ty", .text p.ty)]

def Function.toJson (f : Function) : Json :=
  .object [("name", .text f.name), ("span", f.span.toJson), ("params", listed Param.toJson f.params),
    ("return_type", .text f.returnType), ("body", .nat f.body),
    ("exprs", listed Expr.toJson f.exprs)]

def Recognizer.toJson (r : Recognizer) : Json :=
  .object [("name", .text r.name), ("span", r.span.toJson), ("kind", .text r.kind.name),
    ("return_carrier", .text r.carrier.name), ("has_miss_path", .bool r.hasMissPath),
    ("params", listed Param.toJson r.params), ("body", .nat r.body),
    ("exprs", listed Expr.toJson r.exprs)]

def Module.toJson (m : Module) : Json :=
  .object ([("schema_version", .text m.schema)] ++ textField "file" m.file
    ++ [("functions", listed Function.toJson m.functions),
      ("active_patterns", listed Recognizer.toJson m.recognizers),
      ("match_lowerings", listed Plan.toJson m.plans)])

/-- The patterns of the rows of a module, in the order in which they are written. -/
def Module.patterns (m : Module) : List Pattern :=
  ((m.functions.getD []).flatMap (fun f => f.exprs.getD [])
      ++ (m.recognizers.getD []).flatMap (fun r => r.exprs.getD [])).flatMap
    fun e => e.arms.filterMap MatchArm.pattern

end Lowered

/-! ### Documents as text -/

/-- Why a document is not written: what it holds breaks its contract, or its text nests too deep. -/
inductive WriteError (ε : Type) where
  | invalid (error : ε)
  | tooDeep (words : String)

/-- The wording of a failure; `shown` words a broken contract. -/
def WriteError.message {ε : Type} (shown : ε → String) : WriteError ε → String
  | invalid e => shown e
  | tooDeep words => words

/-- A plan of a set that breaks the contract. -/
structure PlanSetError where
  index : Nat
  errors : List PlanError

def PlanSetError.message (e : PlanSetError) : String :=
  "plan " ++ decimal e.index ++ ": " ++ Plan.errorText e.errors

namespace PlanSet

/-- The first plan, from an index on, that breaks the contract. -/
def firstError? (index : Nat) : List Plan → Option PlanSetError
  | [] => none
  | p :: ps => if p.errors.isEmpty then firstError? (index + 1) ps else some ⟨index, p.errors⟩

/-- A set of plans as text. -/
def encode (indent : Bool) (s : PlanSet) : Except (WriteError PlanSetError) String :=
  match firstError? 0 (s.plans.getD []) with
  | some e => .error (.invalid e)
  | none => (s.toJson.written indent).mapError .tooDeep

end PlanSet

/-- A plan as text. -/
def Plan.encode (p : Plan) : Except (List PlanError) String :=
  match p.errors with
  | [] => .ok p.toJson.compact
  | es => .error es

/-- A module as text. -/
def Lowered.Module.encode (indent : Bool) (m : Lowered.Module) :
    Except (WriteError (List Lowered.ModuleError)) String :=
  match m.errors with
  | [] =>
    match m.patterns.findSome? Lowered.Pattern.refusal? with
    | some e => .error (.tooDeep e)
    | none => (m.toJson.written indent).mapError .tooDeep
  | es => .error (.invalid es)

end PatternPlan
