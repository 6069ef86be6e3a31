import PatternPlan.Lowered.Basic
import PatternPlan.Plan.Validate

/-!
# The contract of lowered modules

* `Pattern.error?` — the form is known, the fields it needs are there, and a recognizer call has a
  miss target exactly when the recognizer may miss;
* `tableError?` — rows are numbered from 0 on, refer to earlier rows only, and every match has a
  plan with as many arms as it has itself;
* `Module.errors` — everything that is wrong with a module.
-/

namespace PatternPlan.Lowered

/-! ### Patterns -/

/-- What is wrong with a pattern, and where. -/
inductive PatternError where
  | missing
  | unknownForm (tag : String)
  | varName
  | literalValue
  | constructName
  | bindingParts
  | noVariants
  | tailWithoutRest
  | noBounds
  | boundForm (form : PatternForm)
  | noCall
  | missTarget (name : String)
  | inside (form : PatternForm) (e : PatternError)

def PatternError.message : PatternError → String
  | missing => "missing pattern"
  | unknownForm tag => "unknown pattern kind " ++ quoted tag
  | varName => "var pattern without name"
  | literalValue => "literal pattern without literal"
  | constructName => "constructor pattern without name"
  | bindingParts => "binding pattern needs a name and an inner pattern"
  | noVariants => "or pattern without variants"
  | tailWithoutRest => "slice tail without rest"
  | noBounds => "range pattern without bounds"
  | boundForm form => "range bound must be a literal, found " ++ form.name
  | noCall => "active pattern without call"
  | missTarget name =>
    "active pattern " ++ name ++ ": miss_target must be set exactly for partial recognizers"
  | inside form e => form.name ++ ": " ++ e.message

namespace Pattern

/-- A bound that is no constant. -/
def boundError? : Option Pattern → Option PatternError
  | none => none
  | some p => if p.form = .literal then none else some (.boundForm p.form)

/-- What is wrong with a pattern itself, whatever stands inside it. -/
def ownError? (p : Pattern) : Option PatternError :=
  match p.form with
  | .other tag => some (.unknownForm tag)
  | .var => if p.name = "" then some .varName else none
  | .literal => if p.literal.isNone then some .literalValue else none
  | .construct => if p.name = "" then some .constructName else none
  | .binding => if p.name = "" || p.inner.isNone then some .bindingParts else none
  | .or => if p.variants.isEmpty then some .noVariants else none
  | .slice => if p.rest.isNone && !p.tail.isEmpty then some .tailWithoutRest else none
  | .range =>
    if p.start.isNone && p.stop.isNone then some .noBounds
    else (boundError? p.start).or (boundError? p.stop)
  | .active =>
    match p.call with
    | none => some .noCall
    | some c =>
      if c.name = "" then some .noCall
      else if c.missTarget.isSome != c.kind.mayMiss then some (.missTarget c.name)
      else none
  | .wildcard | .tuple | .record | .regex => none

mutual

/-- The first thing that is wrong with a pattern or the patterns inside it.  Only what its form
uses is looked at. -/
def error? : Pattern → Option PatternError
  | ⟨form, span, ty, name, literal, elements, fields, hasRest, args, inner, viaAt, variants, head,
      rest, tail, start, stop, inclusive, regex, call⟩ =>
    match ownError? ⟨form, span, ty, name, literal, elements, fields, hasRest, args, inner, viaAt,
        variants, head, rest, tail, start, stop, inclusive, regex, call⟩ with
    | some e => some e
    | none =>
      let below :=
        match form with
        | .tuple => firstError? elements
        | .record => firstFieldError? fields
        | .construct => firstError? args
        | .binding => optionError? inner
        | .or => firstError? variants
        | .slice => (firstError? head).or (firstError? tail)
        | .active => callError? call
        | _ => none
      below.map (PatternError.inside form)

/-- What is wrong with a pattern that has to be there. -/
def neededError? : Option Pattern → Option PatternError
  | none => some .missing
  | some p => error? p

/-- What is wrong with a pattern that may be left out. -/
def optionError? : Option Pattern → Option PatternError
  | none => none
  | some p => error? p

def firstError? : List (Option Pattern) → Option PatternError
  | [] => none
  | p :: ps => (neededError? p).or (firstError? ps)

def firstFieldError? : List (String × Option Pattern) → Option PatternError
  | [] => none
  | (_, p) :: fs => (optionError? p).or (firstFieldError? fs)

def callError? : Option (Call Pattern) → Option PatternError
  | none => none
  | some ⟨_, _, argument, _, _⟩ => optionError? argument

end

end Pattern

/-! ### Tables -/

/-- What is wrong with an expression table. -/
inductive TableError where
  | bodyOutOfRange (body : Nat)
  | number (index id : Nat)
  | reference (id row : Nat)
  | pattern (id : Nat) (e : PatternError)
  | noPlan (id : Nat)
  | planArms (id : Nat) (plan : Int) (arms : Nat)

def TableError.message : TableError → String
  | bodyOutOfRange b => "body " ++ decimal b ++ " out of range"
  | number i id => "expression " ++ decimal i ++ " has id " ++ decimal id
  | reference id r => "expression " ++ decimal id ++ " refers to " ++ decimal r
  | pattern id e => "expression " ++ decimal id ++ ": " ++ e.message
  | noPlan id => "match " ++ decimal id ++ " has no lowering plan"
  | planArms id p n =>
    "match " ++ decimal id ++ ": plan has " ++ decimal p ++ " arms, expression has " ++ decimal n

/-- A match without a plan that fits. -/
def planError? (e : Expr) : Option TableError :=
  if e.form = .select then
    match e.plan with
    | none => some (.noPlan e.id)
    | some p =>
      if p.armCount = e.arms.length then none
      else some (.planArms e.id p.armCount e.arms.length)
  else none

/-- What is wrong with the row at an index. -/
def rowError? (index : Nat) (e : Expr) : Option TableError :=
  if e.id ≠ index then some (.number index e.id)
  else
    ((e.references.find? fun r => e.id ≤ r).map (TableError.reference e.id)).or <|
    ((e.arms.findSome? fun a => Pattern.neededError? a.pattern).map (TableError.pattern e.id)).or
      (planError? e)

/-- What is wrong with the rows from an index on. -/
def rowsError? (index : Nat) : List Expr → Option TableError
  | [] => none
  | e :: es => (rowError? index e).or (rowsError? (index + 1) es)

/-- The first thing that is wrong with a table, the row `body` of which is a whole body. -/
def tableError? (exprs : List Expr) (body : Nat) : Option TableError :=
  if exprs.length ≤ body then some (.bodyOutOfRange body) else rowsError? 0 exprs

/-! ### Modules -/

/-- What is wrong with a module. -/
inductive ModuleError where
  | schema (version : String)
  | function (name : String) (e : TableError)
  | missPath (name : String) (kind : RecognizerKind)
  | carrier (name : String) (kind : RecognizerKind) (carrier : Carrier)
  | recognizer (name : String) (e : TableError)
  | plan (index : Nat) (es : List PlanError)

def ModuleError.message : ModuleError → String
  | schema v => "unsupported schema version " ++ quoted v
  | function n e => "fn " ++ n ++ ": " ++ e.message
  | missPath n kind => "active " ++ n ++ ": has_miss_path disagrees with kind " ++ kind.name
  | carrier n kind c =>
    "active " ++ n ++ ": " ++ kind.name ++ " recognizer cannot return " ++ c.description
  | recognizer n e => "active " ++ n ++ ": " ++ e.message
  | plan i es => "plan " ++ decimal i ++ ": " ++ Plan.errorText es

def Function.errors (f : Function) : List ModuleError :=
  ((tableError? (f.exprs.getD []) f.body).map (ModuleError.function f.name)).toList

def Recognizer.errors (r : Recognizer) : List ModuleError :=
  (if r.hasMissPath = r.kind.mayMiss then [] else [.missPath r.name r.kind])
    ++ (if r.carrier = r.kind.carrier then [] else [.carrier r.name r.kind r.carrier])
    ++ ((tableError? (r.exprs.getD []) r.body).map (ModuleError.recognizer r.name)).toList

/-- What is wrong with the plans from an index on. -/
def planErrors (index : Nat) : List Plan → List ModuleError
  | [] => []
  | p :: ps =>
    (if p.errors.isEmpty then [] else [.plan index p.errors]) ++ planErrors (index + 1) ps

/-- Everything that is wrong with a module. -/
def Module.errors (m : Module) : List ModuleError :=
  (if m.schema = schemaVersion then [] else [.schema m.schema])
    ++ (m.functions.getD []).flatMap Function.errors
    ++ (m.recognizers.getD []).flatMap Recognizer.errors
    ++ planErrors 0 (m.plans.getD [])

/-- What is wrong with a module, as text. -/
def errorText (es : List ModuleError) : String := joinLines (es.map ModuleError.message)

end PatternPlan.Lowered
