import PatternPlan.Plan.Basic

/-!
# The contract of plans

* `PlanNode.error?` — every node has a label, none both always matches and misses, and a
  recognizer call misses exactly when its label says so;
* `Plan.errors` — a plan has an owner, a target type, and as many arms as it says.
-/

namespace PatternPlan

/-- What is wrong with a node, and where. -/
inductive NodeError where
  | noLabel
  | exclusive (label : String)
  | missFlag (label : String)
  | inside (label : String) (e : NodeError)

def NodeError.message : NodeError → String
  | noLabel => "pattern lowering without label"
  | exclusive l => l ++ ": always_matches and miss_on_none are exclusive"
  | missFlag l => l ++ ": miss_on_none must be set exactly for partial recognizers"
  | inside l e => l ++ ": " ++ e.message

/-- Whether a text starts with another. -/
def hasFront (front text : String) : Bool := (stripFront? front.toList text.toList).isSome

/-- Whether a text ends with another. -/
def hasBack (back text : String) : Bool := (stripBack? back.toList text.toList).isSome

namespace PlanNode

/-- What is wrong with a node itself. -/
def ownError? (label : String) (missOnNone alwaysMatches : Bool) : Option NodeError :=
  if label = "" then some .noLabel
  else if alwaysMatches && missOnNone then some (.exclusive label)
  else if hasFront "active(" label && hasBack "|_|)" label != missOnNone then
    some (.missFlag label)
  else none

mutual

/-- The first thing that is wrong with a node or the nodes below it. -/
def error? : PlanNode → Option NodeError
  | ⟨label, missOnNone, alwaysMatches, children⟩ =>
    match ownError? label missOnNone alwaysMatches with
    | some e => some e
    | none => match firstError? children with
      | some e => some (.inside label e)
      | none => none

def firstError? : List PlanNode → Option NodeError
  | [] => none
  | n :: ns => match error? n with
    | some e => some e
    | none => firstError? ns

end

end PlanNode

/-- What is wrong with a plan. -/
inductive PlanError where
  | noOwner
  | noTargetType
  | armCount (said : Int) (found : Nat)
  | arm (number : Nat) (e : NodeError)

def PlanError.message : PlanError → String
  | noOwner => "plan has no owner"
  | noTargetType => "plan has no target type"
  | armCount said found =>
    "arm_count " ++ decimal said ++ " does not match " ++ decimal found ++ " arms"
  | arm n e => "arm " ++ decimal n ++ ": " ++ e.message

/-- Several errors, one per line. -/
def joinLines (messages : List String) : String := "\n".intercalate messages

namespace Plan

/-- What is wrong with the arms from number `n` on. -/
def armErrors : (n : Nat) → List PlanArm → List PlanError
  | _, [] => []
  | n, a :: arms => (a.node.error?.map (PlanError.arm n)).toList ++ armErrors (n + 1) arms

/-- Everything that is wrong with a plan. -/
def errors (p : Plan) : List PlanError :=
  (if p.owner = "" then [.noOwner] else [])
    ++ (if p.targetType = "" then [.noTargetType] else [])
    ++ (if p.armCount = p.armList.length then [] else [.armCount p.armCount p.armList.length])
    ++ armErrors 1 p.armList

/-- What is wrong with a plan, as text. -/
def errorText (es : List PlanError) : String := joinLines (es.map PlanError.message)

end Plan

end PatternPlan
