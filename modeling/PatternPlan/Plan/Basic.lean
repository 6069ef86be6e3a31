import PatternPlan.Typed.Tree
import PatternPlan.Config.Basic

/-!
# Lowering plans

The summary of a match that a backend works from: for each arm a tree of labelled nodes that tells
how its pattern can fail.

* `PlanNode` — a label, whether the node always matches, and whether it misses on `None`;
* `PlanArm`, `Plan` — the arms of a match, and the match with its owner and target type;
* `PlanNode.ofPattern` — the node of a typed pattern;
* `Placeholders` — what stands for an unknown type and a missing owner;
* `Plan.ofMatch`, `Plan.ofModule` — the plan of a match, and the plans of a file.
-/

namespace PatternPlan

/-- A list that may be left out of a document. -/
abbrev Listed (α : Type) := Option (List α)

/-- A node of a plan. -/
structure PlanNode where
  label : String := ""
  missOnNone : Bool := false
  alwaysMatches : Bool := false
  children : List PlanNode := []
deriving Inhabited

/-- An arm of a plan; an empty alias means that it has none. -/
structure PlanArm where
  node : PlanNode := {}
  hasGuard : Bool := false
  asName : String := ""
deriving Inhabited

/-- The plan of a match. -/
structure Plan where
  owner : String := ""
  span : Span := {}
  targetType : String := ""
  armCount : Int := 0
  arms : Listed PlanArm := none
deriving Inhabited

/-- The arms of a plan; none if the list is left out. -/
def Plan.armList (p : Plan) : List PlanArm := p.arms.getD []

/-! ### Labels -/

/-- A constant in a label. -/
def Literal.label : Literal → String
  | .int i => decimal i
  | .float d => d.render floatStyle
  | .text s => quoted s
  | .bool b => if b then "true" else "false"
  | .unit => "()"

namespace PlanNode

/-- A node that always matches. -/
def always (label : String) : PlanNode := { label := label, alwaysMatches := true }

/-- A node that may fail. -/
def test (label : String) (children : List PlanNode) : PlanNode :=
  { label := label, children := children }

/-- A node that names what another one matches, and fails as that one does. -/
def naming (label : String) (inner : PlanNode) : PlanNode where
  label := label
  missOnNone := inner.missOnNone
  alwaysMatches := inner.alwaysMatches
  children := [inner]

/-- A node that matches when one of its children does. -/
def choice (children : List PlanNode) : PlanNode where
  label := "or"
  missOnNone := children.any PlanNode.missOnNone
  children := children

/-- The call of a recognizer. -/
def call (kind : RecognizerKind) (name : String) (children : List PlanNode) : PlanNode where
  label := "active" ++ kind.label name
  missOnNone := kind = .optional
  alwaysMatches := kind = .total
  children := children

/-- A rest marker. -/
def rest (name : String) : PlanNode :=
  always (if name = "" then "rest" else "rest(" ++ name ++ ")")

/-- A bound of a range. -/
def ofBound (b : Typed.Bound) : PlanNode := test ("literal(" ++ b.value.label ++ ")") []

mutual

/-- The node of a pattern. -/
def ofPattern : Typed.Pattern → PlanNode
  | .wildcard _ => always "_"
  | .var _ n => always ("var(" ++ n ++ ")")
  | .literal _ v => test ("literal(" ++ v.label ++ ")") []
  | .tuple _ ps => test "tuple" (ofPatterns ps)
  | .record _ fs hasRest =>
    test "record" (ofFields fs ++ if hasRest then [always "rest"] else [])
  | .construct _ n ps => test ("ctor(" ++ n ++ ")") (ofPatterns ps)
  | .binding _ n viaAt p =>
    naming ("binding(" ++ (if viaAt then "@ " else "as ") ++ n ++ ")") (ofPattern p)
  | .or _ ps => choice (ofPatterns ps)
  | .slice _ items => test "slice" (ofItems items)
  | .range _ start stop inclusive =>
    test (if inclusive then "range(..=)" else "range(..)")
      (start.toList.map ofBound ++ stop.toList.map ofBound)
  | .regex _ s => test ("regex(" ++ s ++ ")") []
  | .active _ n kind _ none => call kind n []
  | .active _ n kind _ (some p) => call kind n [ofPattern p]

def ofPatterns : List Typed.Pattern → List PlanNode
  | [] => []
  | p :: ps => ofPattern p :: ofPatterns ps

def ofFields : List (String × Typed.Pattern) → List PlanNode
  | [] => []
  | (_, p) :: fs => ofPattern p :: ofFields fs

def ofItems : List (SliceItem Typed.Pattern) → List PlanNode
  | [] => []
  | .element p :: is => ofPattern p :: ofItems is
  | .rest n _ :: is => rest n :: ofItems is

end

end PlanNode

/-! ### Plans -/

/-- What a plan says where the source says nothing. -/
structure Placeholders where
  inlineOwner : String := "<inline match>"
  unknownType : String := "unknown"

/-- The placeholders of a configuration. -/
def Config.placeholders (c : Config) : Placeholders := ⟨c.inlineOwner, c.unknownType⟩

/-- A type in a plan. -/
def Placeholders.typeLabel (o : Placeholders) (t : Ty) : String :=
  if t.isUnknown then o.unknownType else t.text

namespace Plan

/-- The arm of a typed arm. -/
def arm (a : Arm Typed.Pattern Typed.Expr) : PlanArm where
  node := .ofPattern a.pattern
  hasGuard := a.guard.isSome
  asName := match a.asName with
    | some x => x.name
    | none => ""

/-- The plan of a match that belongs to `owner`. -/
def ofMatch (o : Placeholders) (owner : String) (m : Typed.Match) : Plan where
  owner := owner
  span := m.span
  targetType := o.typeLabel m.target.ty
  armCount := m.arms.length
  arms := some (m.arms.map arm)

/-- The owner of the matches in a function. -/
def functionOwner (name : String) : String := "fn " ++ name

/-- The owner of the matches in a recognizer. -/
def recognizerOwner (name : String) : String := "active " ++ name

/-- The plans of a file: functions, then recognizers, then the expressions on their own; an outer
match before the matches inside it. -/
def ofModule (o : Placeholders) (m : Typed.Module) : List Plan :=
  m.functions.flatMap (fun f => f.body.allMatches.map (ofMatch o (functionOwner f.name)))
    ++ m.recognizers.flatMap (fun r => r.body.allMatches.map (ofMatch o (recognizerOwner r.name)))
    ++ m.inline.flatMap (fun e => e.allMatches.map (ofMatch o o.inlineOwner))

end Plan

end PatternPlan
