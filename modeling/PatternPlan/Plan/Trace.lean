import PatternPlan.Plan.Validate
import PatternPlan.Json.Value

/-!
# Tracing plans

The control steps that a code generator would emit for a plan, under given outcomes of its tests.

* `Oracle` — answers what cannot be known beforehand: tests, recognizers and guards; it has a state,
  so that an answer may depend on all that was asked before;
* `Answers`, `Script` — answers that depend on the place alone, and answers from tables;
* `Step`, `Trace` — a control step, and the steps of a match with the arm that is selected;
* `PlanNode.walk` — the steps of one node, and whether it matches;
* `Plan.trace` — the steps of a plan: the target is evaluated once, arms are tried in order, a miss
  leaves its arm, and a guard runs only for an arm whose pattern matched.
-/

namespace PatternPlan

/-- The place an oracle is asked about. -/
structure Probe where
  owner : String
  arm : Nat
  label : String
deriving DecidableEq

/-- What a trace cannot know: whether a node matches, whether a recognizer finds something, and
whether the guard of an arm holds. -/
inductive Question where
  | test (p : Probe)
  | active (p : Probe) (name : String) (kind : RecognizerKind)
  | guard (p : Probe)
deriving DecidableEq

/-- Answers questions one after the other, and may change its mind with each. -/
structure Oracle (σ : Type) where
  ask : Question → σ → Bool × σ

/-- Answers that depend on nothing but the question. -/
structure Answers where
  test : Probe → Bool
  active : Probe → (name : String) → RecognizerKind → Bool
  guard : Probe → Bool

def Answers.answer (a : Answers) : Question → Bool
  | .test p => a.test p
  | .active p name kind => a.active p name kind
  | .guard p => a.guard p

/-- The oracle of such answers has no state. -/
def Answers.oracle (a : Answers) : Oracle Unit := ⟨fun q s => (a.answer q, s)⟩

/-- Answers from tables, with answers for what they do not hold. -/
structure Script where
  tests : List (String × Bool) := []
  defaultTest : Bool := true
  actives : List (String × Bool) := []
  guards : List (Int × Bool) := []
  defaultGuard : Bool := true

/-- The answers of a script. -/
def Script.answers (s : Script) : Answers where
  test p := (s.tests.lookup p.label).getD s.defaultTest
  active _ name _ := (s.actives.lookup name).getD true
  guard p := (s.guards.lookup (p.arm : Int)).getD s.defaultGuard

/-- The kinds of control step. -/
inductive Op where
  | evalTarget | enterArm | test | invoke | miss | bindAlias | guard | body | noMatch
deriving DecidableEq

def Op.name : Op → String
  | evalTarget => "eval_target"
  | enterArm => "enter_arm"
  | test => "test"
  | invoke => "invoke"
  | miss => "miss"
  | bindAlias => "bind_alias"
  | guard => "guard"
  | body => "body"
  | noMatch => "no_match"

/-- A control step.  Arms count from 1; 0 means the match as a whole. -/
structure Step where
  op : Op
  arm : Nat := 0
  label : String := ""
  ok : Bool := false
deriving DecidableEq

/-- A step on its line. -/
def Step.text (s : Step) : String :=
  (if s.arm > 0 then "arm " ++ decimal s.arm ++ ": " else "") ++ s.op.name
    ++ (if s.label = "" then "" else " " ++ s.label)
    ++ match s.op with
      | .test | .guard | .invoke => if s.ok then " -> ok" else " -> fail"
      | _ => ""

/-- The steps of a match; `selected` is the arm whose body runs, or 0. -/
structure Trace where
  owner : String
  targetType : String
  steps : List Step
  selected : Nat

namespace Trace

/-- A trace, one line per step. -/
def text (t : Trace) : String :=
  t.owner ++ " (" ++ t.targetType ++ ")\n"
    ++ String.join (t.steps.map fun s => "  " ++ s.text ++ "\n")

/-- How many steps are of a kind. -/
def count (t : Trace) (op : Op) : Nat := t.steps.countP fun s => s.op = op

/-- The recognizer calls of a trace, in order. -/
def invocations (t : Trace) : List Probe :=
  (t.steps.filter fun s => s.op = .invoke).map fun s => ⟨t.owner, s.arm, s.label⟩

end Trace

/-- The recognizer that a label calls: `active(|Name|)` or `active(|Name|_|)`. -/
def activeLabel? (label : String) : Option (String × RecognizerKind) :=
  match stripFront? "active(|".toList label.toList with
  | none => none
  | some rest =>
    match stripBack? "|_|)".toList rest with
    | some (c :: cs) => some (String.ofList (c :: cs), .optional)
    | _ => match stripBack? "|)".toList rest with
      | some (c :: cs) => some (String.ofList (c :: cs), .total)
      | _ => none

namespace PlanNode

/-- How a node is walked. -/
inductive Walk where
  | call (name : String) (kind : RecognizerKind)
  | choice
  | all
  | always
  | leaf
  | test
deriving DecidableEq

/-- How a node is walked, by its label. -/
def walkOf (label : String) (alwaysMatches : Bool) : Walk :=
  match activeLabel? label with
  | some (name, kind) => .call name kind
  | none =>
    if label = "or" then .choice
    else if label = "tuple" || label = "record" || hasFront "binding(" label then .all
    else if alwaysMatches then .always
    else if hasFront "range(" label then .leaf
    else .test

/-- What walking nodes finds: whether they match, the steps to find out, and the state that the
oracle is left in. -/
structure Walked (σ : Type) where
  matched : Bool
  steps : List Step
  state : σ

/-- The same behind other steps. -/
def Walked.behind {σ : Type} (ss : List Step) (r : Walked σ) : Walked σ :=
  ⟨r.matched, ss ++ r.steps, r.state⟩

section Walking

variable {σ : Type} (o : Oracle σ) (owner : String) (arm : Nat)

mutual

/-- Whether a node matches, and the steps to find out. -/
def walk : PlanNode → σ → Walked σ
  | ⟨label, _, alwaysMatches, children⟩, s =>
    match walkOf label alwaysMatches with
    | .call name kind =>
      let r := o.ask (.active ⟨owner, arm, label⟩ name kind) s
      if kind = .total || r.1 then (walkAll children r.2).behind [⟨.invoke, arm, label, true⟩]
      else
        ⟨false, [⟨.invoke, arm, label, false⟩, ⟨.miss, arm, JumpTarget.nextArm.name, true⟩], r.2⟩
    | .choice => walkAny children s
    | .all => walkAll children s
    | .always => ⟨true, [], s⟩
    | .leaf =>
      let r := o.ask (.test ⟨owner, arm, label⟩) s
      ⟨r.1, [⟨.test, arm, label, r.1⟩], r.2⟩
    | .test =>
      let r := o.ask (.test ⟨owner, arm, label⟩) s
      if r.1 then (walkAll children r.2).behind [⟨.test, arm, label, true⟩]
      else ⟨false, [⟨.test, arm, label, false⟩], r.2⟩

/-- Whether all nodes match, tried in order until one fails. -/
def walkAll : List PlanNode → σ → Walked σ
  | [], s => ⟨true, [], s⟩
  | n :: ns, s =>
    let r := walk n s
    if r.matched then (walkAll ns r.state).behind r.steps else r

/-- Whether some node matches, tried in order until one does. -/
def walkAny : List PlanNode → σ → Walked σ
  | [], s => ⟨false, [], s⟩
  | n :: ns, s =>
    let r := walk n s
    if r.matched then r else (walkAny ns r.state).behind r.steps

end

end Walking

end PlanNode

namespace Plan

variable {σ : Type}

/-- The steps of an arm, and whether its body runs. -/
def armSteps (o : Oracle σ) (owner : String) (n : Nat) (a : PlanArm) (s : σ) : PlanNode.Walked σ :=
  let enter : Step := ⟨.enterArm, n, "", true⟩
  let r := a.node.walk o owner n s
  if r.matched then
    let bound : List Step := if a.asName = "" then [] else [⟨.bindAlias, n, a.asName, true⟩]
    let body : Step := ⟨.body, n, "", true⟩
    if a.hasGuard then
      let held := o.ask (.guard ⟨owner, n, ""⟩) r.state
      ⟨held.1, enter :: r.steps ++ bound ++ ⟨.guard, n, "", held.1⟩ :: if held.1 then [body] else [],
        held.2⟩
    else ⟨true, enter :: r.steps ++ bound ++ [body], r.state⟩
  else r.behind [enter]

/-- The steps of the arms from number `n` on, the arm that is selected, and the state that the oracle
is left in. -/
def armTrace (o : Oracle σ) (owner : String) : (n : Nat) → List PlanArm → σ → (List Step × Nat) × σ
  | _, [], s => (([⟨.noMatch, 0, "", false⟩], 0), s)
  | n, a :: arms, s =>
    let r := armSteps o owner n a s
    if r.matched then ((r.steps, n), r.state)
    else
      let rest := armTrace o owner (n + 1) arms r.state
      ((r.steps ++ rest.1.1, rest.1.2), rest.2)

/-- The trace of a plan that keeps the contract, or what is wrong with it. -/
def trace (o : Oracle σ) (p : Plan) (s : σ) : Except (List PlanError) Trace × σ :=
  match p.errors with
  | [] =>
    let r := armTrace o p.owner 1 p.armList s
    (.ok ⟨p.owner, p.targetType, ⟨.evalTarget, 0, "", true⟩ :: r.1.1, r.1.2⟩, r.2)
  | es => (.error es, s)

/-- The traces of plans up to the first that is refused, and the refusal. -/
def traces (o : Oracle σ) : (index : Nat) → List Plan → σ → (List Trace × Option String) × σ
  | _, [], s => (([], none), s)
  | i, p :: ps, s =>
    match p.trace o s with
    | (.ok t, s) =>
      let rest := traces o (i + 1) ps s
      ((t :: rest.1.1, rest.1.2), rest.2)
    | (.error es, s) =>
      (([], some ("plan " ++ decimal i ++ " (" ++ p.owner ++ "): " ++ errorText es)), s)

end Plan

/-! ### JSON form -/

def Step.toJson (s : Step) : Json :=
  .object ([("op", .text s.op.name)]
    ++ (if s.arm = 0 then [] else [("arm", .int s.arm)])
    ++ (if s.label = "" then [] else [("label", .text s.label)])
    ++ [("ok", .bool s.ok)])

def Trace.toJson (t : Trace) : Json :=
  .object [("owner", .text t.owner), ("target_type", .text t.targetType),
    ("steps", .array (t.steps.map Step.toJson)), ("selected", .int t.selected)]

end PatternPlan
