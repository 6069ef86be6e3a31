import PatternPlan.Plan.Basic

/-!
# Plans as trees

A plan is drawn with one line per node:

    fn classify: Int (2 arms)
    ├─ arm 1: active(|Even|_|) [miss_on_none]
    │  └─ _ [always]
    └─ arm 2: _ [always]

* `Plan.tree` — one plan;
* `Plan.trees` — several, separated by blank lines.
-/

namespace PatternPlan

namespace PlanNode

/-- A node on its line. -/
def line (n : PlanNode) : String :=
  n.label ++ (if n.alwaysMatches then " [always]" else "")
    ++ if n.missOnNone then " [miss_on_none]" else ""

end PlanNode

/-- A line of a tree, behind the lines that run down from above. -/
def treeLine (margin : String) (isLast : Bool) (text : String) : String :=
  margin ++ (if isLast then "└─ " else "├─ ") ++ text ++ "\n"

/-- The margin of what hangs below a line. -/
def childMargin (margin : String) (isLast : Bool) : String :=
  margin ++ if isLast then "   " else "│  "

namespace PlanNode

mutual

/-- The lines below a node. -/
def childTree (margin : String) : PlanNode → String
  | ⟨_, _, _, children⟩ => forest margin children

/-- Nodes one below the other, each with what hangs below it. -/
def forest (margin : String) : List PlanNode → String
  | [] => ""
  | n :: ns =>
    treeLine margin ns.isEmpty n.line ++ childTree (childMargin margin ns.isEmpty) n
      ++ forest margin ns

end

end PlanNode

namespace Plan

/-- The arms from number `n` on. -/
def armLines : (n : Nat) → List PlanArm → String
  | _, [] => ""
  | n, a :: arms =>
    treeLine "" arms.isEmpty ("arm " ++ decimal n ++ ": " ++ a.node.line
      ++ (if a.hasGuard then " [guard]" else "")
      ++ if a.asName = "" then "" else " [as " ++ a.asName ++ "]")
      ++ a.node.childTree (childMargin "" arms.isEmpty) ++ armLines (n + 1) arms

/-- A plan as a tree. -/
def tree (p : Plan) : String :=
  p.owner ++ ": " ++ p.targetType ++ " (" ++ decimal p.armCount
    ++ (if p.armCount = 1 then " arm" else " arms") ++ ")\n" ++ armLines 1 p.armList

/-- Plans as trees with blank lines between them. -/
def trees (ps : List Plan) : String := "\n".intercalate (ps.map tree)

end Plan

end PatternPlan
