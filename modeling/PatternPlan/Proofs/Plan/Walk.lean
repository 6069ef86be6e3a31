import Mathlib.Data.List.Basic
import PatternPlan.Proofs.Plan.Label

/-!
# Walking nodes

How a node is walked, whatever oracle is asked and whatever it was asked before.

* `PlanNode.induction` — induction over a node and its children;
* `walk_eq` — a node by the form that its label gives;
* `walk_always`, `walk_test`, `walk_call`, `walk_naming`, `walk_rest`, … — the nodes that patterns
  have.
-/

namespace PatternPlan

namespace PlanNode

/-- Induction over a node and its children. -/
theorem induction {motive : PlanNode → Prop}
    (h : ∀ n, (∀ c ∈ n.children, motive c) → motive n) (n : PlanNode) : motive n := by
  induction hs : sizeOf n using Nat.strongRecOn generalizing n with
  | ind size ih =>
    subst hs
    obtain ⟨label, missOnNone, alwaysMatches, children⟩ := n
    refine h _ fun c (hc : c ∈ children) => ih (sizeOf c) ?_ c rfl
    have hlt := List.sizeOf_lt_of_mem hc
    simp only [PlanNode.mk.sizeOf_spec]
    omega

variable {σ : Type} {o : Oracle σ} {owner : String} {arm : Nat} {s : σ}

@[simp] theorem Walked.behind_matched (ss : List Step) (r : Walked σ) :
    (r.behind ss).matched = r.matched := rfl

@[simp] theorem Walked.behind_steps (ss : List Step) (r : Walked σ) :
    (r.behind ss).steps = ss ++ r.steps := rfl

@[simp] theorem Walked.behind_state (ss : List Step) (r : Walked σ) :
    (r.behind ss).state = r.state := rfl

/-- **How a node is walked**, by the form that its label gives. -/
theorem walk_eq (n : PlanNode) (s : σ) : walk o owner arm n s =
    match walkOf n.label n.alwaysMatches with
    | .call name kind =>
      let r := o.ask (.active ⟨owner, arm, n.label⟩ name kind) s
      if kind = .total || r.1 then
        (walkAll o owner arm n.children r.2).behind [⟨.invoke, arm, n.label, true⟩]
      else
        ⟨false, [⟨.invoke, arm, n.label, false⟩, ⟨.miss, arm, JumpTarget.nextArm.name, true⟩], r.2⟩
    | .choice => walkAny o owner arm n.children s
    | .all => walkAll o owner arm n.children s
    | .always => ⟨true, [], s⟩
    | .leaf =>
      let r := o.ask (.test ⟨owner, arm, n.label⟩) s
      ⟨r.1, [⟨.test, arm, n.label, r.1⟩], r.2⟩
    | .test =>
      let r := o.ask (.test ⟨owner, arm, n.label⟩) s
      if r.1 then (walkAll o owner arm n.children r.2).behind [⟨.test, arm, n.label, true⟩]
      else ⟨false, [⟨.test, arm, n.label, false⟩], r.2⟩ := by
  obtain ⟨label, missOnNone, alwaysMatches, children⟩ := n
  exact walk.eq_1 o owner arm s label missOnNone alwaysMatches children

theorem walkAll_singleton (n : PlanNode) (s : σ) :
    walkAll o owner arm [n] s = walk o owner arm n s := by
  rw [walkAll]
  split
  · rename_i hmatched
    rw [walkAll, Walked.behind, List.append_nil, ← hmatched]
  · rfl

/-! ### Forms -/

/-- A node that is walked as a call has the label of one. -/
theorem activeLabel?_of_call {label name : String} {kind : RecognizerKind} {alwaysMatches : Bool}
    (h : walkOf label alwaysMatches = .call name kind) : activeLabel? label = some (name, kind) := by
  rw [walkOf] at h
  split at h
  · rename_i hlabel
    cases h
    exact hlabel
  · split at h
    · cases h
    · split at h
      · cases h
      · split at h
        · cases h
        · split at h <;> cases h

theorem walk_all {n : PlanNode} (h : walkOf n.label n.alwaysMatches = .all) :
    walk o owner arm n s = walkAll o owner arm n.children s := by
  rw [walk_eq, h]

theorem walk_choice {n : PlanNode} (h : walkOf n.label n.alwaysMatches = .choice) :
    walk o owner arm n s = walkAny o owner arm n.children s := by
  rw [walk_eq, h]

theorem walk_leaf {n : PlanNode} (h : walkOf n.label n.alwaysMatches = .leaf) :
    (walk o owner arm n s).matched = (o.ask (.test ⟨owner, arm, n.label⟩) s).1 := by
  rw [walk_eq, h]

/-- A node that always matches and stands for no form of pattern. -/
theorem walk_always {front body : String} (h : ∀ s ∈ fronts, differ s.toList front.toList = true) :
    walk o owner arm (always (front ++ body)) s = ⟨true, [], s⟩ := by
  rw [walk_eq, always]
  dsimp only
  rw [walkOf_of_plain h]
  rfl

/-- A node with a test of its own. -/
theorem walk_test {front body : String} (h : ∀ s ∈ fronts, differ s.toList front.toList = true)
    (children : List PlanNode) :
    (walk o owner arm (test (front ++ body) children) s).matched =
      ((o.ask (.test ⟨owner, arm, front ++ body⟩) s).1 && (walkAll o owner arm children
        (o.ask (.test ⟨owner, arm, front ++ body⟩) s).2).matched) := by
  rw [walk_eq, test]
  dsimp only
  rw [walkOf_of_plain h]
  simp only [Bool.false_eq_true, if_false]
  cases (o.ask (.test ⟨owner, arm, front ++ body⟩) s).1 <;> rfl

theorem walk_call (kind : RecognizerKind) {name : String} (h : isIdentifier name = true)
    (children : List PlanNode) (s : σ) :
    (walk o owner arm (call kind name children) s).matched =
      ((kind = .total || (o.ask (.active ⟨owner, arm, "active" ++ kind.label name⟩ name kind) s).1)
        && (walkAll o owner arm children
          (o.ask (.active ⟨owner, arm, "active" ++ kind.label name⟩ name kind) s).2).matched) := by
  have hwalk : walkOf ("active" ++ kind.label name) (decide (kind = .total)) = .call name kind := by
    rw [walkOf, activeLabel?_call kind h]
  rw [walk_eq, call]
  dsimp only
  rw [hwalk]
  dsimp only
  split
  · rename_i hpresent
    rw [hpresent, Bool.true_and, Walked.behind_matched]
  · rename_i hmissed
    rw [Bool.not_eq_true] at hmissed
    rw [hmissed, Bool.false_and]

/-- A name changes nothing. -/
theorem walk_naming (body : String) (inner : PlanNode) :
    walk o owner arm (naming ("binding(" ++ body) inner) s = walk o owner arm inner s := by
  have hall : walkOf (naming ("binding(" ++ body) inner).label inner.alwaysMatches = .all :=
    walkOf_binding body inner.alwaysMatches
  rw [walk_all hall]
  exact walkAll_singleton inner s

theorem walk_rest (name : String) : walk o owner arm (rest name) s = ⟨true, [], s⟩ := by
  rw [rest]
  split
  · have hwalk : walk o owner arm (always ("rest" ++ "")) s = ⟨true, [], s⟩ := walk_always (by decide)
    exact hwalk
  · rw [String.append_assoc]
    exact walk_always (by decide)

end PlanNode

end PatternPlan
