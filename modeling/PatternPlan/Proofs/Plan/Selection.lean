import PatternPlan.Proofs.Plan.Walk
import PatternPlan.Proofs.Typed.Pattern

/-!
# A trace selects the first arm that matches

* `Pattern.eval` — **the meaning of a pattern under answers that depend on the place alone**, said on
  the pattern and not on its plan;
* `found_ofPattern` — walking the node of a pattern finds its meaning: labels give back the forms,
  and stopping early changes nothing;
* `error?_ofPattern`, `errors_ofMatch` — plans of matches keep the contract, so that they are
  traced;
* `trace_selects_first` — **the trace of a match selects the first arm that runs**.
-/

namespace PatternPlan

namespace Typed.Pattern

/-- The name of the recognizer that a node calls is a name. -/
def CallsByName : Pattern → Prop
  | .active _ n _ _ _ => isIdentifier n = true
  | _ => True

section Meaning

variable (o : Answers) (owner : String) (arm : Nat)

/-- The answer to the test of a label. -/
def tested (label : String) : Bool := o.test ⟨owner, arm, label⟩

/-- Whether a recognizer finds something: always, or as it is answered. -/
def called (name : String) (kind : RecognizerKind) : Bool :=
  kind = .total || o.active ⟨owner, arm, "active" ++ kind.label name⟩ name kind

mutual

/-- Whether a pattern matches in an arm, as its tests are answered. -/
def eval : Pattern → Bool
  | wildcard _ | var _ _ => true
  | literal _ v => tested o owner arm ("literal(" ++ v.label ++ ")")
  | tuple _ ps => evalAll ps
  | record _ fs _ => evalFields fs
  | construct _ n ps => tested o owner arm ("ctor(" ++ n ++ ")") && evalAll ps
  | binding _ _ _ p => eval p
  | or _ ps => evalAny ps
  | slice _ items => tested o owner arm "slice" && evalItems items
  | range _ _ _ inclusive => tested o owner arm (if inclusive then "range(..=)" else "range(..)")
  | regex _ s => tested o owner arm ("regex(" ++ s ++ ")")
  | active _ n kind _ none => called o owner arm n kind
  | active _ n kind _ (some p) => called o owner arm n kind && eval p

def evalAll : List Pattern → Bool
  | [] => true
  | p :: ps => eval p && evalAll ps

def evalFields : List (String × Pattern) → Bool
  | [] => true
  | (_, p) :: fs => eval p && evalFields fs

def evalAny : List Pattern → Bool
  | [] => false
  | p :: ps => eval p || evalAny ps

/-- The elements of a slice; a rest marker is no part. -/
def evalItems : List (SliceItem Pattern) → Bool
  | [] => true
  | .element p :: items => eval p && evalItems items
  | .rest _ _ :: items => evalItems items

end

end Meaning

end Typed.Pattern

open Typed Pattern

namespace PlanNode

/-- Whether a node matches in an arm under such answers. -/
def found (o : Answers) (owner : String) (arm : Nat) (n : PlanNode) : Bool :=
  (walk o.oracle owner arm n ()).matched

variable {o : Answers} {owner : String} {arm : Nat}

/-! ### Walking -/

theorem found_walkAll (ns : List PlanNode) :
    (walkAll o.oracle owner arm ns ()).matched = ns.all (found o owner arm) := by
  induction ns with
  | nil => rfl
  | cons n ns ih =>
    rw [walkAll, List.all_cons, ← ih, found]
    cases h : (walk o.oracle owner arm n ()).matched <;> simp [h]

theorem found_walkAny (ns : List PlanNode) :
    (walkAny o.oracle owner arm ns ()).matched = ns.any (found o owner arm) := by
  induction ns with
  | nil => rfl
  | cons n ns ih =>
    rw [walkAny, List.any_cons, ← ih, found]
    cases h : (walk o.oracle owner arm n ()).matched <;> simp [h]

theorem found_all {n : PlanNode} (h : walkOf n.label n.alwaysMatches = .all) :
    found o owner arm n = n.children.all (found o owner arm) := by
  rw [found, walk_all h, found_walkAll]

theorem found_choice {n : PlanNode} (h : walkOf n.label n.alwaysMatches = .choice) :
    found o owner arm n = n.children.any (found o owner arm) := by
  rw [found, walk_choice h, found_walkAny]

theorem found_leaf {n : PlanNode} (h : walkOf n.label n.alwaysMatches = .leaf) :
    found o owner arm n = tested o owner arm n.label := walk_leaf h

theorem found_always {front body : String} (h : ∀ s ∈ fronts, differ s.toList front.toList = true) :
    found o owner arm (always (front ++ body)) = true := by
  rw [found, walk_always h]

theorem found_test {front body : String} (h : ∀ s ∈ fronts, differ s.toList front.toList = true)
    (children : List PlanNode) : found o owner arm (test (front ++ body) children) =
      (tested o owner arm (front ++ body) && children.all (found o owner arm)) := by
  rw [found, walk_test h, ← found_walkAll]
  rfl

theorem found_call (kind : RecognizerKind) {name : String} (h : isIdentifier name = true)
    (children : List PlanNode) : found o owner arm (call kind name children) =
      (called o owner arm name kind && children.all (found o owner arm)) := by
  rw [found, walk_call kind h, ← found_walkAll]
  rfl

theorem found_naming (body : String) (inner : PlanNode) :
    found o owner arm (naming ("binding(" ++ body) inner) = found o owner arm inner := by
  rw [found, walk_naming, found]

theorem found_rest (name : String) : found o owner arm (rest name) = true := by
  rw [found, walk_rest]

/-! Parts of a pattern, each walked to its own meaning. -/

theorem found_ofPatterns_all {ps : List Pattern}
    (h : ∀ p ∈ ps, found o owner arm (ofPattern p) = eval o owner arm p) :
    (ofPatterns ps).all (found o owner arm) = evalAll o owner arm ps := by
  induction ps with
  | nil => rfl
  | cons p ps ih =>
    rw [ofPatterns, List.all_cons, evalAll, h p List.mem_cons_self,
      ih fun q hq => h q (List.mem_cons_of_mem _ hq)]

theorem found_ofPatterns_any {ps : List Pattern}
    (h : ∀ p ∈ ps, found o owner arm (ofPattern p) = eval o owner arm p) :
    (ofPatterns ps).any (found o owner arm) = evalAny o owner arm ps := by
  induction ps with
  | nil => rfl
  | cons p ps ih =>
    rw [ofPatterns, List.any_cons, evalAny, h p List.mem_cons_self,
      ih fun q hq => h q (List.mem_cons_of_mem _ hq)]

theorem found_ofFields_all {fs : List (String × Pattern)}
    (h : ∀ f ∈ fs, found o owner arm (ofPattern f.2) = eval o owner arm f.2) :
    (ofFields fs).all (found o owner arm) = evalFields o owner arm fs := by
  induction fs with
  | nil => rfl
  | cons f fs ih =>
    rw [ofFields, List.all_cons, evalFields, h f List.mem_cons_self,
      ih fun g hg => h g (List.mem_cons_of_mem _ hg)]

theorem found_ofItems_all {items : List (SliceItem Pattern)}
    (h : ∀ p, .element p ∈ items → found o owner arm (ofPattern p) = eval o owner arm p) :
    (ofItems items).all (found o owner arm) = evalItems o owner arm items := by
  induction items with
  | nil => rfl
  | cons item items ih =>
    have hrest := ih fun p hp => h p (List.mem_cons_of_mem _ hp)
    cases item with
    | element p => rw [ofItems, List.all_cons, evalItems, h p List.mem_cons_self, hrest]
    | rest n s => rw [ofItems, List.all_cons, evalItems, found_rest, Bool.true_and, hrest]

/-- **Walking the node of a pattern finds the meaning of the pattern.** -/
theorem found_ofPattern {p : Pattern} (h : ∀ q ∈ p.nodes, CallsByName q) :
    found o owner arm (ofPattern p) = eval o owner arm p := by
  induction p using Pattern.induction with
  | wildcard i => rfl
  | var i n =>
    rw [ofPattern, String.append_assoc]
    exact found_always (by decide)
  | literal i l =>
    rw [ofPattern, eval, String.append_assoc, found_test (by decide)]
    exact Bool.and_true _
  | tuple i ps ih =>
    rw [ofPattern, found_all (show walkOf "tuple" false = .all from by decide)]
    refine found_ofPatterns_all fun p hp => ih p hp fun q hq => h q ?_
    exact List.mem_cons_of_mem _ (mem_nodesOfList.mpr ⟨p, hp, hq⟩)
  | record i fs hasRest ih =>
    rw [ofPattern, found_all (show walkOf "record" false = .all from by decide)]
    show (ofFields fs ++ if hasRest then [always "rest"] else []).all (found o owner arm)
      = evalFields o owner arm fs
    have hfields : (ofFields fs).all (found o owner arm) = evalFields o owner arm fs := by
      refine found_ofFields_all fun f hf => ih f hf fun q hq => h q ?_
      exact List.mem_cons_of_mem _ (mem_nodesOfFields.mpr ⟨f, hf, hq⟩)
    have hend : (if hasRest then [always "rest"] else []).all (found o owner arm) = true := by
      cases hasRest <;> rfl
    rw [List.all_append, hfields, hend, Bool.and_true]
  | construct i n ps ih =>
    rw [ofPattern, eval, String.append_assoc, found_test (by decide)]
    congr 1
    refine found_ofPatterns_all fun p hp => ih p hp fun q hq => h q ?_
    exact List.mem_cons_of_mem _ (mem_nodesOfList.mpr ⟨p, hp, hq⟩)
  | binding i n viaAt p ih =>
    rw [ofPattern, eval, String.append_assoc, String.append_assoc, found_naming]
    exact ih fun q hq => h q (List.mem_cons_of_mem _ hq)
  | or i ps ih =>
    rw [ofPattern, found_choice (show walkOf "or" false = .choice from by decide)]
    refine found_ofPatterns_any fun p hp => ih p hp fun q hq => h q ?_
    exact List.mem_cons_of_mem _ (mem_nodesOfList.mpr ⟨p, hp, hq⟩)
  | slice i items ih =>
    rw [ofPattern, eval, show "slice" = "slice" ++ "" from rfl, found_test (by decide)]
    congr 1
    refine found_ofItems_all fun p hp => ih p hp fun q hq => h q ?_
    exact List.mem_cons_of_mem _ (mem_nodesOfItems.mpr ⟨p, hp, hq⟩)
  | range i start stop inclusive =>
    have hleaf : walkOf (if inclusive then "range(..=)" else "range(..)") false = .leaf := by
      cases inclusive <;> decide
    exact found_leaf hleaf
  | regex i s =>
    rw [ofPattern, eval, String.append_assoc, found_test (by decide)]
    exact Bool.and_true _
  | call i n k u =>
    rw [ofPattern, eval, found_call k (h _ (self_mem_nodes _))]
    exact Bool.and_true _
  | callWith i n k u p ih =>
    rw [ofPattern, eval, found_call k (h _ (self_mem_nodes _)), List.all_cons, List.all_nil,
      Bool.and_true, ih fun q hq => h q (List.mem_cons_of_mem _ hq)]

theorem ofPatterns_eq_map (ps : List Pattern) : ofPatterns ps = ps.map ofPattern := by
  induction ps with
  | nil => rfl
  | cons p ps ih => rw [ofPatterns, ih, List.map_cons]

theorem ofFields_eq_map (fs : List (String × Pattern)) :
    ofFields fs = fs.map fun f => ofPattern f.2 := by
  induction fs with
  | nil => rfl
  | cons f fs ih => rw [ofFields, ih, List.map_cons]

/-! ### The contract of nodes -/

theorem firstError?_eq_none {ns : List PlanNode} :
    firstError? ns = none ↔ ∀ n ∈ ns, error? n = none := by
  induction ns with
  | nil => simp [firstError?]
  | cons n ns ih =>
    rw [firstError?, List.forall_mem_cons, ← ih]
    cases error? n <;> simp

theorem error?_eq_none {n : PlanNode} : error? n = none ↔
    ownError? n.label n.missOnNone n.alwaysMatches = none ∧ ∀ c ∈ n.children, error? c = none := by
  obtain ⟨label, missOnNone, alwaysMatches, children⟩ := n
  rw [error?, ← firstError?_eq_none]
  cases ownError? label missOnNone alwaysMatches <;> cases firstError? children <;> simp

/-- A label that does not start as a call has only its flags to keep. -/
theorem ownError?_of_differ (front : String) (h : differ "active(".toList front.toList = true)
    (body : String) {missOnNone alwaysMatches : Bool}
    (hflags : (alwaysMatches && missOnNone) = false) :
    ownError? (front ++ body) missOnNone alwaysMatches = none := by
  have hne : front ≠ "" := by
    rintro rfl
    exact absurd h (by decide)
  rw [ownError?, if_neg (append_ne_empty_left hne), hflags, hasFront_of_differ h]
  rfl

theorem flags_of_error? {n : PlanNode} (h : error? n = none) :
    (n.alwaysMatches && n.missOnNone) = false := by
  have hown := (error?_eq_none.mp h).1
  rw [ownError?] at hown
  split at hown
  · cases hown
  · split at hown
    · cases hown
    · rename_i hflags
      rwa [Bool.not_eq_true] at hflags

theorem error?_always (front : String) (h : differ "active(".toList front.toList = true)
    (body : String) : error? (always (front ++ body)) = none :=
  error?_eq_none.mpr ⟨ownError?_of_differ front h body rfl, by simp [always]⟩

theorem error?_test (front : String) (h : differ "active(".toList front.toList = true)
    (body : String) {children : List PlanNode} (hchildren : ∀ c ∈ children, error? c = none) :
    error? (test (front ++ body) children) = none :=
  error?_eq_none.mpr ⟨ownError?_of_differ front h body rfl, hchildren⟩

theorem error?_call (kind : RecognizerKind) {name : String} (h : isIdentifier name = true)
    {children : List PlanNode} (hchildren : ∀ c ∈ children, error? c = none) :
    error? (call kind name children) = none := by
  refine error?_eq_none.mpr ⟨?_, hchildren⟩
  show ownError? ("active" ++ kind.label name) (decide (kind = .optional)) (decide (kind = .total))
    = none
  rw [ownError?, if_neg (append_ne_empty_left (by decide)), hasBack_call kind h]
  cases kind <;> simp

theorem error?_rest (name : String) : error? (rest name) = none := by
  rw [rest]
  split
  · exact error?_always "rest" (by decide) ""
  · rw [String.append_assoc]
    exact error?_always "rest(" (by decide) _

theorem error?_ofBound (b : Bound) : error? (ofBound b) = none := by
  rw [ofBound, String.append_assoc]
  exact error?_test "literal(" (by decide) _ (by simp)

theorem error?_ofPatterns {ps : List Pattern} (h : ∀ p ∈ ps, error? (ofPattern p) = none) :
    ∀ c ∈ ofPatterns ps, error? c = none := by
  rw [ofPatterns_eq_map]
  intro c hc
  obtain ⟨p, hp, rfl⟩ := List.mem_map.mp hc
  exact h p hp

theorem error?_ofItems {items : List (SliceItem Pattern)}
    (h : ∀ p, .element p ∈ items → error? (ofPattern p) = none) :
    ∀ c ∈ ofItems items, error? c = none := by
  induction items with
  | nil => simp [ofItems]
  | cons item items ih =>
    have hrest := ih fun p hp => h p (List.mem_cons_of_mem _ hp)
    cases item with
    | element p =>
      rw [ofItems]
      exact List.forall_mem_cons.mpr ⟨h p List.mem_cons_self, hrest⟩
    | rest n s =>
      rw [ofItems]
      exact List.forall_mem_cons.mpr ⟨error?_rest n, hrest⟩

/-- **The node of a pattern keeps the contract of nodes**, if recognizers are called by names. -/
theorem error?_ofPattern {p : Pattern} (h : ∀ q ∈ p.nodes, CallsByName q) :
    error? (ofPattern p) = none := by
  induction p using Pattern.induction with
  | wildcard i => exact error?_always "_" (by decide) ""
  | var i n =>
    rw [ofPattern, String.append_assoc]
    exact error?_always "var(" (by decide) _
  | literal i l =>
    rw [ofPattern, String.append_assoc]
    exact error?_test "literal(" (by decide) _ (by simp)
  | tuple i ps ih =>
    refine error?_test "tuple" (by decide) "" (error?_ofPatterns fun p hp => ih p hp ?_)
    exact fun q hq => h q (List.mem_cons_of_mem _ (mem_nodesOfList.mpr ⟨p, hp, hq⟩))
  | record i fs hasRest ih =>
    refine error?_test "record" (by decide) "" fun c hc => ?_
    rcases List.mem_append.mp hc with hc | hc
    · rw [ofFields_eq_map] at hc
      obtain ⟨f, hf, rfl⟩ := List.mem_map.mp hc
      refine ih f hf fun q hq => h q ?_
      exact List.mem_cons_of_mem _ (mem_nodesOfFields.mpr ⟨f, hf, hq⟩)
    · cases hasRest with
      | false => simp at hc
      | true =>
        obtain rfl := List.mem_singleton.mp hc
        exact error?_rest ""
  | construct i n ps ih =>
    rw [ofPattern, String.append_assoc]
    refine error?_test "ctor(" (by decide) _ (error?_ofPatterns fun p hp => ih p hp ?_)
    exact fun q hq => h q (List.mem_cons_of_mem _ (mem_nodesOfList.mpr ⟨p, hp, hq⟩))
  | binding i n viaAt p ih =>
    have hp := ih fun q hq => h q (List.mem_cons_of_mem _ hq)
    rw [ofPattern, String.append_assoc, String.append_assoc]
    -- both flags are those of the pattern inside
    refine error?_eq_none.mpr ⟨?_, by simpa [naming] using hp⟩
    have hflags := flags_of_error? hp
    exact ownError?_of_differ "binding(" (by decide) _ hflags
  | or i ps ih =>
    refine error?_eq_none.mpr ⟨?_, error?_ofPatterns fun p hp => ih p hp ?_⟩
    · exact ownError?_of_differ "or" (by decide) "" rfl
    · exact fun q hq => h q (List.mem_cons_of_mem _ (mem_nodesOfList.mpr ⟨p, hp, hq⟩))
  | slice i items ih =>
    refine error?_test "slice" (by decide) "" (error?_ofItems fun p hp => ih p hp ?_)
    exact fun q hq => h q (List.mem_cons_of_mem _ (mem_nodesOfItems.mpr ⟨p, hp, hq⟩))
  | range i start stop inclusive =>
    rw [ofPattern]
    have hbounds : ∀ c ∈ start.toList.map ofBound ++ stop.toList.map ofBound, error? c = none := by
      intro c hc
      rw [← List.map_append] at hc
      obtain ⟨b, -, rfl⟩ := List.mem_map.mp hc
      exact error?_ofBound b
    cases inclusive with
    | false => exact error?_test "range(..)" (by decide) "" hbounds
    | true => exact error?_test "range(..=)" (by decide) "" hbounds
  | regex i s =>
    rw [ofPattern, String.append_assoc]
    exact error?_test "regex(" (by decide) _ (by simp)
  | call i n k u => exact error?_call k (h _ (self_mem_nodes _)) (by simp)
  | callWith i n k u p ih =>
    refine error?_call k (h _ (self_mem_nodes _)) ?_
    simpa using ih fun q hq => h q (List.mem_cons_of_mem _ hq)

end PlanNode

namespace Plan

theorem armErrors_eq_nil {arms : List PlanArm} (h : ∀ a ∈ arms, a.node.error? = none) (n : Nat) :
    armErrors n arms = [] := by
  induction arms generalizing n with
  | nil => rfl
  | cons a arms ih =>
    rw [armErrors, h a List.mem_cons_self, ih fun b hb => h b (List.mem_cons_of_mem _ hb)]
    rfl

/-- **The plan of a match keeps the contract of plans**, if it has an owner and a target type. -/
theorem errors_ofMatch {ph : Placeholders} {owner : String} {m : Typed.Match} (howner : owner ≠ "")
    (htype : ph.typeLabel m.target.ty ≠ "")
    (hnames : ∀ a ∈ m.arms, ∀ q ∈ a.pattern.nodes, CallsByName q) :
    (ofMatch ph owner m).errors = [] := by
  have harms : ∀ a ∈ m.arms.map arm, a.node.error? = none := by
    intro a ha
    obtain ⟨b, hb, rfl⟩ := List.mem_map.mp ha
    exact PlanNode.error?_ofPattern (hnames b hb)
  have hcount : ((m.arms.length : Nat) : Int) = ((m.arms.map arm).length : Nat) := by
    rw [List.length_map]
  rw [errors]
  show (if owner = "" then _ else _) ++ (if ph.typeLabel m.target.ty = "" then _ else _)
    ++ (if ((m.arms.length : Nat) : Int) = ((m.arms.map arm).length : Nat) then _ else _)
    ++ armErrors 1 (m.arms.map arm) = []
  rw [if_neg howner, if_neg htype, if_pos hcount, armErrors_eq_nil harms]
  rfl

/-! ### Arms in order -/

variable {o : Answers} {owner : String}

/-- Whether the body of arm number `n` runs when the arm is tried: its pattern matches, and its
guard holds if it has one. -/
def runs (o : Answers) (owner : String) (n : Nat) (a : Arm Pattern Typed.Expr) : Bool :=
  a.pattern.eval o owner n && (a.guard.isNone || o.guard ⟨owner, n, ""⟩)

theorem armSteps_matched {n : Nat} {a : Arm Pattern Typed.Expr}
    (h : ∀ q ∈ a.pattern.nodes, CallsByName q) :
    (armSteps o.oracle owner n (arm a) ()).matched = runs o owner n a := by
  have hwalk : ((arm a).node.walk o.oracle owner n ()).matched = a.pattern.eval o owner n :=
    PlanNode.found_ofPattern h
  have hguard : (arm a).hasGuard = a.guard.isSome := rfl
  rw [armSteps, runs, hguard]
  dsimp only
  rw [hwalk]
  split
  · rename_i hmatch
    rw [hmatch]
    cases a.guard <;> rfl
  · rename_i hmiss
    rw [Bool.not_eq_true] at hmiss
    rw [PlanNode.Walked.behind_matched, hwalk, hmiss, Bool.false_and]

/-- `FirstOf p xs k`: counted from 1, `k` is the first place of `xs` where `p` holds, and 0 if there
is none. -/
def FirstOf {α : Type} (p : Nat → α → Bool) (xs : List α) (k : Nat) : Prop :=
  (k = 0 ∧ ∀ i x, xs[i]? = some x → p (i + 1) x = false) ∨
    ∃ i x, xs[i]? = some x ∧ k = i + 1 ∧ p (i + 1) x = true ∧
      ∀ j y, j < i → xs[j]? = some y → p (j + 1) y = false

/-- The step: one more place that does not count in front. -/
theorem FirstOf.cons {α : Type} {p : Nat → α → Bool} {x : α} {xs : List α} {k : Nat}
    (hx : p 1 x = false) (h : FirstOf (fun n => p (n + 1)) xs k) :
    FirstOf p (x :: xs) (if k = 0 then 0 else k + 1) := by
  rcases h with ⟨rfl, hnone⟩ | ⟨i, y, hy, rfl, hp, hbefore⟩
  · refine .inl ⟨rfl, fun i y hy => ?_⟩
    cases i with
    | zero =>
      cases hy
      exact hx
    | succ i => exact hnone i y hy
  · refine .inr ⟨i + 1, y, hy, rfl, hp, fun j z hj hz => ?_⟩
    cases j with
    | zero =>
      cases hz
      exact hx
    | succ j => exact hbefore j z (by omega) hz

/-- The arms from number `n + 1` on: the first that runs is selected. -/
theorem armTrace_selected {arms : List (Arm Pattern Typed.Expr)}
    (h : ∀ a ∈ arms, ∀ q ∈ a.pattern.nodes, CallsByName q) (n : Nat) :
    ∃ k, (armTrace o.oracle owner (n + 1) (arms.map arm) ()).1.2 = (if k = 0 then 0 else n + k) ∧
      FirstOf (fun i => runs o owner (n + i)) arms k := by
  induction arms generalizing n with
  | nil => exact ⟨0, rfl, .inl ⟨rfl, by simp⟩⟩
  | cons a arms ih =>
    rw [List.map_cons, armTrace]
    dsimp only
    rw [armSteps_matched (h a List.mem_cons_self)]
    cases hrun : runs o owner (n + 1) a with
    | true =>
      refine ⟨1, rfl, .inr ⟨0, a, rfl, rfl, hrun, ?_⟩⟩
      intro j b hj
      omega
    | false =>
      obtain ⟨k, hk, hfirst⟩ := ih (fun b hb => h b (List.mem_cons_of_mem _ hb)) (n + 1)
      have hshift : FirstOf (fun i => runs o owner (n + (i + 1))) arms k := by
        have heq : (fun i => runs o owner (n + 1 + i)) = fun i => runs o owner (n + (i + 1)) := by
          funext i
          rw [show n + 1 + i = n + (i + 1) from by omega]
        rw [← heq]
        exact hfirst
      refine ⟨if k = 0 then 0 else k + 1, ?_, FirstOf.cons hrun hshift⟩
      show (armTrace o.oracle owner (n + 1 + 1) (arms.map arm) ()).1.2 = _
      rw [hk]
      by_cases hzero : k = 0
      · rw [if_pos hzero, if_pos hzero, if_pos rfl]
      · rw [if_neg hzero, if_neg hzero, if_neg (by omega)]
        omega

/-- **A match is traced to the first arm that runs.**  The plan of a match with an owner and a target
type keeps the contract, and its trace selects the first arm whose pattern matches and whose guard,
if there is one, holds; none if there is no such arm. -/
theorem trace_selects_first (o : Answers) (ph : Placeholders) (owner : String) (m : Typed.Match)
    (howner : owner ≠ "") (htype : ph.typeLabel m.target.ty ≠ "")
    (hnames : ∀ a ∈ m.arms, ∀ q ∈ a.pattern.nodes, CallsByName q) :
    ∃ t, ((ofMatch ph owner m).trace o.oracle ()).1 = .ok t ∧ FirstOf (runs o owner) m.arms t.selected := by
  obtain ⟨k, hk, hfirst⟩ := armTrace_selected (o := o) hnames 0
  rw [trace, errors_ofMatch howner htype hnames]
  refine ⟨_, rfl, ?_⟩
  show FirstOf (runs o owner) m.arms (armTrace o.oracle owner 1 (m.arms.map arm) ()).1.2
  rw [hk, Nat.zero_add]
  have hself : (if k = 0 then 0 else k) = k := by
    by_cases hzero : k = 0
    · rw [if_pos hzero, hzero]
    · rw [if_neg hzero]
  have hruns : (fun i => runs o owner (0 + i)) = runs o owner := by
    funext i
    rw [Nat.zero_add]
  rw [hself, ← hruns]
  exact hfirst

/-! An instance: `(|Even|_|) _`, then `n` under a guard, then `0`, then `_`. -/

def classified : Typed.Match :=
  let info : Info := ⟨{}, .int⟩
  let arm (p : Pattern) (guard : Option Typed.Expr) : Arm Pattern Typed.Expr :=
    ⟨{}, p, guard, false, none, .literal info .unit⟩
  ⟨{}, .ident info "v",
    [arm (.active info "Even" .optional false (some (.wildcard info))) none,
      arm (.var info "n") (some (.literal info (.bool true))),
      arm (.literal info (.int 0)) none, arm (.wildcard info) none]⟩

/-- The recognizer misses, the guard and the test fail, and the last arm is left. -/
theorem trace_classified : ∃ t, ((ofMatch {} "<inline match>" classified).trace
    (Answers.oracle ⟨fun _ => false, fun _ _ _ => false, fun _ => false⟩) ()).1 = .ok t ∧
      FirstOf (runs ⟨fun _ => false, fun _ _ _ => false, fun _ => false⟩ "<inline match>")
        classified.arms t.selected := by
  refine trace_selects_first _ _ _ _ (by decide) (by decide) ?_
  intro a ha
  simp only [classified, List.mem_cons, List.not_mem_nil, or_false] at ha
  rcases ha with rfl | rfl | rfl | rfl
  · intro q hq
    rcases List.mem_cons.mp hq with rfl | hq
    · show isIdentifier "Even" = true
      decide
    · obtain rfl := List.mem_singleton.mp hq
      trivial
  · simp [nodes, CallsByName]
  · simp [nodes, CallsByName]
  · simp [nodes, CallsByName]

end Plan

end PatternPlan
