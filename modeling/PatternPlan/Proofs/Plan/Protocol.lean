import Mathlib.Data.List.Basic
import PatternPlan.Proofs.Plan.Probed

/-!
# The protocol of traces

What every trace looks like, whatever the plan and the oracle are: also for plans that come from no
match, whose labels say anything, and for oracles that answer the same question in two ways.

* `PlanArm.conclusion` — what follows the pattern of an arm that matches: the alias, the guard, the
  body;
* `PlanArm.Tried` — what one arm leaves in a trace: it is entered, its pattern is probed, and only if
  the pattern matched does its conclusion follow;
* `Run`, `exists_run` — the arms up to the first that runs, one after the other;
* `Succeeds`, `succeeds_iff` — the pattern of an arm matched, as the steps of the arm tell;
* `noted_armTrace` — what an oracle is asked in the course of a trace;
* `Plan.Protocol` — the shape of a whole trace, and the questions that were asked for it;
* `trace_follows_protocol` — **a plan is traced exactly if it keeps its contract, and then its trace
  follows the protocol**.
-/

namespace PatternPlan

/-! ### One arm -/

/-- What follows the pattern of arm number `n` when it matches: the alias is bound, the guard is
asked, and the body runs unless the guard fails. -/
def PlanArm.conclusion (n : Nat) (a : PlanArm) (held : Bool) : List Step :=
  (if a.asName = "" then [] else [⟨.bindAlias, n, a.asName, true⟩])
    ++ (if a.hasGuard then [⟨.guard, n, "", held⟩] else [])
    ++ (if a.hasGuard && !held then [] else [⟨.body, n, "", true⟩])

/-- `a.Tried n runs ss`: arm number `n` is entered, its pattern is probed, and if it matches the
conclusion follows; these are the steps `ss`, and `runs` says whether the body ran. -/
inductive PlanArm.Tried (n : Nat) (a : PlanArm) : (runs : Bool) → List Step → Prop
  | missed {probes : List Step} (h : a.node.Probed n false probes) :
    Tried n a false (⟨.enterArm, n, "", true⟩ :: probes)
  | matched {probes : List Step} (held : Bool) (h : a.node.Probed n true probes) :
    Tried n a (!(a.hasGuard && !held)) (⟨.enterArm, n, "", true⟩ :: probes ++ a.conclusion n held)

namespace Plan

variable {n k selected : Nat} {a : PlanArm} {arms : List PlanArm} {runs : Bool} {ss : List Step}

/-- **One arm**: it is entered, its pattern is probed, and only if the pattern matches does its
conclusion follow. -/
theorem tried_armSteps {σ : Type} (o : Oracle σ) (owner : String) (n : Nat) (a : PlanArm) (s : σ) :
    a.Tried n (armSteps o owner n a s).matched (armSteps o owner n a s).steps := by
  have hprobed := a.node.probed_walk o owner n s
  rw [armSteps]
  dsimp only
  split
  · rename_i hmatched
    rw [hmatched] at hprobed
    split
    · rename_i hguard
      have htried := PlanArm.Tried.matched
        (o.ask (.guard ⟨owner, n, ""⟩) (a.node.walk o owner n s).state).1 hprobed
      rw [PlanArm.conclusion, hguard] at htried
      cases hheld : (o.ask (.guard ⟨owner, n, ""⟩) (a.node.walk o owner n s).state).1 <;>
        simpa [hheld] using htried
    · rename_i hguard
      rw [Bool.not_eq_true] at hguard
      simpa [PlanArm.conclusion, hguard] using PlanArm.Tried.matched true hprobed
  · rename_i hmissed
    rw [Bool.not_eq_true] at hmissed
    rw [hmissed] at hprobed
    simpa [hmissed] using PlanArm.Tried.missed hprobed

theorem arm_of_mem_conclusion {held : Bool} {s : Step} (h : s ∈ a.conclusion n held) :
    s.arm = n ∧ s.op ∈ [Op.bindAlias, .guard, .body] := by
  simp only [PlanArm.conclusion, List.mem_append] at h
  rcases h with (h | h) | h <;> split at h <;> simp_all

theorem arm_of_mem_tried (h : a.Tried n runs ss) : ∀ s ∈ ss, s.arm = n := by
  cases h with
  | missed h => exact List.forall_mem_cons.mpr ⟨rfl, fun s hs => (h.probes s hs).1⟩
  | matched held h =>
    refine List.forall_mem_append.mpr ⟨?_, fun s hs => (arm_of_mem_conclusion hs).1⟩
    exact List.forall_mem_cons.mpr ⟨rfl, fun s hs => (h.probes s hs).1⟩

/-! ### The arms in order -/

/-- `Run n arms k ss selected`: of the arms from number `n` on, `k` are entered, they leave the steps
`ss`, and `selected` is the arm that runs, or 0. -/
inductive Run : (n : Nat) → List PlanArm → (k : Nat) → List Step → (selected : Nat) → Prop
  | noMatch (n : Nat) : Run n [] 0 [⟨.noMatch, 0, "", false⟩] 0
  | body {n : Nat} {a : PlanArm} {ss : List Step} (arms : List PlanArm) (h : a.Tried n true ss) :
    Run n (a :: arms) 1 ss n
  | next {n k selected : Nat} {a : PlanArm} {arms : List PlanArm} {ss rest : List Step}
    (h : a.Tried n false ss) (hrest : Run (n + 1) arms k rest selected) :
    Run n (a :: arms) (k + 1) (ss ++ rest) selected

theorem exists_run {σ : Type} (o : Oracle σ) (owner : String) (n : Nat) (arms : List PlanArm)
    (s : σ) :
    ∃ k, Run n arms k (armTrace o owner n arms s).1.1 (armTrace o owner n arms s).1.2 := by
  induction arms generalizing n s with
  | nil => exact ⟨0, .noMatch n⟩
  | cons a arms ih =>
    have htried := tried_armSteps o owner n a s
    rw [armTrace]
    dsimp only
    split
    · rename_i hruns
      rw [hruns] at htried
      exact ⟨1, .body arms htried⟩
    · rename_i hruns
      rw [Bool.not_eq_true] at hruns
      rw [hruns] at htried
      obtain ⟨k, hk⟩ := ih (n + 1) (armSteps o owner n a s).state
      exact ⟨k + 1, .next htried hk⟩

namespace Run

theorem length_le (h : Run n arms k ss selected) : k ≤ arms.length := by
  induction h with
  | noMatch n => exact Nat.zero_le _
  | body arms h => exact Nat.succ_le_succ (Nat.zero_le _)
  | next h hrest ih => exact Nat.succ_le_succ ih

/-- The steps belong to the arms that are entered, or to the match as a whole. -/
theorem arm_of_mem (h : Run n arms k ss selected) :
    ∀ s ∈ ss, s.arm = 0 ∨ n ≤ s.arm ∧ s.arm < n + k := by
  induction h with
  | noMatch n => simp
  | body arms h =>
    intro s hs
    have harm := arm_of_mem_tried h s hs
    omega
  | next h hrest ih =>
    intro s hs
    rcases List.mem_append.mp hs with hs | hs
    · have harm := arm_of_mem_tried h s hs
      omega
    · have harm := ih s hs
      omega

end Run

/-- The steps that belong to arm number `m`. -/
def stepsOf (m : Nat) (ss : List Step) : List Step := ss.filter fun s => s.arm = m

theorem stepsOf_append (m : Nat) (ss ss' : List Step) :
    stepsOf m (ss ++ ss') = stepsOf m ss ++ stepsOf m ss' := List.filter_append ..

theorem stepsOf_tried (h : a.Tried n runs ss) : stepsOf n ss = ss := by
  rw [stepsOf, List.filter_eq_self]
  intro s hs
  exact decide_eq_true (arm_of_mem_tried h s hs)

theorem stepsOf_tried_of_ne {m : Nat} (h : a.Tried n runs ss) (hm : m ≠ n) : stepsOf m ss = [] := by
  rw [stepsOf, List.filter_eq_nil_iff]
  intro s hs
  rw [arm_of_mem_tried h s hs, decide_eq_true_eq]
  exact Ne.symm hm

namespace Run

/-- An arm that is not entered leaves nothing. -/
theorem stepsOf_eq_nil {m : Nat} (h : Run n arms k ss selected) (hm : 0 < m)
    (hout : m < n ∨ n + k ≤ m) : stepsOf m ss = [] := by
  rw [stepsOf, List.filter_eq_nil_iff]
  intro s hs
  have harm := h.arm_of_mem s hs
  rw [decide_eq_true_eq]
  omega

/-- **An arm that is entered leaves what one arm leaves.** -/
theorem tried (h : Run n arms k ss selected) (hn : 0 < n) {i : Nat} (hi : i < k)
    (ha : arms[i]? = some a) : ∃ runs, a.Tried (n + i) runs (stepsOf (n + i) ss) := by
  induction h generalizing i with
  | noMatch n => omega
  | body arms h =>
    obtain rfl : i = 0 := by omega
    cases ha
    exact ⟨true, (stepsOf_tried h).symm ▸ h⟩
  | @next n k selected b arms ss rest h hrest ih =>
    rw [stepsOf_append]
    cases i with
    | zero =>
      cases ha
      rw [Nat.add_zero, stepsOf_tried h, hrest.stepsOf_eq_nil hn (by omega), List.append_nil]
      exact ⟨false, h⟩
    | succ i =>
      rw [stepsOf_tried_of_ne h (by omega), List.nil_append, show n + (i + 1) = n + 1 + i by omega]
      exact ih (by omega) (by omega) ha

/-- **The arms follow one after the other**, and then the match ends if none has run. -/
theorem steps_eq (h : Run n arms k ss selected) (hn : 0 < n) :
    ss = (List.range' n k).flatMap (fun m => stepsOf m ss)
      ++ if selected = 0 then [⟨.noMatch, 0, "", false⟩] else [] := by
  induction h with
  | noMatch n => rfl
  | body arms h =>
    rw [if_neg (by omega), List.append_nil]
    simp [stepsOf_tried h]
  | @next n k selected b arms ss rest h hrest ih =>
    have htail : ∀ m ∈ List.range' (n + 1) k, stepsOf m (ss ++ rest) = stepsOf m rest := by
      intro m hm
      have hle := (List.mem_range'_1.mp hm).1
      rw [stepsOf_append, stepsOf_tried_of_ne h (by omega), List.nil_append]
    rw [List.range'_succ, List.flatMap_cons, stepsOf_append, stepsOf_tried h,
      hrest.stepsOf_eq_nil hn (by omega), List.append_nil, List.flatMap_congr htail,
      List.append_assoc, ← ih (by omega)]

end Run

/-- An arm that runs leaves its body as the last step. -/
theorem body_of_tried (h : a.Tried n true ss) : ∃ front, ss = front ++ [⟨.body, n, "", true⟩] := by
  generalize hruns : true = runs at h
  cases h with
  | missed h => cases hruns
  | matched held h =>
    have hheld : (a.hasGuard && !held) = false := by
      rwa [eq_comm, Bool.not_eq_true'] at hruns
    rw [PlanArm.conclusion, hheld, if_neg Bool.false_ne_true, ← List.append_assoc]
    exact ⟨_, rfl⟩

namespace Run

/-- **The end**: the last arm that is entered runs, or all are entered and none runs. -/
theorem ending (h : Run n arms k ss selected) :
    (0 < k ∧ selected + 1 = n + k ∧ ∃ front, ss = front ++ [⟨.body, selected, "", true⟩]) ∨
      selected = 0 ∧ k = arms.length ∧ ∃ front, ss = front ++ [⟨.noMatch, 0, "", false⟩] := by
  induction h with
  | noMatch n => exact .inr ⟨rfl, rfl, [], rfl⟩
  | body arms h => exact .inl ⟨Nat.one_pos, rfl, body_of_tried h⟩
  | @next n k selected b arms ss rest h hrest ih =>
    rcases ih with ⟨hk, hselected, front, rfl⟩ | ⟨rfl, rfl, front, rfl⟩
    · refine .inl ⟨Nat.succ_pos k, by omega, ss ++ front, ?_⟩
      exact (List.append_assoc ..).symm
    · exact .inr ⟨rfl, rfl, ss ++ front, (List.append_assoc ..).symm⟩

end Run

/-! ### Kinds of steps -/

/-- The steps of a kind. -/
def ofKind (op : Op) (ss : List Step) : List Step := ss.filter fun s => s.op = op

theorem ofKind_append (op : Op) (ss ss' : List Step) :
    ofKind op (ss ++ ss') = ofKind op ss ++ ofKind op ss' := List.filter_append ..

theorem ofKind_probed {op : Op} {node : PlanNode} {matched : Bool}
    (h : node.Probed n matched ss) (hop : op ∉ [Op.test, .invoke, .miss]) : ofKind op ss = [] := by
  rw [ofKind, List.filter_eq_nil_iff]
  intro s hs heq
  rw [decide_eq_true_eq] at heq
  exact hop (heq ▸ (h.probes s hs).2)

theorem ofKind_conclusion {op : Op} (hop : op ∉ [Op.bindAlias, .guard, .body]) (held : Bool) :
    ofKind op (a.conclusion n held) = [] := by
  rw [ofKind, List.filter_eq_nil_iff]
  intro s hs heq
  rw [decide_eq_true_eq] at heq
  exact hop (heq ▸ (arm_of_mem_conclusion hs).2)

/-- The steps of a kind that an arm leaves in front of its conclusion, for a kind that does not
probe. -/
theorem ofKind_entered {op : Op} {node : PlanNode} {matched : Bool} (h : node.Probed n matched ss)
    (hop : op ∉ [Op.test, .invoke, .miss]) : ofKind op (⟨.enterArm, n, "", true⟩ :: ss)
      = if op = .enterArm then [⟨.enterArm, n, "", true⟩] else [] := by
  have hprobes := ofKind_probed h hop
  rw [ofKind] at hprobes ⊢
  rw [List.filter_cons, hprobes]
  simp only [decide_eq_true_eq, eq_comm (a := Op.enterArm)]

/-- The steps of a kind that neither probes nor concludes: entering. -/
theorem ofKind_tried {op : Op} (h : a.Tried n runs ss) (hprobe : op ∉ [Op.test, .invoke, .miss])
    (hconclude : op ∉ [Op.bindAlias, .guard, .body]) :
    ofKind op ss = if op = .enterArm then [⟨.enterArm, n, "", true⟩] else [] := by
  cases h with
  | missed h => exact ofKind_entered h hprobe
  | matched held h =>
    rw [ofKind_append, ofKind_entered h hprobe, ofKind_conclusion hconclude, List.append_nil]

theorem ofKind_body_tried (h : a.Tried n runs ss) :
    ofKind .body ss = if runs then [⟨.body, n, "", true⟩] else [] := by
  cases h with
  | missed h => exact ofKind_entered h (by decide)
  | matched held h =>
    rw [ofKind_append, ofKind_entered h (by decide), PlanArm.conclusion]
    cases a.hasGuard <;> cases held <;> by_cases hname : a.asName = "" <;> simp [ofKind, hname]

namespace Run

/-- Entering: once for each arm, in order. -/
theorem ofKind_enterArm (h : Run n arms k ss selected) :
    ofKind .enterArm ss = (List.range' n k).map fun m => ⟨.enterArm, m, "", true⟩ := by
  induction h with
  | noMatch n => rfl
  | body arms h => exact ofKind_tried h (by decide) (by decide)
  | next h hrest ih =>
    rw [ofKind_append, List.range'_succ, List.map_cons, ih, ofKind_tried h (by decide) (by decide)]
    rfl

theorem ofKind_evalTarget (h : Run n arms k ss selected) : ofKind .evalTarget ss = [] := by
  induction h with
  | noMatch n => rfl
  | body arms h => exact ofKind_tried h (by decide) (by decide)
  | next h hrest ih =>
    rw [ofKind_append, ih, ofKind_tried h (by decide) (by decide)]
    rfl

/-- The body: of the selected arm only. -/
theorem ofKind_body (h : Run n arms k ss selected) (hn : 0 < n) :
    ofKind .body ss = if selected = 0 then [] else [⟨.body, selected, "", true⟩] := by
  induction h with
  | noMatch n => rfl
  | body arms h => rw [ofKind_body_tried h, if_pos rfl, if_neg (by omega)]
  | next h hrest ih =>
    rw [ofKind_append, ofKind_body_tried h, if_neg Bool.false_ne_true, ih (by omega)]
    rfl

end Run

/-! ### Patterns that succeed -/

/-- The pattern of arm number `n` matched: the steps of the arm start as those of a pattern that is
found to match. -/
def Succeeds (ss : List Step) (n : Nat) (a : PlanArm) : Prop :=
  ∃ probes rest, a.node.Probed n true probes ∧
    stepsOf n ss = ⟨.enterArm, n, "", true⟩ :: probes ++ rest

/-- **The steps of an arm tell whether its pattern matched**, and then all that belongs to the arm is
told: the conclusion follows, or nothing does. -/
theorem succeeds_iff (h : a.Tried n runs (stepsOf n ss)) :
    (Succeeds ss n a ∧ ∃ probes held, a.node.Probed n true probes ∧
      stepsOf n ss = ⟨.enterArm, n, "", true⟩ :: probes ++ a.conclusion n held) ∨
    (¬ Succeeds ss n a ∧ ∃ probes, a.node.Probed n false probes ∧
      stepsOf n ss = ⟨.enterArm, n, "", true⟩ :: probes) := by
  generalize hsteps : stepsOf n ss = own at h
  cases h with
  | @missed probes h =>
    refine .inr ⟨?_, probes, h, rfl⟩
    rintro ⟨probes', rest, h', heq⟩
    -- the same steps cannot both match and miss
    have hsame : probes ++ [] = probes' ++ rest := by
      rw [hsteps] at heq
      simpa using heq
    have hfalse := (h.unique h' hsame).1
    cases hfalse
  | @matched probes held h => exact .inl ⟨⟨probes, _, h, hsteps⟩, probes, held, h, rfl⟩

/-- The guard of an arm is asked exactly if the arm has one and its pattern matched. -/
theorem guard_mem_iff (h : a.Tried n runs (stepsOf n ss)) :
    (∃ held, (⟨.guard, n, "", held⟩ : Step) ∈ ss) ↔ a.hasGuard = true ∧ Succeeds ss n a := by
  have hmem : ∀ held, (⟨.guard, n, "", held⟩ : Step) ∈ ss ↔
      (⟨.guard, n, "", held⟩ : Step) ∈ ofKind .guard (stepsOf n ss) := by
    intro held
    rw [ofKind, stepsOf, List.mem_filter, List.mem_filter]
    simp
  simp only [hmem]
  rcases succeeds_iff h with ⟨hsucceeds, probes, held, hprobed, heq⟩ | ⟨hmissed, probes, hprobed, heq⟩
  · rw [heq, ofKind_append, ofKind_entered hprobed (by decide), PlanArm.conclusion]
    cases a.hasGuard <;> cases held <;> by_cases hname : a.asName = "" <;>
      simp [ofKind, hname, hsucceeds]
  · rw [heq, ofKind_entered hprobed (by decide)]
    simp [hmissed]

/-! ### Questions -/

variable {σ : Type} {o : Oracle σ} {owner : String}

theorem records_of_not_asks {s : Step} (h : s.asks = false) : Records owner [s] [] := by
  rw [Records, List.filter_cons_of_neg (by simp [h])]
  exact .nil

variable (o owner) in
/-- What is noted of an arm is what its steps record. -/
theorem noted_armSteps (n : Nat) (a : PlanArm) (s : σ) (noted : List (Question × Bool)) :
    (armSteps o owner n a s).Noted owner noted (armSteps o.noting owner n a (s, noted)) := by
  obtain ⟨asked, hasked, hwalk⟩ := a.node.noted_walk owner o n s noted
  have hentered : Records owner (⟨.enterArm, n, "", true⟩ :: (a.node.walk o owner n s).steps) asked :=
    (records_of_not_asks (s := ⟨.enterArm, n, "", true⟩) rfl).append hasked
  have hbound : Records owner
      (if a.asName = "" then [] else [⟨.bindAlias, n, a.asName, true⟩]) [] := by
    split
    · exact .nil
    · exact records_of_not_asks rfl
  have hbody : Records owner [⟨.body, n, "", true⟩] [] := records_of_not_asks rfl
  have hguard : ∀ held : Bool, Records owner
      (⟨.guard, n, "", held⟩ :: if held then [⟨.body, n, "", true⟩] else [])
      [(.guard ⟨owner, n, ""⟩, held)] := by
    intro held
    have hasked : Records owner [⟨.guard, n, "", held⟩] [(.guard ⟨owner, n, ""⟩, held)] :=
      .cons (.guard n held) .nil
    cases held with
    | true => exact hasked.append hbody
    | false => exact hasked
  rw [armSteps, armSteps, hwalk]
  dsimp only
  split
  · split
    · have hall := (hentered.append hbound).append
        (hguard (o.ask (.guard ⟨owner, n, ""⟩) (a.node.walk o owner n s).state).1)
      rw [List.append_nil] at hall
      refine ⟨_, hall, ?_⟩
      rw [← List.append_assoc noted]
      rfl
    · have hall := (hentered.append hbound).append hbody
      rw [List.append_nil, List.append_nil] at hall
      exact ⟨asked, hall, rfl⟩
  · exact ⟨asked, hentered, rfl⟩

variable (o owner) in
/-- **What is noted of a run is what its steps record.** -/
theorem noted_armTrace (n : Nat) (arms : List PlanArm) (s : σ) (noted : List (Question × Bool)) :
    ∃ asked, Records owner (armTrace o owner n arms s).1.1 asked ∧
      armTrace o.noting owner n arms (s, noted) =
        ((armTrace o owner n arms s).1, (armTrace o owner n arms s).2, noted ++ asked) := by
  induction arms generalizing n s noted with
  | nil => exact ⟨[], .nil, by simp [armTrace]⟩
  | cons a arms ih =>
    obtain ⟨asked, hasked, harm⟩ := noted_armSteps o owner n a s noted
    rw [armTrace, armTrace, harm]
    dsimp only
    split
    · exact ⟨asked, hasked, rfl⟩
    · obtain ⟨more, hmore, hrest⟩ := ih (n + 1) (armSteps o owner n a s).state (noted ++ asked)
      rw [hrest]
      exact ⟨asked ++ more, hasked.append hmore, by rw [List.append_assoc]⟩

/-- The guards that were asked are those that steps record. -/
theorem guard_mem_asked_iff {asked : List (Question × Bool)} (h : Records owner ss asked)
    (n : Nat) (held : Bool) : (.guard ⟨owner, n, ""⟩, held) ∈ asked ↔ ⟨.guard, n, "", held⟩ ∈ ss := by
  rw [Records] at h
  have hasks : (⟨.guard, n, "", held⟩ : Step) ∈ ss ↔ ⟨.guard, n, "", held⟩ ∈ ss.filter Step.asks := by
    rw [List.mem_filter]
    exact (and_iff_left rfl).symm
  rw [hasks]
  generalize ss.filter Step.asks = asking at h
  induction h with
  | nil => simp
  | cons hstep hrest ih =>
    rw [List.mem_cons, List.mem_cons]
    refine or_congr ?_ ih
    cases hstep <;> simp

/-! ### Whole traces -/

/-- **The shape of a trace** of a plan in which `k` arms are entered, and in whose course `asked` are
the questions to the oracle and its answers. -/
structure Protocol (p : Plan) (t : Trace) (k : Nat) (asked : List (Question × Bool)) : Prop where
  /-- No more arms are entered than there are. -/
  entered : k ≤ p.armList.length
  /-- The target is evaluated first, then the arms follow one after the other, and if none of them
  was selected the match ends without one. -/
  steps : t.steps = ⟨.evalTarget, 0, "", true⟩ :: ((List.range' 1 k).flatMap (stepsOf · t.steps)
    ++ if t.selected = 0 then [⟨.noMatch, 0, "", false⟩] else [])
  /-- Nowhere else is the target evaluated. -/
  evalTarget : ofKind .evalTarget t.steps = [⟨.evalTarget, 0, "", true⟩]
  /-- The arms from 1 to `k` are entered once each, in order. -/
  enterArm : ofKind .enterArm t.steps = (List.range' 1 k).map fun n => ⟨.enterArm, n, "", true⟩
  /-- An arm is entered and its pattern probed; only if the pattern matched is the alias bound, then
  the guard asked, and then the body run. -/
  arm : ∀ i a, i < k → p.armList[i]? = some a →
    (Succeeds t.steps (i + 1) a ∧ ∃ probes held, a.node.Probed (i + 1) true probes ∧
      stepsOf (i + 1) t.steps = ⟨.enterArm, i + 1, "", true⟩ :: probes ++ a.conclusion (i + 1) held) ∨
    (¬ Succeeds t.steps (i + 1) a ∧ ∃ probes, a.node.Probed (i + 1) false probes ∧
      stepsOf (i + 1) t.steps = ⟨.enterArm, i + 1, "", true⟩ :: probes)
  /-- The oracle was asked what the steps record, in order, and nothing else. -/
  records : Records p.owner t.steps asked
  /-- Guards were asked for the arms that have one and whose pattern matched. -/
  guard : ∀ i a, p.armList[i]? = some a →
    ((∃ held, (Question.guard ⟨p.owner, i + 1, ""⟩, held) ∈ asked) ↔
      a.hasGuard = true ∧ Succeeds t.steps (i + 1) a)
  /-- Only the selected arm runs. -/
  body : ofKind .body t.steps = if t.selected = 0 then [] else [⟨.body, t.selected, "", true⟩]
  /-- The last step is the body of the last arm that was entered, or there is no such arm and all
  were entered. -/
  last : (0 < k ∧ t.selected = k ∧ t.steps.getLast? = some ⟨.body, k, "", true⟩) ∨
    k = p.armList.length ∧ t.selected = 0 ∧ t.steps.getLast? = some ⟨.noMatch, 0, "", false⟩

/-- A run of the arms of a plan makes a trace of the shape. -/
theorem Run.protocol {p : Plan} {asked : List (Question × Bool)}
    (h : Run 1 p.armList k ss selected) (hasked : Records p.owner ss asked) :
    p.Protocol ⟨p.owner, p.targetType, ⟨.evalTarget, 0, "", true⟩ :: ss, selected⟩ k asked := by
  have hfirst : ∀ m, 0 < m → stepsOf m (⟨.evalTarget, 0, "", true⟩ :: ss) = stepsOf m ss := by
    intro m hm
    exact List.filter_cons_of_neg (by simp; omega)
  have htried : ∀ i a, i < k → p.armList[i]? = some a →
      ∃ runs, a.Tried (i + 1) runs (stepsOf (i + 1) (⟨.evalTarget, 0, "", true⟩ :: ss)) := by
    intro i a hi ha
    have htried := h.tried Nat.one_pos hi ha
    rwa [Nat.add_comm 1 i, ← hfirst _ (Nat.succ_pos i)] at htried
  have hrecords : Records p.owner (⟨.evalTarget, 0, "", true⟩ :: ss) asked := hasked
  refine ⟨h.length_le, ?_, ?_, h.ofKind_enterArm, ?_, hrecords, ?_, h.ofKind_body Nat.one_pos, ?_⟩
  · dsimp only
    rw [List.flatMap_congr fun m hm => hfirst m (List.mem_range'_1.mp hm).1, ← h.steps_eq Nat.one_pos]
  · exact congrArg (_ :: ·) h.ofKind_evalTarget
  · intro i a hi ha
    obtain ⟨runs, htried⟩ := htried i a hi ha
    exact succeeds_iff htried
  · intro i a ha
    simp only [guard_mem_asked_iff hrecords]
    by_cases hi : i < k
    · obtain ⟨runs, htried⟩ := htried i a hi ha
      exact guard_mem_iff htried
    · -- an arm that is not entered has no steps
      have hnone : stepsOf (i + 1) (⟨.evalTarget, 0, "", true⟩ :: ss) = [] := by
        rw [hfirst _ (Nat.succ_pos i)]
        exact h.stepsOf_eq_nil (Nat.succ_pos i) (by omega)
      refine iff_of_false ?_ ?_
      · rintro ⟨held, hmem⟩
        have hown : (⟨.guard, i + 1, "", held⟩ : Step) ∈
            stepsOf (i + 1) (⟨.evalTarget, 0, "", true⟩ :: ss) := List.mem_filter.mpr ⟨hmem, by simp⟩
        rw [hnone] at hown
        cases hown
      · rintro ⟨-, probes, rest, -, heq⟩
        rw [hnone] at heq
        cases heq
  · rcases h.ending with ⟨hk, hselected, front, hss⟩ | ⟨hselected, hk, front, hss⟩
    · obtain rfl : selected = k := by omega
      refine .inl ⟨hk, rfl, ?_⟩
      dsimp only
      rw [hss, ← List.cons_append, List.getLast?_concat]
    · refine .inr ⟨hk, hselected, ?_⟩
      dsimp only
      rw [hss, ← List.cons_append, List.getLast?_concat]

/-- **Every trace follows the protocol.**  A plan is refused exactly if it breaks its contract, with
everything that is wrong with it, and no oracle is asked; any other plan, from a match or not, has a
trace, and its steps and the questions of the oracle have the shape of the protocol, whatever the
oracle answers and whatever it was asked before. -/
theorem trace_follows_protocol {σ : Type} (o : Oracle σ) (p : Plan) (s : σ) :
    (p.errors ≠ [] ∧ p.trace o s = (.error p.errors, s)) ∨
      p.errors = [] ∧ ∃ t k s' asked, p.trace o s = (.ok t, s') ∧
        p.trace o.noting (s, []) = (.ok t, s', asked) ∧ p.Protocol t k asked := by
  by_cases herrors : p.errors = []
  · obtain ⟨k, hrun⟩ := exists_run o p.owner 1 p.armList s
    obtain ⟨asked, hasked, hnoted⟩ := noted_armTrace o p.owner 1 p.armList s []
    refine .inr ⟨herrors, _, k, (armTrace o p.owner 1 p.armList s).2, asked, ?_, ?_,
      hrun.protocol hasked⟩
    · rw [trace, herrors]
    · rw [trace, herrors]
      dsimp only
      rw [hnoted, List.nil_append]
  · refine .inl ⟨herrors, ?_⟩
    rw [trace]
    split
    · contradiction
    · rfl

end Plan

end PatternPlan
