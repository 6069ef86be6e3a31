import PatternPlan.Proofs.Plan.Protocol
import PatternPlan.Proofs.Plan.Selection

/-!
# Where a miss goes

A recognizer that misses reports a jump to the next arm.  Every construct around the call honours
the jump, except alternatives: there the next alternative of the same arm is tried, if there is one.

* `MissLeaves` — what it means that misses leave their arms;
* `alternatives_keep_missed_arm` — a miss in front of another alternative does not leave its arm;
* `PlanNode.Leaves` — no call that may miss stands in an alternative that others follow;
* `Leaves.endsAtMiss` — walking such a node ends at its first miss, and fails there;
* `miss_leaves_arm` — **any other miss leaves its arm**: the next arm is entered or the match ends,
  nothing later belongs to the arm, and neither its guard nor its body runs.
-/

namespace PatternPlan

open Typed Pattern

/-- **Misses leave their arms.**  Behind a miss that jumps to the next arm that arm is entered, or
the match ends; no later step belongs to the arm, whose guard is not asked and whose body does not
run. -/
def MissLeaves (ss : List Step) : Prop :=
  ∀ before s after, ss = before ++ s :: after → s.op = .miss → s.label = JumpTarget.nextArm.name →
    (∀ s' ∈ after, s'.arm ≠ s.arm) ∧
    (after.head? = some ⟨.enterArm, s.arm + 1, "", true⟩ ∨ after = [⟨.noMatch, 0, "", false⟩]) ∧
    ∀ s' ∈ ss, s'.arm = s.arm → s'.op ∉ [Op.guard, .body]

namespace PlanNode

variable {arm : Nat} {free matched : Bool} {ss : List Step}

/-- `Leaves free n`: no call that may miss stands in an alternative that others follow, and if `free`
is false none stands anywhere. -/
inductive Leaves : (free : Bool) → PlanNode → Prop
  | intro {free : Bool} {n : PlanNode}
    (call : ∀ name, walkOf n.label n.alwaysMatches = .call name .optional → free = true)
    (children : ∀ c ∈ n.children, Leaves free c)
    (followed : walkOf n.label n.alwaysMatches = .choice →
      ∀ c ∈ n.children.dropLast, Leaves false c) : Leaves free n

/-- No step is a miss, or, where misses are allowed, the last one is and the walk has failed. -/
def EndsAtMiss (free matched : Bool) (ss : List Step) : Prop :=
  (∀ s ∈ ss, s.op ≠ .miss) ∨
    free = true ∧ matched = false ∧
      ∃ front miss, ss = front ++ [miss] ∧ ∀ s ∈ front, s.op ≠ .miss

namespace EndsAtMiss

theorem quiet (h : EndsAtMiss false matched ss) : ∀ s ∈ ss, s.op ≠ .miss := by
  rcases h with h | ⟨hfree, -⟩
  · exact h
  · cases hfree

theorem of_matched (h : EndsAtMiss free true ss) : ∀ s ∈ ss, s.op ≠ .miss := by
  rcases h with h | ⟨-, hmatched, -⟩
  · exact h
  · cases hmatched

/-- Steps in front that are no misses. -/
theorem append {front : List Step} (hfront : ∀ s ∈ front, s.op ≠ .miss)
    (h : EndsAtMiss free matched ss) : EndsAtMiss free matched (front ++ ss) := by
  rcases h with h | ⟨hfree, hmatched, before, miss, rfl, hbefore⟩
  · exact .inl (List.forall_mem_append.mpr ⟨hfront, h⟩)
  · refine .inr ⟨hfree, hmatched, front ++ before, miss, (List.append_assoc ..).symm, ?_⟩
    exact List.forall_mem_append.mpr ⟨hfront, hbefore⟩

end EndsAtMiss

theorem AllProbed.endsAtMiss {ns : List PlanNode}
    (ih : ∀ n ∈ ns, ∀ matched ss, Probed arm n matched ss → EndsAtMiss free matched ss)
    (h : AllProbed arm ns matched ss) : EndsAtMiss free matched ss := by
  induction ns generalizing ss with
  | nil =>
    cases h
    exact .inl (by simp)
  | cons n ns ihs =>
    cases h with
    | stop _ h => exact ih n List.mem_cons_self _ _ h
    | next h hrest =>
      have hns := ihs (fun m hm => ih m (List.mem_cons_of_mem _ hm)) hrest
      exact hns.append (ih n List.mem_cons_self _ _ h).of_matched

/-- Alternatives: a miss in the last one ends them all. -/
theorem SomeProbed.endsAtMiss {ns : List PlanNode}
    (ih : ∀ n ∈ ns, ∀ matched ss, Probed arm n matched ss → EndsAtMiss free matched ss)
    (hfollowed : ∀ n ∈ ns.dropLast, ∀ matched ss, Probed arm n matched ss →
      EndsAtMiss false matched ss)
    (h : SomeProbed arm ns matched ss) : EndsAtMiss free matched ss := by
  induction ns generalizing ss with
  | nil =>
    cases h
    exact .inl (by simp)
  | cons n ns ihs =>
    have hn := ih n List.mem_cons_self
    cases h with
    | found _ h => exact hn _ _ h
    | next h hrest =>
      cases ns with
      | nil =>
        cases hrest
        rw [List.append_nil]
        exact hn _ _ h
      | cons m ns =>
        rw [List.dropLast_cons_cons] at hfollowed
        have hns := ihs (fun c hc => ih c (List.mem_cons_of_mem _ hc))
          (fun c hc => hfollowed c (List.mem_cons_of_mem _ hc)) hrest
        exact hns.append (hfollowed n List.mem_cons_self _ _ h).quiet

/-- **Walking ends at the first miss**, and fails there. -/
theorem Leaves.endsAtMiss {n : PlanNode} (h : Leaves free n) {matched : Bool} {ss : List Step}
    (hprobed : Probed arm n matched ss) : EndsAtMiss free matched ss := by
  induction h generalizing matched ss with
  | @intro free n call children followed ih ihf =>
    have hchildren : ∀ c ∈ n.children, ∀ matched ss, Probed arm c matched ss →
        EndsAtMiss free matched ss := fun c hc _ _ hprobed => ih c hc hprobed
    have hquiet : ∀ (op : Op) (ok : Bool), op ≠ .miss →
        ∀ s ∈ [(⟨op, arm, n.label, ok⟩ : Step)], s.op ≠ .miss := by
      intro op ok hop s hs
      rw [List.mem_singleton.mp hs]
      exact hop
    cases hprobed with
    | present h hall => exact (hall.endsAtMiss hchildren).append (hquiet .invoke true (by simp))
    | missed h =>
      exact .inr ⟨call _ h, rfl, [_], _, rfl, hquiet .invoke false (by simp)⟩
    | choice h hany =>
      exact hany.endsAtMiss hchildren fun c hc _ _ hprobed => ihf h c hc hprobed
    | all h hall => exact hall.endsAtMiss hchildren
    | always h => exact .inl (by simp)
    | leaf _ h => exact .inl (hquiet .test matched (by simp))
    | passed h hall => exact (hall.endsAtMiss hchildren).append (hquiet .test true (by simp))
    | failed h => exact .inl (hquiet .test false (by simp))

/-! ### Nodes of patterns -/

/-- A node that is no list of alternatives. -/
theorem leaves_of_not_choice {n : PlanNode} (h : walkOf n.label n.alwaysMatches ≠ .choice)
    (call : ∀ name, walkOf n.label n.alwaysMatches = .call name .optional → free = true)
    (hchildren : ∀ c ∈ n.children, Leaves free c) : Leaves free n :=
  .intro call hchildren fun hchoice => absurd hchoice h

/-- A node whose label starts as none that a backend looks for. -/
theorem leaves_of_plain (front body : String)
    (h : ∀ s ∈ fronts, differ s.toList front.toList = true) {n : PlanNode}
    (hlabel : n.label = front ++ body) (hchildren : ∀ c ∈ n.children, Leaves free c) :
    Leaves free n := by
  have hwalk := walkOf_of_plain h body n.alwaysMatches
  rw [← hlabel] at hwalk
  refine leaves_of_not_choice ?_ (fun name hcall => ?_) hchildren
  · rw [hwalk]
    split <;> simp
  · rw [hwalk] at hcall
    split at hcall <;> cases hcall

theorem leaves_of_all {n : PlanNode} (h : walkOf n.label n.alwaysMatches = .all)
    (hchildren : ∀ c ∈ n.children, Leaves free c) : Leaves free n := by
  refine leaves_of_not_choice (by simp [h]) (fun name hcall => ?_) hchildren
  rw [h] at hcall
  cases hcall

theorem leaves_rest (name : String) : Leaves free (rest name) := by
  rw [rest]
  split
  · exact leaves_of_plain "rest" "" (by decide) rfl (by simp [always])
  · exact leaves_of_plain "rest(" _ (by decide) (String.append_assoc ..) (by simp [always])

theorem leaves_ofBound (b : Typed.Bound) : Leaves free (ofBound b) :=
  leaves_of_plain "literal(" _ (by decide) (String.append_assoc ..) (by simp [ofBound, test])

theorem leaves_call {kind : RecognizerKind} {name : String} (h : isIdentifier name = true)
    (hkind : kind = .optional → free = true) {children : List PlanNode}
    (hchildren : ∀ c ∈ children, Leaves free c) : Leaves free (call kind name children) := by
  have hwalk : walkOf (call kind name children).label (call kind name children).alwaysMatches
      = .call name kind := by
    rw [call]
    dsimp only
    rw [walkOf, activeLabel?_call kind h]
  refine leaves_of_not_choice (by simp [hwalk]) (fun other hcall => hkind ?_) hchildren
  rw [hwalk] at hcall
  cases hcall
  rfl

end PlanNode

/-- A pattern whose recognizers are called by names, and in which none that may miss is called in an
alternative that others follow; if `free` is false none is called anywhere. -/
structure Typed.Pattern.MissesAside (free : Bool) (p : Pattern) : Prop where
  named : ∀ q ∈ p.nodes, CallsByName q
  calls : free = false → ∀ q ∈ p.nodes, q.isOptionalCall = false
  choices : ∀ i ps, .or i ps ∈ p.nodes → ∀ q ∈ ps.dropLast, q.usesOptional = false

namespace Typed.Pattern.MissesAside

variable {free : Bool} {p q : Pattern}

theorem inside (h : p.MissesAside free) (hsub : ∀ r ∈ q.nodes, r ∈ p.nodes) : q.MissesAside free :=
  ⟨fun r hr => h.named r (hsub r hr), fun hfree r hr => h.calls hfree r (hsub r hr),
    fun i ps hor => h.choices i ps (hsub _ hor)⟩

theorem free_of_optional {i : Info} {n : String} {k : RecognizerKind} {u : Bool} {arg : Option Pattern}
    (h : (active i n k u arg).MissesAside free) (hk : k = .optional) : free = true := by
  by_contra hfree
  have hcall := h.calls (Bool.eq_false_iff.mpr hfree) _ (self_mem_nodes _)
  simp [isOptionalCall, hk] at hcall

end Typed.Pattern.MissesAside

namespace PlanNode

variable {free : Bool}

theorem leaves_ofPatterns {ps : List Pattern} (h : ∀ p ∈ ps, Leaves free (ofPattern p)) :
    ∀ c ∈ ofPatterns ps, Leaves free c := by
  rw [ofPatterns_eq_map]
  intro c hc
  obtain ⟨p, hp, rfl⟩ := List.mem_map.mp hc
  exact h p hp

theorem leaves_ofItems {items : List (SliceItem Pattern)}
    (h : ∀ p, .element p ∈ items → Leaves free (ofPattern p)) :
    ∀ c ∈ ofItems items, Leaves free c := by
  induction items with
  | nil => simp [ofItems]
  | cons item items ih =>
    have hrest := ih fun p hp => h p (List.mem_cons_of_mem _ hp)
    cases item with
    | element p => exact List.forall_mem_cons.mpr ⟨h p List.mem_cons_self, hrest⟩
    | rest n s => exact List.forall_mem_cons.mpr ⟨leaves_rest n, hrest⟩

/-- **The node of a pattern** in which no recognizer that may miss is called in front of another
alternative. -/
theorem leaves_ofPattern {p : Pattern} (h : p.MissesAside free) : Leaves free (ofPattern p) := by
  induction p using Pattern.induction generalizing free with
  | wildcard i => exact leaves_of_plain "_" "" (by decide) rfl (by simp [ofPattern, always])
  | var i n =>
    exact leaves_of_plain "var(" _ (by decide) (String.append_assoc ..) (by simp [ofPattern, always])
  | literal i l =>
    exact leaves_of_plain "literal(" _ (by decide) (String.append_assoc ..) (by simp [ofPattern, test])
  | tuple i ps ih =>
    refine leaves_of_all (show walkOf "tuple" false = .all from by decide) ?_
    refine leaves_ofPatterns fun p hp => ih p hp (h.inside fun r hr => ?_)
    exact List.mem_cons_of_mem _ (mem_nodesOfList.mpr ⟨p, hp, hr⟩)
  | record i fs hasRest ih =>
    refine leaves_of_all (show walkOf "record" false = .all from by decide) fun c hc => ?_
    rcases List.mem_append.mp hc with hc | hc
    · rw [ofFields_eq_map] at hc
      obtain ⟨f, hf, rfl⟩ := List.mem_map.mp hc
      refine ih f hf (h.inside fun r hr => ?_)
      exact List.mem_cons_of_mem _ (mem_nodesOfFields.mpr ⟨f, hf, hr⟩)
    · cases hasRest with
      | false => simp at hc
      | true =>
        obtain rfl := List.mem_singleton.mp hc
        exact leaves_rest ""
  | construct i n ps ih =>
    refine leaves_of_plain "ctor(" _ (by decide) (String.append_assoc ..) ?_
    refine leaves_ofPatterns fun p hp => ih p hp (h.inside fun r hr => ?_)
    exact List.mem_cons_of_mem _ (mem_nodesOfList.mpr ⟨p, hp, hr⟩)
  | binding i n viaAt p ih =>
    have hp := ih (h.inside fun r hr => List.mem_cons_of_mem _ hr)
    rw [ofPattern, String.append_assoc, String.append_assoc]
    exact leaves_of_all (walkOf_binding _ _) (by simpa [naming] using hp)
  | or i ps ih =>
    have hor : walkOf (ofPattern (.or i ps)).label (ofPattern (.or i ps)).alwaysMatches = .choice := by
      show walkOf "or" false = .choice
      decide
    have hinside : ∀ p ∈ ps, p.MissesAside free := fun p hp => h.inside fun r hr =>
      List.mem_cons_of_mem _ (mem_nodesOfList.mpr ⟨p, hp, hr⟩)
    refine .intro (fun name hcall => ?_) ?_ fun _ c hc => ?_
    · rw [hor] at hcall
      cases hcall
    · exact leaves_ofPatterns fun p hp => ih p hp (hinside p hp)
    · -- others follow this alternative, so that nothing in it may miss
      rw [ofPattern, choice, ofPatterns_eq_map, ← List.map_dropLast] at hc
      obtain ⟨p, hp, rfl⟩ := List.mem_map.mp hc
      have hmem := List.dropLast_subset ps hp
      have hquiet := h.choices i ps (self_mem_nodes _) p hp
      rw [usesOptional, List.any_eq_false] at hquiet
      exact ih p hmem ⟨(hinside p hmem).named, fun _ r hr => Bool.eq_false_iff.mpr (hquiet r hr),
        (hinside p hmem).choices⟩
  | slice i items ih =>
    refine leaves_of_plain "slice" "" (by decide) rfl ?_
    refine leaves_ofItems fun p hp => ih p hp (h.inside fun r hr => ?_)
    exact List.mem_cons_of_mem _ (mem_nodesOfItems.mpr ⟨p, hp, hr⟩)
  | range i start stop inclusive =>
    have hwalk : walkOf (if inclusive then "range(..=)" else "range(..)") false = .leaf := by
      cases inclusive <;> decide
    refine leaves_of_not_choice ?_ (fun name hcall => ?_) fun c hc => ?_
    · rw [ofPattern, test, hwalk]
      simp
    · rw [ofPattern, test, hwalk] at hcall
      cases hcall
    · rw [ofPattern, test, ← List.map_append] at hc
      obtain ⟨b, -, rfl⟩ := List.mem_map.mp hc
      exact leaves_ofBound b
  | regex i s =>
    exact leaves_of_plain "regex(" _ (by decide) (String.append_assoc ..) (by simp [ofPattern, test])
  | call i n k u => exact leaves_call (h.named _ (self_mem_nodes _)) h.free_of_optional (by simp)
  | callWith i n k u p ih =>
    refine leaves_call (h.named _ (self_mem_nodes _)) h.free_of_optional ?_
    simpa using ih (h.inside fun r hr => List.mem_cons_of_mem _ hr)

end PlanNode

namespace Plan

variable {n k selected : Nat} {a : PlanArm} {arms : List PlanArm} {runs : Bool} {ss : List Step}

/-! ### Arms -/

/-- What an arm leaves holds no miss, or ends at its only one and neither asks a guard nor runs. -/
theorem tried_endsAtMiss (h : a.Tried n runs ss) (hleaves : a.node.Leaves true) :
    (∀ s ∈ ss, s.op ≠ .miss) ∨
      (∀ s ∈ ss, s.op ∉ [Op.guard, .body]) ∧
        ∃ front miss, ss = front ++ [miss] ∧ ∀ s ∈ front, s.op ≠ .miss := by
  cases h with
  | @missed probes h =>
    rcases hleaves.endsAtMiss h with hquiet | ⟨-, -, front, miss, hsteps, hfront⟩
    · exact .inl (List.forall_mem_cons.mpr ⟨by simp, hquiet⟩)
    · refine .inr ⟨?_, ⟨.enterArm, n, "", true⟩ :: front, miss, ?_, ?_⟩
      · refine List.forall_mem_cons.mpr ⟨by simp, fun s hs hop => ?_⟩
        have hprobes := (h.probes s hs).2
        simp only [List.mem_cons, List.not_mem_nil, or_false] at hop hprobes
        rcases hop with hop | hop <;> rw [hop] at hprobes <;> simp at hprobes
      · rw [hsteps]
        rfl
      · exact List.forall_mem_cons.mpr ⟨by simp, hfront⟩
  | matched held h =>
    have hquiet := (hleaves.endsAtMiss h).of_matched
    refine .inl (List.forall_mem_append.mpr ⟨List.forall_mem_cons.mpr ⟨by simp, hquiet⟩, ?_⟩)
    intro s hs heq
    have hop := (arm_of_mem_conclusion hs).2
    rw [heq] at hop
    exact absurd hop (by decide)

/-- A miss in an arm is its last step. -/
theorem tried_of_miss {before after : List Step} {s : Step} (h : a.Tried n runs ss)
    (hleaves : a.node.Leaves true) (hss : ss = before ++ s :: after) (hmiss : s.op = .miss) :
    after = [] ∧ ∀ s' ∈ ss, s'.op ∉ [Op.guard, .body] := by
  rcases tried_endsAtMiss h hleaves with hquiet | ⟨hops, front, miss, hlast, hfront⟩
  · exact absurd hmiss (hquiet s (hss ▸ by simp))
  · refine ⟨?_, hops⟩
    rcases List.eq_nil_or_concat after with hnil | ⟨rest, y, rfl⟩
    · exact hnil
    · rw [hlast, List.concat_eq_append, ← List.cons_append, ← List.append_assoc] at hss
      obtain ⟨hinit, -⟩ := List.append_inj' hss rfl
      exact absurd hmiss (hfront s (hinit ▸ by simp))

theorem head_of_tried (h : a.Tried n runs ss) : ∃ rest, ss = ⟨.enterArm, n, "", true⟩ :: rest := by
  cases h with
  | missed h => exact ⟨_, rfl⟩
  | matched held h => exact ⟨_, rfl⟩

theorem Run.head (h : Run n arms k ss selected) :
    ss.head? = some ⟨.enterArm, n, "", true⟩ ∨ ss = [⟨.noMatch, 0, "", false⟩] := by
  cases h with
  | noMatch => exact .inr rfl
  | body arms h =>
    obtain ⟨rest, rfl⟩ := head_of_tried h
    exact .inl rfl
  | next h hrest =>
    obtain ⟨rest, rfl⟩ := head_of_tried h
    exact .inl rfl

/-- **Runs**: misses leave their arms. -/
theorem Run.missLeaves (h : Run n arms k ss selected) (hn : 0 < n)
    (harms : ∀ a ∈ arms, a.node.Leaves true) : MissLeaves ss := by
  induction h with
  | noMatch n =>
    intro before s after hss hmiss
    have hs : s ∈ [(⟨.noMatch, 0, "", false⟩ : Step)] := hss ▸ by simp
    rw [List.mem_singleton.mp hs] at hmiss
    cases hmiss
  | @body n b ss arms h =>
    intro before s after hss hmiss
    -- an arm that runs has not missed
    have hops := (tried_of_miss h (harms b List.mem_cons_self) hss hmiss).2
    obtain ⟨front, hfront⟩ := body_of_tried h
    have hbody : (⟨.body, n, "", true⟩ : Step) ∈ ss := by
      rw [hfront]
      simp
    exact absurd (by simp) (hops _ hbody)
  | @next n k selected b arms ss rest h hrest ih =>
    intro before s after hss hmiss hlabel
    have hlater : ∀ tail, rest = tail ++ s :: after → (∀ s' ∈ after, s'.arm ≠ s.arm) ∧
        (after.head? = some ⟨.enterArm, s.arm + 1, "", true⟩ ∨ after = [⟨.noMatch, 0, "", false⟩]) ∧
        ∀ s' ∈ ss ++ rest, s'.arm = s.arm → s'.op ∉ [Op.guard, .body] := by
      intro tail htail
      obtain ⟨hafter, hhead, hops⟩ := ih (by omega) (fun a ha => harms a (List.mem_cons_of_mem _ ha))
        tail s after htail hmiss hlabel
      refine ⟨hafter, hhead, fun s' hs' harm => ?_⟩
      rcases List.mem_append.mp hs' with hs' | hs'
      · have hs : s ∈ rest := htail ▸ by simp
        have hown := arm_of_mem_tried h s' hs'
        have hle := hrest.arm_of_mem s hs
        omega
      · exact hops s' hs' harm
    rcases List.append_eq_append_iff.mp hss with ⟨tail, -, htail⟩ | ⟨tail, hfirst, hafter⟩
    · exact hlater tail htail
    · cases tail with
      | nil => exact hlater [] hafter.symm
      | cons s' tail =>
        -- the miss is a step of this arm, and the last one
        obtain ⟨rfl, rfl⟩ := List.cons.inj hafter
        obtain ⟨rfl, hops⟩ := tried_of_miss h (harms b List.mem_cons_self) hfirst hmiss
        have hmem : s ∈ ss := by
          rw [hfirst]
          simp
        have harm := arm_of_mem_tried h s hmem
        rw [harm]
        refine ⟨fun s' (hs' : s' ∈ rest) => ?_, hrest.head, fun s' hs' harm' => ?_⟩
        · have hle := hrest.arm_of_mem s' hs'
          omega
        · rcases List.mem_append.mp hs' with hs' | hs'
          · exact hops s' hs'
          · have hle := hrest.arm_of_mem s' hs'
            omega

/-! ### Matches -/

/-- One more step in front that is no step of an arm. -/
theorem missLeaves_cons {first : Step} (h : MissLeaves ss)
    (hfirst : first.op ∉ [Op.miss, .guard, .body]) : MissLeaves (first :: ss) := by
  intro before s after hss hmiss hlabel
  cases before with
  | nil =>
    obtain ⟨rfl, -⟩ := List.cons.inj hss
    exact absurd (by simp [hmiss]) hfirst
  | cons first' before =>
    obtain ⟨rfl, hrest⟩ := List.cons.inj hss
    obtain ⟨hafter, hhead, hops⟩ := h before s after hrest hmiss hlabel
    refine ⟨hafter, hhead, List.forall_mem_cons.mpr ⟨fun _ hop => hfirst ?_, hops⟩⟩
    exact List.mem_cons_of_mem _ hop

/-- **A miss leaves its arm, unless another alternative follows.**  In the trace of a match in which
no recognizer that may miss is called in front of another alternative, a miss is followed by the next
arm or by the end of the match; nothing later belongs to its arm, whose guard is not asked and whose
body does not run. -/
theorem miss_leaves_arm {σ : Type} (o : Oracle σ) (ph : Placeholders) (owner : String)
    (m : Typed.Match) (s s' : σ) (t : Trace)
    (hnames : ∀ a ∈ m.arms, ∀ q ∈ a.pattern.nodes, CallsByName q)
    (hchoices : ∀ a ∈ m.arms, ∀ i ps, .or i ps ∈ a.pattern.nodes →
      ∀ q ∈ ps.dropLast, q.usesOptional = false)
    (htrace : (ofMatch ph owner m).trace o s = (.ok t, s')) : MissLeaves t.steps := by
  obtain ⟨k, hrun⟩ := exists_run o owner 1 (m.arms.map arm) s
  have hleaves : ∀ a ∈ m.arms.map arm, a.node.Leaves true := by
    intro a ha
    obtain ⟨b, hb, rfl⟩ := List.mem_map.mp ha
    exact PlanNode.leaves_ofPattern ⟨hnames b hb, nofun, hchoices b hb⟩
  have hmiss := hrun.missLeaves Nat.one_pos hleaves
  rw [trace] at htrace
  split at htrace
  · cases htrace
    exact missLeaves_cons hmiss (by decide)
  · cases htrace

/-! Two instances, with an oracle for which every recognizer misses: `(|Even|_|)` on its own, and as
the first of two alternatives. -/

/-- A match with a pattern as its first arm, and a second arm for all other values. -/
def recognizing (p : Pattern) : Typed.Match :=
  let info : Info := ⟨{}, .int⟩
  let arm (p : Pattern) : Arm Pattern Typed.Expr := ⟨{}, p, none, false, none, .literal info .unit⟩
  ⟨{}, .ident info "v", [arm p, arm (.wildcard info)]⟩

def evenCall : Pattern := .active ⟨{}, .int⟩ "Even" .optional false none

def evenOrAny : Pattern := .or ⟨{}, .int⟩ [evenCall, .wildcard ⟨{}, .int⟩]

def missAll : Answers := ⟨fun _ => true, fun _ _ _ => false, fun _ => true⟩

/-- On its own the recognizer leaves its arm. -/
theorem miss_leaves_even : ∃ t,
    (ofMatch {} "<inline match>" (recognizing evenCall)).trace missAll.oracle () = (.ok t, ()) ∧
      t.selected = 2 ∧ MissLeaves t.steps := by
  refine ⟨_, rfl, rfl, miss_leaves_arm missAll.oracle {} "<inline match>" (recognizing evenCall) () () _
    ?_ ?_ rfl⟩
  · have heven : isIdentifier "Even" = true := by decide
    simp [recognizing, evenCall, nodes, CallsByName, heven]
  · simp [recognizing, evenCall, nodes]

/-- **In front of another alternative a miss stays in its arm**: behind the jump to the next arm the body of the same
arm runs. -/
theorem alternatives_keep_missed_arm :
    ∃ t, (ofMatch {} "<inline match>" (recognizing evenOrAny)).trace missAll.oracle () = (.ok t, ()) ∧
      t.steps = [⟨.evalTarget, 0, "", true⟩, ⟨.enterArm, 1, "", true⟩,
        ⟨.invoke, 1, "active(|Even|_|)", false⟩, ⟨.miss, 1, JumpTarget.nextArm.name, true⟩,
        ⟨.body, 1, "", true⟩] ∧ ¬ MissLeaves t.steps := by
  refine ⟨_, rfl, rfl, fun h => ?_⟩
  have hleaves := h [⟨.evalTarget, 0, "", true⟩, ⟨.enterArm, 1, "", true⟩,
    ⟨.invoke, 1, "active(|Even|_|)", false⟩] ⟨.miss, 1, JumpTarget.nextArm.name, true⟩
    [⟨.body, 1, "", true⟩] rfl rfl rfl
  exact hleaves.1 ⟨.body, 1, "", true⟩ (by simp) rfl

end Plan

end PatternPlan
