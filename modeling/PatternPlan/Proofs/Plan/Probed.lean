import Mathlib.Data.List.Forall2
import PatternPlan.Proofs.Plan.Walk

/-!
# What walking a node leaves

An oracle may answer the same question now in one way and now in another.  What a walk leaves is
therefore said without an oracle, on the steps themselves.

* `PlanNode.Probed` — **some answers make a backend take these steps at a node**, and whether the node
  then matches;
* `probed_walk` — every oracle's walk is one of them;
* `Oracle.replay`, `walk_replay` — and each of them is the walk of an oracle: of the one that gives the
  answers found in the steps;
* `probed_iff`, `Probed.unique` — so these are the walks, and the steps tell whether the node matched;
* `Step.Records`, `Oracle.noting`, `noted_walk` — the questions of a walk are those that its steps
  record, in order.
-/

namespace PatternPlan

namespace PlanNode

mutual

/-- `Probed arm n matched ss`: under some answers a backend takes the steps `ss` in an arm to find out
whether the node matches, and `matched` is what it finds. -/
inductive Probed (arm : Nat) : PlanNode → (matched : Bool) → List Step → Prop
  | present {n : PlanNode} {name : String} {kind : RecognizerKind} {matched : Bool} {ss : List Step}
    (h : walkOf n.label n.alwaysMatches = .call name kind)
    (children : AllProbed arm n.children matched ss) :
    Probed arm n matched (⟨.invoke, arm, n.label, true⟩ :: ss)
  | missed {n : PlanNode} {name : String}
    (h : walkOf n.label n.alwaysMatches = .call name .optional) :
    Probed arm n false
      [⟨.invoke, arm, n.label, false⟩, ⟨.miss, arm, JumpTarget.nextArm.name, true⟩]
  | choice {n : PlanNode} {matched : Bool} {ss : List Step}
    (h : walkOf n.label n.alwaysMatches = .choice)
    (children : SomeProbed arm n.children matched ss) : Probed arm n matched ss
  | all {n : PlanNode} {matched : Bool} {ss : List Step}
    (h : walkOf n.label n.alwaysMatches = .all)
    (children : AllProbed arm n.children matched ss) : Probed arm n matched ss
  | always {n : PlanNode} (h : walkOf n.label n.alwaysMatches = .always) : Probed arm n true []
  | leaf {n : PlanNode} (ok : Bool) (h : walkOf n.label n.alwaysMatches = .leaf) :
    Probed arm n ok [⟨.test, arm, n.label, ok⟩]
  | passed {n : PlanNode} {matched : Bool} {ss : List Step}
    (h : walkOf n.label n.alwaysMatches = .test)
    (children : AllProbed arm n.children matched ss) :
    Probed arm n matched (⟨.test, arm, n.label, true⟩ :: ss)
  | failed {n : PlanNode} (h : walkOf n.label n.alwaysMatches = .test) :
    Probed arm n false [⟨.test, arm, n.label, false⟩]

/-- The same for nodes that have to match all, up to the first that does not. -/
inductive AllProbed (arm : Nat) : List PlanNode → (matched : Bool) → List Step → Prop
  | nil : AllProbed arm [] true []
  | stop {n : PlanNode} {ss : List Step} (ns : List PlanNode) (h : Probed arm n false ss) :
    AllProbed arm (n :: ns) false ss
  | next {n : PlanNode} {ns : List PlanNode} {matched : Bool} {ss rest : List Step}
    (h : Probed arm n true ss) (hrest : AllProbed arm ns matched rest) :
    AllProbed arm (n :: ns) matched (ss ++ rest)

/-- The same for alternatives, up to the first that matches. -/
inductive SomeProbed (arm : Nat) : List PlanNode → (matched : Bool) → List Step → Prop
  | nil : SomeProbed arm [] false []
  | found {n : PlanNode} {ss : List Step} (ns : List PlanNode) (h : Probed arm n true ss) :
    SomeProbed arm (n :: ns) true ss
  | next {n : PlanNode} {ns : List PlanNode} {matched : Bool} {ss rest : List Step}
    (h : Probed arm n false ss) (hrest : SomeProbed arm ns matched rest) :
    SomeProbed arm (n :: ns) matched (ss ++ rest)

end

/-! ### Every walk -/

section Walking

variable {σ : Type} (o : Oracle σ) (owner : String) (arm : Nat)

theorem allProbed_walkAll {ns : List PlanNode}
    (h : ∀ n ∈ ns, ∀ s, Probed arm n (walk o owner arm n s).matched (walk o owner arm n s).steps)
    (s : σ) :
    AllProbed arm ns (walkAll o owner arm ns s).matched (walkAll o owner arm ns s).steps := by
  induction ns generalizing s with
  | nil => exact .nil
  | cons n ns ih =>
    have hn := h n List.mem_cons_self s
    have hns := ih (fun m hm => h m (List.mem_cons_of_mem _ hm)) (walk o owner arm n s).state
    rw [walkAll]
    split
    · rename_i hmatched
      rw [hmatched] at hn
      exact .next hn hns
    · rename_i hmatched
      rw [Bool.not_eq_true] at hmatched
      rw [hmatched] at hn ⊢
      exact .stop ns hn

theorem someProbed_walkAny {ns : List PlanNode}
    (h : ∀ n ∈ ns, ∀ s, Probed arm n (walk o owner arm n s).matched (walk o owner arm n s).steps)
    (s : σ) :
    SomeProbed arm ns (walkAny o owner arm ns s).matched (walkAny o owner arm ns s).steps := by
  induction ns generalizing s with
  | nil => exact .nil
  | cons n ns ih =>
    have hn := h n List.mem_cons_self s
    have hns := ih (fun m hm => h m (List.mem_cons_of_mem _ hm)) (walk o owner arm n s).state
    rw [walkAny]
    split
    · rename_i hmatched
      rw [hmatched] at hn ⊢
      exact .found ns hn
    · rename_i hmatched
      rw [Bool.not_eq_true] at hmatched
      rw [hmatched] at hn
      exact .next hn hns

/-- **Every oracle's walk of a node is a probing of it.** -/
theorem probed_walk (n : PlanNode) (s : σ) :
    Probed arm n (walk o owner arm n s).matched (walk o owner arm n s).steps := by
  induction n using PlanNode.induction generalizing s with
  | h n ih =>
    have hall := allProbed_walkAll o owner arm ih
    have hany := someProbed_walkAny o owner arm ih
    rw [walk_eq]
    cases hwalk : walkOf n.label n.alwaysMatches with
    | call name kind =>
      dsimp only
      split
      · exact .present hwalk (hall _)
      · rename_i hmiss
        -- only a call that may miss gets here
        cases kind with
        | total => simp at hmiss
        | optional => exact .missed hwalk
    | choice => exact .choice hwalk (hany s)
    | all => exact .all hwalk (hall s)
    | always => exact .always hwalk
    | leaf => exact .leaf _ hwalk
    | test =>
      dsimp only
      split
      · exact .passed hwalk (hall _)
      · exact .failed hwalk

end Walking

end PlanNode

/-! ### Replaying -/

/-- Gives answers from a list, one after the other. -/
def Oracle.replay : Oracle (List Bool) where
  ask _ bs := (bs.headD true, bs.tail)

/-- Whether an oracle is asked at a step. -/
def Step.asks (s : Step) : Bool := s.op = .test || s.op = .invoke || s.op = .guard

/-- The answers that steps record. -/
def answersOf (ss : List Step) : List Bool := (ss.filter Step.asks).map Step.ok

theorem answersOf_append (ss rest : List Step) :
    answersOf (ss ++ rest) = answersOf ss ++ answersOf rest := by
  rw [answersOf, List.filter_append, List.map_append, answersOf, answersOf]

namespace PlanNode

section Replaying

variable {owner : String} {arm : Nat} {matched : Bool} {ss : List Step}

theorem walkAll_replay {ns : List PlanNode}
    (ih : ∀ n ∈ ns, ∀ matched ss, Probed arm n matched ss → ∀ bs,
      walk .replay owner arm n (answersOf ss ++ bs) = ⟨matched, ss, bs⟩)
    (h : AllProbed arm ns matched ss) (bs : List Bool) :
    walkAll .replay owner arm ns (answersOf ss ++ bs) = ⟨matched, ss, bs⟩ := by
  induction ns generalizing ss with
  | nil =>
    cases h
    rfl
  | cons n ns ihs =>
    have hns := fun m hm => ih m (List.mem_cons_of_mem _ hm)
    cases h with
    | stop _ h =>
      rw [walkAll, ih n List.mem_cons_self _ _ h]
      rfl
    | next h hrest =>
      rw [walkAll, answersOf_append, List.append_assoc, ih n List.mem_cons_self _ _ h]
      dsimp only
      rw [ihs hns hrest, if_pos rfl]
      rfl

theorem walkAny_replay {ns : List PlanNode}
    (ih : ∀ n ∈ ns, ∀ matched ss, Probed arm n matched ss → ∀ bs,
      walk .replay owner arm n (answersOf ss ++ bs) = ⟨matched, ss, bs⟩)
    (h : SomeProbed arm ns matched ss) (bs : List Bool) :
    walkAny .replay owner arm ns (answersOf ss ++ bs) = ⟨matched, ss, bs⟩ := by
  induction ns generalizing ss with
  | nil =>
    cases h
    rfl
  | cons n ns ihs =>
    have hns := fun m hm => ih m (List.mem_cons_of_mem _ hm)
    cases h with
    | found _ h =>
      rw [walkAny, ih n List.mem_cons_self _ _ h]
      rfl
    | next h hrest =>
      rw [walkAny, answersOf_append, List.append_assoc, ih n List.mem_cons_self _ _ h]
      dsimp only
      rw [ihs hns hrest, if_neg Bool.false_ne_true]
      rfl

/-- **Every probing is the walk of an oracle**: of the one that gives the answers in its steps. -/
theorem walk_replay {n : PlanNode} (h : Probed arm n matched ss) (bs : List Bool) :
    walk .replay owner arm n (answersOf ss ++ bs) = ⟨matched, ss, bs⟩ := by
  induction n using PlanNode.induction generalizing matched ss bs with
  | h n ih =>
    have ih' : ∀ c ∈ n.children, ∀ matched ss, Probed arm c matched ss → ∀ bs,
        walk .replay owner arm c (answersOf ss ++ bs) = ⟨matched, ss, bs⟩ :=
      fun c hc _ _ hprobed bs => ih c hc hprobed bs
    rw [walk_eq]
    cases h with
    | present h children =>
      have hall := walkAll_replay ih' children bs
      rw [h]
      dsimp only [Oracle.replay, answersOf]
      rw [List.filter_cons_of_pos (by rfl)]
      simp only [List.map_cons, List.cons_append, List.headD_cons, List.tail_cons, Bool.or_true,
        if_true]
      exact congrArg (Walked.behind _) hall
    | missed h =>
      rw [h]
      rfl
    | choice h children =>
      rw [h]
      exact walkAny_replay ih' children bs
    | all h children =>
      rw [h]
      exact walkAll_replay ih' children bs
    | always h =>
      rw [h]
      rfl
    | leaf ok h =>
      rw [h]
      rfl
    | passed h children =>
      have hall := walkAll_replay ih' children bs
      rw [h]
      exact congrArg (Walked.behind _) hall
    | failed h =>
      rw [h]
      rfl

/-- The same question twice, with two answers. -/
example : walk .replay "f" 1 (.choice [test "literal(1)" [], test "literal(1)" []]) [false, true]
    = ⟨true, [⟨.test, 1, "literal(1)", false⟩, ⟨.test, 1, "literal(1)", true⟩], []⟩ := by
  rfl

/-- **The probings of a node are the walks of oracles.** -/
theorem probed_iff {n : PlanNode} : Probed arm n matched ss ↔
    ∃ (σ : Type) (o : Oracle σ) (s s' : σ), walk o owner arm n s = ⟨matched, ss, s'⟩ := by
  constructor
  · exact fun h => ⟨List Bool, .replay, answersOf ss ++ [], [], walk_replay h []⟩
  · rintro ⟨σ, o, s, s', hwalk⟩
    have hprobed := probed_walk o owner arm n s
    rwa [hwalk] at hprobed

/-- **Steps tell what was found**: no probing of a node is the front of another. -/
theorem Probed.unique {n : PlanNode} {matched' : Bool} {ss' rest rest' : List Step}
    (h : Probed arm n matched ss) (h' : Probed arm n matched' ss')
    (heq : ss ++ rest = ss' ++ rest') : matched = matched' ∧ ss = ss' := by
  have hwalk : walk .replay "" arm n (answersOf ss ++ answersOf rest)
      = ⟨matched, ss, answersOf rest⟩ := walk_replay h _
  rw [← answersOf_append, heq, answersOf_append, walk_replay h'] at hwalk
  injection hwalk with hmatched hsteps
  exact ⟨hmatched.symm, hsteps.symm⟩

end Replaying

end PlanNode

/-! ### Probing -/

/-- A step that probes the pattern of arm number `n`. -/
def Step.Probes (n : Nat) (s : Step) : Prop := s.arm = n ∧ s.op ∈ [Op.test, .invoke, .miss]

namespace PlanNode

section Probing

variable {arm : Nat} {matched : Bool} {ss : List Step}

theorem AllProbed.probes {ns : List PlanNode}
    (ih : ∀ n ∈ ns, ∀ matched ss, Probed arm n matched ss → ∀ s ∈ ss, s.Probes arm)
    (h : AllProbed arm ns matched ss) : ∀ s ∈ ss, s.Probes arm := by
  induction ns generalizing ss with
  | nil =>
    cases h
    simp
  | cons n ns ihs =>
    cases h with
    | stop _ h => exact ih n List.mem_cons_self _ _ h
    | next h hrest =>
      have hns := ihs (fun m hm => ih m (List.mem_cons_of_mem _ hm)) hrest
      exact List.forall_mem_append.mpr ⟨ih n List.mem_cons_self _ _ h, hns⟩

theorem SomeProbed.probes {ns : List PlanNode}
    (ih : ∀ n ∈ ns, ∀ matched ss, Probed arm n matched ss → ∀ s ∈ ss, s.Probes arm)
    (h : SomeProbed arm ns matched ss) : ∀ s ∈ ss, s.Probes arm := by
  induction ns generalizing ss with
  | nil =>
    cases h
    simp
  | cons n ns ihs =>
    cases h with
    | found _ h => exact ih n List.mem_cons_self _ _ h
    | next h hrest =>
      have hns := ihs (fun m hm => ih m (List.mem_cons_of_mem _ hm)) hrest
      exact List.forall_mem_append.mpr ⟨ih n List.mem_cons_self _ _ h, hns⟩

/-- **Walking a node only probes**: no step of it enters or leaves an arm. -/
theorem Probed.probes {n : PlanNode} (h : Probed arm n matched ss) : ∀ s ∈ ss, s.Probes arm := by
  induction n using PlanNode.induction generalizing matched ss with
  | h n ih =>
    have ih' : ∀ c ∈ n.children, ∀ matched ss, Probed arm c matched ss → ∀ s ∈ ss, s.Probes arm :=
      fun c hc _ _ hprobed => ih c hc hprobed
    cases h with
    | present _ children => exact List.forall_mem_cons.mpr ⟨⟨rfl, by simp⟩, children.probes ih'⟩
    | missed _ => simp [Step.Probes]
    | choice _ children => exact children.probes ih'
    | all _ children => exact children.probes ih'
    | always _ => simp
    | leaf ok _ => simp [Step.Probes]
    | passed _ children => exact List.forall_mem_cons.mpr ⟨⟨rfl, by simp⟩, children.probes ih'⟩
    | failed _ => simp [Step.Probes]

end Probing

end PlanNode

/-! ### Questions -/

/-- `Step.Records owner s (q, answer)`: the step shows that an oracle was asked `q` and what it
answered.  A recognizer that always matches goes on whatever is answered. -/
inductive Step.Records (owner : String) : Step → Question × Bool → Prop
  | test (arm : Nat) (label : String) (ok : Bool) :
    Records owner ⟨.test, arm, label, ok⟩ (.test ⟨owner, arm, label⟩, ok)
  | active {label name : String} {kind : RecognizerKind} (arm : Nat) (answer : Bool)
    (h : activeLabel? label = some (name, kind)) :
    Records owner ⟨.invoke, arm, label, kind = .total || answer⟩
      (.active ⟨owner, arm, label⟩ name kind, answer)
  | guard (arm : Nat) (ok : Bool) :
    Records owner ⟨.guard, arm, "", ok⟩ (.guard ⟨owner, arm, ""⟩, ok)

/-- `asked` are the questions and answers that steps show, in order. -/
def Records (owner : String) (ss : List Step) (asked : List (Question × Bool)) : Prop :=
  List.Forall₂ (Step.Records owner) (ss.filter Step.asks) asked

section Noting

variable {σ : Type} {owner : String}

/-- Answers as an oracle does, and notes what it is asked. -/
def Oracle.noting (o : Oracle σ) : Oracle (σ × List (Question × Bool)) where
  ask q s := ((o.ask q s.1).1, (o.ask q s.1).2, s.2 ++ [(q, (o.ask q s.1).1)])

theorem Records.append {ss ss' : List Step} {asked asked' : List (Question × Bool)}
    (h : Records owner ss asked) (h' : Records owner ss' asked') :
    Records owner (ss ++ ss') (asked ++ asked') := by
  rw [Records, List.filter_append]
  exact List.rel_append h h'

namespace PlanNode

/-- `r'` is `r` with what was asked noted behind `noted`. -/
def Walked.Noted (owner : String) (noted : List (Question × Bool)) (r : Walked σ)
    (r' : Walked (σ × List (Question × Bool))) : Prop :=
  ∃ asked, Records owner r.steps asked ∧ r' = ⟨r.matched, r.steps, r.state, noted ++ asked⟩

theorem Walked.Noted.behind {ss : List Step} {noted asked : List (Question × Bool)}
    {r : Walked σ} {r' : Walked (σ × List (Question × Bool))} (hss : Records owner ss asked)
    (h : Noted owner (noted ++ asked) r r') : Noted owner noted (r.behind ss) (r'.behind ss) := by
  obtain ⟨more, hmore, rfl⟩ := h
  refine ⟨asked ++ more, hss.append hmore, ?_⟩
  rw [← List.append_assoc]
  rfl

variable {o : Oracle σ} {arm : Nat}

theorem noted_walkAll {ns : List PlanNode}
    (h : ∀ n ∈ ns, ∀ s noted,
      (walk o owner arm n s).Noted owner noted (walk o.noting owner arm n (s, noted)))
    (s : σ) (noted : List (Question × Bool)) :
    (walkAll o owner arm ns s).Noted owner noted (walkAll o.noting owner arm ns (s, noted)) := by
  induction ns generalizing s noted with
  | nil => exact ⟨[], .nil, by simp [walkAll]⟩
  | cons n ns ih =>
    obtain ⟨asked, hasked, hn⟩ := h n List.mem_cons_self s noted
    have hns := ih (fun m hm => h m (List.mem_cons_of_mem _ hm))
    rw [walkAll, walkAll, hn]
    dsimp only
    split
    · exact .behind hasked (hns _ _)
    · exact ⟨asked, hasked, rfl⟩

theorem noted_walkAny {ns : List PlanNode}
    (h : ∀ n ∈ ns, ∀ s noted,
      (walk o owner arm n s).Noted owner noted (walk o.noting owner arm n (s, noted)))
    (s : σ) (noted : List (Question × Bool)) :
    (walkAny o owner arm ns s).Noted owner noted (walkAny o.noting owner arm ns (s, noted)) := by
  induction ns generalizing s noted with
  | nil => exact ⟨[], .nil, by simp [walkAny]⟩
  | cons n ns ih =>
    obtain ⟨asked, hasked, hn⟩ := h n List.mem_cons_self s noted
    have hns := ih (fun m hm => h m (List.mem_cons_of_mem _ hm))
    rw [walkAny, walkAny, hn]
    dsimp only
    split
    · exact ⟨asked, hasked, rfl⟩
    · exact .behind hasked (hns _ _)

variable (o owner arm) in
/-- **Noting changes nothing, and what is noted of a walk is what its steps record.** -/
theorem noted_walk (n : PlanNode) (s : σ) (noted : List (Question × Bool)) :
    (walk o owner arm n s).Noted owner noted (walk o.noting owner arm n (s, noted)) := by
  induction n using PlanNode.induction generalizing s noted with
  | h n ih =>
    have hall := noted_walkAll ih
    have hany := noted_walkAny ih
    have htest : ∀ ok, Records owner [⟨.test, arm, n.label, ok⟩]
        [(.test ⟨owner, arm, n.label⟩, ok)] := fun ok => .cons (.test ..) .nil
    rw [walk_eq, walk_eq]
    cases hwalk : walkOf n.label n.alwaysMatches with
    | call name kind =>
      let answer := (o.ask (.active ⟨owner, arm, n.label⟩ name kind) s).1
      have hcall : Step.Records owner ⟨.invoke, arm, n.label, kind = .total || answer⟩
          (.active ⟨owner, arm, n.label⟩ name kind, answer) :=
        .active arm answer (activeLabel?_of_call hwalk)
      dsimp only [Oracle.noting]
      split
      · rename_i hpresent
        rw [hpresent] at hcall
        exact .behind (.cons hcall .nil) (hall _ _)
      · rename_i hmiss
        rw [Bool.not_eq_true] at hmiss
        rw [hmiss] at hcall
        exact ⟨_, .cons hcall .nil, rfl⟩
    | choice => exact hany s noted
    | all => exact hall s noted
    | always => exact ⟨[], .nil, by simp⟩
    | leaf => exact ⟨_, htest _, rfl⟩
    | test =>
      dsimp only [Oracle.noting]
      split
      · rename_i hpassed
        exact .behind (hpassed ▸ htest _) (hall _ _)
      · rename_i hfailed
        rw [Bool.not_eq_true] at hfailed
        exact ⟨_, hfailed ▸ htest _, rfl⟩

end PlanNode

end Noting

end PatternPlan
