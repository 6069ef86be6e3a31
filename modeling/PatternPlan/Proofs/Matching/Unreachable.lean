import PatternPlan.Proofs.Matching.Shadowing

/-!
# Reported arms can never be the first to match

* `hasFields_of_hasType` — a value of a known type has the fields that a well-formed pattern names,
  so that one pattern covering another can be relied on;
* `Finding`, `findings` — the reports with the places they are about;
* `firstArm` — the arm that runs, for guards of any meaning;
* `Finding.Holds` — **what a report says**: whatever the arm or the alternative accepts is accepted
  before it, and removing the arm changes nothing;
* `findings_hold` — every report holds, by induction along the arms.
-/

namespace PatternPlan

/-! ### Typed parts -/

namespace TypeTable

variable {types : TypeTable}

theorem HasTypes.of_getElem? {vs : List Value} {ts : List Ty} (h : types.HasTypes vs ts) {k : Nat}
    {v : Value} (hv : vs[k]? = some v) : ∃ t, ts[k]? = some t ∧ types.HasType v t := by
  induction k generalizing vs ts with
  | zero =>
    cases h with
    | nil => simp at hv
    | cons hv' _ =>
      cases hv
      exact ⟨_, rfl, hv'⟩
  | succ k ih =>
    cases h with
    | nil => simp at hv
    | cons _ hvs => exact ih hvs hv

/-- The value of a field has the declared type of the field. -/
theorem HasTypes.of_field? {gs : List (String × Value)} {fs : List (String × Ty)} {n : String}
    {v : Value} (hk : gs.map Prod.fst = fs.map Prod.fst)
    (h : types.HasTypes (gs.map Prod.snd) (fs.map Prod.snd)) (hv : Value.field? n gs = some v) :
    ∃ t, (n, t) ∈ fs ∧ types.HasType v t := by
  induction gs generalizing fs with
  | nil => simp [Value.field?] at hv
  | cons g gs ih =>
    cases fs with
    | nil => simp at hk
    | cons f fs =>
      rw [List.map_cons, List.map_cons, List.cons.injEq] at hk
      cases h with
      | cons hg hrest =>
        rw [Value.field?] at hv
        split at hv
        · rename_i hn
          cases hv
          refine ⟨f.2, ?_, hg⟩
          rw [← hn, hk.1]
          exact List.mem_cons_self
        · obtain ⟨t, ht, hvt⟩ := ih hk.2 hrest hv
          exact ⟨t, List.mem_cons_of_mem _ ht, hvt⟩

end TypeTable

namespace Typed

open Pattern

variable {types : TypeTable} {m : Meaning}

theorem mem_zip_of_getElem? {ts : List Ty} {ps : List Pattern} {k : Nat} {t : Ty} {p : Pattern}
    (ht : ts[k]? = some t) (hp : ps[k]? = some p) : (t, p) ∈ ts.zip ps :=
  List.mem_of_getElem? (List.getElem?_zip_eq_some.mpr ⟨ht, hp⟩)

/-- A payload has the fields that the argument of its call names, as any value of a type that
declares them has. -/
def Pattern.PayloadFields (m : Meaning) : Pattern → Prop
  | .active _ n _ _ (some p) => ∀ v w, m.recognize n v = some w → HasFields m p w
  | _ => True

/-- **A value of a known type has the fields that a well-formed pattern names.**  Matching goes down
the type along with the value, up to the calls of recognizers. -/
theorem hasFields_of_hasType {t : Ty} {p : Pattern} {v : Value} (ht : types.Known t)
    (hwf : WellFormed types m t p) (hpay : ∀ q ∈ p.nodes, PayloadFields m q)
    (hv : types.HasType v t) : HasFields m p v := by
  intro i fs hasRest gs hreach
  generalize hq : Pattern.record i fs hasRest = q at hreach
  generalize hw : Value.record gs = w at hreach
  induction hreach generalizing t with
  | here p v =>
    subst hq hw
    intro f hf
    have hkey := (hwf.fits _ _ (.here _ _)).2 f.1 (List.mem_map_of_mem hf)
    cases hv with
    | record hres hkeys _ =>
      rw [hkeys]
      simpa [TypeTable.recordFields, hres] using hkey
    | unknown => exact absurd rfl ht.ne_unknown
  | binding _ ih =>
    exact ih ht hwf.binding (fun x hx => hpay x (List.mem_cons_of_mem _ hx)) hv hq hw
  | or hp _ ih =>
    refine ih ht (hwf.or hp) (fun x hx => hpay x ?_) hv hq hw
    exact List.mem_cons_of_mem _ (mem_nodesOfList.mpr ⟨_, hp, hx⟩)
  | tuple hp hvk _ ih =>
    cases hv with
    | tuple hvs =>
      obtain ⟨u, hu, hvu⟩ := hvs.of_getElem? hvk
      have hknown : types.Known u := fun h => ht (.tuple (List.mem_of_getElem? hu) h)
      refine ih hknown (hwf.tuple (mem_zip_of_getElem? hu hp)) (fun x hx => hpay x ?_) hvu hq hw
      exact List.mem_cons_of_mem _ (mem_nodesOfList.mpr ⟨_, List.mem_of_getElem? hp, hx⟩)
    | unknown => exact absurd rfl ht.ne_unknown
  | construct hp hvk _ ih =>
    cases hv with
    | variant hs hc hvs =>
      obtain ⟨u, hu, hvu⟩ := hvs.of_getElem? hvk
      have hknown : types.Known u := fun h => ht (.variant hs hc (List.mem_of_getElem? hu) h)
      refine ih hknown (hwf.construct hs hc rfl (mem_zip_of_getElem? hu hp)) (fun x hx => hpay x ?_)
        hvu hq hw
      exact List.mem_cons_of_mem _ (mem_nodesOfList.mpr ⟨_, List.mem_of_getElem? hp, hx⟩)
    | unknown => exact absurd rfl ht.ne_unknown
  | @record _ ps _ ws f _ x _ hf hfield _ ih =>
    cases hv with
    | record hres hkeys hvs =>
      obtain ⟨u, hu, hvu⟩ := hvs.of_field? hkeys hfield
      have hknown : types.Known u := fun h => ht (.record hres hu h)
      have hg : (f.1, u) ∈ types.recordFields t := by simpa [TypeTable.recordFields, hres] using hu
      refine ih hknown (hwf.record hg hf) (fun x hx => hpay x ?_) hvu hq hw
      exact List.mem_cons_of_mem _ (mem_nodesOfFields.mpr ⟨f, hf, hx⟩)
    | unknown => exact absurd rfl ht.ne_unknown
  | slice hp hmem _ ih =>
    cases hv with
    | @array u _ hvs =>
      obtain ⟨k, hk⟩ := List.getElem?_of_mem hmem
      obtain ⟨u', hu, hvu⟩ := hvs.of_getElem? hk
      obtain rfl := List.eq_of_mem_replicate (List.mem_of_getElem? hu)
      have hknown : types.Known u' := fun h => ht (.array h)
      refine ih hknown (hwf.slice hp) (fun x hx => hpay x ?_) hvu hq hw
      exact List.mem_cons_of_mem _ (mem_nodesOfItems.mpr ⟨_, hp, hx⟩)
    | unknown => exact absurd rfl ht.ne_unknown
  | payload hrec hreach _ =>
    subst hq hw
    exact hpay _ (self_mem_nodes _) _ _ hrec i fs hasRest gs hreach

/-! ### Which arm runs -/

/-- Whether an arm is entered: its pattern accepts the value, and its guard holds if there is
one. -/
def entered (m : Meaning) (holds : Arm Pattern Expr → Value → Bool) (v : Value)
    (a : Arm Pattern Expr) : Bool :=
  a.pattern.accepts m v && (a.guard.isNone || holds a v)

/-- The arm that runs. -/
def firstArm (m : Meaning) (holds : Arm Pattern Expr → Value → Bool)
    (arms : List (Arm Pattern Expr)) (v : Value) : Option (Arm Pattern Expr) :=
  arms.find? (entered m holds v)

/-- Whether an arm without a guard accepts a value. -/
def TakenBy (m : Meaning) (arms : List (Arm Pattern Expr)) (v : Value) : Prop :=
  ∃ a ∈ arms, a.guard.isNone = true ∧ a.pattern.accepts m v = true

theorem TakenBy.exists_entered {arms : List (Arm Pattern Expr)} {v : Value}
    (h : TakenBy m arms v) (holds : Arm Pattern Expr → Value → Bool) :
    ∃ a ∈ arms, entered m holds v a = true := by
  obtain ⟨a, ha, hguard, hacc⟩ := h
  exact ⟨a, ha, by rw [entered, hacc, hguard, Bool.true_or, Bool.and_self]⟩

/-- Removing an arm whose values are all taken before it changes nothing. -/
theorem firstArm_eraseIdx {arms : List (Arm Pattern Expr)} {i : Nat} {a : Arm Pattern Expr}
    {v : Value} (ha : arms[i]? = some a)
    (h : a.pattern.accepts m v = true → TakenBy m (arms.take i) v)
    (holds : Arm Pattern Expr → Value → Bool) :
    firstArm m holds (arms.eraseIdx i) v = firstArm m holds arms v := by
  obtain ⟨hi, hget⟩ := List.getElem?_eq_some_iff.mp ha
  have harms : arms = arms.take i ++ a :: arms.drop (i + 1) := by
    rw [← hget, ← List.drop_eq_getElem_cons hi, List.take_append_drop]
  have hright : firstArm m holds arms v
      = ((arms.take i).find? (entered m holds v)).or
        ((a :: arms.drop (i + 1)).find? (entered m holds v)) := by
    rw [← List.find?_append, ← harms]
    rfl
  rw [hright, firstArm, List.eraseIdx_eq_take_drop_succ, List.find?_append]
  cases hacc : a.pattern.accepts m v with
  | false =>
    have hnot : entered m holds v a = false := by rw [entered, hacc, Bool.false_and]
    rw [List.find?_cons, hnot]
  | true =>
    obtain ⟨b, hb, hent⟩ := (h hacc).exists_entered holds
    have hsome : ((arms.take i).find? (entered m holds v)).isSome = true :=
      List.find?_isSome.mpr ⟨b, hb, hent⟩
    obtain ⟨c, hc⟩ := Option.isSome_iff_exists.mp hsome
    rw [hc, Option.some_or, Option.some_or]

/-! ### Reports and their places -/

/-- A report with the place it is about: an arm, or an alternative of an arm. -/
inductive Finding where
  | arm (index : Nat) (arm : Arm Pattern Expr) (reason : String)
  | alternative (index : Nat) (arm : Arm Pattern Expr) (alternatives : List Pattern) (place : Nat)
      (alternative : Pattern) (reason : String)

/-- The report of a finding. -/
def Finding.report : Finding → Diagnostic
  | .arm _ a reason => Diagnostic.new .unreachableArm a.span [.str reason]
  | .alternative _ _ _ _ p reason => Diagnostic.new .unreachableArm p.span [.str reason]

/-- The alternatives of arm `i` that are reported, those in `before` already looked at. -/
def alternativeFindings (i : Nat) (a : Arm Pattern Expr) (all : List Pattern) (prior : Prior) :
    (before rest : List Pattern) → List Finding
  | _, [] => []
  | before, p :: ps =>
    (match alternativeReason before prior p with
      | some reason => [.alternative i a all before.length p reason]
      | none => [])
      ++ alternativeFindings i a all prior (before ++ [p]) ps

/-- What is found about one arm. -/
def armFindings (types : TypeTable) (target : Ty) (i : Nat) (prior : Prior)
    (a : Arm Pattern Expr) : List Finding :=
  match armReason types target prior a.pattern with
  | some reason => [.arm i a reason]
  | none => match unbound a.pattern with
    | .or _ ps => alternativeFindings i a ps prior [] ps
    | _ => []

/-- What the arms from number `i` on hide behind the arms of `prior`. -/
def findingsFrom (types : TypeTable) (target : Ty) :
    (i : Nat) → Prior → List (Arm Pattern Expr) → List Finding
  | _, _, [] => []
  | i, prior, a :: arms =>
    armFindings types target i prior a ++ findingsFrom types target (i + 1)
      (if a.guard.isNone then prior ++ [(i + 1, a.pattern.shadowing)] else prior) arms

/-- All reports about the arms of a match, with their places. -/
def findings (types : TypeTable) (target : Ty) (arms : List (Arm Pattern Expr)) : List Finding :=
  findingsFrom types target 0 [] arms

theorem unreachableAlternatives_eq_map (i : Nat) (a : Arm Pattern Expr) (all : List Pattern)
    (prior : Prior) (before rest : List Pattern) : unreachableAlternatives prior before rest
      = (alternativeFindings i a all prior before rest).map Finding.report := by
  induction rest generalizing before with
  | nil => rfl
  | cons p ps ih =>
    rw [unreachableAlternatives, alternativeFindings, List.map_append, ← ih (before ++ [p])]
    congr 1
    cases alternativeReason before prior p <;> rfl

theorem unreachableFrom_eq_map (types : TypeTable) (target : Ty) (i : Nat) (prior : Prior)
    (arms : List (Arm Pattern Expr)) : unreachableFrom types target (i + 1) prior arms
      = (findingsFrom types target i prior arms).map Finding.report := by
  induction arms generalizing i prior with
  | nil => rfl
  | cons a arms ih =>
    rw [unreachableFrom, findingsFrom, List.map_append, ← ih]
    congr 1
    rw [armFindings]
    cases armReason types target prior a.pattern with
    | some reason => rfl
    | none =>
      cases unbound a.pattern with
      | or info ps => exact unreachableAlternatives_eq_map i a ps prior [] ps
      | _ => rfl

/-- The findings are what the check reports. -/
theorem unreachableArms_eq_map (types : TypeTable) (target : Ty) (arms : List (Arm Pattern Expr)) :
    unreachableArms types target arms = (findings types target arms).map Finding.report :=
  unreachableFrom_eq_map types target 0 [] arms

/-! ### What a report says -/

/-- What a finding says about the arms of a match on type `t`. -/
def Finding.Holds (types : TypeTable) (m : Meaning) (t : Ty) (arms : List (Arm Pattern Expr)) :
    Finding → Prop
  | .arm i a _ => arms[i]? = some a ∧
      (∀ v, types.HasType v t → a.pattern.accepts m v = true → TakenBy m (arms.take i) v) ∧
      ∀ holds v, types.HasType v t → firstArm m holds (arms.eraseIdx i) v = firstArm m holds arms v
  | .alternative i a ps k p _ => arms[i]? = some a ∧ (∃ info, unbound a.pattern = .or info ps) ∧
      ps[k]? = some p ∧ ∀ v, types.HasType v t → p.accepts m v = true →
        (∃ q ∈ ps.take k, q.accepts m v = true) ∨ TakenBy m (arms.take i) v

/-- What the reports rely on: well-formed patterns, payloads with the fields that are named in them,
and constants of one type wherever two patterns are compared. -/
structure Checkable (types : TypeTable) (m : Meaning) (t : Ty) (arms : List (Arm Pattern Expr)) :
    Prop where
  builtins : types.KeepsBuiltins
  known : types.Known t
  wellFormed : ∀ a ∈ arms, WellFormed types m t a.pattern
  payloads : ∀ a ∈ arms, ∀ q ∈ a.pattern.nodes, PayloadFields m q
  constants : ∀ a ∈ arms, ∀ b ∈ arms, OneTyped a.pattern b.pattern

namespace Pattern

/-! What holds of a pattern holds of it without the names bound to all of it. -/

theorem mem_nodes_of_unbound {p q : Pattern} (h : q ∈ (unbound p).nodes) : q ∈ p.nodes := by
  induction p using Pattern.induction with
  | binding i n viaAt p ih => exact List.mem_cons_of_mem _ (ih h)
  | _ => exact h

theorem WellFormed.unbound {t : Ty} {p : Pattern} (h : WellFormed types m t p) :
    WellFormed types m t (unbound p) := by
  induction p using Pattern.induction with
  | binding i n viaAt p ih => exact ih h.binding
  | _ => exact h

theorem at_of_unbound {p x : Pattern} {place : List Step} (h : At (Typed.unbound p) place x) :
    At p place x := by
  induction p using Pattern.induction with
  | binding i n viaAt p ih => exact .binding (ih h)
  | _ => exact h

end Pattern

/-- Every entry of `prior` is the hiding part of an arm without a guard. -/
def HidesBy (arms : List (Arm Pattern Expr)) (prior : Prior) : Prop :=
  ∀ e ∈ prior, ∃ a ∈ arms, a.guard.isNone = true ∧ e.2 = a.pattern.shadowing

/-- The step of the invariant: one more arm is looked at. -/
theorem HidesBy.step {arms : List (Arm Pattern Expr)} {prior : Prior} (h : HidesBy arms prior)
    (n : Nat) (a : Arm Pattern Expr) : HidesBy (arms ++ [a])
      (if a.guard.isNone then prior ++ [(n, a.pattern.shadowing)] else prior) := by
  have hprior : HidesBy (arms ++ [a]) prior := by
    intro e he
    obtain ⟨b, hb, hrest⟩ := h e he
    exact ⟨b, List.mem_append_left _ hb, hrest⟩
  split
  · rename_i hguard
    intro e he
    rcases List.mem_append.mp he with he | he
    · exact hprior e he
    · obtain rfl := List.mem_singleton.mp he
      exact ⟨a, List.mem_append_right _ (List.mem_singleton_self a), hguard, rfl⟩
  · exact hprior

section Reasons

variable {t : Ty} {arms done : List (Arm Pattern Expr)} {prior : Prior}

/-- A pattern inside an arm can be compared with any well-formed pattern that has its constants in
common types. -/
theorem Checkable.comparable (hc : Checkable types m t arms) {p q : Pattern} {v : Value}
    (hwf : WellFormed types m t p) (hpay : ∀ x ∈ p.nodes, PayloadFields m x) (hone : OneTyped p q)
    (hv : types.HasType v t) : Comparable m p q v where
  total x hx := (hwf.nodes x hx).1
  constants _ _ h := hone.of_compares h
  fields := hasFields_of_hasType hc.known hwf hpay hv

theorem payloadFields_shadowing {p : Pattern} (h : ∀ x ∈ p.nodes, PayloadFields m x) :
    ∀ x ∈ p.shadowing.nodes, PayloadFields m x := by
  intro x hx
  rcases mem_nodes_shadowing hx with hcomp | hx
  · cases x <;> trivial
  · exact h x hx

/-- A pattern that an earlier arm covers accepts only what is taken by that arm. -/
theorem takenBy_of_covers (hc : Checkable types m t arms) (hdone : done ⊆ arms)
    (hprior : HidesBy done prior) {p : Pattern} (hone : ∀ a ∈ arms, OneTyped a.pattern p)
    {e : Nat × Pattern} (he : e ∈ prior) (hcov : covers e.2 p = true) {v : Value}
    (hv : types.HasType v t) (hacc : p.accepts m v = true) : TakenBy m done v := by
  obtain ⟨a, ha, hguard, heq⟩ := hprior e he
  have hmem := hdone ha
  rw [heq] at hcov
  have hcomp : Comparable m a.pattern.shadowing p v :=
    hc.comparable (hc.wellFormed a hmem).shadowing (payloadFields_shadowing (hc.payloads a hmem))
      (hone a hmem).shadowing hv
  exact ⟨a, ha, hguard, accepts_of_shadowing (rightCover_covers hcomp hcov hacc)⟩

/-- **A reported arm accepts only what earlier arms take**, because one of them covers it, or because
they leave no value at all. -/
theorem takenBy_of_armReason (hc : Checkable types m t arms) (hdone : done ⊆ arms)
    (hprior : HidesBy done prior) {a : Arm Pattern Expr} (ha : a ∈ arms) {reason : String}
    (h : armReason types t prior a.pattern = some reason) {v : Value} (hv : types.HasType v t)
    (hacc : a.pattern.accepts m v = true) : TakenBy m done v := by
  rw [armReason.eq_def] at h
  split at h
  · rename_i e hfind
    have hcov : covers e.2 a.pattern = true := by simpa using List.find?_some hfind
    exact takenBy_of_covers hc hdone hprior (fun b hb => hc.constants b hb a ha)
      (List.mem_of_find?_eq_some hfind) hcov hv hacc
  · dsimp only at h
    split at h
    · rename_i hall
      rw [Bool.and_eq_true, Option.isNone_iff_eq_none] at hall
      have hwf : ∀ p ∈ prior.map (·.2), WellFormed types m t p := by
        intro p hp
        obtain ⟨e, he, rfl⟩ := List.mem_map.mp hp
        obtain ⟨b, hb, -, heq⟩ := hprior e he
        rw [heq]
        exact (hc.wellFormed b (hdone hb)).shadowing
      obtain ⟨p, hp, hpacc⟩ := exists_accepts_of_missingValue hc.builtins hc.known hwf hall.2 hv
      obtain ⟨e, he, rfl⟩ := List.mem_map.mp hp
      obtain ⟨b, hb, hguard, heq⟩ := hprior e he
      rw [heq] at hpacc
      exact ⟨b, hb, hguard, accepts_of_shadowing hpacc⟩
    · cases h

/-- **A reported alternative accepts only what is accepted before it.** -/
theorem takenBy_of_alternativeReason (hc : Checkable types m t arms) (hdone : done ⊆ arms)
    (hprior : HidesBy done prior) {a : Arm Pattern Expr} (ha : a ∈ arms) {info : Info}
    {ps before : List Pattern} (hps : unbound a.pattern = .or info ps) (hbefore : before ⊆ ps)
    {p : Pattern} (hp : p ∈ ps) {reason : String}
    (h : alternativeReason before prior p = some reason) {v : Value} (hv : types.HasType v t)
    (hacc : p.accepts m v = true) :
    (∃ q ∈ before, q.accepts m v = true) ∨ TakenBy m done v := by
  have hat : ∀ q ∈ ps, ∀ place x, At q place x → At a.pattern place x := by
    intro q hq place x hx
    refine at_of_unbound ?_
    rw [hps]
    exact .or hq hx
  rw [alternativeReason.eq_def] at h
  split at h
  · rename_i j hfind
    obtain ⟨hj, hcov, -⟩ := List.findIdx?_eq_some_iff_getElem.mp hfind
    have hmem : before[j] ∈ before := List.getElem_mem hj
    have hor : WellFormed types m t (.or info ps) := hps ▸ (hc.wellFormed a ha).unbound
    have hpay : ∀ x ∈ (before[j]).nodes, PayloadFields m x := by
      intro x hx
      refine hc.payloads a ha x (mem_nodes_of_unbound ?_)
      rw [hps]
      exact List.mem_cons_of_mem _ (mem_nodesOfList.mpr ⟨_, hbefore hmem, hx⟩)
    have hone : OneTyped before[j] p := by
      intro place x y hx hy
      exact hc.constants a ha a ha place x y (hat _ (hbefore hmem) place x hx) (hat p hp place y hy)
    have hcomp := hc.comparable (hor.or (hbefore hmem)) hpay hone hv
    exact .inl ⟨_, hmem, rightCover_covers hcomp hcov hacc⟩
  · split at h
    · rename_i hany
      obtain ⟨e, he, hcov⟩ := List.any_eq_true.mp hany
      refine .inr (takenBy_of_covers hc hdone hprior (fun b hb => ?_) he hcov hv hacc)
      intro place x y hx hy
      exact hc.constants b hb a ha place x y hx (hat p hp place y hy)
    · cases h

/-! ### All reports -/

theorem findings_hold_alternatives (hc : Checkable types m t arms) (hdone : done ⊆ arms)
    (hprior : HidesBy done prior) {a : Arm Pattern Expr} {i : Nat} (hi : arms[i]? = some a)
    (htake : arms.take i = done) {info : Info} {ps : List Pattern}
    (hps : unbound a.pattern = .or info ps) {before rest : List Pattern}
    (hsplit : ps = before ++ rest) :
    ∀ f ∈ alternativeFindings i a ps prior before rest, f.Holds types m t arms := by
  induction rest generalizing before with
  | nil =>
    intro f hf
    simp [alternativeFindings] at hf
  | cons p rest ih =>
    intro f hf
    rw [alternativeFindings] at hf
    rcases List.mem_append.mp hf with hf | hf
    · split at hf
      · rename_i reason hreason
        obtain rfl := List.mem_singleton.mp hf
        have hplace : ps[before.length]? = some p := by rw [hsplit]; simp
        have hbefore : ps.take before.length = before := by rw [hsplit]; simp
        refine ⟨hi, ⟨info, hps⟩, hplace, fun v hv hacc => ?_⟩
        rw [htake, hbefore]
        refine takenBy_of_alternativeReason hc hdone hprior (List.mem_of_getElem? hi) hps ?_
          (List.mem_of_getElem? hplace) hreason hv hacc
        intro q hq
        rw [hsplit]
        exact List.mem_append_left _ hq
      · simp at hf
    · exact ih (by simp [hsplit]) f hf

/-- What is found about one arm holds. -/
theorem findings_hold_arm (hc : Checkable types m t arms) {rest : List (Arm Pattern Expr)}
    {a : Arm Pattern Expr} (hsplit : arms = done ++ a :: rest) (hprior : HidesBy done prior) :
    ∀ f ∈ armFindings types t done.length prior a, f.Holds types m t arms := by
  intro f hf
  have hi : arms[done.length]? = some a := by rw [hsplit]; simp
  have htake : arms.take done.length = done := by rw [hsplit]; simp
  have hdone : done ⊆ arms := by
    intro b hb
    rw [hsplit]
    exact List.mem_append_left _ hb
  rw [armFindings.eq_def] at hf
  split at hf
  · rename_i reason hreason
    obtain rfl := List.mem_singleton.mp hf
    have htaken : ∀ v, types.HasType v t → a.pattern.accepts m v = true →
        TakenBy m (arms.take done.length) v := by
      intro v hv hacc
      rw [htake]
      exact takenBy_of_armReason hc hdone hprior (List.mem_of_getElem? hi) hreason hv hacc
    exact ⟨hi, htaken, fun holds v hv => firstArm_eraseIdx hi (htaken v hv) holds⟩
  · split at hf
    · rename_i info ps hps
      exact findings_hold_alternatives hc hdone hprior hi htake hps rfl f hf
    · simp at hf

/-- Along the arms, those already looked at are in `done`. -/
theorem findings_hold (hc : Checkable types m t arms) {rest : List (Arm Pattern Expr)}
    (hsplit : arms = done ++ rest) (hprior : HidesBy done prior) :
    ∀ f ∈ findingsFrom types t done.length prior rest, f.Holds types m t arms := by
  induction rest generalizing done prior with
  | nil =>
    intro f hf
    simp [findingsFrom] at hf
  | cons a rest ih =>
    intro f hf
    rw [findingsFrom] at hf
    rcases List.mem_append.mp hf with hf | hf
    · exact findings_hold_arm hc hsplit hprior f hf
    · refine ih (by simp [hsplit]) (hprior.step (done.length + 1) a) f ?_
      simpa using hf

end Reasons

/-- **Reported arms can never be the first to match.**  The reports are the findings, and every
finding holds: what a reported arm accepts is taken by an earlier arm without a guard, so that
removing it does not change which arm runs, and what a reported alternative accepts is accepted by an
alternative before it or taken by such an arm. -/
theorem unreachableArms_sound (types : TypeTable) (m : Meaning) (t : Ty)
    (arms : List (Arm Pattern Expr)) (hc : Checkable types m t arms) :
    unreachableArms types t arms = (findings types t arms).map Finding.report ∧
      ∀ f ∈ findings types t arms, f.Holds types m t arms := by
  refine ⟨unreachableArms_eq_map types t arms, ?_⟩
  have hnone : HidesBy [] [] := by
    intro e he
    simp at he
  exact findings_hold hc (List.nil_append arms).symm hnone

/-! An instance: `true`, then `false | true`, whose second alternative is hidden, then `_`, which has
no value left. -/

def truthArms : List (Arm Pattern Expr) :=
  let info : Info := ⟨{}, .bool⟩
  let arm (p : Pattern) : Arm Pattern Expr := ⟨{}, p, none, false, none, .literal info .unit⟩
  [arm (.literal info (.bool true)),
    arm (.or info [.literal info (.bool false), .literal info (.bool true)]), arm (.wildcard info)]

theorem known_bool : TypeTable.builtin.Known .bool := by
  refine TypeTable.known_of_closed (fun t => t = .bool) rfl (by intro h; cases h) ?_ ?_ ?_ ?_
  · intro ts h
    cases h
  · intro u h
    cases h
  · rintro t n fs rfl h
    cases h
  · rintro t s rfl h
    cases h

theorem at_truthArms {a : Arm Pattern Expr} (ha : a ∈ truthArms) {place : List Pattern.Step}
    {x : Pattern} (h : At a.pattern place x) : ∀ l ∈ x.constants, Ty.ofLiteral l = .bool := by
  intro l hl
  simp only [truthArms, List.mem_cons, List.not_mem_nil, or_false] at ha
  rcases ha with rfl | rfl | rfl
  · cases h
    obtain rfl := List.mem_singleton.mp hl
    rfl
  · cases h with
    | here => simp [constants] at hl
    | or hp hx =>
      rcases List.mem_pair.mp hp with rfl | rfl <;> cases hx <;>
        obtain rfl := List.mem_singleton.mp hl <;> rfl
  · cases h
    simp [constants] at hl

theorem checkable_truthArms (m : Meaning) : Checkable .builtin m .bool truthArms where
  builtins := by
    unfold TypeTable.KeepsBuiltins
    decide
  known := known_bool
  wellFormed a ha := by
    constructor
    · intro u q hq
      simp only [truthArms, List.mem_cons, List.not_mem_nil, or_false] at ha
      rcases ha with rfl | rfl | rfl
      · cases hq
        trivial
      · cases hq with
        | here => trivial
        | or hp hq => rcases List.mem_pair.mp hp with rfl | rfl <;> cases hq <;> trivial
      · cases hq
        trivial
    · simp only [truthArms, List.mem_cons, List.not_mem_nil, or_false] at ha
      rcases ha with rfl | rfl | rfl <;>
        simp [Pattern.nodes, Pattern.nodesOfList, NeverMisses, RestLast]
  payloads a ha := by
    simp only [truthArms, List.mem_cons, List.not_mem_nil, or_false] at ha
    rcases ha with rfl | rfl | rfl <;> simp [Pattern.nodes, Pattern.nodesOfList, PayloadFields]
  constants a ha b hb place x y hx hy l hl k hk := by
    rw [at_truthArms ha hx l hl, at_truthArms hb hy k hk]

theorem unreachableArms_truthArms :
    (unreachableArms .builtin .bool truthArms).length = 2 ∧
      ∀ f ∈ findings .builtin .bool truthArms,
        f.Holds .builtin ⟨fun _ _ => false, fun _ _ => none⟩ .bool truthArms :=
  ⟨by decide, (unreachableArms_sound _ _ _ _ (checkable_truthArms _)).2⟩

end Typed

end PatternPlan
