import Mathlib.Data.List.Nodup
import Mathlib.Data.List.Perm.Subperm
import PatternPlan.Check.Module
import PatternPlan.Proofs.Typed.Expr

/-!
# Effects are a least fixed point

The callables of a file that may perform an effect are found by passes over all bodies, each of which
sees what the bodies before it in the same pass have added.  Neither this nor the order of the
declarations can be told from the result.

* `Module.MayPerform` — the rules by which a callable may perform an effect;
* `Expr.performs_iff` — an expression may perform an effect if an expression inside it acts;
* `Module.Settles` — the passes, one after the other, until one adds nothing;
* `Module.settles_effectful` — **the passes settle**;
* `Module.mem_effectful_iff` — **what they settle on are the callables that the rules reach**;
* `effectful_least` — both, and **the order of declarations decides nothing about effects**.
-/

namespace PatternPlan.Typed

variable {known more : List Callable} {bodies : List (Callable × Expr)}

/-! ### The rules -/

/-- `Within e x`: the expression `x` is `e` or stands inside it. -/
inductive Expr.Within : Expr → Expr → Prop
  | self (e : Expr) : Within e e
  | inside {e c x : Expr} : c ∈ e.children → Within c x → Within e x

/-- The callables of a module and their bodies. -/
inductive Module.HasBody (m : Module) : Callable → Expr → Prop
  | function {f : Function} : f ∈ m.functions → HasBody m (.function f.name) f.body
  | recognizer {r : Recognizer} : r ∈ m.recognizers → HasBody m (.recognizer r.name) r.body

/-- The callables of a module that may perform an effect: a body performs one, calls a function that
may, or has an arm whose pattern calls, at any depth, a recognizer that may. -/
inductive Module.MayPerform (m : Module) : Callable → Prop
  | performs {c : Callable} {body : Expr} {i : Info} {effect : String} {args : List Expr} :
      m.HasBody c body → body.Within (.perform i effect args) → MayPerform m c
  | calls {c : Callable} {body : Expr} {i j : Info} {name : String} {args : List Expr} :
      m.HasBody c body → body.Within (.call i (.ident j name) args) →
      MayPerform m (.function name) → MayPerform m c
  | matches {c : Callable} {body target : Expr} {i j : Info} {arms : List (Arm Pattern Expr)}
      {a : Arm Pattern Expr} {name : String} {kind : RecognizerKind} {unresolved : Bool}
      {arg : Option Pattern} :
      m.HasBody c body → body.Within (.select i target arms) → a ∈ arms →
      .active j name kind unresolved arg ∈ a.pattern.nodes →
      MayPerform m (.recognizer name) → MayPerform m c

/-! ### Expressions -/

namespace Expr

/-- Whether an expression may perform an effect by what it is, the expressions inside it aside. -/
def acts (known : List Callable) : Expr → Bool
  | perform _ _ _ => true
  | call _ f _ => f.namesAny known
  | select _ _ arms => arms.any fun a => a.pattern.nodes.any (Pattern.callsAny known)
  | _ => false

theorem anyPerforms_eq (es : List Expr) : anyPerforms known es = es.any (performs known) := by
  induction es with
  | nil => rfl
  | cons e es ih => rw [anyPerforms, List.any_cons, ih]

theorem optionPerforms_eq (o : Option Expr) :
    optionPerforms known o = o.toList.any (performs known) := by
  cases o with
  | none => rfl
  | some e => exact (Bool.or_false _).symm

theorem fieldsPerform_eq (fs : List (String × Expr)) :
    fieldsPerform known fs = (fs.map (·.2)).any (performs known) := by
  induction fs with
  | nil => rfl
  | cons f fs ih => rw [fieldsPerform, List.map_cons, List.any_cons, ih]

theorem armsPerform_eq (arms : List (Arm Pattern Expr)) :
    armsPerform known arms = ((arms.any fun a => a.pattern.nodes.any (Pattern.callsAny known))
      || (armChildren arms).any (performs known)) := by
  induction arms with
  | nil => rfl
  | cons a arms ih =>
    rw [armsPerform, optionPerforms_eq, ih, armChildren_cons, List.any_cons, List.any_append,
      List.any_cons]
    ac_rfl

/-- An expression may perform an effect if it acts, or one directly inside it may. -/
theorem performs_eq (e : Expr) :
    e.performs known = (e.acts known || e.children.any (performs known)) := by
  cases e with
  | construct i n es => exact anyPerforms_eq es
  | tuple i es => exact anyPerforms_eq es
  | array i es => exact anyPerforms_eq es
  | call i f es => rw [performs, anyPerforms_eq, children, List.any_cons, acts, Bool.or_assoc]
  | unary i op e => exact (Bool.or_false _).symm
  | field i e n => exact (Bool.or_false _).symm
  | binary i op l r => simp [performs, acts, children]
  | cond i c y n => simp [performs, acts, children, optionPerforms_eq, Bool.or_assoc]
  | select i t arms =>
    rw [performs, armsPerform_eq, acts, children, List.any_cons]
    ac_rfl
  | block i lets r => simp [performs, acts, children, fieldsPerform_eq, optionPerforms_eq]
  | record i fs => exact fieldsPerform_eq fs
  | _ => rfl

/-- **An expression may perform an effect if one acts that is inside it.** -/
theorem performs_iff {e : Expr} :
    e.performs known = true ↔ ∃ x, e.Within x ∧ x.acts known = true := by
  induction e using childInduction with
  | h e ih =>
    rw [performs_eq, Bool.or_eq_true, List.any_eq_true]
    constructor
    · rintro (hacts | ⟨c, hc, hperforms⟩)
      · exact ⟨e, .self e, hacts⟩
      · obtain ⟨x, hx, hacts⟩ := (ih c hc).mp hperforms
        exact ⟨x, .inside hc hx, hacts⟩
    · rintro ⟨x, hx, hacts⟩
      cases hx with
      | self => exact .inl hacts
      | inside hc hx => exact .inr ⟨_, hc, (ih _ hc).mpr ⟨x, hx, hacts⟩⟩

/-- The call of a function that is known acts. -/
theorem acts_call {i j : Info} {name : String} {args : List Expr}
    (h : Callable.function name ∈ known) : (call i (ident j name) args).acts known = true :=
  decide_eq_true h

/-- A match with a pattern that calls a recognizer that is known acts. -/
theorem acts_select {i j : Info} {target : Expr} {arms : List (Arm Pattern Expr)}
    {a : Arm Pattern Expr} {name : String} {kind : RecognizerKind} {unresolved : Bool}
    {arg : Option Pattern} (ha : a ∈ arms)
    (hcall : .active j name kind unresolved arg ∈ a.pattern.nodes)
    (h : Callable.recognizer name ∈ known) : (select i target arms).acts known = true :=
  List.any_eq_true.mpr ⟨a, ha, List.any_eq_true.mpr ⟨_, hcall, decide_eq_true h⟩⟩

theorem acts_mono (hsub : known ⊆ more) {x : Expr} (h : x.acts known = true) :
    x.acts more = true := by
  cases x with
  | perform => rfl
  | call i f es =>
    cases f with
    | ident j name => exact acts_call (hsub (of_decide_eq_true h))
    | _ => cases h
  | select i t arms =>
    obtain ⟨a, ha, h⟩ := List.any_eq_true.mp h
    obtain ⟨p, hp, h⟩ := List.any_eq_true.mp h
    cases p with
    | active => exact acts_select ha hp (hsub (of_decide_eq_true h))
    | _ => cases h
  | _ => cases h

theorem performs_mono (hsub : known ⊆ more) {e : Expr} (h : e.performs known = true) :
    e.performs more = true := by
  obtain ⟨x, hx, hacts⟩ := performs_iff.mp h
  exact performs_iff.mpr ⟨x, hx, acts_mono hsub hacts⟩

/-- It decides nothing in which order, or how often, the callables that are known are listed. -/
theorem performs_congr (h : ∀ c, c ∈ known ↔ c ∈ more) (e : Expr) :
    e.performs known = e.performs more :=
  Bool.eq_iff_iff.mpr ⟨performs_mono fun c => (h c).mp, performs_mono fun c => (h c).mpr⟩

end Expr

/-! ### Passes -/

namespace Module

variable {m : Module}

theorem mem_bodies {c : Callable} {body : Expr} : (c, body) ∈ m.bodies ↔ m.HasBody c body := by
  rw [bodies, List.mem_append, List.mem_map, List.mem_map]
  constructor
  · rintro (⟨f, hf, heq⟩ | ⟨r, hr, heq⟩)
    · cases heq
      exact .function hf
    · cases heq
      exact .recognizer hr
  · rintro (hf | hr)
    · exact .inl ⟨_, hf, rfl⟩
    · exact .inr ⟨_, hr, rfl⟩

theorem isPrefix_learn (known : List Callable) (b : Callable × Expr) : known <+: learn known b := by
  rw [learn]
  split
  · exact List.prefix_rfl
  · split
    · exact List.prefix_append _ _
    · exact List.prefix_rfl

/-- A pass forgets nothing. -/
theorem isPrefix_pass (bodies : List (Callable × Expr)) (known : List Callable) :
    known <+: pass bodies known := by
  induction bodies generalizing known with
  | nil => exact List.prefix_rfl
  | cons b bodies ih => exact (isPrefix_learn known b).trans (ih _)

/-- What is learnt is new, so nothing is known twice. -/
theorem nodup_learn (h : known.Nodup) (b : Callable × Expr) : (learn known b).Nodup := by
  rw [learn]
  split
  · exact h
  · split
    · rw [List.nodup_append_comm]
      exact List.nodup_cons.mpr ⟨‹_›, h⟩
    · exact h

theorem nodup_pass (h : known.Nodup) : (pass bodies known).Nodup := by
  induction bodies generalizing known with
  | nil => exact h
  | cons b bodies ih => exact ih (nodup_learn h b)

/-- What is learnt from a body is its own callable, and only if it performs. -/
theorem of_mem_learn {b : Callable × Expr} {c : Callable} (h : c ∈ learn known b) :
    c ∈ known ∨ c = b.1 ∧ b.2.performs known = true := by
  rw [learn] at h
  split at h
  · exact .inl h
  · split at h
    · rcases List.mem_append.mp h with h | h
      · exact .inl h
      · exact .inr ⟨List.mem_singleton.mp h, ‹_›⟩
    · exact .inl h

theorem mem_learn {b : Callable × Expr} (h : b.2.performs known = true) : b.1 ∈ learn known b := by
  rw [learn]
  split
  · assumption
  · exact List.mem_append_right _ List.mem_cons_self

/-- Whatever is preserved by learning from each body is preserved by a pass. -/
theorem pass_preserves {P : Callable → Prop} (h : ∀ c ∈ known, P c)
    (hstep : ∀ b ∈ bodies, ∀ known, (∀ c ∈ known, P c) → b.2.performs known = true → P b.1) :
    ∀ c ∈ pass bodies known, P c := by
  induction bodies generalizing known with
  | nil => exact h
  | cons b bodies ih =>
    refine ih (fun c hc => ?_) fun b' hb' => hstep b' (List.mem_cons_of_mem _ hb')
    rcases of_mem_learn hc with hc | ⟨rfl, hperforms⟩
    · exact h c hc
    · exact hstep b List.mem_cons_self known h hperforms

/-- What performs before a pass is known after it, wherever it stands. -/
theorem mem_pass {b : Callable × Expr} (hb : b ∈ bodies) (h : b.2.performs known = true) :
    b.1 ∈ pass bodies known := by
  induction bodies generalizing known with
  | nil => cases hb
  | cons b' bodies ih =>
    rcases List.mem_cons.mp hb with rfl | hb
    · exact (isPrefix_pass bodies _).subset (mem_learn h)
    · exact ih hb (Expr.performs_mono (isPrefix_learn known b').subset h)

/-! ### Settling -/

/-- Passes, one after the other, until one adds nothing. -/
inductive Settles (bodies : List (Callable × Expr)) : List Callable → List Callable → Prop
  | done {known : List Callable} : pass bodies known = known → Settles bodies known known
  | again {known result : List Callable} : pass bodies known ≠ known →
      Settles bodies (pass bodies known) result → Settles bodies known result

theorem Settles.pass_eq {result : List Callable} (h : Settles bodies known result) :
    pass bodies result = result := by
  induction h with
  | done h => exact h
  | again _ _ ih => exact ih

theorem Settles.preserves {P : Callable → Prop} {result : List Callable}
    (h : Settles bodies known result)
    (hstep : ∀ b ∈ bodies, ∀ known, (∀ c ∈ known, P c) → b.2.performs known = true → P b.1)
    (hknown : ∀ c ∈ known, P c) : ∀ c ∈ result, P c := by
  induction h with
  | done _ => exact hknown
  | again _ _ ih => exact ih (pass_preserves hknown hstep)

theorem repeat_pass_succ (n : Nat) (known : List Callable) :
    Nat.repeat (pass bodies) (n + 1) known = Nat.repeat (pass bodies) n (pass bodies known) := by
  induction n with
  | zero => rfl
  | succ n ih => exact congrArg (pass bodies) ih

theorem repeat_pass_of_eq (h : pass bodies known = known) (n : Nat) :
    Nat.repeat (pass bodies) n known = known := by
  induction n with
  | zero => rfl
  | succ n ih =>
    rw [repeat_pass_succ, h]
    exact ih

/-- A pass that is not the last makes the list longer, and the list holds each callable once. -/
theorem settles_repeat (n : Nat) (hnodup : known.Nodup) (hsub : known ⊆ bodies.map (·.1))
    (hlen : bodies.length ≤ known.length + n) :
    Settles bodies known (Nat.repeat (pass bodies) n known) := by
  induction n generalizing known with
  | zero =>
    refine .done ((isPrefix_pass bodies known).eq_of_length_le ?_).symm
    have hkeys : pass bodies known ⊆ bodies.map (·.1) :=
      pass_preserves hsub fun b hb _ _ _ => List.mem_map.mpr ⟨b, hb, rfl⟩
    have hle := ((nodup_pass hnodup).subperm hkeys).length_le
    rw [List.length_map] at hle
    omega
  | succ n ih =>
    by_cases h : pass bodies known = known
    · rw [repeat_pass_of_eq h]
      exact .done h
    · rw [repeat_pass_succ]
      refine .again h (ih (nodup_pass hnodup) ?_ ?_)
      · exact pass_preserves hsub fun b hb _ _ _ => List.mem_map.mpr ⟨b, hb, rfl⟩
      · have hlonger : known.length < (pass bodies known).length := by
          by_contra hle
          exact h ((isPrefix_pass bodies known).eq_of_length_le (by omega)).symm
        omega

/-- **The passes settle**, on what is taken to be the effects of the module. -/
theorem settles_effectful (m : Module) : Settles m.bodies [] m.effectful :=
  settles_repeat _ List.nodup_nil (List.nil_subset _) (Nat.le_add_left _ _)

/-! ### What the passes settle on -/

/-- A body that performs because of callables that the rules reach is reached by a rule. -/
theorem mayPerform_of_performs {c : Callable} {body : Expr} (hbody : m.HasBody c body)
    (hknown : ∀ c ∈ known, m.MayPerform c) (h : body.performs known = true) : m.MayPerform c := by
  obtain ⟨x, hx, hacts⟩ := Expr.performs_iff.mp h
  cases x with
  | perform => exact .performs hbody hx
  | call i f es =>
    cases f with
    | ident j name => exact .calls hbody hx (hknown _ (of_decide_eq_true hacts))
    | _ => cases hacts
  | select i t arms =>
    obtain ⟨a, ha, hacts⟩ := List.any_eq_true.mp hacts
    obtain ⟨p, hp, hacts⟩ := List.any_eq_true.mp hacts
    cases p with
    | active => exact .matches hbody hx ha hp (hknown _ (of_decide_eq_true hacts))
    | _ => cases hacts
  | _ => cases hacts

theorem mem_of_pass_eq (hpass : pass m.bodies known = known) {c : Callable} {body x : Expr}
    (hbody : m.HasBody c body) (hx : body.Within x) (hacts : x.acts known = true) : c ∈ known := by
  have hmem := mem_pass (mem_bodies.mpr hbody) (Expr.performs_iff.mpr ⟨x, hx, hacts⟩)
  rwa [hpass] at hmem

/-- **What the passes settle on are the callables that the rules reach**: at most those, since every
pass follows the rules, and all of those, since a rule that reaches further would have a pass add
something. -/
theorem mem_effectful_iff {c : Callable} : c ∈ m.effectful ↔ m.MayPerform c := by
  have hsettles := settles_effectful m
  constructor
  · refine hsettles.preserves (fun b hb known hknown h => ?_) (List.forall_mem_nil _) c
    exact mayPerform_of_performs (mem_bodies.mp hb) hknown h
  · intro h
    induction h with
    | performs hbody hx => exact mem_of_pass_eq hsettles.pass_eq hbody hx rfl
    | calls hbody hx _ ih => exact mem_of_pass_eq hsettles.pass_eq hbody hx (Expr.acts_call ih)
    | «matches» hbody hx ha hcall _ ih =>
      exact mem_of_pass_eq hsettles.pass_eq hbody hx (Expr.acts_select ha hcall ih)

/-! ### The order of declarations -/

/-- A module with its functions and recognizers in another order. -/
structure Reordered (m p : Module) : Prop where
  functions : p.functions.Perm m.functions
  recognizers : p.recognizers.Perm m.recognizers
  inline : p.inline = m.inline
  types : p.types = m.types

variable {p : Module}

theorem Reordered.symm (h : m.Reordered p) : p.Reordered m :=
  ⟨h.functions.symm, h.recognizers.symm, h.inline.symm, h.types.symm⟩

theorem Reordered.hasBody (h : m.Reordered p) {c : Callable} {body : Expr}
    (hbody : m.HasBody c body) : p.HasBody c body := by
  cases hbody with
  | function hf => exact .function (h.functions.mem_iff.mpr hf)
  | recognizer hr => exact .recognizer (h.recognizers.mem_iff.mpr hr)

theorem Reordered.mayPerform (h : m.Reordered p) {c : Callable} (hc : m.MayPerform c) :
    p.MayPerform c := by
  induction hc with
  | performs hbody hx => exact .performs (h.hasBody hbody) hx
  | calls hbody hx _ ih => exact .calls (h.hasBody hbody) hx ih
  | «matches» hbody hx ha hcall _ ih => exact .matches (h.hasBody hbody) hx ha hcall ih

theorem Reordered.mem_effectful (h : m.Reordered p) (c : Callable) :
    c ∈ p.effectful ↔ c ∈ m.effectful := by
  rw [mem_effectful_iff, mem_effectful_iff]
  exact ⟨h.symm.mayPerform, h.mayPerform⟩

theorem Reordered.allMatches (h : m.Reordered p) : p.allMatches.Perm m.allMatches := by
  refine .append (.append ?_ ?_) ?_
  · exact h.recognizers.flatMap_right _
  · exact h.functions.flatMap_right _
  · rw [h.inline]

end Module

/-! ### What is reported about effects -/

/-- The reports of effects where none are allowed. -/
def effectReports (ds : List Diagnostic) : List Diagnostic :=
  ds.filter fun d => d.code = .activeEffect

theorem effectReports_append (ds es : List Diagnostic) :
    effectReports (ds ++ es) = effectReports ds ++ effectReports es := List.filter_append _ _

theorem effectReports_nameProblems (functions : List String) (before : List Recognizer)
    (r : Recognizer) : effectReports (nameProblems functions before r) = [] := by
  rw [nameProblems, effectReports_append, List.append_eq_nil_iff]
  constructor
  · split <;> rfl
  · split <;> rfl

theorem effectReports_contractProblems (r : Recognizer) :
    effectReports (contractProblems r) = [] := by
  have hcode : ∀ result d, contractProblem? r result = some d → d.code = .activeReturn := by
    intro result d hd
    unfold contractProblem? at hd
    dsimp only at hd
    split at hd
    · cases hd
    · split at hd <;> split at hd <;> cases hd <;> rfl
  refine List.filter_eq_nil_iff.mpr fun d hd => ?_
  rw [contractProblems] at hd
  have hsome : ∃ result, contractProblem? r result = some d := by
    split at hd
    · rename_i e he
      exact ⟨_, List.mem_singleton.mp hd ▸ he⟩
    · exact ⟨_, Option.mem_toList.mp hd⟩
  obtain ⟨result, hresult⟩ := hsome
  rw [hcode result d hresult]
  decide

theorem effectReports_effectProblems (known : List Callable) (r : Recognizer) :
    effectReports (effectProblems known r) = effectProblems known r := by
  rw [effectProblems]
  split <;> rfl

/-- Each recognizer is judged on its own. -/
theorem effectReports_recognizerProblems (functions : List String) (known : List Callable)
    (before rest : List Recognizer) :
    effectReports (recognizerProblems functions known before rest)
      = rest.flatMap (effectProblems known) := by
  induction rest generalizing before with
  | nil => rfl
  | cons r rs ih =>
    rw [recognizerProblems, List.flatMap_cons]
    simp only [effectReports_append, effectReports_nameProblems, effectReports_contractProblems,
      effectReports_effectProblems, ih, List.nil_append]

/-- Matches are judged by which recognizers there are, and not by their order. -/
theorem matchProblems_congr {s t : Surroundings} (htypes : s.types = t.types)
    (hlegacy : s.warnLegacyIf = t.warnLegacyIf)
    (hnames : ∀ n, n ∈ s.recognizers ↔ n ∈ t.recognizers) (target : Ty)
    (arms : List (Arm Pattern Expr)) : matchProblems s target arms = matchProblems t target arms := by
  have hnode : nodeProblems s = nodeProblems t := by
    funext p
    cases p with
    | slice i items => rw [nodeProblems, nodeProblems, sliceProblems, sliceProblems, htypes]
    | construct i n args =>
      rw [nodeProblems, nodeProblems, constructorProblems, constructorProblems, htypes]
    | active i n k u arg => simp only [nodeProblems, hnames]
    | _ => rfl
  have harm : armProblems s = armProblems t := by
    funext a
    rw [armProblems, armProblems, hnode, guardProblems, guardProblems, hlegacy]
  rw [matchProblems, matchProblems, harm, htypes]

theorem Module.Reordered.matchReports {m p : Module} (h : m.Reordered p) (config : Config) :
    (p.allMatches.flatMap fun x => matchProblems
      ⟨p.types, p.recognizers.map Recognizer.name, config.warnLegacyIf⟩ x.target.ty x.arms).Perm
    (m.allMatches.flatMap fun x => matchProblems
      ⟨m.types, m.recognizers.map Recognizer.name, config.warnLegacyIf⟩ x.target.ty x.arms) := by
  have hsame : ∀ x : Match, matchProblems
      ⟨p.types, p.recognizers.map Recognizer.name, config.warnLegacyIf⟩ x.target.ty x.arms
      = matchProblems ⟨m.types, m.recognizers.map Recognizer.name, config.warnLegacyIf⟩
        x.target.ty x.arms := by
    intro x
    apply matchProblems_congr
    · exact h.types
    · rfl
    · exact fun n => (h.recognizers.map Recognizer.name).mem_iff
  simp only [hsame]
  exact h.allMatches.flatMap_right _

theorem Module.Reordered.effectReports_moduleProblems {m p : Module} (h : m.Reordered p)
    (config : Config) :
    (effectReports (moduleProblems config p)).Perm (effectReports (moduleProblems config m)) := by
  have hown : effectProblems p.effectful = effectProblems m.effectful := by
    funext r
    rw [effectProblems, effectProblems, Expr.performs_congr h.mem_effectful]
  rw [moduleProblems, moduleProblems, effectReports_append, effectReports_append,
    effectReports_recognizerProblems, effectReports_recognizerProblems, hown]
  exact .append (h.recognizers.flatMap_right _) ((h.matchReports config).filter _)

/-- **Effects are a least fixed point, whatever the order of declarations.**  The passes over the
bodies settle; a callable is among what they settle on exactly if the rules reach it; and another
order of functions and recognizers changes neither that nor which recognizers are reported. -/
theorem effectful_least (m : Module) :
    Module.Settles m.bodies [] m.effectful ∧
    (∀ c, c ∈ m.effectful ↔ m.MayPerform c) ∧
    ∀ p, m.Reordered p →
      (∀ c, c ∈ p.effectful ↔ c ∈ m.effectful) ∧
      (∀ r, effectProblems p.effectful r = effectProblems m.effectful r) ∧
      ∀ config, (effectReports (moduleProblems config p)).Perm
        (effectReports (moduleProblems config m)) := by
  refine ⟨m.settles_effectful, fun c => Module.mem_effectful_iff, fun p h => ?_⟩
  refine ⟨h.mem_effectful, fun r => ?_, h.effectReports_moduleProblems⟩
  rw [effectProblems, effectProblems, Expr.performs_congr h.mem_effectful]

/-! An instance: `relay` calls `log`, which performs an effect; `(|Loud|)` calls `relay`, and
`(|Quiet|)` matches through `(|Loud|)` although it promises to have no effect. -/

def relayModule (functions : List Function) (recognizers : List Recognizer) : Module :=
  ⟨"", "relay.mc", functions, recognizers, [], .builtin⟩

def callOf (name : String) : Expr := .call ⟨{}, .int⟩ (.ident ⟨{}, .int⟩ name) []

def logFunction : Function := ⟨"log", [], .int, .perform ⟨{}, .int⟩ "Console" [], false, {}⟩

def relayFunction : Function := ⟨"relay", [], .int, callOf "log", false, {}⟩

def loudRecognizer : Recognizer :=
  ⟨"Loud", .total, [], .int, .int, callOf "relay", false, false, {}⟩

def quietRecognizer : Recognizer :=
  let loud : Pattern := .active ⟨{}, .int⟩ "Loud" .total false none
  let arm : Arm Pattern Expr := ⟨{}, .or ⟨{}, .int⟩ [loud], none, false, none, callOf "id"⟩
  ⟨"Quiet", .total, [], .int, .int, .select ⟨{}, .int⟩ (callOf "id") [arm], true, false, {}⟩

/-- In one order a single pass learns everything, in the other one callable at a time. -/
theorem effectful_least_relay :
    let m := relayModule [relayFunction, logFunction] [quietRecognizer, loudRecognizer]
    let p := relayModule [logFunction, relayFunction] [loudRecognizer, quietRecognizer]
    m.Reordered p ∧ p.effectful.length = 4 ∧ (∀ c, c ∈ p.effectful ↔ c ∈ m.effectful) ∧
      (effectReports (moduleProblems {} m)).length = 1 ∧
      (effectReports (moduleProblems {} p)).Perm (effectReports (moduleProblems {} m)) := by
  intro m p
  have h : m.Reordered p := ⟨.swap _ _ _, .swap _ _ _, rfl, rfl⟩
  obtain ⟨hmem, -, hreports⟩ := (effectful_least m).2.2 p h
  exact ⟨h, by decide, hmem, by decide, hreports {}⟩

end PatternPlan.Typed
