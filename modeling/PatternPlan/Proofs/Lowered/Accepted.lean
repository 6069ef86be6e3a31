import Mathlib.Logic.Relation
import PatternPlan.Proofs.Lowered.Contract

/-!
# What an accepted module guarantees

A module that comes from elsewhere is used only if nothing is found wrong with it.  What may be
relied on then is less than the whole contract: the plans that stand in match rows are only counted,
and the constants that bound a range are not looked into.

* `Pattern.HasParts` — a pattern is of a known form and has what the form needs;
* `Pattern.Reaches` — a pattern stands at any depth inside another one, bounds of ranges apart;
* `hasParts_of_error?` — **every pattern that is reached from an accepted one has its parts**;
* `accepted_keeps_contract` — what holds of accepted modules;
* `accepted_breaks_contract` — the two things that do not.
-/

namespace PatternPlan.Lowered

namespace Pattern

/-! ### Patterns inside patterns -/

/-- The patterns right inside a pattern, in the places that its form uses; bounds apart. -/
def inside (p : Pattern) : List Pattern :=
  match p.form with
  | .tuple => p.elements.filterMap id
  | .record => (p.fields.map (·.2)).filterMap id
  | .construct => p.args.filterMap id
  | .binding => p.inner.toList
  | .or => p.variants.filterMap id
  | .slice => p.head.filterMap id ++ p.tail.filterMap id
  | .active => (p.call.bind Call.argument).toList
  | _ => []

/-- The bounds of a range. -/
def bounds (p : Pattern) : List Pattern :=
  match p.form with
  | .range => p.start.toList ++ p.stop.toList
  | _ => []

/-- `p.Reaches q`: `q` is `p` or stands at some depth inside it. -/
def Reaches : Pattern → Pattern → Prop := Relation.ReflTransGen fun p q => q ∈ p.inside

/-- A pattern is of a known form and has what the form needs. -/
def HasParts (p : Pattern) : Prop :=
  match p.form with
  | .wildcard | .record | .regex => True
  | .var => p.name ≠ ""
  | .literal => p.literal ≠ none
  | .tuple => none ∉ p.elements
  | .construct => p.name ≠ "" ∧ none ∉ p.args
  | .binding => p.name ≠ "" ∧ p.inner ≠ none
  | .or => p.variants ≠ [] ∧ none ∉ p.variants
  | .slice => (p.rest = none → p.tail = []) ∧ none ∉ p.head ∧ none ∉ p.tail
  | .range => p.bounds ≠ [] ∧ ∀ b ∈ p.bounds, b.form = .literal
  | .active => ∃ c, p.call = some c ∧ c.name ≠ "" ∧ (c.missTarget ≠ none ↔ c.kind = .optional)
  | .other _ => False

theorem error?_eq_none_iff {p : Pattern} :
    p.error? = none ↔ p.ownError? = none ∧ p.innerError? = none := by
  refine ⟨fun h => ?_, fun h => error?_eq_none h.1 h.2⟩
  cases p
  rw [error?.eq_def] at h
  dsimp only at h
  split at h
  · cases h
  · rename_i hown
    exact ⟨hown, Option.map_eq_none_iff.mp h⟩

theorem firstError?_eq_none_iff {ps : List (Option Pattern)} :
    firstError? ps = none ↔ none ∉ ps ∧ ∀ p ∈ ps.filterMap id, error? p = none := by
  induction ps with
  | nil => simp [firstError?]
  | cons p ps ih =>
    rw [firstError?, Option.or_eq_none_iff, ih]
    cases p with
    | none => simp [neededError?]
    | some p => simp [neededError?, and_left_comm]

theorem firstFieldError?_eq_none_iff {fs : List (String × Option Pattern)} :
    firstFieldError? fs = none ↔ ∀ p ∈ (fs.map (·.2)).filterMap id, error? p = none := by
  induction fs with
  | nil => simp [firstFieldError?]
  | cons f fs ih =>
    obtain ⟨key, p⟩ := f
    rw [firstFieldError?, Option.or_eq_none_iff, ih]
    cases p with
    | none => simp [optionError?]
    | some p => simp [optionError?]

theorem optionError?_eq_none_iff {p : Option Pattern} :
    optionError? p = none ↔ ∀ q ∈ p.toList, error? q = none := by
  cases p <;> simp [optionError?]

theorem boundError?_eq_none_iff {p : Option Pattern} :
    boundError? p = none ↔ ∀ b ∈ p.toList, b.form = .literal := by
  cases p with
  | none => simp [boundError?]
  | some p => simp [boundError?]

theorem callError?_eq_none_iff {c : Option (Call Pattern)} :
    callError? c = none ↔ ∀ q ∈ (c.bind Call.argument).toList, error? q = none := by
  cases c with
  | none => simp [callError?]
  | some c =>
    obtain ⟨name, kind, argument, inputBinding, missTarget⟩ := c
    rw [callError?, optionError?_eq_none_iff]
    rfl

/-- An accepted pattern has its parts, and the patterns right inside it are accepted. -/
theorem of_error?_eq_none {p : Pattern} (h : p.error? = none) :
    p.HasParts ∧ ∀ q ∈ p.inside, q.error? = none := by
  obtain ⟨hown, hinner⟩ := error?_eq_none_iff.mp h
  rw [ownError?] at hown
  rw [innerError?] at hinner
  rw [HasParts, inside, bounds]
  cases hform : p.form with
  | wildcard => simp
  | regex => simp
  | var =>
    rw [hform] at hown
    exact ⟨by simpa using hown, by simp⟩
  | literal =>
    rw [hform] at hown
    exact ⟨by simpa using hown, by simp⟩
  | tuple =>
    rw [hform] at hinner
    exact firstError?_eq_none_iff.mp hinner
  | record =>
    rw [hform] at hinner
    exact ⟨trivial, firstFieldError?_eq_none_iff.mp hinner⟩
  | construct =>
    rw [hform] at hown hinner
    obtain ⟨hneeded, hargs⟩ := firstError?_eq_none_iff.mp hinner
    exact ⟨⟨by simpa using hown, hneeded⟩, hargs⟩
  | binding =>
    rw [hform] at hown hinner
    exact ⟨by simpa using hown, optionError?_eq_none_iff.mp hinner⟩
  | or =>
    rw [hform] at hown hinner
    obtain ⟨hneeded, hvariants⟩ := firstError?_eq_none_iff.mp hinner
    exact ⟨⟨by simpa using hown, hneeded⟩, hvariants⟩
  | slice =>
    rw [hform] at hown hinner
    obtain ⟨hhead, htail⟩ := Option.or_eq_none_iff.mp hinner
    obtain ⟨hneeded, hhead⟩ := firstError?_eq_none_iff.mp hhead
    obtain ⟨hneeded', htail⟩ := firstError?_eq_none_iff.mp htail
    exact ⟨⟨by simpa using hown, hneeded, hneeded'⟩, List.forall_mem_append.mpr ⟨hhead, htail⟩⟩
  | range =>
    rw [hform] at hown
    dsimp only at hown ⊢
    split at hown
    · cases hown
    · rename_i hsome
      obtain ⟨hstart, hstop⟩ := Option.or_eq_none_iff.mp hown
      refine ⟨⟨fun hnil => hsome ?_, List.forall_mem_append.mpr
        ⟨boundError?_eq_none_iff.mp hstart, boundError?_eq_none_iff.mp hstop⟩⟩, by simp⟩
      obtain ⟨hstart, hstop⟩ := List.append_eq_nil_iff.mp hnil
      simp_all
  | active =>
    rw [hform] at hown hinner
    dsimp only at hown
    split at hown
    · cases hown
    · rename_i c hcall
      refine ⟨⟨c, hcall, ?_⟩, callError?_eq_none_iff.mp hinner⟩
      split at hown
      · cases hown
      · rename_i hname
        refine ⟨hname, ?_⟩
        split at hown
        · cases hown
        · rename_i hmiss
          cases hkind : c.kind <;> cases htarget : c.missTarget <;>
            simp_all [RecognizerKind.mayMiss]
  | other tag =>
    rw [hform] at hown
    cases hown

/-- **Every pattern that is reached from an accepted one has its parts.** -/
theorem hasParts_of_error? {p q : Pattern} (h : p.error? = none) (hq : p.Reaches q) :
    q.HasParts := by
  have haccepted : q.error? = none := by
    induction hq with
    | refl => exact h
    | tail _ hinside ih => exact (of_error?_eq_none ih).2 _ hinside
  exact (of_error?_eq_none haccepted).1

end Pattern

/-! ### Rows -/

theorem rowError?_of_rowsError? {rows : List Expr} {start : Nat} (h : rowsError? start rows = none) :
    ∀ e ∈ rows, ∃ index, rowError? index e = none := by
  induction rows generalizing start with
  | nil => simp
  | cons e rows ih =>
    obtain ⟨hfirst, hrest⟩ := Option.or_eq_none_iff.mp h
    exact List.forall_mem_cons.mpr ⟨⟨start, hfirst⟩, ih hrest⟩

/-- What holds of an accepted row: its arms have patterns with all their parts, and a match has a plan
with as many arms. -/
structure Expr.Accepted (e : Expr) : Prop where
  patterns : ∀ a ∈ e.arms, ∃ p, a.pattern = some p ∧ ∀ q, p.Reaches q → q.HasParts
  plan : e.form = .select → ∃ p, e.plan = some p ∧ p.armCount = e.arms.length

theorem accepted_of_rowError? {index : Nat} {e : Expr} (h : rowError? index e = none) :
    e.Accepted := by
  rw [rowError?] at h
  split at h
  · cases h
  · obtain ⟨-, h⟩ := Option.or_eq_none_iff.mp h
    obtain ⟨harms, hplan⟩ := Option.or_eq_none_iff.mp h
    rw [Option.map_eq_none_iff, List.findSome?_eq_none_iff] at harms
    refine ⟨fun a ha => ?_, fun hselect => ?_⟩
    · have hpattern := harms a ha
      cases hp : a.pattern with
      | none =>
        rw [hp] at hpattern
        cases hpattern
      | some p =>
        rw [hp] at hpattern
        exact ⟨p, rfl, fun q hq => Pattern.hasParts_of_error? hpattern hq⟩
    · rw [planError?, if_pos hselect] at hplan
      split at hplan
      · cases hplan
      · rename_i p hp
        split at hplan
        · exact ⟨p, hp, ‹_›⟩
        · cases hplan

theorem accepted_of_tableError? {rows : List Expr} {body : Nat} (h : tableError? rows body = none) :
    ∀ e ∈ rows, e.Accepted := by
  rw [tableError?] at h
  split at h
  · cases h
  · intro e he
    obtain ⟨index, hrow⟩ := rowError?_of_rowsError? h e he
    exact accepted_of_rowError? hrow

/-! ### Modules -/

/-- All rows of a module. -/
def Module.rows (m : Module) : List Expr :=
  (m.functions.getD []).flatMap (fun f => f.exprs.getD [])
    ++ (m.recognizers.getD []).flatMap fun r => r.exprs.getD []

theorem errors_of_planErrors {ps : List Plan} {index : Nat} (h : planErrors index ps = []) :
    ∀ p ∈ ps, p.errors = [] := by
  induction ps generalizing index with
  | nil => simp
  | cons p ps ih =>
    obtain ⟨hfirst, hrest⟩ := List.append_eq_nil_iff.mp h
    refine List.forall_mem_cons.mpr ⟨?_, ih hrest⟩
    cases herrors : p.errors with
    | nil => rfl
    | cons e es =>
      rw [herrors] at hfirst
      cases hfirst

theorem accepted_rows {m : Module} (h : m.errors = []) : ∀ e ∈ m.rows, e.Accepted := by
  rw [Module.errors] at h
  simp only [List.append_eq_nil_iff, List.flatMap_eq_nil_iff] at h
  obtain ⟨⟨⟨-, hfunctions⟩, hrecognizers⟩, -⟩ := h
  intro e he
  rcases List.mem_append.mp he with he | he
  · obtain ⟨f, hf, he⟩ := List.mem_flatMap.mp he
    have herrors := hfunctions f hf
    rw [Function.errors, Option.toList_eq_nil_iff, Option.map_eq_none_iff] at herrors
    exact accepted_of_tableError? herrors e he
  · obtain ⟨r, hr, he⟩ := List.mem_flatMap.mp he
    have herrors := (List.append_eq_nil_iff.mp (hrecognizers r hr)).2
    rw [Option.toList_eq_nil_iff, Option.map_eq_none_iff] at herrors
    exact accepted_of_tableError? herrors e he

/-- **What an accepted module guarantees.**  Its listed plans keep their contract; every arm of its
matches has a pattern, and whatever is reached from it is of a known form and has what the form
needs; and every match has a plan with as many arms as it has itself. -/
theorem accepted_keeps_contract (m : Module) (h : m.errors = []) :
    (∀ p ∈ m.plans.getD [], p.errors = []) ∧ ∀ e ∈ m.rows, e.Accepted :=
  ⟨errors_of_planErrors (List.append_eq_nil_iff.mp h).2, accepted_rows h⟩

/-! An instance, written by hand: a match on `(n, ..)` whose range has a bound without a constant, and
whose plan has neither an owner nor a target type nor arms. -/

def looseRange : Pattern := { form := .range, stop := some { form := .literal } }

def looseArm : MatchArm where
  pattern := some { form := .tuple, elements := [some { form := .var, name := "n" }, some looseRange] }

def looseModule : Module where
  schema := schemaVersion
  functions := some [{
    name := "f"
    body := 1
    exprs := some [{ id := 0, form := .identifier, name := "v" },
      { id := 1, form := .select, target := some 0, arms := [looseArm], plan := some { armCount := 1 } }] }]

theorem looseModule_keeps_contract : looseModule.errors = [] ∧
    (∀ p ∈ looseModule.plans.getD [], p.errors = []) ∧ ∀ e ∈ looseModule.rows, e.Accepted :=
  ⟨rfl, accepted_keeps_contract looseModule rfl⟩

/-- **What an accepted module does not guarantee**: the plan in a match row may break the contract of
plans, and a bound of a range may be a constant without a value. -/
theorem accepted_breaks_contract : looseModule.errors = [] ∧
    (∃ e ∈ looseModule.rows, ∃ p, e.plan = some p ∧ p.errors ≠ []) ∧
    ∃ e ∈ looseModule.rows, ∃ a ∈ e.arms, ∃ p, a.pattern = some p ∧
      ∃ q, p.Reaches q ∧ ∃ b ∈ q.bounds, b.form = .literal ∧ ¬ b.HasParts := by
  refine ⟨rfl, ⟨_, List.mem_cons_of_mem _ List.mem_cons_self, _, rfl, by simp [Plan.errors]⟩, ?_⟩
  refine ⟨_, List.mem_cons_of_mem _ List.mem_cons_self, looseArm, List.mem_cons_self, _, rfl, looseRange,
    ?_, { form := .literal }, List.mem_cons_self, rfl, fun h => h rfl⟩
  exact .single (List.mem_cons_of_mem _ List.mem_cons_self)

end PatternPlan.Lowered
