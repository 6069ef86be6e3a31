import Mathlib.Data.List.Nodup
import PatternPlan.Types.Table

/-!
# Tables of declared types

Any number of calls that declare types, some of which are refused.

* `TypeTable.Declaration` — a call; `Declaration.run` is what it gives, and `Declaration.write` makes
  it step by step, so that whatever is written before the call gives up stays in the table;
* `Declaration.outcome_eq` — **a call that is refused has written nothing**;
* `Coherent` — the list of names, the declared types and the constructors belong together;
* `Adds` — what a call changes that is not refused;
* `Coherent.run`, `Declaration.run_ok` — one call;
* `TypeTable.after`, `Coherent.after` — any number of calls;
* `declarations_keep` — **after any calls the table is coherent, and one more call leaves it as it is
  or changes what is found under the names it declares, and nothing else**.
-/

namespace PatternPlan

/-- The name that a declared type goes by, or that is applied to arguments. -/
def Ty.head? : Ty → Option String
  | con n | app n _ => some n
  | _ => none

namespace TypeTable

/-! ### Calls -/

/-- A call that declares a type. -/
inductive Declaration where
  | sum (s : SumType)
  | record (name : String) (fields : List (String × Ty))

/-- The constructors of a sum type as its own. -/
def owned (s : SumType) : List Variant := s.variants.map fun v => { v with owner := s.name }

namespace Declaration

/-- The name of the declared type. -/
def name : Declaration → String
  | sum s => s.name
  | record n _ => n

/-- The names of the declared constructors. -/
def constructors : Declaration → List String
  | sum s => s.variants.map Variant.name
  | record _ _ => []

/-- What a call gives. -/
def run (t : TypeTable) : Declaration → Except DeclareError TypeTable
  | sum s => t.declareSum s
  | record n fs => t.declareRecord n fs

/-- What a call does in the end: it is refused or not, and leaves a table in any case. -/
abbrev Writing := ExceptT DeclareError (StateM TypeTable)

/-- Gives up if the name of a type is taken. -/
def refuseType (n : String) : Writing Unit := do
  if (← get).has n then throw (.typeTaken n)

/-- Gives up if the name of a constructor is taken. -/
def refuseConstructor (v : Variant) : Writing Unit := do
  match (← get).constructor? v.name with
  | some w => throw (.constructorTaken w.name w.owner)
  | none => pure ()

/-- Enters a constructor. -/
def enter (v : Variant) : Writing Unit :=
  modify fun t => { t with constructors := v :: t.constructors }

/-- Puts the name of a type behind the ones before it. -/
def enlist (n : String) : Writing Unit := modify fun t => { t with names := t.names ++ [n] }

/-- A call, one write after the other. -/
def write : Declaration → Writing Unit
  | sum s => do
    refuseType s.name
    forM s.variants refuseConstructor
    forM (owned s) enter
    modify fun t => { t with sums := t.sums ++ [{ s with variants := owned s }] }
    enlist s.name
  | record n fs => do
    refuseType n
    modify fun t => { t with records := t.records ++ [(n, fs)] }
    enlist n

/-- Whether a call was refused when it was made step by step, and the table it leaves. -/
def outcome (t : TypeTable) (c : Declaration) : Except DeclareError Unit × TypeTable :=
  c.write.run.run t

end Declaration

namespace Declaration

variable {t u : TypeTable} {x : Writing Unit} {f : Unit → Writing Unit} {e : DeclareError}

/-! ### Calls made step by step -/

theorem outcome_ok (h : x.run.run t = (.ok (), u)) : (x >>= f).run.run t = (f ()).run.run u := by
  rw [ExceptT.run_bind, StateT.run_bind, h]
  rfl

theorem outcome_error (h : x.run.run t = (.error e, u)) : (x >>= f).run.run t = (.error e, u) := by
  rw [ExceptT.run_bind, StateT.run_bind, h]
  rfl

theorem run_refuseType (t : TypeTable) (n : String) :
    (refuseType n).run.run t = if t.has n then (.error (.typeTaken n), t) else (.ok (), t) := by
  show (ite (t.has n = true) (throw (.typeTaken n)) (pure ()) : Writing Unit).run.run t = _
  split <;> rfl

theorem run_refuseConstructor (t : TypeTable) (v : Variant) :
    (refuseConstructor v).run.run t = match t.constructor? v.name with
      | some w => (.error (.constructorTaken w.name w.owner), t)
      | none => (.ok (), t) := by
  show (match t.constructor? v.name with
    | some w => throw (.constructorTaken w.name w.owner)
    | none => pure () : Writing Unit).run.run t = _
  split <;> rfl

/-- The constructors are looked at in order, also behind one that is free. -/
theorem run_refuseConstructors (t : TypeTable) (vs : List Variant) :
    (forM vs refuseConstructor : Writing Unit).run.run t = match t.taken? vs with
      | some w => (.error (.constructorTaken w.name w.owner), t)
      | none => (.ok (), t) := by
  induction vs with
  | nil => rfl
  | cons v vs ih =>
    have hfirst := run_refuseConstructor t v
    rw [List.forM_cons, taken?, List.findSome?_cons]
    cases hv : t.constructor? v.name with
    | some w =>
      rw [hv] at hfirst
      exact outcome_error hfirst
    | none =>
      rw [hv] at hfirst
      rw [outcome_ok hfirst, ih]
      rfl

theorem run_enterAll (t : TypeTable) (vs : List Variant) :
    (forM vs enter : Writing Unit).run.run t =
      (.ok (), { t with constructors := vs.reverse ++ t.constructors }) := by
  induction vs generalizing t with
  | nil => rfl
  | cons v vs ih =>
    rw [List.forM_cons, outcome_ok (show (enter v).run.run t = (.ok (), _) from rfl), ih,
      List.reverse_cons, List.append_assoc]
    rfl

/-- **A call that is refused has written nothing**, and one that is not leaves what it gives. -/
theorem outcome_eq (t : TypeTable) (c : Declaration) : c.outcome t = match c.run t with
    | .error e => (.error e, t)
    | .ok u => (.ok (), u) := by
  cases c with
  | sum s =>
    have hname := run_refuseType t s.name
    have hvariants := run_refuseConstructors t s.variants
    rw [outcome, write, run, declareSum]
    by_cases htaken : t.has s.name = true
    · rw [if_pos htaken] at hname ⊢
      exact outcome_error hname
    · rw [if_neg htaken] at hname ⊢
      rw [outcome_ok hname]
      cases hvs : t.taken? s.variants with
      | some w =>
        rw [hvs] at hvariants
        exact outcome_error hvariants
      | none =>
        rw [hvs] at hvariants
        rw [outcome_ok hvariants, outcome_ok (run_enterAll t (owned s))]
        rfl
  | record n fs =>
    have hname := run_refuseType t n
    rw [outcome, write, run, declareRecord]
    by_cases htaken : t.has n = true
    · rw [if_pos htaken] at hname ⊢
      exact outcome_error hname
    · rw [if_neg htaken] at hname ⊢
      rw [outcome_ok hname]
      rfl

end Declaration

/-! ### What belongs together -/

/-- The names are those of the declared types, each once; no type is declared in two ways; and a
constructor is found whose type is declared with it. -/
structure Coherent (t : TypeTable) : Prop where
  nodup : t.names.Nodup
  mem_names : ∀ n, n ∈ t.names ↔ t.has n = true
  apart : ∀ n, ¬ ((t.sum? n).isSome = true ∧ (t.record? n).isSome = true)
  owner : ∀ n v, t.constructor? n = some v →
    v.name = n ∧ ∃ s, t.sum? v.owner = some s ∧ v ∈ s.variants

/-- What is declared is found. -/
def Declaration.Found (t : TypeTable) : Declaration → Prop
  | .sum s => t.sum? s.name = some { s with variants := owned s } ∧
      ∀ v ∈ s.variants, ∃ w ∈ owned s, t.constructor? v.name = some w
  | .record n fs => t.record? n = some fs

/-- **What a call adds**: the table `u` is `t` but for what is found under the names that the call
declares. -/
structure Adds (c : Declaration) (t u : TypeTable) : Prop where
  names : u.names = t.names ++ [c.name]
  found : c.Found u
  has : ∀ n, n ≠ c.name → u.has n = t.has n
  sum? : ∀ n, n ≠ c.name → u.sum? n = t.sum? n
  record? : ∀ n, n ≠ c.name → u.record? n = t.record? n
  constructor? : ∀ n, n ∉ c.constructors → u.constructor? n = t.constructor? n
  resolve : ∀ w : Ty, w.head? ≠ some c.name → u.resolve w = t.resolve w
  sumOf? : ∀ w : Ty, w.head? ≠ some c.name → u.sumOf? w = t.sumOf? w

variable {t u : TypeTable} {c : Declaration}

theorem has_eq_false {n : String} : t.has n = false ↔ t.sum? n = none ∧ t.record? n = none := by
  rw [has, Bool.or_eq_false_iff, Option.isSome_eq_false_iff, Option.isSome_eq_false_iff,
    Option.isNone_iff_eq_none, Option.isNone_iff_eq_none]

/-- What the lookups of a table depend on. -/
theorem resolve_congr {n : String} (h : ∀ m, m ≠ n → u.record? m = t.record? m) {w : Ty}
    (hw : w.head? ≠ some n) : u.resolve w = t.resolve w := by
  cases w with
  | con m =>
    have hm : m ≠ n := fun hmn => hw (congrArg some hmn)
    rw [TypeTable.resolve, TypeTable.resolve, h m hm]
  | _ => rfl

theorem sumOf?_congr {n : String} (h : ∀ m, m ≠ n → u.sum? m = t.sum? m) {w : Ty}
    (hw : w.head? ≠ some n) : u.sumOf? w = t.sumOf? w := by
  cases w with
  | con m | app m _ => exact h m fun hmn => hw (congrArg some hmn)
  | _ => rfl

/-! ### Sum types -/

section Sum

variable {s : SumType}

/-- The table in which a sum type is declared. -/
def withSum (t : TypeTable) (s : SumType) : TypeTable where
  sums := t.sums ++ [{ s with variants := owned s }]
  records := t.records
  constructors := (owned s).reverse ++ t.constructors
  names := t.names ++ [s.name]

theorem declareSum_ok (h : t.declareSum s = .ok u) :
    t.has s.name = false ∧ t.taken? s.variants = none ∧ u = t.withSum s := by
  rw [declareSum] at h
  split at h
  · cases h
  · rename_i hname
    split at h
    · cases h
    · rename_i htaken
      exact ⟨Bool.eq_false_iff.mpr hname, htaken, (Except.ok.inj h).symm⟩

theorem sum?_withSum_self (h : t.has s.name = false) :
    (t.withSum s).sum? s.name = some { s with variants := owned s } := by
  have hnone : t.sums.find? (fun r => r.name = s.name) = none := (has_eq_false.mp h).1
  rw [sum?, withSum, List.find?_append, hnone]
  simp

theorem sum?_withSum {n : String} (h : n ≠ s.name) : (t.withSum s).sum? n = t.sum? n := by
  have hne : ¬ s.name = n := fun heq => h heq.symm
  rw [sum?, sum?, withSum, List.find?_append]
  simp [hne]

theorem has_withSum {n : String} (h : n ≠ s.name) : (t.withSum s).has n = t.has n := by
  rw [has, has, sum?_withSum h]
  rfl

theorem name_of_mem_owned {v : Variant} (h : v ∈ owned s) :
    v.owner = s.name ∧ v.name ∈ s.variants.map Variant.name := by
  obtain ⟨w, hw, rfl⟩ := List.mem_map.mp h
  exact ⟨rfl, List.mem_map.mpr ⟨w, hw, rfl⟩⟩

theorem constructor?_withSum {n : String} (h : n ∉ s.variants.map Variant.name) :
    (t.withSum s).constructor? n = t.constructor? n := by
  rw [constructor?, constructor?, withSum, List.find?_append]
  have hnone : (owned s).reverse.find? (fun v => v.name = n) = none := by
    refine List.find?_eq_none.mpr fun v hv hname => h ?_
    rw [← of_decide_eq_true hname]
    exact (name_of_mem_owned (List.mem_reverse.mp hv)).2
  rw [hnone, Option.none_or]

/-- A constructor is found that was declared here, or it was there before. -/
theorem constructor?_withSum_cases {n : String} {v : Variant}
    (h : (t.withSum s).constructor? n = some v) : v ∈ owned s ∨ t.constructor? n = some v := by
  rw [constructor?, withSum, List.find?_append] at h
  rcases Option.or_eq_some_iff.mp h with hnew | ⟨-, hold⟩
  · exact .inl (List.mem_reverse.mp (List.mem_of_find?_eq_some hnew))
  · exact .inr hold

theorem found_withSum (h : t.has s.name = false) : (Declaration.sum s).Found (t.withSum s) := by
  refine ⟨sum?_withSum_self h, fun v hv => ?_⟩
  have hmem : { v with owner := s.name } ∈ (owned s).reverse :=
    List.mem_reverse.mpr (List.mem_map.mpr ⟨v, hv, rfl⟩)
  have hsome : ((owned s).reverse.find? fun w => w.name = v.name).isSome = true :=
    List.find?_isSome.mpr ⟨_, hmem, decide_eq_true rfl⟩
  obtain ⟨w, hw⟩ := Option.isSome_iff_exists.mp hsome
  refine ⟨w, List.mem_reverse.mp (List.mem_of_find?_eq_some hw), ?_⟩
  rw [constructor?, withSum, List.find?_append, hw, Option.some_or]

theorem adds_withSum (h : t.has s.name = false) : Adds (.sum s) t (t.withSum s) where
  names := rfl
  found := found_withSum h
  has := fun _ hn => has_withSum hn
  sum? := fun _ hn => sum?_withSum hn
  record? := fun _ _ => rfl
  constructor? := fun _ hn => constructor?_withSum hn
  resolve := fun _ hw => resolve_congr (fun _ _ => rfl) hw
  sumOf? := fun _ hw => sumOf?_congr (fun _ hm => sum?_withSum hm) hw

end Sum

/-! ### Records -/

section Record

variable {n : String} {fs : List (String × Ty)}

/-- The table in which a record type is declared. -/
def withRecord (t : TypeTable) (n : String) (fs : List (String × Ty)) : TypeTable :=
  { t with records := t.records ++ [(n, fs)], names := t.names ++ [n] }

theorem declareRecord_ok (h : t.declareRecord n fs = .ok u) :
    t.has n = false ∧ u = t.withRecord n fs := by
  rw [declareRecord] at h
  split at h
  · cases h
  · rename_i hname
    exact ⟨Bool.eq_false_iff.mpr hname, (Except.ok.inj h).symm⟩

theorem record?_withRecord_self (h : t.has n = false) : (t.withRecord n fs).record? n = some fs := by
  have hnone : t.records.find? (fun r => r.1 = n) = none :=
    Option.map_eq_none_iff.mp (has_eq_false.mp h).2
  rw [record?, withRecord, List.find?_append, hnone]
  simp

theorem record?_withRecord {m : String} (h : m ≠ n) : (t.withRecord n fs).record? m = t.record? m := by
  have hne : ¬ n = m := fun heq => h heq.symm
  rw [record?, record?, withRecord, List.find?_append]
  simp [hne]

theorem has_withRecord {m : String} (h : m ≠ n) : (t.withRecord n fs).has m = t.has m := by
  rw [has, has, record?_withRecord h]
  rfl

theorem adds_withRecord (h : t.has n = false) : Adds (.record n fs) t (t.withRecord n fs) where
  names := rfl
  found := record?_withRecord_self h
  has := fun _ hm => has_withRecord hm
  sum? := fun _ _ => rfl
  record? := fun _ hm => record?_withRecord hm
  constructor? := fun _ _ => rfl
  resolve := fun _ hw => resolve_congr (fun _ hm => record?_withRecord hm) hw
  sumOf? := fun _ hw => sumOf?_congr (fun _ _ => rfl) hw

end Record

/-! ### One call -/

/-- A call that is not refused declares a name that was free. -/
theorem Declaration.run_ok (h : c.run t = .ok u) : t.has c.name = false ∧ Adds c t u := by
  cases c with
  | sum s =>
    obtain ⟨hname, -, rfl⟩ := declareSum_ok h
    exact ⟨hname, adds_withSum hname⟩
  | record n fs =>
    obtain ⟨hname, rfl⟩ := declareRecord_ok h
    exact ⟨hname, adds_withRecord hname⟩

/-- A declared name is the name of a type. -/
theorem Adds.has_name (h : Adds c t u) : u.has c.name = true := by
  have hfound := h.found
  cases c with
  | sum s =>
    show (u.sum? s.name).isSome || (u.record? s.name).isSome
    rw [hfound.1]
    rfl
  | record n fs =>
    show (u.sum? n).isSome || (u.record? n).isSome
    rw [show u.record? n = some fs from hfound]
    exact Bool.or_true _

theorem coherent_empty : Coherent {} where
  nodup := List.nodup_nil
  mem_names := fun _ => by simp [has, TypeTable.sum?, TypeTable.record?]
  apart := fun _ h => nomatch h.1
  owner := fun _ _ h => nomatch h

/-- The names stay those of the declared types, each once. -/
theorem Coherent.names_run (h : t.Coherent) (hrun : c.run t = .ok u) :
    u.names.Nodup ∧ ∀ n, n ∈ u.names ↔ u.has n = true := by
  obtain ⟨hfree, hadds⟩ := Declaration.run_ok hrun
  have hnew : c.name ∉ t.names := fun hmem => by
    rw [(h.mem_names _).mp hmem] at hfree
    cases hfree
  rw [hadds.names]
  refine ⟨List.Nodup.append h.nodup (List.nodup_singleton _) ?_, fun n => ?_⟩
  · exact List.disjoint_singleton.mpr hnew
  rw [List.mem_append, List.mem_singleton]
  by_cases hn : n = c.name
  · rw [hn]
    exact ⟨fun _ => hadds.has_name, fun _ => .inr rfl⟩
  · rw [hadds.has n hn, ← h.mem_names]
    exact or_iff_left hn

/-- What no type was called before has one declaration now. -/
theorem Coherent.apart_run (h : t.Coherent) (hrun : c.run t = .ok u) (n : String) :
    ¬ ((u.sum? n).isSome = true ∧ (u.record? n).isSome = true) := by
  obtain ⟨hfree, hadds⟩ := Declaration.run_ok hrun
  obtain ⟨hsum, hrecord⟩ := has_eq_false.mp hfree
  by_cases hn : n = c.name
  · subst hn
    rintro ⟨hs, hr⟩
    cases c with
    | sum s =>
      obtain ⟨-, -, rfl⟩ := declareSum_ok hrun
      have hnone : (t.withSum s).record? s.name = none := hrecord
      rw [show (Declaration.sum s).name = s.name from rfl, hnone] at hr
      cases hr
    | record n fs =>
      obtain ⟨-, rfl⟩ := declareRecord_ok hrun
      have hnone : (t.withRecord n fs).sum? n = none := hsum
      rw [show (Declaration.record n fs).name = n from rfl, hnone] at hs
      cases hs
  · rw [hadds.sum? n hn, hadds.record? n hn]
    exact h.apart n

/-- A constructor is found with its type, whether it was declared now or before. -/
theorem Coherent.owner_run (h : t.Coherent) (hrun : c.run t = .ok u) (n : String) (v : Variant)
    (hv : u.constructor? n = some v) :
    v.name = n ∧ ∃ s, u.sum? v.owner = some s ∧ v ∈ s.variants := by
  have hname : v.name = n := by simpa using List.find?_some (show u.constructors.find? _ = _ from hv)
  refine ⟨hname, ?_⟩
  obtain ⟨hfree, hadds⟩ := Declaration.run_ok hrun
  have hbefore : t.constructor? n = some v → ∃ s, u.sum? v.owner = some s ∧ v ∈ s.variants := by
    intro hold
    obtain ⟨-, s, hs, hmem⟩ := h.owner n v hold
    have hother : v.owner ≠ c.name := by
      intro heq
      rw [heq, (has_eq_false.mp hfree).1] at hs
      cases hs
    exact ⟨s, (hadds.sum? _ hother).trans hs, hmem⟩
  cases c with
  | sum s =>
    obtain ⟨-, -, rfl⟩ := declareSum_ok hrun
    rcases constructor?_withSum_cases hv with hnew | hold
    · rw [(name_of_mem_owned hnew).1]
      exact ⟨_, sum?_withSum_self hfree, hnew⟩
    · exact hbefore hold
  | record m fs =>
    obtain ⟨-, rfl⟩ := declareRecord_ok hrun
    exact hbefore hv

/-- **One call keeps what belongs together.** -/
theorem Coherent.run (h : t.Coherent) (hrun : c.run t = .ok u) : u.Coherent where
  nodup := (h.names_run hrun).1
  mem_names := (h.names_run hrun).2
  apart := h.apart_run hrun
  owner := h.owner_run hrun

/-! ### Any number of calls -/

/-- The table after some calls. -/
def after (t : TypeTable) (calls : List Declaration) : TypeTable :=
  calls.foldl (fun t c => (c.outcome t).2) t

theorem Coherent.outcome (h : t.Coherent) (c : Declaration) : (c.outcome t).2.Coherent := by
  rw [Declaration.outcome_eq]
  cases hrun : c.run t with
  | error e => exact h
  | ok u => exact h.run hrun

theorem Coherent.after (h : t.Coherent) (calls : List Declaration) : (t.after calls).Coherent := by
  induction calls generalizing t with
  | nil => exact h
  | cons c calls ih => exact ih (h.outcome c)

/-- The built-in types are declared by two calls. -/
theorem builtin_eq_after :
    builtin = ({} : TypeTable).after [.sum optionType, .sum resultType] := rfl

theorem coherent_builtin : builtin.Coherent := by
  rw [builtin_eq_after]
  exact coherent_empty.after _

/-- **Declarations keep the table.**  After any calls, refused ones among them, the names are those of
the declared types, each once, no type is declared in two ways, and every constructor is found with
the type that lists it.  One more call is refused and leaves the table as it was, also if it is only
refused because of its last constructor; or it adds what it declares, and nothing else changes. -/
theorem declarations_keep (calls : List Declaration) (c : Declaration) :
    (builtin.after calls).Coherent ∧
    ((∃ e, c.run (builtin.after calls) = .error e ∧
        c.outcome (builtin.after calls) = (.error e, builtin.after calls)) ∨
      ∃ u, c.run (builtin.after calls) = .ok u ∧ c.outcome (builtin.after calls) = (.ok (), u) ∧
        Adds c (builtin.after calls) u) := by
  refine ⟨coherent_builtin.after calls, ?_⟩
  have houtcome := Declaration.outcome_eq (builtin.after calls) c
  cases hrun : c.run (builtin.after calls) with
  | error e =>
    rw [hrun] at houtcome
    exact .inl ⟨e, rfl, houtcome⟩
  | ok u =>
    rw [hrun] at houtcome
    exact .inr ⟨u, rfl, houtcome, (Declaration.run_ok hrun).2⟩

/-- The second of two constructors is taken: the first is not entered either. -/
example :
    (Declaration.sum ⟨"Maybe", [], [variant "Just" [], variant "None" []]⟩).outcome builtin =
      (.error (.constructorTaken "None" "Option"), builtin) := rfl

end TypeTable

end PatternPlan
