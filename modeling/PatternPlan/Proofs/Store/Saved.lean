import PatternPlan.Proofs.Document.Plans
import PatternPlan.Proofs.Store.Laws

/-!
# Saved runs are kept

What a store answers after any sequence of calls of `save`, some of which fail, over any database that
keeps the laws of databases.

* `FitAll`, `insertAll_ok`, `insertAll_error`, `insertAll_before` — rows inserted in a transaction;
* `Run.allRows` — what one run leaves in the tables;
* `Holds` — the tables have the rows of a list of runs, and nothing else;
* `Holds.save_ok`, `Holds.save_error` — one call: the tables hold one run more, or it fails;
* `Store.after`, `Store.saved` — any number of calls, and the runs of those that succeed;
* `Holds.plansOf_eq`, `Holds.diagnosticsOf_eq`, `Holds.runsOf_eq` — what the queries give then;
* `Store.saved_kept` — **failed calls change nothing, and what a call saves is answered ever after**.
-/

namespace PatternPlan

/-! ### The rows of a run -/

/-- The rows of plans that are numbered from an index on. -/
def planRows (run : String) (index : Nat) (ps : List Plan) : List PlanRow :=
  (ps.zipIdx index).map fun c => .of run c.2 c.1 c.1.toJson.compact

/-- The rows of diagnostics that are numbered from an index on. -/
def diagnosticRows (run : String) (index : Nat) (ds : List Diagnostic) : List DiagnosticRow :=
  (ds.zipIdx index).map fun c => .of run c.2 c.1

theorem planRows_cons (run : String) (index : Nat) (p : Plan) (ps : List Plan) :
    planRows run index (p :: ps)
      = .of run index p p.toJson.compact :: planRows run (index + 1) ps := rfl

theorem run_of_mem_planRows {run : String} {index : Nat} {ps : List Plan} {r : PlanRow}
    (h : r ∈ planRows run index ps) : r.run = run := by
  obtain ⟨c, -, rfl⟩ := List.mem_map.mp h
  rfl

theorem run_of_mem_diagnosticRows {run : String} {index : Nat} {ds : List Diagnostic}
    {r : DiagnosticRow} (h : r ∈ diagnosticRows run index ds) : r.run = run := by
  obtain ⟨c, -, rfl⟩ := List.mem_map.mp h
  rfl

/-- The numbers of rows that are numbered one after the other rise. -/
theorem pairwise_numbered {α ρ : Type} {index : ρ → Nat} (row : α × Nat → ρ)
    (h : ∀ c, index (row c) = c.2) (as : List α) (n : Nat) :
    ((as.zipIdx n).map row).Pairwise fun a b => index a < index b := by
  refine List.pairwise_map.mpr ((pairwise_zipIdx as n).imp fun hlt => ?_)
  rw [h, h]
  exact hlt

theorem pairwise_planRows (run : String) (index : Nat) (ps : List Plan) :
    (planRows run index ps).Pairwise fun a b => a.index < b.index :=
  pairwise_numbered (fun c => PlanRow.of run c.2 c.1 c.1.toJson.compact) (fun _ => rfl) ps index

theorem pairwise_diagnosticRows (run : String) (index : Nat) (ds : List Diagnostic) :
    (diagnosticRows run index ds).Pairwise fun a b => a.index < b.index :=
  pairwise_numbered (fun c => DiagnosticRow.of run c.2 c.1) (fun _ => rfl) ds index

namespace Run

/-- What a run leaves in the tables: its row, and those of its plans and diagnostics. -/
def allRows (r : Run) : List Row :=
  .run r.info :: ((planRows r.id 0 r.plans).map .plan
    ++ (diagnosticRows r.id 0 r.diagnostics).map .diagnostic)

theorem rows_eq {r : Run} (hvalid : ∀ p ∈ r.plans, p.errors = []) : r.rows = r.allRows.map .ok := by
  have hplan : ∀ c ∈ r.plans.zipIdx, c.1.row r.id c.2
      = .ok (.plan (.of r.id c.2 c.1 c.1.toJson.compact)) := by
    intro c hc
    rw [Plan.row, Plan.encode_eq (hvalid c.1 (List.fst_mem_of_mem_zipIdx hc))]
  rw [rows, List.map_congr_left hplan]
  simp [allRows, planRows, diagnosticRows, Function.comp_def]

theorem exists_error_mem_rows {r : Run} (h : ∃ p ∈ r.plans, p.errors ≠ []) :
    ∃ e, .error e ∈ r.rows := by
  obtain ⟨p, hp, hinvalid⟩ := h
  obtain ⟨i, hi, rfl⟩ := List.mem_iff_getElem.mp hp
  refine ⟨.badPlan ⟨i, r.plans[i].errors⟩, ?_⟩
  have hmem : (r.plans[i], i) ∈ r.plans.zipIdx := List.mk_mem_zipIdx_iff_getElem?.mpr (by simp [hi])
  have hrow : r.plans[i].row r.id i = .error (.badPlan ⟨i, r.plans[i].errors⟩) := by
    rw [Plan.row, Plan.encode_error hinvalid]
  refine List.mem_append_left _ (List.mem_cons_of_mem _ ?_)
  exact hrow ▸ List.mem_map_of_mem (f := fun c : Plan × Nat => c.1.row r.id c.2) hmem

end Run

/-- The run that a key belongs to. -/
def RowKey.owner : RowKey → String
  | run id => id
  | plan id _ => id
  | diagnostic id _ => id

theorem owner_of_mem_allRows {r : Run} {row : Row} (h : row ∈ r.allRows) : row.key.owner = r.id := by
  simp only [Run.allRows, List.mem_cons, List.mem_append, List.mem_map] at h
  rcases h with rfl | ⟨p, hp, rfl⟩ | ⟨d, hd, rfl⟩
  · rfl
  · exact run_of_mem_planRows hp
  · exact run_of_mem_diagnosticRows hd

theorem nodup_keys_allRows (r : Run) : (r.allRows.map Row.key).Nodup := by
  have hplans : ((planRows r.id 0 r.plans).map fun p => Row.key (.plan p)).Nodup := by
    refine List.pairwise_map.mpr ((pairwise_planRows r.id 0 r.plans).imp fun hlt heq => ?_)
    exact Nat.ne_of_lt hlt (RowKey.plan.inj heq).2
  have hdiagnostics :
      ((diagnosticRows r.id 0 r.diagnostics).map fun d => Row.key (.diagnostic d)).Nodup := by
    refine List.pairwise_map.mpr ((pairwise_diagnosticRows r.id 0 r.diagnostics).imp fun hlt heq => ?_)
    exact Nat.ne_of_lt hlt (RowKey.diagnostic.inj heq).2
  simp only [Run.allRows, List.map_cons, List.map_append, List.map_map, List.nodup_cons,
    List.nodup_append]
  refine ⟨?_, hplans, hdiagnostics, ?_⟩
  · simp [Row.key]
  · simp [Row.key]

namespace Store

variable {db : Database} {v : View db} {rows : List Row} {runs : List Run} {r : Run}

/-! ### Inserting rows -/

/-- A transaction does not forget what it started from. -/
theorem insertAll_before (hv : v.Lawful) (rows : List (Except SaveError Row)) (t : db.Transaction) :
    v.before (insertAll db rows t).2 = v.before t := by
  induction rows generalizing t with
  | nil => rfl
  | cons row rows ih =>
    cases row with
    | error e => rfl
    | ok row =>
      rw [insertAll]
      by_cases hfits : row.Fits (v.inside t)
      · obtain ⟨u, hinsert, -, hbefore⟩ := hv.insert hfits
        rw [hinsert]
        exact (ih u).trans hbefore
      · rw [hv.refuse hfits]

/-- Rows that may be inserted one after the other. -/
def FitAll : (known : List Row) → List Row → Prop
  | _, [] => True
  | known, row :: rows => row.Fits known ∧ FitAll (known ++ [row]) rows

/-- Rows with different new keys fit if the runs they refer to are there. -/
theorem fitAll_of_keys {known : List Row} (hnodup : (rows.map Row.key).Nodup)
    (hnew : ∀ row ∈ rows, row.key ∉ known.map Row.key)
    (howner : ∀ row ∈ rows, ∀ id ∈ row.owner?, RowKey.run id ∈ known.map Row.key) :
    FitAll known rows := by
  induction rows generalizing known with
  | nil => trivial
  | cons row rows ih =>
    rw [List.map_cons, List.nodup_cons] at hnodup
    refine ⟨⟨hnew row List.mem_cons_self, howner row List.mem_cons_self⟩, ih hnodup.2 ?_ ?_⟩
    · intro other hother hmem
      rcases List.mem_append.mp (List.map_append ▸ hmem) with hold | hsame
      · exact hnew other (List.mem_cons_of_mem _ hother) hold
      · rw [← List.mem_singleton.mp hsame] at hnodup
        exact hnodup.1 (List.mem_map_of_mem hother)
    · intro other hother id hid
      rw [List.map_append]
      exact List.mem_append_left _ (howner other (List.mem_cons_of_mem _ hother) id hid)

/-- Rows that fit are inserted behind all others. -/
theorem insertAll_ok (hv : v.Lawful) {t : db.Transaction} (h : FitAll (v.inside t) rows) :
    ∃ u, insertAll db (rows.map .ok) t = (.ok (), u) ∧ v.inside u = v.inside t ++ rows := by
  induction rows generalizing t with
  | nil => exact ⟨t, rfl, (List.append_nil _).symm⟩
  | cons row rows ih =>
    obtain ⟨u, hinsert, hinside, -⟩ := hv.insert h.1
    obtain ⟨w, hrest, hinside'⟩ := ih (t := u) (hinside ▸ h.2)
    refine ⟨w, ?_, ?_⟩
    · rw [List.map_cons, insertAll, hinsert]
      exact hrest
    · rw [hinside', hinside, List.append_assoc, List.singleton_append]

/-- A row that there is not is found, whatever was inserted before it. -/
theorem insertAll_error {rows : List (Except SaveError Row)} (h : ∃ e, .error e ∈ rows)
    (t : db.Transaction) : ∃ e, (insertAll db rows t).1 = .error e := by
  obtain ⟨e, he⟩ := h
  induction rows generalizing t with
  | nil => cases he
  | cons row rows ih =>
    cases row with
    | error e' => exact ⟨e', rfl⟩
    | ok row =>
      have hrest : .error e ∈ rows := by
        rcases List.mem_cons.mp he with hfalse | hmem
        · cases hfalse
        · exact hmem
      rw [insertAll]
      cases db.insert t row with
      | none => exact ⟨_, rfl⟩
      | some u => exact ih u hrest

/-! ### One call -/

/-- The rows of a list of runs, and nothing else. -/
structure Holds (rows : List Row) (runs : List Run) : Prop where
  rows_eq : rows = runs.flatMap Run.allRows
  nodup : (runs.map Run.id).Nodup
  valid : ∀ r ∈ runs, ∀ p ∈ r.plans, p.errors = []

theorem holds_nil : Holds [] [] := ⟨rfl, List.nodup_nil, List.forall_mem_nil _⟩

/-- Every key belongs to one of the runs. -/
theorem Holds.owner_mem (h : Holds rows runs) {k : RowKey} (hk : k ∈ rows.map Row.key) :
    k.owner ∈ runs.map Run.id := by
  rw [h.rows_eq] at hk
  obtain ⟨row, hrow, rfl⟩ := List.mem_map.mp hk
  obtain ⟨r, hr, hmem⟩ := List.mem_flatMap.mp hrow
  rw [owner_of_mem_allRows hmem]
  exact List.mem_map_of_mem hr

theorem Holds.run_mem (h : Holds rows runs) {id : String} (hid : id ∈ runs.map Run.id) :
    RowKey.run id ∈ rows.map Row.key := by
  obtain ⟨r, hr, rfl⟩ := List.mem_map.mp hid
  rw [h.rows_eq]
  have hrow : Row.run r.info ∈ r.allRows := List.mem_cons_self
  exact List.mem_map_of_mem (f := Row.key) (List.mem_flatMap.mpr ⟨r, hr, hrow⟩)

/-- The rows of a new run fit: the row of the run itself comes first, and the others refer to it. -/
theorem Holds.fitAll_allRows (h : Holds rows runs) (hid : r.id ∉ runs.map Run.id) :
    FitAll rows r.allRows := by
  have hnodup := nodup_keys_allRows r
  rw [Run.allRows, List.map_cons, List.nodup_cons] at hnodup
  refine ⟨⟨fun hmem => hid (h.owner_mem hmem), by rintro id ⟨⟩⟩, fitAll_of_keys hnodup.2 ?_ ?_⟩
  · intro row hrow hmem
    rcases List.mem_append.mp (List.map_append ▸ hmem) with hold | hsame
    · refine hid ?_
      rw [← owner_of_mem_allRows (List.mem_cons_of_mem _ hrow)]
      exact h.owner_mem hold
    · rw [← List.mem_singleton.mp hsame] at hnodup
      exact hnodup.1 (List.mem_map_of_mem hrow)
  · intro row hrow id howner
    obtain rfl : id = r.id := by
      rcases List.mem_append.mp hrow with hplan | hdiagnostic
      · obtain ⟨p, hp, rfl⟩ := List.mem_map.mp hplan
        exact (Option.some.inj howner).symm.trans (run_of_mem_planRows hp)
      · obtain ⟨d, hd, rfl⟩ := List.mem_map.mp hdiagnostic
        exact (Option.some.inj howner).symm.trans (run_of_mem_diagnosticRows hd)
    rw [List.map_append]
    exact List.mem_append_right _ (List.mem_singleton_self _)

/-- **A run under a new id, all of whose plans keep the contract, is saved.** -/
theorem Holds.save_ok (hv : v.Lawful) {c : db.Content} (h : Holds (v.rows c) runs) {m : Stamp}
    (hid : (r.stamped m).id ∉ runs.map Run.id) (hvalid : ∀ p ∈ r.plans, p.errors = []) :
    ∃ c', save db c m r = (.ok (r.stamped m).id, c') ∧ Holds (v.rows c') (runs ++ [r.stamped m]) := by
  have hstart : Holds (v.inside (db.start c)) runs := (hv.start_inside c).symm ▸ h
  obtain ⟨t, hinsert, hinside⟩ := insertAll_ok hv (hstart.fitAll_allRows hid)
  rw [← Run.rows_eq (r := r.stamped m) hvalid] at hinsert
  refine ⟨db.commit t, ?_, ?_, ?_, ?_⟩
  · rw [save, hinsert]
  · rw [hv.commit, hinside, hstart.rows_eq, List.flatMap_append]
    simp
  · rw [List.map_append, List.nodup_append]
    refine ⟨h.nodup, List.nodup_singleton _, fun id hold id' hnew hsame => hid ?_⟩
    rw [← List.mem_singleton.mp hnew, ← hsame]
    exact hold
  · intro q hq
    rcases List.mem_append.mp hq with hq | hq
    · exact h.valid q hq
    · rw [List.mem_singleton.mp hq]
      exact hvalid

/-- **Every other call fails, and is rolled back.** -/
theorem Holds.save_error (hv : v.Lawful) {c : db.Content} (h : Holds (v.rows c) runs) {m : Stamp}
    (hbad : (r.stamped m).id ∈ runs.map Run.id ∨ ∃ p ∈ r.plans, p.errors ≠ []) :
    ∃ e c', save db c m r = (.error e, c') ∧ Holds (v.rows c') runs := by
  have hfails : ∃ e, (insertAll db (r.stamped m).rows (db.start c)).1 = .error e := by
    rcases hbad with htaken | hinvalid
    · have htaken' : ¬ (Row.run (r.stamped m).info).Fits (v.inside (db.start c)) := by
        rw [hv.start_inside]
        exact fun hfits => hfits.1 (h.run_mem htaken)
      rw [Run.rows, List.cons_append, insertAll, hv.refuse htaken']
      exact ⟨_, rfl⟩
    · exact insertAll_error (Run.exists_error_mem_rows (r := r.stamped m) hinvalid) _
  obtain ⟨e, he⟩ := hfails
  have hbefore := insertAll_before hv (r.stamped m).rows (db.start c)
  rw [hv.start_before] at hbefore
  revert he hbefore
  rw [save]
  rcases insertAll db (r.stamped m).rows (db.start c) with ⟨_, t⟩
  rintro rfl hbefore
  refine ⟨e, db.rollback t, rfl, ?_⟩
  rw [hv.rollback, hbefore]
  exact h

/-- A call fails exactly when the id is taken or a plan breaks the contract. -/
theorem Holds.save_error_iff (hv : v.Lawful) {c : db.Content} (h : Holds (v.rows c) runs) {m : Stamp} :
    (∃ e, (save db c m r).1 = .error e)
      ↔ (r.stamped m).id ∈ runs.map Run.id ∨ ∃ p ∈ r.plans, p.errors ≠ [] := by
  constructor
  · rintro ⟨e, he⟩
    by_contra hgood
    rw [not_or] at hgood
    have hvalid : ∀ p ∈ r.plans, p.errors = [] := fun p hp => by
      by_contra hinvalid
      exact hgood.2 ⟨p, hp, hinvalid⟩
    obtain ⟨c', hsave, -⟩ := h.save_ok hv hgood.1 hvalid
    rw [hsave] at he
    cases he
  · intro hbad
    obtain ⟨e, c', hsave, -⟩ := h.save_error hv hbad
    exact ⟨e, by rw [hsave]⟩

/-! ### Any number of calls -/

/-- What a database holds after calls of `save`, one after the other. -/
def after (db : Database) (c : db.Content) (calls : List (Stamp × Run)) : db.Content :=
  calls.foldl (fun c call => (save db c call.1 call.2).2) c

/-- The runs of the calls that succeed. -/
def saved (db : Database) : db.Content → List (Stamp × Run) → List Run
  | _, [] => []
  | c, (m, r) :: calls =>
    match save db c m r with
    | (.ok _, c) => r.stamped m :: saved db c calls
    | (.error _, c) => saved db c calls

/-- **The tables hold the runs of the calls that succeeded.** -/
theorem Holds.after (hv : v.Lawful) {c : db.Content} (h : Holds (v.rows c) runs)
    (calls : List (Stamp × Run)) :
    Holds (v.rows (after db c calls)) (runs ++ saved db c calls) := by
  induction calls generalizing c runs with
  | nil =>
    rw [saved, List.append_nil]
    exact h
  | cons call calls ih =>
    obtain ⟨m, r⟩ := call
    rw [Store.after, List.foldl_cons, saved]
    by_cases hbad : (r.stamped m).id ∈ runs.map Run.id ∨ ∃ p ∈ r.plans, p.errors ≠ []
    · obtain ⟨e, c', hsave, hholds⟩ := h.save_error hv hbad
      rw [hsave]
      exact ih hholds
    · rw [not_or] at hbad
      have hvalid : ∀ p ∈ r.plans, p.errors = [] := fun p hp => by
        by_contra hinvalid
        exact hbad.2 ⟨p, hp, hinvalid⟩
      obtain ⟨c', hsave, hholds⟩ := h.save_ok hv hbad.1 hvalid
      rw [hsave]
      have hlater := ih hholds
      rw [List.append_assoc, List.singleton_append] at hlater
      exact hlater

/-! ### Answers -/

/-- The rows of one of several owners with different ids. -/
theorem filter_flatMap_of_nodup {α ρ : Type} {id : α → String} {owner : ρ → String} {rows : α → List ρ}
    {as : List α} (howner : ∀ a, ∀ x ∈ rows a, owner x = id a) (hnodup : (as.map id).Nodup) {a : α}
    (ha : a ∈ as) : (as.flatMap rows).filter (fun x => owner x = id a) = rows a := by
  have hself : ∀ b, id b = id a → (rows b).filter (fun x => owner x = id a) = rows b := by
    intro b hb
    refine List.filter_eq_self.mpr fun x hx => ?_
    rw [howner b x hx, hb]
    exact decide_eq_true rfl
  have hother : ∀ b, id b ≠ id a → (rows b).filter (fun x => owner x = id a) = [] := by
    intro b hb
    refine List.filter_eq_nil_iff.mpr fun x hx => ?_
    rw [howner b x hx]
    simpa using hb
  induction as with
  | nil => cases ha
  | cons b as ih =>
    rw [List.map_cons, List.nodup_cons] at hnodup
    rw [List.flatMap_cons, List.filter_append]
    rcases List.mem_cons.mp ha with rfl | hmem
    · have hrest : (as.flatMap rows).filter (fun x => owner x = id a) = [] := by
        rw [List.filter_flatMap, List.flatMap_eq_nil_iff]
        intro b hb
        refine hother b fun hsame => hnodup.1 ?_
        rw [← hsame]
        exact List.mem_map_of_mem hb
      rw [hself a rfl, hrest, List.append_nil]
    · have hne : id b ≠ id a := by
        intro hsame
        rw [hsame] at hnodup
        exact hnodup.1 (List.mem_map_of_mem hmem)
      rw [hother b hne, List.nil_append]
      exact ih hnodup.2 hmem

/-- What a table has of a run, table by table. -/
theorem filterMap_allRows {ρ : Type} (f : Row → Option ρ) (r : Run) : r.allRows.filterMap f
    = (f (.run r.info)).toList ++ (planRows r.id 0 r.plans).filterMap (f ∘ Row.plan)
      ++ (diagnosticRows r.id 0 r.diagnostics).filterMap (f ∘ Row.diagnostic) := by
  rw [Run.allRows, List.filterMap_cons, List.filterMap_append, List.filterMap_map, List.filterMap_map]
  cases f (.run r.info) <;> rfl

/-- The rows of plans in the tables. -/
theorem Holds.plans_eq (h : Holds rows runs) :
    rows.filterMap Row.plan? = runs.flatMap fun r => planRows r.id 0 r.plans := by
  have hrow : Row.plan? ∘ Row.plan = some := rfl
  have hother : Row.plan? ∘ Row.diagnostic = fun _ => none := rfl
  simp [h.rows_eq, List.filterMap_flatMap, filterMap_allRows, hrow, hother, Row.plan?]

/-- The rows of diagnostics in the tables. -/
theorem Holds.diagnostics_eq (h : Holds rows runs) :
    rows.filterMap Row.diagnostic? = runs.flatMap fun r => diagnosticRows r.id 0 r.diagnostics := by
  have hrow : Row.diagnostic? ∘ Row.diagnostic = some := rfl
  have hother : Row.diagnostic? ∘ Row.plan = fun _ => none := rfl
  simp [h.rows_eq, List.filterMap_flatMap, filterMap_allRows, hrow, hother, Row.diagnostic?]

/-- The rows of runs in the tables. -/
theorem Holds.infos_eq (h : Holds rows runs) : rows.filterMap Row.run? = runs.map Run.info := by
  have hplan : Row.run? ∘ Row.plan = fun _ => none := rfl
  have hdiagnostic : Row.run? ∘ Row.diagnostic = fun _ => none := rfl
  simp [h.rows_eq, List.filterMap_flatMap, filterMap_allRows, hplan, hdiagnostic, Row.run?,
    List.map_eq_flatMap]

/-- The rows of the plans of a saved run, in order. -/
theorem Holds.plansOf_eq (hv : v.Lawful) {c : db.Content} (h : Holds (v.rows c) runs) (hr : r ∈ runs) :
    db.plansOf c r.id = planRows r.id 0 r.plans := by
  refine eq_of_perm_numbered ?_ (hv.plans_ordered c r.id) (pairwise_planRows r.id 0 r.plans)
  have hperm := hv.plans_perm c r.id
  rwa [h.plans_eq, filter_flatMap_of_nodup (fun _ _ => run_of_mem_planRows) h.nodup hr] at hperm

/-- The rows of the diagnostics of a saved run, in order. -/
theorem Holds.diagnosticsOf_eq (hv : v.Lawful) {c : db.Content} (h : Holds (v.rows c) runs)
    (hr : r ∈ runs) : db.diagnosticsOf c r.id = diagnosticRows r.id 0 r.diagnostics := by
  refine eq_of_perm_numbered ?_ (hv.diagnostics_ordered c r.id)
    (pairwise_diagnosticRows r.id 0 r.diagnostics)
  have hperm := hv.diagnostics_perm c r.id
  rwa [h.diagnostics_eq, filter_flatMap_of_nodup (fun _ _ => run_of_mem_diagnosticRows) h.nodup hr]
    at hperm

/-- Nothing is there of a run that was not saved. -/
theorem Holds.plansOf_nil (hv : v.Lawful) {c : db.Content} (h : Holds (v.rows c) runs) {id : String}
    (hid : id ∉ runs.map Run.id) : db.plansOf c id = [] ∧ db.diagnosticsOf c id = [] := by
  have hplans := hv.plans_perm c id
  have hdiagnostics := hv.diagnostics_perm c id
  rw [h.plans_eq, List.filter_eq_nil_iff.mpr ?_] at hplans
  rw [h.diagnostics_eq, List.filter_eq_nil_iff.mpr ?_] at hdiagnostics
  · exact ⟨hplans.eq_nil, hdiagnostics.eq_nil⟩
  · intro row hrow howner
    obtain ⟨r, hr, hmem⟩ := List.mem_flatMap.mp hrow
    rw [decide_eq_true_eq, run_of_mem_diagnosticRows hmem] at howner
    exact hid (howner ▸ List.mem_map_of_mem hr)
  · intro row hrow howner
    obtain ⟨r, hr, hmem⟩ := List.mem_flatMap.mp hrow
    rw [decide_eq_true_eq, run_of_mem_planRows hmem] at howner
    exact hid (howner ▸ List.mem_map_of_mem hr)

theorem mapM_zipIdx {α ρ ε : Type} {row : α × Nat → ρ} {read : ρ → Except ε α} {as : List α}
    (h : ∀ a ∈ as, ∀ i, read (row (a, i)) = .ok a) (n : Nat) :
    ((as.zipIdx n).map row).mapM read = .ok as := by
  induction as generalizing n with
  | nil => rfl
  | cons a as ih =>
    rw [List.zipIdx_cons, List.map_cons, List.mapM_cons, h a List.mem_cons_self,
      ih (fun b hb => h b (List.mem_cons_of_mem _ hb))]
    rfl

/-- A valid plan is read from its row, unless its document nests too deep. -/
theorem read_planRow {p : Plan} (h : p.Storable) (hvalid : p.errors = []) (run : String) (index : Nat) :
    (PlanRow.of run index p p.toJson.compact).read
      = if p.toJson.depth ≤ Json.maxNesting then .ok p else .error (.plan run .unreadable) := by
  have hdecode := Plan.decode_compact h hvalid
  rw [PlanRow.read, PlanRow.of]
  by_cases hdepth : p.toJson.depth ≤ Json.maxNesting
  · rw [if_pos hdepth] at hdecode ⊢
    simp only [hdecode]
  · rw [if_neg hdepth] at hdecode ⊢
    simp only [hdecode]

/-- The plans of a saved run are read back, if their documents nest no deeper than they may. -/
theorem Holds.plans_ok (hv : v.Lawful) {c : db.Content} (h : Holds (v.rows c) runs) (hr : r ∈ runs)
    (hplans : ∀ p ∈ r.plans, p.Storable ∧ p.toJson.depth ≤ Json.maxNesting) :
    plans db c r.id = .ok r.plans := by
  rw [plans, h.plansOf_eq hv hr]
  refine mapM_zipIdx (fun p hp i => ?_) 0
  rw [read_planRow (hplans p hp).1 (h.valid r hr p hp), if_pos (hplans p hp).2]

/-- A plan that nests too deep is saved, and cannot be read. -/
theorem Holds.plans_error (hv : v.Lawful) {c : db.Content} (h : Holds (v.rows c) runs) (hr : r ∈ runs)
    {p : Plan} (hplans : r.plans = [p]) (hstorable : p.Storable)
    (hdepth : Json.maxNesting < p.toJson.depth) :
    plans db c r.id = .error (.plan r.id .unreadable) := by
  have hvalid : p.errors = [] := h.valid r hr p (hplans ▸ List.mem_singleton_self _)
  rw [plans, h.plansOf_eq hv hr, hplans, planRows_cons, List.mapM_cons, read_planRow hstorable hvalid,
    if_neg (Nat.not_le_of_lt hdepth)]
  rfl

/-- Notes are read back from their document. -/
theorem notes?_compact (notes : List String) :
    DiagnosticRow.notes? (DiagnosticRow.notesJson notes).compact = some notes := by
  by_cases hempty : notes = []
  · subst hempty
    decide
  · have hjson : DiagnosticRow.notesJson notes = .array (notes.map Json.text) :=
      if_neg (by simpa using hempty)
    have hproper : (Json.array (notes.map Json.text)).Proper := by
      rw [Json.Proper]
      refine Json.properItems_iff.mpr fun v hv => ?_
      obtain ⟨n, -, rfl⟩ := List.mem_map.mp hv
      rw [Json.Proper]
      trivial
    have hdepth : ∀ ns : List String, Json.depth.depthOfItems (ns.map Json.text) = 0 := by
      intro ns
      induction ns with
      | nil => rfl
      | cons n ns ih =>
        show max 0 (Json.depth.depthOfItems (ns.map Json.text)) = 0
        rw [ih]
        rfl
    have hread := Json.readFirst?_render false hproper
    rw [Json.depth.eq_1, hdepth, if_pos (by decide)] at hread
    have hlist : Reader.list Reader.text [.array (notes.map Json.text)] = some notes := by
      rw [Reader.list, Reader.listed_array fun n _ => Reader.text_text n]
      rfl
    rw [DiagnosticRow.notes?, hjson, show (Json.array (notes.map Json.text)).compact
      = (Json.array (notes.map Json.text)).render false from rfl, hread, Option.bind_some, hlist]

theorem read_diagnosticRow (run : String) (index : Nat) (d : Diagnostic) :
    (DiagnosticRow.of run index d).read = .ok d := by
  have hnotes := notes?_compact d.notes
  rw [DiagnosticRow.read, DiagnosticRow.of]
  simp only [hnotes]

/-- The diagnostics of a saved run are read back. -/
theorem Holds.diagnostics_ok (hv : v.Lawful) {c : db.Content} (h : Holds (v.rows c) runs)
    (hr : r ∈ runs) : diagnostics db c r.id = .ok r.diagnostics := by
  rw [diagnostics, h.diagnosticsOf_eq hv hr]
  exact mapM_zipIdx (fun d _ i => read_diagnosticRow r.id i d) 0

/-! ### The runs of a file -/

/-- The runs of a file, with the ranks of their insertion, in the order they are listed. -/
def listing (runs : List Run) (file : String) : List (Run × Nat) :=
  newestFirst (fun r => r.info.created) (runs.zipIdx.filter fun c => c.1.file = file)

theorem listing_perm (runs : List Run) (file : String) :
    (listing runs file).Perm (runs.zipIdx.filter fun c => c.1.file = file) :=
  newestFirst_perm _

theorem pairwise_listing (runs : List Run) (file : String) :
    (listing runs file).Pairwise (ListedBefore fun r => r.info.created) :=
  pairwise_newestFirst (List.Pairwise.filter _ (pairwise_zipIdx _ _))

/-- The runs of a file are listed from the newest to the oldest. -/
theorem Holds.runsOf_eq (hv : v.Lawful) {c : db.Content} (h : Holds (v.rows c) runs) (file : String) :
    runsOf db c file = (listing runs file).map fun c => c.1.info := by
  obtain ⟨order, hperm, hordered, hruns⟩ := hv.runs_ordered c file
  -- the rows of the runs, with their ranks
  let row (c : Run × Nat) : RunInfo × Nat := (c.1.info, c.2)
  have hnumbered : ((v.rows c).filterMap Row.run?).zipIdx.filter (fun r => r.1.file = file)
      = (runs.zipIdx.filter fun c => c.1.file = file).map row := by
    rw [h.infos_eq, List.zipIdx_map, List.filter_map]
    rfl
  have hlisting : order = (listing runs file).map row := by
    refine ListedBefore.eq_of_perm ?_ hordered (List.pairwise_map.mpr (pairwise_listing runs file))
    rw [hnumbered] at hperm
    exact hperm.trans ((listing_perm runs file).map row).symm
  rw [runsOf, hruns, hlisting, List.map_map]
  rfl

theorem Holds.latest?_eq (hv : v.Lawful) {c : db.Content} (h : Holds (v.rows c) runs) (file : String) :
    latest? db c file = (listing runs file).head?.map fun c => c.1.info := by
  rw [latest?, hv.runs_limited, List.head?_take, if_neg Nat.one_ne_zero, ← runsOf, h.runsOf_eq hv file,
    List.head?_map]

/-- A run was created after another one, or at the same time and saved later. -/
def Later (a b : Run × Nat) : Prop :=
  b.1.created < a.1.created ∨ (b.1.created = a.1.created ∧ b.2 < a.2)

/-- Where times fit a machine word, they are listed by falling times. -/
theorem later_of_listedBefore {a b : Run × Nat} (ha : fitsInt64 a.1.created) (hb : fitsInt64 b.1.created)
    (h : ListedBefore (fun r => r.info.created) a b) : Later a b := by
  have htime : ∀ {i : Int}, fitsInt64 i → (Int64.ofInt i).toInt = i := by
    intro i hi
    simp only [fitsInt64, Bool.and_eq_true, decide_eq_true_eq] at hi
    exact Int64.toInt_ofInt_of_le (by omega) (by omega)
  rcases h with hlt | ⟨hsame, hrank⟩
  · left
    have hlt' : (Int64.ofInt b.1.created).toInt < (Int64.ofInt a.1.created).toInt :=
      Int64.lt_iff_toInt_lt.mp hlt
    rwa [htime hb, htime ha] at hlt'
  · right
    have hsame' : (Int64.ofInt b.1.created).toInt = (Int64.ofInt a.1.created).toInt :=
      congrArg Int64.toInt hsame
    rw [htime hb, htime ha] at hsame'
    exact ⟨hsame', hrank⟩

/-! ### Everything that is answered -/

/-- Whether every question is answered alike. -/
def SameAnswers (db : Database) (c c' : db.Content) : Prop :=
  (∀ id, plans db c id = plans db c' id ∧ diagnostics db c id = diagnostics db c' id) ∧
  ∀ file, runsOf db c file = runsOf db c' file ∧ latest? db c file = latest? db c' file

/-- The answers depend on the runs that are held, and on nothing else. -/
theorem Holds.sameAnswers (hv : v.Lawful) {c c' : db.Content} (h : Holds (v.rows c) runs)
    (h' : Holds (v.rows c') runs) : SameAnswers db c c' := by
  constructor
  · intro id
    rw [plans, plans, diagnostics, diagnostics]
    by_cases hid : id ∈ runs.map Run.id
    · obtain ⟨r, hr, rfl⟩ := List.mem_map.mp hid
      rw [h.plansOf_eq hv hr, h'.plansOf_eq hv hr, h.diagnosticsOf_eq hv hr, h'.diagnosticsOf_eq hv hr]
      exact ⟨rfl, rfl⟩
    · rw [(h.plansOf_nil hv hid).1, (h'.plansOf_nil hv hid).1, (h.plansOf_nil hv hid).2,
        (h'.plansOf_nil hv hid).2]
      exact ⟨rfl, rfl⟩
  · intro file
    rw [h.runsOf_eq hv, h'.runsOf_eq hv, h.latest?_eq hv, h'.latest?_eq hv]
    exact ⟨rfl, rfl⟩

/-- **Runs are saved whole or not at all, and are kept.**  After any calls of `save` on a new database
that keeps the laws: the next call fails exactly when its id is taken or one of its plans breaks the
contract, and then every question is answered as before; the plans and diagnostics of a run that was
saved are answered as they were given, and no later call changes these answers; and the runs of a file
are listed from the newest to the oldest, if their times fit a machine word. -/
theorem saved_kept {db : Database} {v : View db} (hv : v.Lawful) (calls : List (Stamp × Run)) :
    (∀ m r, (∃ e, (save db (after db db.empty calls) m r).1 = .error e) ↔
      (r.stamped m).id ∈ (saved db db.empty calls).map Run.id ∨ ∃ p ∈ r.plans, p.errors ≠ []) ∧
    (∀ m r e, (save db (after db db.empty calls) m r).1 = .error e →
      SameAnswers db (save db (after db db.empty calls) m r).2 (after db db.empty calls)) ∧
    (∀ r ∈ saved db db.empty calls,
      ((∀ p ∈ r.plans, p.Storable ∧ p.toJson.depth ≤ Json.maxNesting) →
        plans db (after db db.empty calls) r.id = .ok r.plans) ∧
      diagnostics db (after db db.empty calls) r.id = .ok r.diagnostics ∧
      (r.info.hasErrors = true ↔ ∃ d ∈ r.diagnostics, d.severity = .error) ∧
      ∀ more, plans db (after db (after db db.empty calls) more) r.id
          = plans db (after db db.empty calls) r.id ∧
        diagnostics db (after db (after db db.empty calls) more) r.id
          = diagnostics db (after db db.empty calls) r.id) ∧
    ∀ file, ∃ order : List (Run × Nat),
      order.Perm ((saved db db.empty calls).zipIdx.filter fun c => c.1.file = file) ∧
      order.Pairwise (ListedBefore fun r => r.info.created) ∧
      ((∀ c ∈ order, fitsInt64 c.1.created) → order.Pairwise Later) ∧
      runsOf db (after db db.empty calls) file = order.map (fun c => c.1.info) ∧
      latest? db (after db db.empty calls) file = order.head?.map fun c => c.1.info := by
  have hempty : Holds (v.rows db.empty) [] := hv.empty.symm ▸ holds_nil
  have hholds : Holds (v.rows (after db db.empty calls)) (saved db db.empty calls) :=
    hempty.after hv calls
  refine ⟨fun m r => hholds.save_error_iff hv, ?_, ?_, ?_⟩
  · intro m r e he
    obtain ⟨e', c', hsave, hrolled⟩ := hholds.save_error hv ((hholds.save_error_iff hv).mp ⟨e, he⟩)
    rw [hsave]
    exact hrolled.sameAnswers hv hholds
  · intro r hr
    refine ⟨hholds.plans_ok hv hr, hholds.diagnostics_ok hv hr, ?_, ?_⟩
    · show r.diagnostics.any Diagnostic.isError = true ↔ _
      simp [Diagnostic.isError]
    · intro more
      have hlater := hholds.after hv more
      have hkept := List.mem_append_left (saved db (after db db.empty calls) more) hr
      rw [plans, plans, hlater.plansOf_eq hv hkept, hholds.plansOf_eq hv hr, hlater.diagnostics_ok hv hkept,
        hholds.diagnostics_ok hv hr]
      exact ⟨rfl, rfl⟩
  · intro file
    refine ⟨listing (saved db db.empty calls) file, listing_perm _ _, pairwise_listing _ _, ?_,
      hholds.runsOf_eq hv file, hholds.latest?_eq hv file⟩
    intro hfits
    exact (pairwise_listing _ _).imp_of_mem fun ha hb => later_of_listedBefore (hfits _ ha) (hfits _ hb)

/-- A plan with a single arm. -/
def planOf (node : PlanNode) : Plan where
  owner := "fn f"
  targetType := "Int"
  armCount := 1
  arms := some [{ node := node }]

/-- A run with one plan. -/
def runOf (id : String) (node : PlanNode) : Run := ⟨id, "f.mc", 0, [planOf node], []⟩

theorem errors_planOf {node : PlanNode} (h : node.error? = none) : (planOf node).errors = [] := by
  show [] ++ [] ++ [] ++ Plan.armErrors 1 [{ node := node }] = []
  rw [Plan.armErrors, h]
  rfl

theorem storable_planOf (node : PlanNode) : (planOf node).Storable := by
  have hzero : fitsInt64 0 = true := by decide
  have hone : fitsInt64 1 = true := by decide
  exact ⟨⟨hzero, hzero, hzero, hzero⟩, hone⟩

/-- What a run is stamped with that needs no stamp. -/
def noStamp : Stamp := ⟨"", 0⟩

/-- A database in memory, in which a run is saved. -/
def afterOne (r : Run) : Database.memory.Content :=
  after .memory Database.memory.empty [(noStamp, r)]

/-- The database in memory holds nothing at first. -/
theorem holds_memory : Holds (Database.memoryView.rows Database.memory.empty) [] := holds_nil

/-- A run, and another one under its id. -/
theorem saved_kept_first :
    plans .memory (afterOne (runOf "1" (.always "_"))) "1" = .ok [planOf (.always "_")] ∧
    ∃ e, (save .memory (afterOne (runOf "1" (.always "_"))) noStamp (runOf "1" (.always "x"))).1
      = .error e := by
  have hvalid : (planOf (.always "_")).errors = [] := errors_planOf (by decide)
  have hdepth : (planOf (.always "_")).toJson.depth ≤ Json.maxNesting := by decide
  have hsaved : saved .memory Database.memory.empty [(noStamp, runOf "1" (.always "_"))]
      = [runOf "1" (.always "_")] := by
    obtain ⟨c, hsave, -⟩ := holds_memory.save_ok Database.memory_lawful (m := noStamp)
      (r := runOf "1" (.always "_")) List.not_mem_nil (List.forall_mem_singleton.mpr hvalid)
    rw [saved, hsave]
    rfl
  obtain ⟨hfails, -, hkept, -⟩ :=
    saved_kept Database.memory_lawful [(noStamp, runOf "1" (.always "_"))]
  rw [hsaved] at hfails hkept
  refine ⟨(hkept _ (List.mem_singleton_self _)).1 ?_,
    (hfails _ _).mpr (.inl (List.mem_singleton_self _))⟩
  exact List.forall_mem_singleton.mpr ⟨storable_planOf _, hdepth⟩

/-- Nodes below nodes. -/
def nestedNode : Nat → PlanNode
  | 0 => .always "_"
  | n + 1 => .test "tuple" [nestedNode n]

theorem chain_nestedNode (n : Nat) : (nestedNode n).Chain n := by
  induction n with
  | zero => trivial
  | succ n ih => exact ⟨_, List.mem_singleton_self _, ih⟩

theorem error?_nestedNode (n : Nat) : (nestedNode n).error? = none := by
  induction n with
  | zero => decide
  | succ n ih =>
    have hown : PlanNode.ownError? "tuple" false false = none := by decide
    rw [nestedNode, PlanNode.test, PlanNode.error?, hown, PlanNode.firstError?, ih, PlanNode.firstError?]

/-- A run without plans and diagnostics, at a time. -/
def runAt (id : String) (created : Int) : Run := ⟨id, "f.mc", created, [], []⟩

/-- A run of the year 2024. -/
def earlyRun : Run := runAt "1" 1704067200000000000

/-- A run of the year 2300, whose time does not fit a machine word. -/
def lateRun : Run := runAt "2" 10413792000000000000

theorem listing_late : listing [earlyRun, lateRun] "f.mc" = [(earlyRun, 0), (lateRun, 1)] := by
  refine ListedBefore.eq_of_perm (listing_perm _ _) (pairwise_listing _ _) ?_
  refine List.pairwise_pair.mpr (.inl ?_)
  decide

/-- **What is saved may be unreadable, and listed in another order**: a plan that nests deep cannot be
read again, and a run of the year 2300 is listed behind one of 2024. -/
theorem limits_of_saving :
    (∃ c, save .memory Database.memory.empty noStamp (runOf "1" (nestedNode 5000)) = (.ok "1", c) ∧
      plans .memory c "1" = .error (.plan "1" .unreadable)) ∧
    ∃ c, save .memory (afterOne earlyRun) noStamp lateRun = (.ok "2", c) ∧
      runsOf .memory c "f.mc" = [earlyRun.info, lateRun.info] := by
  constructor
  · have hvalid := errors_planOf (error?_nestedNode 5000)
    obtain ⟨c, hsave, hholds⟩ := holds_memory.save_ok Database.memory_lawful (m := noStamp)
      (r := runOf "1" (nestedNode 5000)) List.not_mem_nil (List.forall_mem_singleton.mpr hvalid)
    have hdepth := Plan.depth_of_chain (p := planOf (nestedNode 5000)) (List.mem_singleton_self _)
      (chain_nestedNode 5000)
    have hlimit : Json.maxNesting = 10000 := rfl
    refine ⟨c, hsave, hholds.plans_error Database.memory_lawful (List.mem_singleton_self _) rfl
      (storable_planOf _) ?_⟩
    omega
  · obtain ⟨c, hsave, hfirst⟩ := holds_memory.save_ok Database.memory_lawful (m := noStamp)
      (r := earlyRun) List.not_mem_nil (List.forall_mem_nil _)
    have hone : afterOne earlyRun = c := by
      rw [afterOne, after, List.foldl_cons, hsave]
      rfl
    obtain ⟨c', hsave', hsecond⟩ := hfirst.save_ok Database.memory_lawful (m := noStamp) (r := lateRun)
      (by decide) (List.forall_mem_nil _)
    refine ⟨c', hone ▸ hsave', ?_⟩
    have hruns := hsecond.runsOf_eq Database.memory_lawful "f.mc"
    exact hruns.trans (congrArg (List.map fun c => c.1.info) listing_late)

end Store

end PatternPlan
