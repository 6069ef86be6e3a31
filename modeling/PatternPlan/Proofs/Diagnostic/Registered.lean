import PatternPlan.Diagnostic.Basic

/-!
# What diagnostics have of their class

* `Diagnostic.Registered` — a diagnostic with the severity and the phase of its class, at a place with
  a property;
* `Diagnostic.Checked` — the same of a diagnostic that a check reports;
* `Collector.forall_addAll`, `Collector.registered_addAll` — collecting keeps this;
* `Policy.reported` — **a policy changes nothing but severities**.
-/

namespace PatternPlan

/-- A diagnostic with the severity and the phase of its class, at a place that satisfies `S`. -/
structure Diagnostic.Registered (S : Span → Prop) (d : Diagnostic) : Prop where
  severity : d.severity = d.code.severity
  stage : d.stage = d.code.stage
  place : S d.span

/-- A diagnostic of a check, with what its class is registered with. -/
structure Diagnostic.Checked (S : Span → Prop) (d : Diagnostic) : Prop extends d.Registered S where
  checked : d.code.stage = .checker

/-- A diagnostic with a severity that its name tells and the phase of its class, at a place that
satisfies `S`. -/
structure Diagnostic.Reported (S : Span → Prop) (d : Diagnostic) : Prop where
  severity : .ofName d.severity.name = d.severity
  stage : d.stage = d.code.stage
  place : S d.span

variable {S : Span → Prop} {d : Diagnostic} {ds : List Diagnostic}

namespace Diagnostic

theorem registered_new {span : Span} (h : S span) (code : Code) (args : List Arg) :
    (new code span args).Registered S := ⟨rfl, rfl, h⟩

theorem checked_new {span : Span} (h : S span) {code : Code} (args : List Arg)
    (hcode : code.stage = .checker) : (new code span args).Checked S :=
  ⟨registered_new h code args, hcode⟩

theorem Registered.withNote (h : d.Registered S) (note : String) : (d.withNote note).Registered S :=
  ⟨h.severity, h.stage, h.place⟩

theorem Registered.withFile (h : d.Registered S) (file : String) : (d.withFile file).Registered S :=
  ⟨h.severity, h.stage, h.place⟩

end Diagnostic

/-! ### Collecting -/

namespace Collector

variable {P : Diagnostic → Prop}

theorem forall_insert (hnotes : ∀ d notes, P d → P (addNotes d notes)) (h : ∀ e ∈ ds, P e) (hd : P d) :
    ∀ e ∈ insert d ds, P e := by
  induction ds with
  | nil => exact List.forall_mem_singleton.mpr hd
  | cons e es ih =>
    obtain ⟨he, hes⟩ := List.forall_mem_cons.mp h
    rw [insert]
    split
    · exact List.forall_mem_cons.mpr ⟨hnotes e _ he, hes⟩
    · exact List.forall_mem_cons.mpr ⟨he, ih hes⟩

variable {c : Collector}

/-- **Collecting keeps every property** that does not depend on notes and files. -/
theorem forall_addAll (hnotes : ∀ d notes, P d → P (addNotes d notes))
    (hfile : ∀ d file, P d → P (d.withFile file)) (h : ∀ e ∈ c.items, P e) (hds : ∀ d ∈ ds, P d) :
    ∀ e ∈ (c.addAll ds).items, P e := by
  induction ds generalizing c with
  | nil => exact h
  | cons d ds ih =>
    obtain ⟨hd, hrest⟩ := List.forall_mem_cons.mp hds
    refine ih (c := c.add d) (forall_insert hnotes h ?_) hrest
    split
    · exact hfile d _ hd
    · exact hd

/-- **Collecting keeps what diagnostics have of their class.** -/
theorem registered_addAll (h : ∀ e ∈ c.items, e.Registered S) (hds : ∀ d ∈ ds, d.Registered S) :
    ∀ e ∈ (c.addAll ds).items, e.Registered S :=
  forall_addAll (fun _ _ hd => ⟨hd.severity, hd.stage, hd.place⟩) (fun _ file hd => hd.withFile file) h hds

end Collector

/-! ### Policies -/

theorem Severity.ofName_ofName? {s : Severity} {name : String} (h : ofName? name = some s) :
    ofName s.name = s := by
  unfold ofName? at h
  split at h <;> cases h <;> rfl

theorem Code.ofName_severity (c : Code) : .ofName c.severity.name = c.severity := by
  cases c <;> rfl

theorem Code.ofName?_name (c : Code) : ofName? c.name = some c := by
  cases c <;> decide

/-- A policy whose severities are told by their names. -/
def Policy.Known (p : Policy) : Prop := ∀ o ∈ p.overrides, .ofName o.2.name = o.2

/-- **A policy changes nothing but severities.** -/
theorem Policy.reported {p : Policy} (hp : p.Known) (h : ∀ e ∈ ds, e.Registered S) :
    ∀ e ∈ p.apply ds, e.Reported S := by
  intro e he
  obtain ⟨d, hd, hadjust⟩ := List.mem_filterMap.mp he
  have hregistered := h d (List.mem_mergeSort.mp hd)
  unfold adjust at hadjust
  split at hadjust
  · cases hadjust
  · split at hadjust <;> cases hadjust
    · exact ⟨hp _ (List.mem_of_find?_eq_some ‹_›), hregistered.stage, hregistered.place⟩
    · refine ⟨?_, hregistered.stage, hregistered.place⟩
      rw [hregistered.severity]
      exact Code.ofName_severity _

end PatternPlan
