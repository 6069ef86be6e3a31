import PatternPlan.Proofs.Document.Parts

/-!
# Plans on their own, and sets of plans

* `Plan.decode_compact` — **a valid plan is read back from its text**, unless it nests too deep;
* `PlanSet.recovers`, `PlanSet.decode_render` — **so is a set of valid plans**;
* `PlanSet.depth_of_plan` — a set nests deeper than its plans.
-/

namespace PatternPlan

open Reader

/-! ### Plans -/

theorem Plan.encode_eq {p : Plan} (hvalid : p.errors = []) : p.encode = .ok p.toJson.compact := by
  rw [encode, hvalid]

theorem Plan.encode_error {p : Plan} (hinvalid : p.errors ≠ []) : p.encode = .error p.errors := by
  unfold encode
  split
  · exact absurd ‹_› hinvalid
  · rfl

/-- The text of a valid plan is read back, unless it nests deeper than documents may. -/
theorem Plan.decode_compact {p : Plan} (h : p.Storable) (hvalid : p.errors = []) :
    Plan.decode p.toJson.compact
      = if p.toJson.depth ≤ Json.maxNesting then .ok p else .error .unreadable := by
  have hrecovers := Plan.recovers true h
  have hread := Json.readFirst?_render false hrecovers.proper
  have hplan : Plan.ofJson? true p.toJson = some p := hrecovers.reads _ (Nat.le_succ _)
  rw [show p.toJson.compact = p.toJson.render false from rfl, decode, hread]
  by_cases hdepth : p.toJson.depth ≤ Json.maxNesting
  · rw [if_pos hdepth, if_pos hdepth, Option.bind_some, hplan]
    dsimp only
    rw [hvalid]
  · rw [if_neg hdepth, if_neg hdepth]
    rfl

/-! ### Sets -/

namespace PlanSet

/-- The values that a set of plans gives to its keys. -/
def slots (s : PlanSet) : List (String × List Json) :=
  [("schema_version", [.text s.schema]), ("file", textValues s.file), ("run_id", textValues s.run),
    ("plans", [Json.listed Plan.toJson s.plans])]

theorem toJson_eq (s : PlanSet) : s.toJson = .object (fieldsOf s.slots) := by
  rw [toJson, textField_eq, textField_eq]
  simp [fieldsOf, slots]

/-- **Sets of plans are read back.** -/
theorem recovers {s : PlanSet} (h : ∀ ps ∈ s.plans, ∀ p ∈ ps, p.Storable) :
    Recovers PlanSet.reader toJson s := by
  have hplan := fun ps hps p hp => Plan.recovers true (h ps hps p hp)
  constructor
  · have hplans : (Json.listed Plan.toJson s.plans).Proper :=
      proper_listed.mpr fun ps hps p hp => (hplan ps hps p hp).proper
    rw [toJson_eq, proper_fieldsOf]
    simp [slots, hplans]
  · intro room hroom
    rw [toJson_eq] at hroom ⊢
    have hplans : listed (Plan.reader true room) [Json.listed Plan.toJson s.plans] = some s.plans :=
      Recovers.listed hplan (depth_le_of_slot hroom "plans" (by simp [slots]))
    refine Eq.trans (record_fieldsOf true rfl (by decide)) ?_
    simp only [slots, slotValues_head, slotValues_tail, ne_eq, String.reduceEq, not_false_eq_true]
    rw [text_text, text_textValues, text_textValues, hplans]
    rfl

/-- The document of a set nests deeper than the documents of its plans. -/
theorem depth_of_plan {s : PlanSet} {p : Plan} (hp : p ∈ s.plans.getD []) :
    p.toJson.depth < s.toJson.depth := by
  rw [toJson_eq]
  exact Nat.lt_of_succ_lt (succ_depth_lt_listed "plans" (by simp [slots]) hp)

theorem firstError?_eq_none {ps : List Plan} (h : ∀ p ∈ ps, p.errors = []) (index : Nat) :
    firstError? index ps = none := by
  induction ps generalizing index with
  | nil => rfl
  | cons p ps ih =>
    rw [firstError?, h p List.mem_cons_self, if_pos List.isEmpty_nil]
    exact ih (fun q hq => h q (List.mem_cons_of_mem _ hq)) (index + 1)

theorem encode_eq {s : PlanSet} (hvalid : ∀ p ∈ s.plans.getD [], p.errors = []) :
    s.encode false = .ok (s.toJson.render false) := by
  rw [encode, firstError?_eq_none hvalid]
  rfl

/-- The text of a set of valid plans is read back, unless it nests deeper than documents may. -/
theorem decode_render {s : PlanSet} (h : ∀ ps ∈ s.plans, ∀ p ∈ ps, p.Storable)
    (hvalid : ∀ p ∈ s.plans.getD [], p.errors = []) (hschema : s.schema = Lowered.schemaVersion)
    (indent : Bool) : PlanSet.decode (s.toJson.render indent)
      = if s.toJson.depth ≤ Json.maxNesting then .ok s else .error .unreadable := by
  have hread := Json.readFirst?_render indent (recovers h).proper
  have hset : PlanSet.ofJson? s.toJson = some s := (recovers h).reads _ (Nat.le_succ _)
  rw [decode, hread]
  by_cases hdepth : s.toJson.depth ≤ Json.maxNesting
  · rw [if_pos hdepth, if_pos hdepth, Option.bind_some, hset]
    dsimp only
    rw [if_neg (not_not_intro hschema), firstError?_eq_none hvalid]
  · rw [if_neg hdepth, if_neg hdepth]
    rfl

end PlanSet

end PatternPlan
