import PatternPlan.Proofs.Compile.Reported
import PatternPlan.Proofs.Document.Plans
import PatternPlan.Service.Call

/-!
# Calls give what compiling gives

A call compiles the source at the other end, sends what came out in narrower words and as a document,
and builds it up again.

* `Narrowing.Lossless` — what is asked of the conversion to the words that are sent;
* `received` — what arrives of a diagnostic: everything but its offsets and its notes;
* `LowerResult.Agrees`, `CheckResult.Agrees` — an answer that tells what compiling told;
* `PositionsFit`, `CountsFit` — compilations whose numbers fit the words that are sent;
* `callCheck_cases`, `callLower_cases` — what a call gives, and when it fails;
* `call_agrees` — **calls that succeed agree with compiling**, and they succeed unless a number fits no
  word or the plans nest deeper than documents may;
* `call_fails` — a source whose plans do.
-/

namespace PatternPlan.Service

/-! ### What is sent and received -/

/-- **A lossless conversion**: a word has the value of its number, and every number that fits a word
has one. -/
structure Narrowing.Lossless (narrow : Narrowing) : Prop where
  same : ∀ n w, narrow n = some w → (w.toNat : Int) = n
  fits : ∀ n, fitsUInt32 n = true → (narrow n).isSome = true

/-- What arrives of a diagnostic. -/
def received (d : Diagnostic) : Remark where
  code := d.code.name
  severity := d.severity.name
  stage := d.stage.name
  message := d.message
  file := d.file
  line := d.span.line
  column := d.span.column

/-- A diagnostic as it is sent. -/
def Notice.sent (d : Diagnostic) : Notice :=
  ⟨d.code.name, d.severity.name, d.message, d.file, UInt32.ofNat d.span.line.toNat,
    UInt32.ofNat d.span.column.toNat⟩

/-- The head of a plan. -/
def planHead (p : Plan) : String × String × Int := (p.owner, p.targetType, p.armCount)

/-- A summary as the head of a plan. -/
def Summary.head (s : Summary) : String × String × Int := (s.owner, s.targetType, s.armCount.toNat)

/-- The head of a plan as it is sent. -/
def Summary.sent (p : Plan) : Summary := ⟨p.owner, p.targetType, UInt32.ofNat p.armCount.toNat⟩

/-- An answer with the plans and the diagnostics of a compilation. -/
structure LowerResult.Agrees (file runId : String) (c : Compilation) (r : LowerResult) : Prop where
  plans : r.plans = .of file runId c.plans
  summaries : r.summaries.map Summary.head = c.plans.map planHead
  diagnostics : r.diagnostics = c.report.map received

/-- An answer with the diagnostics of a compilation that tells whether there are errors among them. -/
structure CheckResult.Agrees (c : Compilation) (r : CheckResult) : Prop where
  diagnostics : r.diagnostics = c.report.map received
  ok : r.ok = true ↔ ∀ d ∈ r.diagnostics, d.severity ≠ Severity.error.name

/-- The lines and columns of what is reported fit words of 32 bits. -/
def PositionsFit (c : Compilation) : Prop := ∀ d ∈ c.report, d.span.Sendable

/-- The arms of each plan are counted by a word of 32 bits. -/
def CountsFit (c : Compilation) : Prop := ∀ p ∈ c.plans, fitsUInt32 p.armCount = true

/-- Items that are sent one by one: either all of them are, or sending fails. -/
theorem mapM_cases {α β ε : Type} {f : α → Except ε β} {g : α → β} {p : α → Prop}
    (hok : ∀ x, p x → f x = .ok (g x)) (herror : ∀ x, ¬ p x → ∃ e, f x = .error e) (xs : List α) :
    (∀ x ∈ xs, p x) ∧ xs.mapM f = .ok (xs.map g) ∨
      ¬ (∀ x ∈ xs, p x) ∧ ∃ e, xs.mapM f = .error e := by
  induction xs with
  | nil => exact .inl ⟨List.forall_mem_nil _, rfl⟩
  | cons x xs ih =>
    rw [List.mapM_cons, List.forall_mem_cons]
    by_cases hx : p x
    · rw [hok x hx]
      rcases ih with ⟨hxs, hmap⟩ | ⟨hxs, e, hmap⟩
      · rw [hmap]
        exact .inl ⟨⟨hx, hxs⟩, rfl⟩
      · rw [hmap]
        exact .inr ⟨fun h => hxs h.2, e, rfl⟩
    · obtain ⟨e, he⟩ := herror x hx
      rw [he]
      exact .inr ⟨fun h => hx h.1, e, rfl⟩

/-! ### Words -/

section Words

variable {narrow : Narrowing} (hnarrow : narrow.Lossless)

theorem value_of_fits {n : Int} (h : fitsUInt32 n = true) : ((UInt32.ofNat n.toNat).toNat : Int) = n := by
  rw [fitsUInt32, Bool.and_eq_true, decide_eq_true_eq, decide_eq_true_eq] at h
  rw [UInt32.toNat_ofNat']
  omega

theorem lossless_toWord? : Narrowing.Lossless toWord? := by
  constructor
  · intro n w hw
    rw [toWord?] at hw
    split at hw
    · rename_i hfits
      cases hw
      exact value_of_fits hfits
    · cases hw
  · intro n hfits
    rw [toWord?, if_pos hfits]
    rfl

include hnarrow

/-- A number that fits a word is not changed. -/
theorem word_eq {n : Int} (h : fitsUInt32 n = true) :
    word narrow n = .ok (UInt32.ofNat n.toNat) := by
  obtain ⟨w, hw⟩ := Option.isSome_iff_exists.mp (hnarrow.fits n h)
  have hvalue : w.toNat = (UInt32.ofNat n.toNat).toNat := by
    have hsame := hnarrow.same n w hw
    have hfits := value_of_fits h
    omega
  rw [word, hw, UInt32.toNat_inj.mp hvalue]

/-- A number that fits no word is refused. -/
theorem word_error {n : Int} (h : ¬ fitsUInt32 n = true) : word narrow n = .error (.outOfRange n) := by
  rw [word]
  split
  · rename_i w hw
    refine absurd ?_ h
    rw [← hnarrow.same n w hw]
    exact fitsUInt32_ofNat w.toNat_lt
  · rfl

/-! ### Diagnostics -/

theorem Notice.ofDiagnostic_eq {d : Diagnostic} (h : d.span.Sendable) :
    Notice.ofDiagnostic narrow d = .ok (Notice.sent d) := by
  rw [Notice.ofDiagnostic, word_eq hnarrow h.line, word_eq hnarrow h.column]
  rfl

theorem Notice.ofDiagnostic_error {d : Diagnostic} (h : ¬ d.span.Sendable) :
    ∃ e, Notice.ofDiagnostic narrow d = .error e := by
  rw [Notice.ofDiagnostic]
  by_cases hline : fitsUInt32 d.span.line = true
  · have hcolumn : ¬ fitsUInt32 d.span.column = true := fun hcolumn => h ⟨hline, hcolumn⟩
    rw [word_eq hnarrow hline, word_error hnarrow hcolumn]
    exact ⟨_, rfl⟩
  · rw [word_error hnarrow hline]
    exact ⟨_, rfl⟩

end Words

/-- **What is received of a diagnostic**: its phase is told by the name of its class. -/
theorem Notice.read_sent {d : Diagnostic} (h : d.Reported Span.Sendable) :
    (Notice.sent d).read = received d := by
  have hline := value_of_fits h.place.line
  have hcolumn := value_of_fits h.place.column
  rw [read, sent, received, d.code.ofName?_name]
  simp only [Option.map_some, Option.getD_some, hline, hcolumn, h.stage]

theorem map_read_sent {ds : List Diagnostic} (h : ∀ d ∈ ds, d.Reported Span.Sendable) :
    (ds.map Notice.sent).map Notice.read = ds.map received := by
  rw [List.map_map]
  exact List.map_congr_left fun d hd => Notice.read_sent (h d hd)

/-- Whether something is an error does not change on the way. -/
theorem ok_iff {ds : List Diagnostic} (h : ∀ d ∈ ds, d.Reported Span.Sendable) :
    (!Diagnostic.hasErrors ds) = true ↔ ∀ d ∈ ds.map received, d.severity ≠ Severity.error.name := by
  rw [Bool.not_eq_true', Diagnostic.hasErrors, List.any_eq_false, List.forall_mem_map]
  refine forall₂_congr fun d hd => not_congr ?_
  have hname : d.severity.name = Severity.error.name ↔ d.severity = .error := by
    refine ⟨fun hname => ?_, fun herror => herror ▸ rfl⟩
    rw [← (h d hd).severity, hname]
    rfl
  rw [Diagnostic.isError, decide_eq_true_iff]
  exact hname.symm

/-! ### Plans -/

theorem Summary.ofPlan_eq {narrow : Narrowing} (hnarrow : narrow.Lossless) {p : Plan}
    (h : fitsUInt32 p.armCount = true) : Summary.ofPlan narrow p = .ok (Summary.sent p) := by
  rw [Summary.ofPlan, word_eq hnarrow h]
  rfl

theorem Summary.ofPlan_error {narrow : Narrowing} (hnarrow : narrow.Lossless) {p : Plan}
    (h : ¬ fitsUInt32 p.armCount = true) : ∃ e, Summary.ofPlan narrow p = .error e := by
  rw [Summary.ofPlan, word_error hnarrow h]
  exact ⟨_, rfl⟩

theorem Summary.head_sent {p : Plan} (h : fitsUInt32 p.armCount = true) :
    (Summary.sent p).head = planHead p := by
  rw [Summary.head, Summary.sent, value_of_fits h, planHead]

section Compiled

variable {config : Config} {file : String} {source : Text} {c : Compilation}

theorem plans_eq (hc : compile? config file source = some c) :
    c.plans = Plan.ofModule config.placeholders c.typed := by
  rw [Compilation.plans, (compile?_lowered hc).2.2]
  rfl

/-- The plans of a compiled file are valid. -/
theorem errors_plans (hconfig : config.Accepted) (hc : compile? config file source = some c) :
    ∀ p ∈ c.plans, p.errors = [] := by
  obtain ⟨hbounds, htyped, -⟩ := compile?_lowered hc
  have hnamed := named_typeProgram (Surface.named_parse source) hbounds file
  rw [plans_eq hc, htyped]
  exact Plan.errors_ofModule hconfig.present hnamed

/-- The plans of a compiled file can be stored. -/
theorem storable_plans (hc : compile? config file source = some c)
    (hwidth : Text.width source < 2 ^ 60) : ∀ p ∈ c.plans, p.Storable := by
  rw [plans_eq hc]
  exact Lowered.Plan.storable_ofModule _ (meets_typed (Limits.word_admits hwidth) hc)

/-- **The numbers of a source that is no larger than a message fit the words that are sent.** -/
theorem fit_of_width (hconfig : config.Accepted) (hc : compile? config file source = some c)
    (hwidth : Text.width source < 2 ^ 32 - 1) : PositionsFit c ∧ CountsFit c := by
  have hadmits := Limits.half_admits hwidth
  constructor
  · exact fun d hd => (reported_compile hconfig hadmits hc d hd).place
  · intro p hp
    rw [plans_eq hc] at hp
    obtain ⟨n, hn, hcount⟩ := Lowered.Plan.armCount_ofModule (meets_typed hadmits hc) hp
    have hlimit : n ≤ 2 ^ 32 - 1 := hcount
    rw [hn]
    exact fitsUInt32_ofNat (by omega)

/-- The document of the plans of a compiled file is read back, unless it nests too deep. -/
theorem decode_planDocument (hconfig : config.Accepted) (runId : String)
    (hc : compile? config file source = some c) (hwidth : Text.width source < 2 ^ 60) :
    ∃ text, planDocument runId false c = .ok text ∧ PlanSet.decode text =
      if (PlanSet.of file runId c.plans).toJson.depth ≤ Json.maxNesting
      then .ok (.of file runId c.plans) else .error .unreadable := by
  have hvalid : ∀ p ∈ (PlanSet.of file runId c.plans).plans.getD [], p.errors = [] :=
    errors_plans hconfig hc
  have hfile : c.file = file := by
    obtain ⟨-, rfl⟩ := compile?_eq_some hc
    rfl
  refine ⟨(PlanSet.of file runId c.plans).toJson.render false, ?_, ?_⟩
  · rw [planDocument, hfile, PlanSet.encode_eq hvalid]
  · refine PlanSet.decode_render ?_ hvalid rfl false
    intro ps hps
    cases hps
    exact storable_plans hc hwidth

end Compiled

/-! ### Calls -/

section Calls

variable {narrow : Narrowing} {config : Config} {file : String} {source : Text} {c : Compilation}

theorem compile_eq (hc : compile? config (fileOr file) source = some c) :
    compile config file source = .ok c := by
  rw [compile, hc]

/-- What is reported has a phase and a severity that can be told from what is sent. -/
theorem reported_of_positionsFit (hconfig : config.Accepted)
    (hc : compile? config file source = some c) (hwidth : Text.width source < 2 ^ 60)
    (hfit : PositionsFit c) : ∀ d ∈ c.report, d.Reported Span.Sendable := by
  intro d hd
  have hreported := reported_compile hconfig (Limits.word_admits hwidth) hc d hd
  exact ⟨hreported.severity, hreported.stage, hfit d hd⟩

/-- **A call for diagnostics agrees with compiling**, or a position fits no word. -/
theorem callCheck_cases (hnarrow : narrow.Lossless) (hconfig : config.Accepted) (runId : String)
    (hc : compile? config (fileOr file) source = some c) (hwidth : Text.width source < 2 ^ 60) :
    PositionsFit c ∧ (∃ r, callCheck narrow config runId file source = .ok r ∧ r.Agrees c) ∨
      ¬ PositionsFit c ∧ ∃ e, callCheck narrow config runId file source = .error e := by
  rw [callCheck, check, compile_eq hc]
  dsimp only [Bind.bind, Except.bind]
  obtain ⟨hfit, hnotices⟩ | ⟨hfit, e, hnotices⟩ := mapM_cases (g := Notice.sent)
    (fun _ => Notice.ofDiagnostic_eq hnarrow) (fun _ => Notice.ofDiagnostic_error hnarrow) c.report
  · rw [hnotices]
    have hreported := reported_of_positionsFit hconfig hc hwidth hfit
    have hdiagnostics := map_read_sent hreported
    refine .inl ⟨hfit, _, rfl, hdiagnostics, ?_⟩
    rw [CheckResponse.read, hdiagnostics]
    exact ok_iff hreported
  · rw [hnotices]
    exact .inr ⟨hfit, e, rfl⟩

/-- **A call for plans agrees with compiling**, or a position or a count fits no word, or the plans
nest too deep. -/
theorem callLower_cases (hnarrow : narrow.Lossless) (hconfig : config.Accepted) (runId : String)
    (hc : compile? config (fileOr file) source = some c) (hwidth : Text.width source < 2 ^ 60) :
    (PositionsFit c ∧ CountsFit c ∧
        (PlanSet.of (fileOr file) runId c.plans).toJson.depth ≤ Json.maxNesting) ∧
      (∃ r, callLower narrow config runId file source = .ok r ∧ r.Agrees (fileOr file) runId c) ∨
    ¬ (PositionsFit c ∧ CountsFit c ∧
        (PlanSet.of (fileOr file) runId c.plans).toJson.depth ≤ Json.maxNesting) ∧
      ∃ e, callLower narrow config runId file source = .error e := by
  obtain ⟨text, hdocument, hdecode⟩ := decode_planDocument hconfig runId hc hwidth
  rw [callLower, lower, compile_eq hc]
  dsimp only [Bind.bind, Except.bind]
  obtain ⟨hfit, hnotices⟩ | ⟨hfit, e, hnotices⟩ := mapM_cases (g := Notice.sent)
    (fun _ => Notice.ofDiagnostic_eq hnarrow) (fun _ => Notice.ofDiagnostic_error hnarrow) c.report
  · rw [hnotices, hdocument]
    have hreported := reported_of_positionsFit hconfig hc hwidth hfit
    obtain ⟨hcounts, hsummaries⟩ | ⟨hcounts, e, hsummaries⟩ := mapM_cases (g := Summary.sent)
      (fun _ => Summary.ofPlan_eq hnarrow) (fun _ => Summary.ofPlan_error hnarrow) c.plans
    · rw [hsummaries]
      show _ ∧ (∃ r, LowerResponse.read _ = _ ∧ _) ∨ _ ∧ ∃ e, LowerResponse.read _ = _
      rw [LowerResponse.read, hdecode]
      by_cases hdepth : (PlanSet.of (fileOr file) runId c.plans).toJson.depth ≤ Json.maxNesting
      · rw [if_pos hdepth]
        refine .inl ⟨⟨hfit, hcounts, hdepth⟩, _, rfl, rfl, ?_, map_read_sent hreported⟩
        rw [List.map_map]
        exact List.map_congr_left fun p hp => Summary.head_sent (hcounts p hp)
      · rw [if_neg hdepth]
        exact .inr ⟨fun h => hdepth h.2.2, _, rfl⟩
    · rw [hsummaries]
      exact .inr ⟨fun h => hcounts h.2.1, e, rfl⟩
  · rw [hnotices]
    exact .inr ⟨fun h => hfit h.1, e, rfl⟩

/-- A call that succeeds under a condition, and with an answer that agrees. -/
theorem agrees_of_cases {α ε : Type} {call : Except ε α} {P : Prop} {A : α → Prop}
    (h : P ∧ (∃ r, call = .ok r ∧ A r) ∨ ¬ P ∧ ∃ e, call = .error e) :
    (∀ r, call = .ok r → A r) ∧ ((∃ r, call = .ok r) ↔ P) := by
  rcases h with ⟨hp, r, rfl, hr⟩ | ⟨hp, e, rfl⟩
  · refine ⟨fun s hs => ?_, fun _ => hp, fun _ => ⟨r, rfl⟩⟩
    cases hs
    exact hr
  · exact ⟨nofun, nofun, fun h => absurd h hp⟩

end Calls

/-- **Calls agree with compiling.**  An answer tells what was reported, and an answer with plans has
the plans of the file.  A call fails only if a position or a count fits no word of 32 bits, which takes
a source of four gigabytes, or if the plans nest deeper than documents may. -/
theorem call_agrees {narrow : Narrowing} (hnarrow : narrow.Lossless) {config : Config}
    (hconfig : config.Accepted) (runId file : String) {source : Text} {c : Compilation} (hc : compile? config (fileOr file) source = some c)
    (hwidth : Text.width source < 2 ^ 60) :
    ((∀ r, callCheck narrow config runId file source = .ok r → r.Agrees c) ∧
        ((∃ r, callCheck narrow config runId file source = .ok r) ↔ PositionsFit c)) ∧
      ((∀ r, callLower narrow config runId file source = .ok r → r.Agrees (fileOr file) runId c) ∧
        ((∃ r, callLower narrow config runId file source = .ok r) ↔ PositionsFit c ∧ CountsFit c ∧
          (PlanSet.of (fileOr file) runId c.plans).toJson.depth ≤ Json.maxNesting)) ∧
      (Text.width source < 2 ^ 32 - 1 → PositionsFit c ∧ CountsFit c) :=
  ⟨agrees_of_cases (callCheck_cases hnarrow hconfig runId hc hwidth),
    agrees_of_cases (callLower_cases hnarrow hconfig runId hc hwidth), fit_of_width hconfig hc⟩

/-- A match that misses a value. -/
def flagSource : Text := .ofString "fn flag(b: Bool) -> Int = match b with | true -> 1"

theorem call_agrees_flag : ∃ c, compile? {} (fileOr "") flagSource = some c ∧ c.hasErrors = true ∧
    (∃ r, callCheck toWord? {} "run" "" flagSource = .ok r ∧ r.Agrees c) ∧
    ∃ r, callLower toWord? {} "run" "" flagSource = .ok r ∧ r.Agrees (fileOr "") "run" c := by
  have hall : ∃ c ∈ compile? {} (fileOr "") flagSource, c.hasErrors = true ∧
      (PlanSet.of (fileOr "") "run" c.plans).toJson.depth ≤ Json.maxNesting := by
    decide +kernel
  obtain ⟨c, hc, herrors, hdepth⟩ := hall
  have hwidth : Text.width flagSource < 2 ^ 32 - 1 := by decide +kernel
  obtain ⟨⟨hcheck, hchecked⟩, ⟨hlower, hlowered⟩, hfit⟩ :=
    call_agrees lossless_toWord? Config.accepted_default "run" "" hc (by omega)
  obtain ⟨hpositions, hcounts⟩ := hfit hwidth
  obtain ⟨r, hr⟩ := hchecked.mpr hpositions
  obtain ⟨q, hq⟩ := hlowered.mpr ⟨hpositions, hcounts, hdepth⟩
  exact ⟨c, hc, herrors, ⟨r, hr, hcheck r hr⟩, q, hq, hlower q hq⟩

/-- **Not every call for plans succeeds**: five thousand names for one variable are compiled, but the
document of their plan nests too deep to be read. -/
theorem call_fails : ¬ ∀ (config : Config) (runId file : String) (source : Text) (c : Compilation),
    config.Accepted → compile? config (fileOr file) source = some c →
      ∃ r, callLower toWord? config runId file source = .ok r ∧ r.Agrees (fileOr file) runId c := by
  intro h
  obtain ⟨c, hc, -, -, p, hp, a, ha, hchain⟩ := compile_names {} (fileOr "") 5000
  have hdeep : Json.maxNesting < (PlanSet.of (fileOr "") "run" c.plans).toJson.depth := by
    have hplan := Plan.depth_of_chain ha hchain
    have hset : p.toJson.depth < (PlanSet.of (fileOr "") "run" c.plans).toJson.depth :=
      PlanSet.depth_of_plan hp
    have hlimit : Json.maxNesting = 10000 := rfl
    omega
  have hwidth := width_namesSource 5000
  obtain ⟨⟨-, -, hdepth⟩, -⟩ | ⟨-, e, hcall⟩ :=
    callLower_cases lossless_toWord? Config.accepted_default "run" hc (by omega)
  · exact absurd hdepth (Nat.not_le.mpr hdeep)
  · obtain ⟨r, hr, -⟩ := h {} "run" "" _ c Config.accepted_default hc
    rw [hcall] at hr
    cases hr

end PatternPlan.Service
