import PatternPlan.Compile.Compilation
import PatternPlan.Config.Document
import PatternPlan.Proofs.Lowered.Contract

/-!
# Compilation gives what backends accept

From the text of a file to its lowered module: parsing keeps names, typing keeps them, and lowering
turns a named module into one that keeps the contract.  What is reported on the way changes nothing.

* `Config.Accepted` — the configurations a project can have: those of settings in which nothing is
  wrong, the configurations of documents among them;
* `compile_sound` — **the lowered module of every file is valid, and all its plans are traced**.
-/

namespace PatternPlan

/-- The configurations a project can have: those of settings that all make sense. -/
def Config.Accepted (c : Config) : Prop := ∃ s : Settings, s.problem? = none ∧ s.config = c

/-- Where nothing is set the default configuration holds. -/
theorem Config.accepted_default : Config.Accepted {} := ⟨{}, rfl, rfl⟩

theorem Config.accepted_of_ofText {c : Config} {text : String} (h : Config.ofText text = .ok c) :
    c.Accepted := by
  unfold Config.ofText at h
  split at h
  · cases h
  · split at h
    · cases h
    · rename_i s _ _ hproblem
      cases h
      exact ⟨s, hproblem, rfl⟩

/-- What is set to nothing keeps its default. -/
theorem Settings.present_placeholders (s : Settings) : s.config.placeholders.Present := by
  constructor
  · show (if s.inlineOwner = "" then "<inline match>" else s.inlineOwner) ≠ ""
    split
    · decide
    · assumption
  · show (if s.unknownType = "" then "unknown" else s.unknownType) ≠ ""
    split
    · decide
    · assumption

theorem Config.Accepted.present {c : Config} (h : c.Accepted) : c.placeholders.Present := by
  obtain ⟨s, -, rfl⟩ := h
  exact s.present_placeholders

/-- **The lowered module of every file is valid, and each of its plans is traced**, whatever was
reported about the file and whatever the oracle answers, which may change from plan to plan. -/
theorem compile_sound {config : Config} (hconfig : config.Accepted) (file : String) (source : Text)
    (hbounds : (Reading.of file source).program.hasMissingBound = false) :
    ∃ c, compile? config file source = some c ∧ c.lowered.errors = [] ∧
      ∀ (σ : Type) (o : Oracle σ) s, ∃ ts s', Plan.traces o 0 c.plans s = ((ts, none), s') ∧
        List.Forall₂ (fun p t => ∃ s₁ s₂, Plan.trace o p s₁ = (.ok t, s₂)) c.plans ts := by
  have htyped : (typeProgram file (Reading.of file source).program).1.Named :=
    named_typeProgram (Surface.named_parse source) hbounds file
  have hplaced := hconfig.present
  refine ⟨_, if_neg (Bool.not_eq_true _ ▸ hbounds), ?_, fun σ o s => ?_⟩
  · exact Lowered.Module.errors_ofTyped hplaced htyped
  · exact Plan.traces_of_errors (Plan.errors_ofModule hplaced htyped) o 0 s

/-- A file with a syntax error and a match that misses values: its plan is traced all the same. -/
theorem compile_sound_flag :
    ∃ c, compile? {} "flag.mc" (Text.ofString "match b with | true -> 1 )") = some c ∧
      c.lowered.errors = [] ∧
      ∀ (σ : Type) (o : Oracle σ) s, ∃ ts s', Plan.traces o 0 c.plans s = ((ts, none), s') ∧
        List.Forall₂ (fun p t => ∃ s₁ s₂, Plan.trace o p s₁ = (.ok t, s₂)) c.plans ts :=
  compile_sound Config.accepted_default _ _ (by decide +kernel)

end PatternPlan
