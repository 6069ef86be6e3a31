import PatternPlan.Proofs.Check.Places
import PatternPlan.Proofs.Compile.Documents

/-!
# What is reported about a file

Whatever reports it, a diagnostic has the phase of its class and a severity with a name, and stands at
a place that is within all limits that the tokens of the file are within.

* `Reading.stage_of`, `Reading.clean_of_compile` — lexing and parsing report in their own phases, and
  nothing but errors;
* `registered_compile` — what lexer, parser and checks report;
* `placed_compile` — what checks do not report has been found in the text;
* `reported_compile` — **the same as the configuration wants it**.
-/

namespace PatternPlan

variable {L : Limits} {config : Config} {file : String} {source : Text} {c : Compilation}

/-- What is set by name is known by name. -/
theorem Config.Accepted.known (h : config.Accepted) : config.policy.Known := by
  obtain ⟨s, -, rfl⟩ := h
  intro o ho
  obtain ⟨e, -, he⟩ := List.mem_filterMap.mp ho
  obtain ⟨code, -, hcode⟩ := Option.bind_eq_some_iff.mp he
  obtain ⟨severity, hseverity, rfl⟩ := Option.map_eq_some_iff.mp hcode
  exact Severity.ofName_ofName? hseverity

/-- Lexing and parsing report in their own phases. -/
theorem Reading.stage_of {file : String} {source : Text} {d : Diagnostic}
    (hd : d ∈ (of file source).diagnostics.items) :
    d.code.stage = .lexer ∨ d.code.stage = .parser := by
  rcases mem_codes_of.mp (List.mem_map_of_mem hd) with h | h
  · obtain ⟨e, he, hcode⟩ := List.mem_map.mp h
    obtain ⟨t, -, rfl⟩ := List.mem_map.mp he
    exact .inl (hcode ▸ rfl)
  · obtain ⟨e, he, hcode⟩ := List.mem_map.mp h
    exact .inr (hcode ▸ Surface.stage_parse source e he)

theorem registered_illegalTokens (h : L.Admits (Text.width source)) :
    ∀ d ∈ Reading.illegalTokens (lex source), d.Registered L.place := by
  intro d hd
  obtain ⟨t, ht, rfl⟩ := List.mem_map.mp hd
  have htoken := (meets_lex h).1 t (List.mem_of_mem_filter ht)
  exact Diagnostic.registered_new htoken.span _ _

/-- A compiled file is typed within the limits. -/
theorem meets_typed (h : L.Admits (Text.width source))
    (hc : compile? config file source = some c) : c.typed.Meets L := by
  obtain ⟨-, htyped, -⟩ := compile?_lowered hc
  rw [htyped]
  exact (meets_typeProgram (Surface.meets_parse h).1 file).1

/-- **Everything that is collected about a file** has what its class is registered with, at a place
within the limits. -/
theorem registered_compile (h : L.Admits (Text.width source))
    (hc : compile? config file source = some c) : ∀ d ∈ c.diagnostics.items, d.Registered L.place := by
  obtain ⟨hdecls, herrors⟩ := Surface.meets_parse h
  have htyped := meets_typeProgram hdecls file
  have hreading : ∀ d ∈ (Reading.of file source).diagnostics.items, d.Registered L.place := by
    refine Collector.registered_addAll (Collector.registered_addAll ?_ ?_) herrors
    · exact List.forall_mem_nil _
    · exact registered_illegalTokens h
  obtain ⟨-, rfl⟩ := compile?_eq_some hc
  refine Collector.registered_addAll (Collector.registered_addAll hreading fun d hd => ?_) fun d hd => ?_
  · exact (htyped.2 d hd).toRegistered
  · exact (Typed.reports_moduleProblems config htyped.1 d hd).toRegistered

/-- **What checks do not report has been found in the text**, at a place that is good for what lexing and
parsing find. -/
theorem placed_compile {S : Span → Prop} (hc : compile? config file source = some c)
    (htokens : ∀ d ∈ Reading.illegalTokens (lex source), S d.span)
    (herrors : ∀ d ∈ (Surface.parse (lex source)).errors, S d.span) :
    ∀ d ∈ c.diagnostics.items, d.code.stage = .checker ∨ S d.span := by
  let anywhere : Limits := ⟨fun _ => True, fun _ _ => trivial, Text.width source + 1⟩
  have hadmits : anywhere.Admits (Text.width source) := ⟨fun _ _ => trivial, Nat.lt_succ_self _⟩
  have htyped := meets_typeProgram (Surface.meets_parse hadmits).1 file
  have hkeep {k : Collector} {ds : List Diagnostic} (hk : ∀ e ∈ k.items, e.code.stage = .checker ∨ S e.span)
      (hds : ∀ d ∈ ds, d.code.stage = .checker ∨ S d.span) :
      ∀ e ∈ (k.addAll ds).items, e.code.stage = .checker ∨ S e.span :=
    Collector.forall_addAll (P := fun d => d.code.stage = .checker ∨ S d.span) (fun _ _ h => h) (fun _ _ h => h) hk hds
  obtain ⟨-, rfl⟩ := compile?_eq_some hc
  refine hkeep (hkeep (hkeep (hkeep (List.forall_mem_nil _) ?_) ?_) ?_) ?_
  · exact fun d hd => .inr (htokens d hd)
  · exact fun d hd => .inr (herrors d hd)
  · exact fun d hd => .inl (htyped.2 d hd).checked
  · exact fun d hd => .inl (Typed.reports_moduleProblems config htyped.1 d hd).checked

/-- A class of lexing or parsing is one of errors. -/
theorem Code.severity_of_stage {k : Code} (h : k.stage = .lexer ∨ k.stage = .parser) : k.severity = .error := by
  cases k <;> first | rfl | exact absurd h (by decide)

/-- **Where there are no errors nothing is wrong with the text.** -/
theorem Reading.clean_of_compile (hc : compile? config file source = some c)
    (h : c.diagnostics.hasErrors = false) : (of file source).diagnostics.items = [] := by
  let anywhere : Limits := ⟨fun _ => True, fun _ _ => trivial, Text.width source + 1⟩
  have hadmits : anywhere.Admits (Text.width source) := ⟨fun _ _ => trivial, Nat.lt_succ_self _⟩
  have hregistered := registered_compile hadmits hc
  refine List.eq_nil_iff_forall_not_mem.mpr fun d hd => ?_
  have hcode : d.code ∈ c.diagnostics.items.map Diagnostic.code := by
    obtain ⟨-, rfl⟩ := compile?_eq_some hc
    refine Collector.mem_codes_addAll.mpr (.inl (Collector.mem_codes_addAll.mpr (.inl ?_)))
    exact List.mem_map_of_mem hd
  obtain ⟨e, he, heq⟩ := List.mem_map.mp hcode
  have herror : e.isError = true := by
    rw [Diagnostic.isError, (hregistered e he).severity, heq, Code.severity_of_stage (stage_of hd)]
    rfl
  have hany : c.diagnostics.hasErrors = true := List.any_eq_true.mpr ⟨e, he, herror⟩
  rw [h] at hany
  cases hany

/-- **Everything that is reported about a file** has the phase of its class and a severity that its
name tells, at a place within the limits. -/
theorem reported_compile (hconfig : config.Accepted) (h : L.Admits (Text.width source))
    (hc : compile? config file source = some c) : ∀ d ∈ c.report, d.Reported L.place := by
  have hregistered := registered_compile h hc
  obtain ⟨-, rfl⟩ := compile?_eq_some hc
  exact Policy.reported hconfig.known hregistered

end PatternPlan
