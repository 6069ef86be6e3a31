import Mathlib.Data.List.Nodup
import PatternPlan.Check.Module
import PatternPlan.Proofs.Matching.Value

/-!
# Calls of recognizers

What may be relied on about the recognizers that patterns call, when nothing is reported about a
file.  A call is looked up by its name; whether it is written as the call of a total recognizer or of
one that may miss is not compared with the declaration.

* `nodup_of_recognizerProblems` — no two recognizers have the same name;
* `total_of_irrefutable` — a pattern that matches every value calls total recognizers only, as they
  are written;
* `calls_declared_recognizers` — **every call names exactly one recognizer, and if it is written as
  declared a recognizer that may miss is never taken to match every value**;
* `miswritten_call_unreported` — a call that is not written as declared is not reported, and a
  recognizer that may miss is taken to match every value.
-/

namespace PatternPlan.Typed

/-! ### Names -/

/-- What is not reported: a recognizer with the name of another one. -/
theorem nodup_of_recognizerProblems {functions : List String} {known : List Callable}
    {before rest : List Recognizer} (h : recognizerProblems functions known before rest = [])
    (hbefore : (before.map Recognizer.name).Nodup) :
    ((before ++ rest).map Recognizer.name).Nodup := by
  induction rest generalizing before with
  | nil => rwa [List.append_nil]
  | cons r rest ih =>
    rw [recognizerProblems] at h
    simp only [List.append_eq_nil_iff] at h
    obtain ⟨⟨⟨hnames, -⟩, -⟩, hrest⟩ := h
    have hnew : r.name ∉ before.map Recognizer.name := by
      intro hmem
      obtain ⟨p, hp, hname⟩ := List.mem_map.mp hmem
      have hnone := (List.append_eq_nil_iff.mp hnames).2
      split at hnone
      · cases hnone
      · rename_i hfind
        exact absurd (decide_eq_true hname) (List.find?_eq_none.mp hfind p hp)
    have hsnoc : ((before ++ [r]).map Recognizer.name).Nodup := by
      rw [List.map_append, List.map_singleton, List.nodup_append_comm]
      exact List.nodup_cons.mpr ⟨hnew, hbefore⟩
    have hall := ih hrest hsnoc
    rwa [List.append_assoc] at hall

/-! ### Patterns that match every value -/

namespace Pattern

/-- A pattern that matches every value holds no call that is written as one that may miss. -/
theorem total_of_irrefutable {p : Pattern} (hp : p.irrefutable = true) :
    ∀ q ∈ p.nodes, q.isOptionalCall = false := by
  induction p using Pattern.induction with
  | wildcard i => simp [nodes, isOptionalCall]
  | var i n => simp [nodes, isOptionalCall]
  | binding i n v p ih =>
    exact List.forall_mem_cons.mpr ⟨rfl, ih hp⟩
  | or i ps ih =>
    rw [irrefutable, Bool.and_eq_true] at hp
    refine List.forall_mem_cons.mpr ⟨rfl, fun q hq => ?_⟩
    obtain ⟨r, hr, hq⟩ := mem_nodesOfList.mp hq
    exact ih r hr (allIrrefutable_iff.mp hp.2 r hr) q hq
  | call i n k u => simp_all [irrefutable, nodes, isOptionalCall]
  | callWith i n k u p ih =>
    rw [irrefutable, Bool.and_eq_true, Bool.and_eq_true, decide_eq_true_eq] at hp
    obtain ⟨⟨rfl, -⟩, hp⟩ := hp
    exact List.forall_mem_cons.mpr ⟨rfl, ih hp⟩
  | _ => simp [irrefutable] at hp

end Pattern

/-! ### Whole files -/

theorem nodeProblems_of_moduleProblems {config : Config} {m : Module} (h : moduleProblems config m = [])
    {x : Match} (hx : x ∈ m.allMatches) {a : Arm Pattern Expr} (ha : a ∈ x.arms) {q : Pattern}
    (hq : q ∈ a.pattern.nodes) :
    nodeProblems ⟨m.types, m.recognizers.map Recognizer.name, config.warnLegacyIf⟩ q = [] := by
  rw [moduleProblems] at h
  have hmatch := List.flatMap_eq_nil_iff.mp (List.append_eq_nil_iff.mp h).2 x hx
  simp only [matchProblems, List.append_eq_nil_iff, List.flatMap_eq_nil_iff] at hmatch
  have harm := hmatch.1.1.1 a ha
  simp only [armProblems, List.append_eq_nil_iff, List.flatMap_eq_nil_iff] at harm
  exact harm.2 q hq

/-- **Calls of recognizers in a file about which nothing is reported.**  A call at any depth of the
pattern of any arm names exactly one recognizer.  If it is written with the kind of that recognizer,
a recognizer that may miss is not part of a pattern that is taken to match every value. -/
theorem calls_declared_recognizers (config : Config) (m : Module) (h : moduleProblems config m = []) :
    ∀ x ∈ m.allMatches, ∀ a ∈ x.arms, ∀ i n k u arg, .active i n k u arg ∈ a.pattern.nodes →
      ∃ r ∈ m.recognizers, r.name = n ∧ (∀ s ∈ m.recognizers, s.name = n → s = r) ∧
        (k = r.kind → r.kind = .optional → a.pattern.irrefutable = false) := by
  intro x hx a ha i n k u arg hcall
  have hnode := nodeProblems_of_moduleProblems h hx ha hcall
  have hname : n ∈ m.recognizers.map Recognizer.name := by
    by_contra hout
    simp only [nodeProblems, if_neg hout, List.cons_ne_nil] at hnode
  obtain ⟨r, hr, hrname⟩ := List.mem_map.mp hname
  have hnodup : (m.recognizers.map Recognizer.name).Nodup :=
    nodup_of_recognizerProblems (List.append_eq_nil_iff.mp h).1 List.nodup_nil
  refine ⟨r, hr, hrname, fun s hs hsname => ?_, fun hk hoptional => ?_⟩
  · exact List.inj_on_of_nodup_map hnodup hs hr (hsname.trans hrname.symm)
  · rw [Bool.eq_false_iff]
    intro hirrefutable
    have htotal := Pattern.total_of_irrefutable hirrefutable _ hcall
    simp [Pattern.isOptionalCall, hk, hoptional] at htotal

/-! Two instances: `(|Even|_|)` is declared, and called as it is declared in front of a fallback, and as
a total recognizer without one. -/

def evenModule (patterns : List Pattern) : Module :=
  let info : Info := ⟨{}, .int⟩
  let result : Ty := .app "Option" [.int]
  let even : Recognizer := ⟨"Even", .optional, [⟨"n", .int⟩], result, result,
    .construct ⟨{}, result⟩ "Some" [.ident info "n"], false, false, {}⟩
  let arms := patterns.map fun p => (⟨{}, p, none, false, none, .literal info (.int 0)⟩ : Arm Pattern Expr)
  ⟨"", "even.mc", [], [even], [.select info (.literal info (.int 1)) arms], .builtin⟩

def evenCall (kind : RecognizerKind) : Pattern := .active ⟨{}, .int⟩ "Even" kind false none

/-- Called as it is declared: the arm does not match every value. -/
theorem even_call_declared :
    moduleProblems {} (evenModule [evenCall .optional, .wildcard ⟨{}, .int⟩]) = [] ∧
    ∃ r ∈ (evenModule [evenCall .optional, .wildcard ⟨{}, .int⟩]).recognizers, r.name = "Even" ∧
      (∀ s ∈ (evenModule [evenCall .optional, .wildcard ⟨{}, .int⟩]).recognizers, s.name = "Even" → s = r) ∧
      (RecognizerKind.optional = r.kind → r.kind = .optional →
        (evenCall .optional).irrefutable = false) := by
  have hclean : moduleProblems {} (evenModule [evenCall .optional, .wildcard ⟨{}, .int⟩]) = [] := by
    decide
  exact ⟨hclean, calls_declared_recognizers _ _ hclean _ List.mem_cons_self _ List.mem_cons_self _ _ _ _ _
    List.mem_cons_self⟩

/-- **A call that is not written as declared is not reported.**  The recognizer may miss, and its
call is the only arm, taken to match every value. -/
theorem miswritten_call_unreported : moduleProblems {} (evenModule [evenCall .total]) = [] ∧
    ∃ x ∈ (evenModule [evenCall .total]).allMatches, ∃ a ∈ x.arms, ∃ i u arg,
      .active i "Even" .total u arg ∈ a.pattern.nodes ∧ a.pattern.irrefutable = true ∧
      ∃ r ∈ (evenModule [evenCall .total]).recognizers, r.name = "Even" ∧ r.kind = .optional := by
  refine ⟨by decide, _, List.mem_cons_self, _, List.mem_cons_self, _, _, _, List.mem_cons_self,
    rfl, _, List.mem_cons_self, rfl, rfl⟩

end PatternPlan.Typed
