import PatternPlan.Check.Module
import PatternPlan.Proofs.Typed.Limits

/-!
# Where checks report

Checks report at the places of the nodes that they look at, and with what the class of a diagnostic is
registered with, so that reports are within all limits that the tree is within.

* `Reports` — diagnostics within limits;
* `reports_bindingClashes`, `reports_nodeProblems` — names that are bound twice, and single nodes;
* `reports_armProblems`, `reports_matchProblems` — arms and matches;
* `reports_moduleProblems` — **everything that is reported about a module within limits is within
  them**.
-/

namespace PatternPlan.Typed

variable {L : Limits}

/-- Diagnostics of checks with what their classes are registered with, at places within the limits. -/
def Reports (L : Limits) (ds : List Diagnostic) : Prop := ∀ d ∈ ds, d.Checked L.place

namespace Reports

variable {ds es : List Diagnostic}

theorem nil : Reports L [] := List.forall_mem_nil _

theorem one {span : Span} (h : L.place span) {code : Code} {args : List Arg}
    (hcode : code.stage = .checker) : Reports L [Diagnostic.new code span args] :=
  List.forall_mem_singleton.mpr (Diagnostic.checked_new h args hcode)

theorem append (hds : Reports L ds) (hes : Reports L es) : Reports L (ds ++ es) :=
  List.forall_mem_append.mpr ⟨hds, hes⟩

theorem ite {c : Prop} [Decidable c] (hds : Reports L ds) (hes : Reports L es) :
    Reports L (if c then ds else es) := by
  split
  · exact hds
  · exact hes

theorem flatMap {α : Type} {xs : List α} {f : α → List Diagnostic} (h : ∀ x ∈ xs, Reports L (f x)) :
    Reports L (xs.flatMap f) := by
  intro d hd
  obtain ⟨x, hx, hd⟩ := List.mem_flatMap.mp hd
  exact h x hx d hd

end Reports

/-! ### Names -/

theorem reports_bindName {span : Span} (h : L.place span) (name : String) (seen : List String) :
    Reports L (bindName name span seen).1 := by
  rw [bindName]
  split
  · exact .one h rfl
  · exact .nil

/-- A pattern whose clashes are within the limits, whatever is bound before it. -/
abbrev ClashesReport (L : Limits) (p : Pattern) : Prop :=
  ∀ seen, Reports L (bindingClashes p seen).1

theorem reports_listClashes {ps : List Pattern} (h : ∀ p ∈ ps, ClashesReport L p)
    (seen : List String) : Reports L (listClashes ps seen).1 := by
  induction ps generalizing seen with
  | nil => exact .nil
  | cons p ps ih =>
    rw [List.forall_mem_cons] at h
    exact .append (h.1 _) (ih h.2 _)

theorem reports_fieldClashes {fs : List (String × Pattern)} (h : ∀ f ∈ fs, ClashesReport L f.2)
    (seen : List String) : Reports L (fieldClashes fs seen).1 := by
  induction fs generalizing seen with
  | nil => exact .nil
  | cons f fs ih =>
    rw [List.forall_mem_cons] at h
    exact .append (h.1 _) (ih h.2 _)

theorem reports_alternativeClashes {ps : List Pattern} (h : ∀ p ∈ ps, ClashesReport L p)
    (outer seen : List String) : Reports L (alternativeClashes ps outer seen).1 := by
  induction ps generalizing seen with
  | nil => exact .nil
  | cons p ps ih =>
    rw [List.forall_mem_cons] at h
    exact .append (h.1 _) (ih h.2 _)

theorem reports_itemClashes {items : List (SliceItem Pattern)}
    (h : ∀ p, .element p ∈ items → ClashesReport L p)
    (hrests : ∀ s ∈ items.filterMap SliceItem.place?, L.place s) (seen : List String) :
    Reports L (itemClashes items seen).1 := by
  induction items generalizing seen with
  | nil => exact .nil
  | cons item items ih =>
    have hmore := fun p hp => h p (List.mem_cons_of_mem _ hp)
    cases item with
    | element p => exact .append (h p List.mem_cons_self _) (ih hmore hrests _)
    | rest n s =>
      obtain ⟨hs, hrests⟩ := List.forall_mem_cons.mp hrests
      refine .append ?_ (ih hmore hrests _)
      split
      · exact .nil
      · exact reports_bindName hs _ _

/-- **Names that are bound twice are reported within the limits.** -/
theorem reports_bindingClashes {p : Pattern} (h : p.Meets L) : ClashesReport L p := by
  induction p using Pattern.induction with
  | wildcard | literal | range | regex | call => exact fun _ => .nil
  | var i n => exact reports_bindName h.own.span n
  | tuple i ps ih | construct i n ps ih =>
    refine reports_listClashes fun p hp => ih p hp fun q hq => h q ?_
    exact List.mem_cons_of_mem _ (Pattern.mem_nodesOfList.mpr ⟨p, hp, hq⟩)
  | or i ps ih =>
    refine fun seen => reports_alternativeClashes (fun p hp => ih p hp fun q hq => h q ?_) seen seen
    exact List.mem_cons_of_mem _ (Pattern.mem_nodesOfList.mpr ⟨p, hp, hq⟩)
  | record i fs hasRest ih =>
    refine reports_fieldClashes fun f hf => ih f hf fun q hq => h q ?_
    exact List.mem_cons_of_mem _ (Pattern.mem_nodesOfFields.mpr ⟨f, hf, hq⟩)
  | binding i n viaAt p ih =>
    have hinner := ih fun q hq => h q (List.mem_cons_of_mem _ hq)
    exact fun seen => .append (hinner seen) (reports_bindName h.own.span _ _)
  | slice i items ih =>
    have hrests := (List.forall_mem_cons.mp h.own.places).2
    refine reports_itemClashes (fun p hp => ih p hp fun q hq => h q ?_) hrests
    exact List.mem_cons_of_mem _ (Pattern.mem_nodesOfItems.mpr ⟨p, hp, hq⟩)
  | callWith i n kind unresolved p ih => exact ih fun q hq => h q (List.mem_cons_of_mem _ hq)

/-! ### Nodes and arms -/

theorem reports_boundMismatch {i : Info} (h : L.place i.span) (bounds : List Bound) :
    Reports L (boundMismatch i bounds) := by
  rw [boundMismatch]
  split
  · exact .one h rfl
  · exact .nil

theorem reports_rangeProblems {i : Info} (h : L.place i.span) (start stop : Option Bound)
    (inclusive : Bool) : Reports L (rangeProblems i start stop inclusive) := by
  unfold rangeProblems
  split
  · exact .ite (.append (.ite (.one h rfl) .nil) (reports_boundMismatch h _)) (.one h rfl)
  · exact reports_boundMismatch h _

/-- What is wrong with a node is reported at its place. -/
theorem reports_nodeProblems (s : Surroundings) {p : Pattern} (h : L.place p.span) :
    Reports L (nodeProblems s p) := by
  cases p with
  | slice i items => exact .append (.ite (.one h rfl) .nil) (.ite .nil (.one h rfl))
  | range i start stop inclusive => exact reports_rangeProblems h start stop inclusive
  | regex i source =>
    refine .append (.ite .nil (.one h rfl)) ?_
    split
    · exact .one h rfl
    · exact .nil
  | construct i n args =>
    show Reports L (constructorProblems s i n args)
    rw [constructorProblems]
    split
    · exact .one h rfl
    · exact .ite .nil (.one h rfl)
  | active i n kind unresolved arg => exact .ite .nil (.one h rfl)
  | _ => exact .nil

/-- **What is wrong with an arm is reported within the limits.** -/
theorem reports_armProblems (s : Surroundings) {a : Arm Pattern Expr} (h : HeadMeets L a) :
    Reports L (armProblems s a) := by
  obtain ⟨span, pattern, guard, usedIf, asName, body⟩ := a
  refine .append (.append (.append (.ite (.one ?_ rfl) .nil) ?_) ?_) ?_
  · cases guard with
    | none => exact h.span
    | some g => exact h.guard g rfl
  · exact reports_bindingClashes h.pattern []
  · cases asName with
    | none => exact .nil
    | some n => exact reports_bindName (h.asName n rfl) _ _
  · exact .flatMap fun q hq => reports_nodeProblems s (h.pattern q hq).span

/-! ### Matches -/

theorem reports_unreachableAlternatives (prior : Prior) {rest : List Pattern}
    (h : ∀ p ∈ rest, L.place p.span) (before : List Pattern) :
    Reports L (unreachableAlternatives prior before rest) := by
  induction rest generalizing before with
  | nil => exact .nil
  | cons p ps ih =>
    rw [List.forall_mem_cons] at h
    refine .append ?_ (ih h.2 _)
    split
    · exact .one h.1 rfl
    · exact .nil

/-- The alternatives of a pattern are within the limits. -/
theorem place_alternatives {p : Pattern} (h : p.Meets L) {i : Info} {ps : List Pattern}
    (hor : unbound p = .or i ps) : ∀ q ∈ ps, L.place q.span := by
  intro q hq
  have hnodes : (unbound p).Meets L := by
    induction p using Pattern.induction with
    | binding i n viaAt p ih => exact ih (fun q hq => h q (List.mem_cons_of_mem _ hq)) hor
    | _ => exact h
  rw [hor] at hnodes
  refine (hnodes q (List.mem_cons_of_mem _ ?_)).span
  exact Pattern.mem_nodesOfList.mpr ⟨q, hq, q.self_mem_nodes⟩

theorem reports_unreachableFrom (types : TypeTable) (target : Ty) (n : Nat) (prior : Prior)
    {arms : List (Arm Pattern Expr)} (h : ∀ a ∈ arms, HeadMeets L a) :
    Reports L (unreachableFrom types target n prior arms) := by
  induction arms generalizing n prior with
  | nil => exact .nil
  | cons a arms ih =>
    rw [List.forall_mem_cons] at h
    refine .append ?_ (ih _ _ h.2)
    split
    · exact .one h.1.span rfl
    · split
      · exact reports_unreachableAlternatives _ (place_alternatives h.1.pattern ‹_›) _
      · exact .nil

theorem mem_lastOptional {arms rest : List (Arm Pattern Expr)} {a : Arm Pattern Expr}
    (h : lastOptional arms = some (a, rest)) : a ∈ arms := by
  induction arms with
  | nil => cases h
  | cons b arms ih =>
    rw [lastOptional] at h
    split at h
    · cases h
      exact List.mem_cons_of_mem _ (ih ‹_›)
    · split at h
      · cases h
        exact List.mem_cons_self
      · cases h

theorem reports_missingFallback {arms : List (Arm Pattern Expr)} (h : ∀ a ∈ arms, HeadMeets L a) :
    Reports L (missingFallback arms) := by
  rw [missingFallback]
  split
  · exact .nil
  · exact .ite .nil (.one (h _ (mem_lastOptional ‹_›)).span rfl)

theorem place_armsSpan {arms : List (Arm Pattern Expr)} (h : ∀ a ∈ arms, HeadMeets L a)
    (hne : arms ≠ []) : L.place (armsSpan arms) := by
  cases arms with
  | nil => exact absurd rfl hne
  | cons a arms =>
    have hfirst := (h a List.mem_cons_self).span
    refine L.join hfirst ?_
    cases hlast : arms.getLast? with
    | none => exact hfirst
    | some b => exact (h b (List.mem_cons_of_mem _ (List.mem_of_getLast? hlast))).span

theorem reports_missingCases (types : TypeTable) (target : Ty) {arms : List (Arm Pattern Expr)}
    (h : ∀ a ∈ arms, HeadMeets L a) : Reports L (missingCases types target arms) := by
  rw [missingCases]
  split
  · exact .nil
  · rename_i hguard
    split
    · refine .one (place_armsSpan h ?_) rfl
      rintro rfl
      exact hguard rfl
    · exact .nil

/-- **What is wrong with a match is reported within the limits.** -/
theorem reports_matchProblems (s : Surroundings) (target : Ty) {arms : List (Arm Pattern Expr)}
    (h : ∀ a ∈ arms, HeadMeets L a) : Reports L (matchProblems s target arms) := by
  refine .append (.append (.append (.flatMap fun a ha => reports_armProblems s (h a ha)) ?_) ?_) ?_
  · exact reports_unreachableFrom _ _ _ _ h
  · exact reports_missingFallback h
  · exact .ite (reports_missingCases _ _ h) .nil

/-! ### Files -/

theorem checked_contractProblem? {r : Recognizer} (h : L.place r.span) {result : Ty}
    {d : Diagnostic} (hd : contractProblem? r result = some d) : d.Checked L.place := by
  have hreport : ∀ wanted, (Diagnostic.new .activeReturn r.span
      [.str r.label, .str wanted, .str result.text]).Checked L.place :=
    fun _ => Diagnostic.checked_new h _ rfl
  unfold contractProblem? at hd
  dsimp only at hd
  split at hd
  · cases hd
  · split at hd <;> split at hd <;> cases hd
    · exact hreport _
    · exact hreport _

theorem reports_contractProblems {r : Recognizer} (h : L.place r.span) :
    Reports L (contractProblems r) := by
  rw [contractProblems]
  split
  · exact List.forall_mem_singleton.mpr (checked_contractProblem? h ‹_›)
  · exact fun d hd => checked_contractProblem? h (Option.mem_toList.mp hd)

theorem reports_nameProblems {r : Recognizer} (h : L.place r.span) (functions : List String)
    (before : List Recognizer) : Reports L (nameProblems functions before r) := by
  refine .append (.ite (.one h rfl) .nil) ?_
  split
  · exact List.forall_mem_singleton.mpr ⟨(Diagnostic.registered_new h _ _).withNote _, rfl⟩
  · exact .nil

theorem reports_recognizerProblems (functions : List String) (known : List Callable)
    {rest : List Recognizer} (h : ∀ r ∈ rest, L.place r.span) (before : List Recognizer) :
    Reports L (recognizerProblems functions known before rest) := by
  induction rest generalizing before with
  | nil => exact .nil
  | cons r rs ih =>
    rw [List.forall_mem_cons] at h
    refine .append (.append (.append ?_ ?_) ?_) (ih h.2 _)
    · exact reports_nameProblems h.1 _ _
    · exact reports_contractProblems h.1
    · exact .ite (.one h.1 rfl) .nil

theorem Module.Meets.allMatches {m : Module} (h : m.Meets L) : ∀ x ∈ m.allMatches, x.Meets L := by
  refine List.forall_mem_append.mpr ⟨List.forall_mem_append.mpr ⟨?_, ?_⟩, ?_⟩
  · exact List.forall_mem_flatMap.mpr fun r hr => (h.recognizers r hr).2.allMatches
  · exact List.forall_mem_flatMap.mpr fun f hf => (h.functions f hf).2.allMatches
  · exact List.forall_mem_flatMap.mpr fun e he => (h.inline e he).allMatches

/-- **Everything that is reported about a module within the limits is within them.** -/
theorem reports_moduleProblems (config : Config) {m : Module} (h : m.Meets L) :
    Reports L (moduleProblems config m) := by
  refine .append ?_ (.flatMap fun x hx => ?_)
  · exact reports_recognizerProblems _ _ (fun r hr => (h.recognizers r hr).1) []
  · exact reports_matchProblems _ _ (h.allMatches x hx).arms

end PatternPlan.Typed
