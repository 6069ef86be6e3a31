import PatternPlan.Check.Arms
import PatternPlan.Proofs.Typed.Pattern

/-!
# Names that an arm binds twice

The check goes through a pattern once and carries the names bound so far.  All alternatives start
from the same names, and behind them the names of all of them count as bound.

* `Pattern.namesBound` — the names that a pattern binds, one list for each way to choose one
  alternative wherever there are alternatives;
* `Repeats` — a name that is bound again behind names that are bound already;
* `Exact` — **a walk that reports exactly the names which some choice binds again**, with one rule
  for each way to put walks together;
* `exact_bindingClashes`, `exact_armWalk` — the walks through patterns and arms are exact;
* `duplicate_reported_iff` — an arm has a report of a name bound twice exactly if some choice of
  alternatives binds a name twice.
-/

namespace PatternPlan.Typed

/-! ### The names that a choice of alternatives binds -/

/-- The lists that begin with one of the first lists and go on with one of the second. -/
def joinedLists (xs ys : List (List String)) : List (List String) :=
  xs.flatMap fun ms => ys.map fun ns => ms ++ ns

theorem mem_joinedLists {xs ys : List (List String)} {ls : List String} :
    ls ∈ joinedLists xs ys ↔ ∃ ms ∈ xs, ∃ ns ∈ ys, ms ++ ns = ls := by
  simp [joinedLists]

namespace Pattern

mutual

/-- The names that a pattern binds, in the order of the check: one list for each way to choose one
alternative wherever there are alternatives.  Where there is none to choose, nothing is bound. -/
def namesBound : Pattern → List (List String)
  | wildcard _ | literal _ _ | range _ _ _ _ | regex _ _ | active _ _ _ _ none => [[]]
  | var _ n => [[n]]
  | tuple _ ps | construct _ _ ps => namesBoundAll ps
  | record _ fs _ => namesBoundFields fs
  | binding _ n _ p => joinedLists (namesBound p) [[n]]
  | or _ ps => if ps.isEmpty then [[]] else namesBoundAny ps
  | slice _ items => namesBoundItems items
  | active _ _ _ _ (some p) => namesBound p

/-- The names that patterns side by side bind. -/
def namesBoundAll : List Pattern → List (List String)
  | [] => [[]]
  | p :: ps => joinedLists (namesBound p) (namesBoundAll ps)

def namesBoundFields : List (String × Pattern) → List (List String)
  | [] => [[]]
  | (_, p) :: fs => joinedLists (namesBound p) (namesBoundFields fs)

def namesBoundItems : List (SliceItem Pattern) → List (List String)
  | [] => [[]]
  | .element p :: items => joinedLists (namesBound p) (namesBoundItems items)
  | .rest n _ :: items => joinedLists [if n = "" then [] else [n]] (namesBoundItems items)

/-- The names that one of several patterns binds. -/
def namesBoundAny : List Pattern → List (List String)
  | [] => []
  | p :: ps => namesBound p ++ namesBoundAny ps

end

theorem mem_namesBoundAny {ps : List Pattern} {ns : List String} :
    ns ∈ namesBoundAny ps ↔ ∃ p ∈ ps, ns ∈ p.namesBound := by
  induction ps with
  | nil => simp [namesBoundAny]
  | cons p ps ih => simp [namesBoundAny, ih]

end Pattern

/-! ### Names bound again -/

/-- Behind the names `seen`, the names `ns` bind `n` again. -/
def Repeats (seen ns : List String) (n : String) : Prop :=
  2 ≤ ns.count n ∨ n ∈ ns ∧ n ∈ seen

theorem repeats_nil_left {ns : List String} {n : String} : Repeats [] ns n ↔ 2 ≤ ns.count n := by
  simp [Repeats]

theorem not_repeats_nil {seen : List String} {n : String} : ¬ Repeats seen [] n := by
  simp [Repeats]

theorem repeats_append {seen ms ns : List String} {n : String} :
    Repeats seen (ms ++ ns) n ↔
      Repeats seen ms n ∨ Repeats seen ns n ∨ n ∈ ms ∧ n ∈ ns := by
  have hms := List.count_pos_iff (a := n) (l := ms)
  have hns := List.count_pos_iff (a := n) (l := ns)
  simp only [Repeats, List.count_append, List.mem_append, ← hms, ← hns]
  by_cases hseen : n ∈ seen <;> simp only [hseen, and_true, and_false, or_false] <;> omega

/-! ### Exact walks -/

/-- A part of the check, from the names bound before it to its reports and the names bound after
it. -/
abbrev Walk := List String → List Diagnostic × List String

/-- The report of a name that is bound again. -/
def clash (n : String) (span : Span) : Diagnostic := Diagnostic.new .duplicateBinding span [.str n]

/-- One walk behind another. -/
def Walk.andThen (w w' : Walk) : Walk := fun seen =>
  ((w seen).1 ++ (w' (w seen).2).1, (w' (w seen).2).2)

/-- The walk is exact for the names of all choices: afterwards the names of all of them are bound,
and it reports the names that one of them binds again. -/
structure Exact (w : Walk) (choices : List (List String)) : Prop where
  exists_choice : ∃ ns, ns ∈ choices
  mem_iff : ∀ seen n, n ∈ (w seen).2 ↔ n ∈ seen ∨ ∃ ns ∈ choices, n ∈ ns
  sound : ∀ seen, ∀ d ∈ (w seen).1,
    ∃ n span, d = clash n span ∧ ∃ ns ∈ choices, Repeats seen ns n
  complete : ∀ seen n, ∀ ns ∈ choices, Repeats seen ns n → ∃ span, clash n span ∈ (w seen).1

namespace Exact

variable {w w' : Walk} {xs ys : List (List String)}

/-- Nothing is bound. -/
theorem nothing : Exact (fun seen => ([], seen)) [[]] where
  exists_choice := ⟨[], List.mem_singleton_self _⟩
  mem_iff seen n := by simp
  sound seen d hd := by simp at hd
  complete seen n ns hns hrep := by
    obtain rfl := List.mem_singleton.mp hns
    exact absurd hrep not_repeats_nil

/-- One name is bound. -/
theorem name (n : String) (span : Span) : Exact (bindName n span) [[n]] where
  exists_choice := ⟨[n], List.mem_singleton_self _⟩
  mem_iff seen k := by
    rw [bindName]
    split
    · rename_i hseen
      simp only [List.mem_singleton, exists_eq_left]
      constructor
      · exact Or.inl
      · rintro (h | rfl)
        · exact h
        · exact hseen
    · simp
  sound seen d hd := by
    rw [bindName] at hd
    split at hd
    · rename_i hseen
      obtain rfl := List.mem_singleton.mp hd
      exact ⟨n, span, rfl, [n], List.mem_singleton_self _, .inr ⟨List.mem_singleton_self _, hseen⟩⟩
    · simp at hd
  complete seen k ns hns hrep := by
    obtain rfl := List.mem_singleton.mp hns
    rcases hrep with htwice | ⟨hk, hseen⟩
    · have hlen := List.count_le_length (a := k) (l := [n])
      simp only [List.length_singleton] at hlen
      omega
    · obtain rfl := List.mem_singleton.mp hk
      refine ⟨span, ?_⟩
      simp [bindName, hseen, clash]

/-- Walks one behind the other: the choices of both go together. -/
theorem andThen (h : Exact w xs) (h' : Exact w' ys) :
    Exact (w.andThen w') (joinedLists xs ys) where
  exists_choice := by
    obtain ⟨ms, hms⟩ := h.exists_choice
    obtain ⟨ns, hns⟩ := h'.exists_choice
    exact ⟨ms ++ ns, mem_joinedLists.mpr ⟨ms, hms, ns, hns, rfl⟩⟩
  mem_iff seen n := by
    obtain ⟨ms, hms⟩ := h.exists_choice
    obtain ⟨ns, hns⟩ := h'.exists_choice
    show n ∈ (w' (w seen).2).2 ↔ _
    rw [h'.mem_iff, h.mem_iff, or_assoc]
    apply or_congr_right
    constructor
    · rintro (⟨as, has, hn⟩ | ⟨bs, hbs, hn⟩)
      · exact ⟨as ++ ns, mem_joinedLists.mpr ⟨as, has, ns, hns, rfl⟩, List.mem_append_left _ hn⟩
      · exact ⟨ms ++ bs, mem_joinedLists.mpr ⟨ms, hms, bs, hbs, rfl⟩, List.mem_append_right _ hn⟩
    · rintro ⟨ls, hls, hn⟩
      obtain ⟨as, has, bs, hbs, rfl⟩ := mem_joinedLists.mp hls
      rcases List.mem_append.mp hn with hn | hn
      · exact .inl ⟨as, has, hn⟩
      · exact .inr ⟨bs, hbs, hn⟩
  sound seen d hd := by
    rcases List.mem_append.mp hd with hd | hd
    · obtain ⟨n, span, rfl, ms, hms, hrep⟩ := h.sound seen d hd
      obtain ⟨ns, hns⟩ := h'.exists_choice
      exact ⟨n, span, rfl, ms ++ ns, mem_joinedLists.mpr ⟨ms, hms, ns, hns, rfl⟩,
        repeats_append.mpr (.inl hrep)⟩
    · obtain ⟨n, span, rfl, ns, hns, hrep⟩ := h'.sound _ d hd
      -- the name was bound before both walks, or by some choice of the first
      have hsplit : Repeats seen ns n ∨ ∃ ms ∈ xs, n ∈ ms ∧ n ∈ ns := by
        rcases hrep with htwice | ⟨hn, hseen⟩
        · exact .inl (.inl htwice)
        · rcases (h.mem_iff seen n).mp hseen with hseen | ⟨ms, hms, hn'⟩
          · exact .inl (.inr ⟨hn, hseen⟩)
          · exact .inr ⟨ms, hms, hn', hn⟩
      rcases hsplit with hrep | ⟨ms, hms, hboth⟩
      · obtain ⟨ms, hms⟩ := h.exists_choice
        exact ⟨n, span, rfl, ms ++ ns, mem_joinedLists.mpr ⟨ms, hms, ns, hns, rfl⟩,
          repeats_append.mpr (.inr (.inl hrep))⟩
      · exact ⟨n, span, rfl, ms ++ ns, mem_joinedLists.mpr ⟨ms, hms, ns, hns, rfl⟩,
          repeats_append.mpr (.inr (.inr hboth))⟩
  complete seen n ls hls hrep := by
    obtain ⟨ms, hms, ns, hns, rfl⟩ := mem_joinedLists.mp hls
    rcases repeats_append.mp hrep with hrep | hrep
    · obtain ⟨span, hmem⟩ := h.complete seen n ms hms hrep
      exact ⟨span, List.mem_append_left _ hmem⟩
    · have hlater : Repeats (w seen).2 ns n := by
        rcases hrep with (htwice | ⟨hn, hseen⟩) | ⟨hn', hn⟩
        · exact .inl htwice
        · exact .inr ⟨hn, (h.mem_iff seen n).mpr (.inl hseen)⟩
        · exact .inr ⟨hn, (h.mem_iff seen n).mpr (.inr ⟨ms, hms, hn'⟩)⟩
      obtain ⟨span, hmem⟩ := h'.complete _ n ns hns hlater
      exact ⟨span, List.mem_append_right _ hmem⟩

end Exact

/-! ### Alternatives -/

theorem mem_addNames {n : String} {seen more : List String} :
    n ∈ addNames seen more ↔ n ∈ seen ∨ n ∈ more := by
  induction more generalizing seen with
  | nil => simp [addNames]
  | cons k more ih =>
    rw [addNames, List.foldl_cons, ← addNames, ih]
    split
    · rename_i hk
      simp only [List.mem_cons]
      constructor
      · rintro (h | h)
        · exact .inl h
        · exact .inr (.inr h)
      · rintro (h | rfl | h)
        · exact .inl h
        · exact .inl hk
        · exact .inr h
    · simp [or_assoc]

/-- The reports of alternatives are those of the single ones. -/
theorem mem_alternativeClashes {ps : List Pattern} {outer seen : List String} {d : Diagnostic} :
    d ∈ (alternativeClashes ps outer seen).1 ↔ ∃ p ∈ ps, d ∈ (bindingClashes p outer).1 := by
  induction ps generalizing seen with
  | nil => simp [alternativeClashes]
  | cons p ps ih => simp [alternativeClashes, ih]

/-- Behind alternatives the names of all of them are bound. -/
theorem mem_seen_alternativeClashes {ps : List Pattern} {outer seen : List String} {n : String} :
    n ∈ (alternativeClashes ps outer seen).2 ↔
      n ∈ seen ∨ ∃ p ∈ ps, n ∈ (bindingClashes p outer).2 := by
  induction ps generalizing seen with
  | nil => simp [alternativeClashes]
  | cons p ps ih => simp [alternativeClashes, ih, mem_addNames, or_assoc]

/-- **Alternatives that start from the same names are exact together.** -/
theorem exact_alternativeClashes {ps : List Pattern} (hne : ps ≠ [])
    (h : ∀ p ∈ ps, Exact (bindingClashes p) p.namesBound) :
    Exact (fun seen => alternativeClashes ps seen seen) (Pattern.namesBoundAny ps) where
  exists_choice := by
    obtain ⟨p, hp⟩ := List.exists_mem_of_ne_nil ps hne
    obtain ⟨ns, hns⟩ := (h p hp).exists_choice
    exact ⟨ns, Pattern.mem_namesBoundAny.mpr ⟨p, hp, hns⟩⟩
  mem_iff seen n := by
    rw [mem_seen_alternativeClashes]
    constructor
    · rintro (hn | ⟨p, hp, hn⟩)
      · exact .inl hn
      · rcases ((h p hp).mem_iff seen n).mp hn with hn | ⟨ns, hns, hn⟩
        · exact .inl hn
        · exact .inr ⟨ns, Pattern.mem_namesBoundAny.mpr ⟨p, hp, hns⟩, hn⟩
    · rintro (hn | ⟨ns, hns, hn⟩)
      · exact .inl hn
      · obtain ⟨p, hp, hns⟩ := Pattern.mem_namesBoundAny.mp hns
        exact .inr ⟨p, hp, ((h p hp).mem_iff seen n).mpr (.inr ⟨ns, hns, hn⟩)⟩
  sound seen d hd := by
    obtain ⟨p, hp, hd⟩ := mem_alternativeClashes.mp hd
    obtain ⟨n, span, rfl, ns, hns, hrep⟩ := (h p hp).sound seen d hd
    exact ⟨n, span, rfl, ns, Pattern.mem_namesBoundAny.mpr ⟨p, hp, hns⟩, hrep⟩
  complete seen n ns hns hrep := by
    obtain ⟨p, hp, hns⟩ := Pattern.mem_namesBoundAny.mp hns
    obtain ⟨span, hmem⟩ := (h p hp).complete seen n ns hns hrep
    exact ⟨span, mem_alternativeClashes.mpr ⟨p, hp, hmem⟩⟩

/-! ### Patterns -/

theorem exact_listClashes {ps : List Pattern}
    (h : ∀ p ∈ ps, Exact (bindingClashes p) p.namesBound) :
    Exact (listClashes ps) (Pattern.namesBoundAll ps) := by
  induction ps with
  | nil => exact .nothing
  | cons p ps ih =>
    rw [List.forall_mem_cons] at h
    exact h.1.andThen (ih h.2)

theorem exact_fieldClashes {fs : List (String × Pattern)}
    (h : ∀ f ∈ fs, Exact (bindingClashes f.2) f.2.namesBound) :
    Exact (fieldClashes fs) (Pattern.namesBoundFields fs) := by
  induction fs with
  | nil => exact .nothing
  | cons f fs ih =>
    rw [List.forall_mem_cons] at h
    exact h.1.andThen (ih h.2)

theorem exact_itemClashes {items : List (SliceItem Pattern)}
    (h : ∀ p, .element p ∈ items → Exact (bindingClashes p) p.namesBound) :
    Exact (itemClashes items) (Pattern.namesBoundItems items) := by
  induction items with
  | nil => exact .nothing
  | cons item items ih =>
    have hrest := ih fun p hp => h p (List.mem_cons_of_mem _ hp)
    cases item with
    | element p => exact (h p List.mem_cons_self).andThen hrest
    | rest n s =>
      -- a rest marker without a name binds nothing
      have hmarker : Exact (fun seen => if n = "" then ([], seen) else bindName n s seen)
          [if n = "" then [] else [n]] := by
        by_cases hn : n = ""
        · simpa [hn] using Exact.nothing
        · simpa [hn] using Exact.name n s
      exact hmarker.andThen hrest

/-- **The walk through a pattern is exact.** -/
theorem exact_bindingClashes (p : Pattern) : Exact (bindingClashes p) p.namesBound := by
  induction p using Pattern.induction with
  | wildcard | literal | range | regex | call => exact .nothing
  | var i n => exact .name n i.span
  | tuple i ps ih | construct i n ps ih => exact exact_listClashes ih
  | record i fs r ih => exact exact_fieldClashes ih
  | binding i n viaAt p ih => exact ih.andThen (.name n i.span)
  | or i ps ih =>
    cases ps with
    | nil => exact .nothing
    | cons p ps => exact exact_alternativeClashes (by simp) ih
  | slice i items ih => exact exact_itemClashes ih
  | callWith i n k u p ih => exact ih

/-! ### Arms -/

/-- The walk through an alias. -/
def aliasWalk (asName : Option Alias) : Walk :=
  asName.elim (fun seen => ([], seen)) fun a => bindName a.name a.span

theorem exact_aliasWalk (asName : Option Alias) :
    Exact (aliasWalk asName) [(asName.map Alias.name).toList] := by
  cases asName with
  | none => exact .nothing
  | some a => exact .name a.name a.span

/-- **The walk through an arm is exact**: the alias is looked at behind the pattern. -/
theorem exact_armWalk (a : Arm Pattern Expr) :
    Exact (Walk.andThen (bindingClashes a.pattern) (aliasWalk a.asName))
      (joinedLists a.pattern.namesBound [(a.asName.map Alias.name).toList]) :=
  (exact_bindingClashes a.pattern).andThen (exact_aliasWalk a.asName)

theorem fst_aliasWalk (asName : Option Alias) (seen : List String) :
    (aliasWalk asName seen).1 = aliasClash asName seen := by
  cases asName <;> rfl

/-! ### Other reports of an arm -/

/-- Diagnostics of which none is about a name that is bound again. -/
def OtherReports (ds : List Diagnostic) : Prop := ∀ d ∈ ds, d.code ≠ .duplicateBinding

namespace OtherReports

variable {ds es : List Diagnostic}

theorem nil : OtherReports [] := List.forall_mem_nil _

theorem one {code : Code} {span : Span} {args : List Arg}
    (h : decide (code = .duplicateBinding) = false) :
    OtherReports [Diagnostic.new code span args] :=
  List.forall_mem_singleton.mpr (of_decide_eq_false h)

theorem append (hds : OtherReports ds) (hes : OtherReports es) : OtherReports (ds ++ es) :=
  List.forall_mem_append.mpr ⟨hds, hes⟩

theorem ite {c : Prop} [Decidable c] (hds : OtherReports ds) (hes : OtherReports es) :
    OtherReports (if c then ds else es) := by
  split
  · exact hds
  · exact hes

end OtherReports

theorem otherReports_boundMismatch (i : Info) (bounds : List Bound) :
    OtherReports (boundMismatch i bounds) := by
  rw [boundMismatch]
  split
  · exact .one rfl
  · exact .nil

theorem otherReports_rangeProblems (i : Info) (start stop : Option Bound) (inclusive : Bool) :
    OtherReports (rangeProblems i start stop inclusive) := by
  unfold rangeProblems
  split
  · apply OtherReports.ite
    · apply OtherReports.append
      · exact .ite (.one rfl) .nil
      · exact otherReports_boundMismatch i _
    · exact .one rfl
  · exact otherReports_boundMismatch i _

theorem otherReports_nodeProblems (s : Surroundings) (p : Pattern) :
    OtherReports (nodeProblems s p) := by
  cases p with
  | slice i items => exact .append (.ite (.one rfl) .nil) (.ite .nil (.one rfl))
  | range i start stop inclusive => exact otherReports_rangeProblems i start stop inclusive
  | regex i source =>
    apply OtherReports.append
    · exact .ite .nil (.one rfl)
    · split
      · exact .one rfl
      · exact .nil
  | construct i n args =>
    show OtherReports (constructorProblems s i n args)
    rw [constructorProblems]
    split
    · exact .one rfl
    · exact .ite .nil (.one rfl)
  | active i n k u arg => exact .ite .nil (.one rfl)
  | _ => exact .nil

/-- The reports of an arm about names bound again are those of the walk through it. -/
theorem mem_armProblems_duplicate (s : Surroundings) (a : Arm Pattern Expr) {d : Diagnostic}
    (hd : d.code = .duplicateBinding) : d ∈ armProblems s a ↔
      d ∈ (Walk.andThen (bindingClashes a.pattern) (aliasWalk a.asName) []).1 := by
  have hguard : d ∉ guardProblems s a := by
    intro h
    have hother : OtherReports (guardProblems s a) := .ite (.one rfl) .nil
    exact hother d h hd
  have hnodes : d ∉ a.pattern.nodes.flatMap (nodeProblems s) := by
    intro h
    obtain ⟨p, -, hp⟩ := List.mem_flatMap.mp h
    exact otherReports_nodeProblems s p d hp hd
  rw [armProblems, Walk.andThen, fst_aliasWalk]
  simp only [List.mem_append, hguard, hnodes, false_or, or_false]

/-- **Names bound twice are reported exactly.**  An arm has a report of a name that is bound twice if
and only if there is a way to choose one alternative wherever its pattern has alternatives, such that
the names which the pattern then binds, together with the alias of the arm, contain a name twice. -/
theorem duplicate_reported_iff (s : Surroundings) (a : Arm Pattern Expr) :
    (∃ d ∈ armProblems s a, d.code = .duplicateBinding) ↔
      ∃ ns ∈ a.pattern.namesBound, ∃ n, 2 ≤ (ns ++ (a.asName.map Alias.name).toList).count n := by
  have hexact := exact_armWalk a
  constructor
  · intro h
    obtain ⟨d, hd, hcode⟩ := h
    rw [mem_armProblems_duplicate s a hcode] at hd
    obtain ⟨n, span, rfl, ls, hls, hrep⟩ := hexact.sound [] d hd
    obtain ⟨ns, hns, ms, hms, rfl⟩ := mem_joinedLists.mp hls
    obtain rfl := List.mem_singleton.mp hms
    exact ⟨ns, hns, n, repeats_nil_left.mp hrep⟩
  · intro h
    obtain ⟨ns, hns, n, htwice⟩ := h
    have hls := mem_joinedLists.mpr
      ⟨ns, hns, (a.asName.map Alias.name).toList, List.mem_singleton_self _, rfl⟩
    obtain ⟨span, hd⟩ := hexact.complete [] n _ hls (repeats_nil_left.mpr htwice)
    exact ⟨_, (mem_armProblems_duplicate s a rfl).mpr hd, rfl⟩

end PatternPlan.Typed
