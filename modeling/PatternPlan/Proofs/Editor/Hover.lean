import Mathlib
import PatternPlan.Editor.Server
import PatternPlan.Proofs.Compile.Reported
import PatternPlan.Proofs.Lowered.Matches
import PatternPlan.Proofs.Surface.Placed

/-!
# Hovering finds the innermost match

An editor asks for the plan of the match at an offset, and is told the one with the shortest span.

* `innermost?_eq_argmin` — it is the first of the shortest ones;
* `Compilation.Plans` — the plan of a match, which stands at the place of the match;
* `laid_compile` — the matches of a file are laid out;
* `innermost_match` — **plans lie inside one another exactly where their matches do**, and are apart
  otherwise; so the shortest span belongs to the innermost match.
-/

namespace PatternPlan

/-! ### The shortest span -/

/-- How long a span is. -/
def Span.length (s : Span) : Int := s.stop - s.start

instance (s : Span) (offset : Int) : Decidable (s.Covers offset) :=
  inferInstanceAs (Decidable (s.start ≤ offset ∧ offset ≤ s.stop))

theorem Span.Nests.length_lt {s t : Span} (h : s.Nests t) : t.length < s.length := by
  obtain ⟨hstart, hstop⟩ := h
  rw [length, length]
  omega

/-- What is found is the first of the shortest plans around the offset. -/
theorem innermost?_eq_argmin (offset : Int) (plans : List Plan) :
    Editor.Document.innermost? offset plans
      = (plans.filter fun p => p.span.Covers offset).argmin fun p => p.span.length := by
  rw [Editor.Document.innermost?, List.argmin, List.foldl_filter]
  congr 1
  funext best p
  by_cases hcovers : p.span.Covers offset
  · have hinside : ¬ (decide (offset < p.span.start) || decide (p.span.stop < offset)) = true := by
      rw [Bool.or_eq_true, decide_eq_true_eq, decide_eq_true_eq]
      have hends := hcovers
      rw [Span.Covers] at hends
      omega
    rw [if_neg hinside, if_pos (decide_eq_true hcovers)]
    cases best with
    | none => rfl
    | some b => rfl
  · have hinside : (decide (offset < p.span.start) || decide (p.span.stop < offset)) = true := by
      rw [Bool.or_eq_true, decide_eq_true_eq, decide_eq_true_eq]
      rw [Span.Covers] at hcovers
      omega
    rw [if_pos hinside, if_neg (by simpa using hcovers)]

/-! ### Plans and matches -/

/-- The plan of a match stands at its place. -/
def Compilation.Plans (c : Compilation) (p : Plan) (m : Surface.Match) : Prop :=
  p ∈ c.plans ∧ m ∈ c.reading.program.allMatches ∧ p.span = m.span

section Compiled

variable {config : Config} {file : String} {source : Text} {c : Compilation}

theorem laid_compile (h : compile? config file source = some c) :
    ∃ hi, Surface.Laid 0 hi c.reading.program.allMatches := by
  obtain ⟨-, rfl⟩ := compile?_eq_some h
  exact Surface.laid_parse source

theorem span_plans (h : compile? config file source = some c) :
    (c.plans.map (·.span)).Perm (c.reading.program.allMatches.map Surface.Match.span) := by
  obtain ⟨-, rfl⟩ := compile?_eq_some h
  exact (matches_preserved config.placeholders file (Reading.of file source).program).2.1

theorem exists_match (h : compile? config file source = some c) {p : Plan} (hp : p ∈ c.plans) :
    ∃ m, c.Plans p m := by
  have hspan := (span_plans h).mem_iff.mp (List.mem_map_of_mem hp)
  obtain ⟨m, hm, heq⟩ := List.mem_map.mp hspan
  exact ⟨m, hp, hm, heq.symm⟩

theorem exists_plan (h : compile? config file source = some c) {m : Surface.Match}
    (hm : m ∈ c.reading.program.allMatches) : ∃ p, c.Plans p m := by
  have hspan := (span_plans h).mem_iff.mpr (List.mem_map_of_mem hm)
  obtain ⟨p, hp, heq⟩ := List.mem_map.mp hspan
  exact ⟨p, hp, hm, heq⟩

/-- No two matches start at the same place, and neither do two plans. -/
theorem nodup_starts (h : compile? config file source = some c) :
    (c.reading.program.allMatches.map fun m => m.span.start).Nodup ∧
      (c.plans.map fun p => p.span.start).Nodup := by
  obtain ⟨hi, hlaid⟩ := laid_compile h
  have hmatches : (c.reading.program.allMatches.map fun m => m.span.start).Nodup :=
    List.pairwise_map.mpr (hlaid.pairwise_start.imp fun hlt => Int.ne_of_lt hlt)
  have hstarts := (span_plans h).map Span.start
  rw [List.map_map, List.map_map] at hstarts
  exact ⟨hmatches, hstarts.nodup_iff.mpr hmatches⟩

theorem Compilation.Plans.plan_eq (h : compile? config file source = some c) {p q : Plan}
    {m : Surface.Match} (hp : c.Plans p m) (hq : c.Plans q m) : p = q :=
  List.inj_on_of_nodup_map (nodup_starts h).2 hp.1 hq.1
    (congrArg Span.start (hp.2.2.trans hq.2.2.symm))

theorem Compilation.Plans.match_eq (h : compile? config file source = some c) {p : Plan}
    {m n : Surface.Match} (hm : c.Plans p m) (hn : c.Plans p n) : m = n :=
  List.inj_on_of_nodup_map (nodup_starts h).1 hm.2.1 hn.2.1
    (congrArg Span.start (hm.2.2.symm.trans hn.2.2))

end Compiled

/-- **Hovering finds the innermost match.**  In a file that can be typed at all, every match has one
plan, which stands at its place.  Two plans lie one inside the other exactly if one of their matches
occurs inside the other one, and are apart otherwise.  An offset has no plan exactly if no plan is
around it; otherwise the plan that is found is around it, and nothing inside its match is. -/
theorem innermost_match (config : Config) (file : String) (source : Text) (c : Compilation)
    (h : compile? config file source = some c) :
    c.plans.Nodup ∧ (∀ p ∈ c.plans, ∃! m, c.Plans p m) ∧
    (∀ m ∈ c.reading.program.allMatches, ∃! p, c.Plans p m) ∧
    (∀ p q m n, c.Plans p m → c.Plans q n →
      (p ≠ q → p.span.Nests q.span ∨ q.span.Nests p.span ∨ p.span.Apart q.span) ∧
      (p.span.Nests q.span ↔ n ∈ m.inner)) ∧
    ∀ offset : Int,
      (Editor.Document.innermost? offset c.plans = none ↔
        ∀ p ∈ c.plans, ¬ p.span.Covers offset) ∧
      ∀ p, Editor.Document.innermost? offset c.plans = some p →
        p ∈ c.plans ∧ p.span.Covers offset ∧
        ∀ m, c.Plans p m → ∀ n ∈ m.inner, ¬ n.span.Covers offset := by
  obtain ⟨hi, hlaid⟩ := laid_compile h
  refine ⟨.of_map _ (nodup_starts h).2, fun p hp => ?_, fun m hm => ?_, ?_, fun offset => ?_⟩
  · obtain ⟨m, hm⟩ := exists_match h hp
    exact ⟨m, hm, fun n hn => hn.match_eq h hm⟩
  · obtain ⟨p, hp⟩ := exists_plan h hm
    exact ⟨p, hp, fun q hq => hq.plan_eq h hp⟩
  · intro p q m n hp hq
    rw [hp.2.2, hq.2.2]
    refine ⟨fun hne => hlaid.apart hp.2.1 hq.2.1 fun heq => ?_, hlaid.nests_iff hp.2.1 hq.2.1⟩
    exact hne (hp.plan_eq h (heq ▸ hq))
  · rw [innermost?_eq_argmin]
    constructor
    · rw [List.argmin_eq_none, List.filter_eq_nil_iff]
      simp only [decide_eq_true_eq]
    · intro p hp
      obtain ⟨hmem, hcovers⟩ := List.mem_filter.mp (List.argmin_mem hp)
      refine ⟨hmem, of_decide_eq_true hcovers, fun m hm n hn hinside => ?_⟩
      -- the plan of a match inside would be shorter
      obtain ⟨q, hq⟩ := exists_plan h (hlaid.mem_of_inner hm.2.1 hn)
      have hnests := hlaid.nests_of_inner hm.2.1 hn
      rw [← hm.2.2, ← hq.2.2] at hnests
      have hfound : q ∈ c.plans.filter fun p => p.span.Covers offset :=
        List.mem_filter.mpr ⟨hq.1, decide_eq_true (hq.2.2 ▸ hinside)⟩
      have hle := @List.le_of_mem_argmin _ _ _ (fun p : Plan => p.span.length) _ _ _ hfound hp
      exact absurd hnests.length_lt (Int.not_lt.mpr hle)

/-- A match on a call whose argument is a match as well: offset 10 is inside both. -/
def targetSource : Text :=
  Text.ofString "match f(match x with | y -> 1) with | _ -> 2"

theorem innermost_match_target : ∃ c p, compile? {} "target.mc" targetSource = some c ∧
    Editor.Document.innermost? 10 c.plans = some p ∧ (p.span.start, p.span.stop) = (8, 29) ∧
    ∀ m, c.Plans p m → ∀ n ∈ m.inner, ¬ n.span.Covers 10 := by
  have hall : ∃ c ∈ compile? {} "target.mc" targetSource,
      ∃ p ∈ Editor.Document.innermost? 10 c.plans, (p.span.start, p.span.stop) = (8, 29) := by
    decide +kernel
  obtain ⟨c, hc, p, hp, hends⟩ := hall
  obtain ⟨-, -, -, -, hfound⟩ := innermost_match {} "target.mc" targetSource c hc
  exact ⟨c, p, hc, hp, hends, ((hfound 10).2 p hp).2.2⟩

end PatternPlan
