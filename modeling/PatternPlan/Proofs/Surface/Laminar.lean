import PatternPlan.Surface.Tree
import Mathlib.Data.List.Pairwise

/-!
# How matches lie in a file

* `Span.Nests`, `Span.Apart`, `Span.Covers` — a span inside another, spans with at most an end point in
  common, and the offsets of a span, its end included;
* `Match.inner` — the matches that occur inside a match;
* `Laid` — matches laid out from one offset to another: behind a match, which leaves room for the
  matches inside it, come those that start where it ends, or later;
* `Laid.append`, `Laid.snoc` — laying out one list behind another, and one match more;
* `Laid.nests_iff`, `Laid.apart` — **what is laid out is nested exactly where one match occurs inside
  another one**, and apart otherwise.
-/

namespace PatternPlan

namespace Span

/-- A span inside another one, which starts earlier and ends no earlier. -/
def Nests (s t : Span) : Prop := s.start < t.start ∧ t.stop ≤ s.stop

/-- Spans that share at most an end point. -/
def Apart (s t : Span) : Prop := s.stop ≤ t.start ∨ t.stop ≤ s.start

/-- An offset in a span, or at one of its ends. -/
def Covers (s : Span) (offset : Int) : Prop := s.start ≤ offset ∧ offset ≤ s.stop

end Span

namespace Surface

/-- The bytes a match covers. -/
def Match.span (m : Match) : Span := m.mark.span

/-- The matches that occur inside a match: in its target, and in the guards and bodies of its arms. -/
def Match.inner (m : Match) : List Match :=
  m.target.allMatches ++ Expr.allMatchesOfArms m.arms

namespace Expr

theorem allMatchesOfList_eq (es : List Expr) : allMatchesOfList es = es.flatMap allMatches := by
  induction es with
  | nil => rfl
  | cons e es ih => rw [allMatchesOfList, ih, List.flatMap_cons]

theorem allMatchesOfFields_eq (fs : List (String × Expr)) :
    allMatchesOfFields fs = fs.flatMap fun f => f.2.allMatches := by
  induction fs with
  | nil => rfl
  | cons f fs ih => rw [allMatchesOfFields, ih, List.flatMap_cons]

end Expr

/-- The matches in the guard and the body of an arm. -/
def armMatches (a : Arm Pattern Expr) : List Match :=
  Expr.allMatchesOfOption a.guard ++ a.body.allMatches

theorem Expr.allMatchesOfArms_eq (arms : List (Arm Pattern Expr)) :
    allMatchesOfArms arms = arms.flatMap armMatches := by
  induction arms with
  | nil => rfl
  | cons a arms ih => rw [allMatchesOfArms, ih, List.flatMap_cons, armMatches]

/-! ### Layouts -/

/-- Matches laid out between two offsets, each in front of the ones inside it. -/
inductive Laid : (lo hi : Int) → List Match → Prop
  | nil {lo hi : Int} : lo ≤ hi → Laid lo hi []
  | cons {lo hi : Int} {m : Match} {ms : List Match} : lo ≤ m.span.start →
    Laid (m.span.start + 1) m.span.stop m.inner → Laid m.span.stop hi ms →
    Laid lo hi (m :: (m.inner ++ ms))

namespace Laid

variable {lo mid hi : Int} {m n : Match} {ms ns : List Match}

theorem le (h : Laid lo hi ms) : lo ≤ hi := by
  induction h with
  | nil hle => exact hle
  | cons hlo _ _ hinner hrest => omega

theorem mono {hi' : Int} (h : Laid lo hi ms) (hle : hi ≤ hi') : Laid lo hi' ms := by
  induction h with
  | nil hlo => exact .nil (Int.le_trans hlo hle)
  | cons hlo hinner _ _ ih => exact .cons hlo hinner (ih hle)

/-- Of matches that start no earlier, nothing has to be known in front of them. -/
theorem earlier {lo' : Int} (h : Laid lo hi ms) (hle : lo' ≤ lo) : Laid lo' hi ms := by
  cases h with
  | nil hlo => exact .nil (Int.le_trans hle hlo)
  | cons hlo hinner hrest => exact .cons (Int.le_trans hle hlo) hinner hrest

/-- **One layout behind another.** -/
theorem append (h : Laid lo mid ms) (h' : Laid mid hi ns) : Laid lo hi (ms ++ ns) := by
  induction h with
  | nil hlo => exact h'.earlier hlo
  | cons hlo hinner _ _ ih =>
    rw [List.cons_append, List.append_assoc]
    exact .cons hlo hinner (ih h')

/-- A match behind a layout, and the matches inside it. -/
theorem snoc (h : Laid lo m.span.start ms) (hinner : Laid (m.span.start + 1) m.span.stop m.inner) :
    Laid lo m.span.stop (ms ++ m :: m.inner) := by
  have hself : Laid m.span.start m.span.stop (m :: (m.inner ++ [])) :=
    .cons (Int.le_refl _) hinner (.nil (Int.le_refl _))
  rw [List.append_nil] at hself
  exact h.append hself

theorem bounds (h : Laid lo hi ms) :
    ∀ m ∈ ms, lo ≤ m.span.start ∧ m.span.start < m.span.stop ∧ m.span.stop ≤ hi := by
  induction h with
  | nil => exact fun m hm => nomatch hm
  | @cons lo hi k ms hlo hinner hrest ihinner ihrest =>
    have hinside := hinner.le
    have hbehind := hrest.le
    intro m hm
    rcases List.mem_cons.mp hm with rfl | hm
    · omega
    · rcases List.mem_append.mp hm with hm | hm
      · have hm := ihinner m hm
        omega
      · have hm := ihrest m hm
        omega

/-- What occurs inside a match lies inside it. -/
theorem nests_of_inner (h : Laid lo hi ms) (hm : m ∈ ms) (hn : n ∈ m.inner) :
    m.span.Nests n.span := by
  induction h with
  | nil => cases hm
  | @cons lo hi k ms hlo hinner hrest ihinner ihrest =>
    rcases List.mem_cons.mp hm with rfl | hm
    · have hn := hinner.bounds n hn
      exact ⟨by omega, hn.2.2⟩
    · rcases List.mem_append.mp hm with hm | hm
      · exact ihinner hm
      · exact ihrest hm

theorem mem_of_inner (h : Laid lo hi ms) (hm : m ∈ ms) (hn : n ∈ m.inner) : n ∈ ms := by
  induction h with
  | nil => cases hm
  | @cons lo hi k ms hlo hinner hrest ihinner ihrest =>
    rw [List.mem_cons, List.mem_append] at hm ⊢
    rcases hm with rfl | hm | hm
    · exact .inr (.inl hn)
    · exact .inr (.inl (ihinner hm))
    · exact .inr (.inr (ihrest hm))

/-- Of two matches the later one occurs inside the earlier one, or starts where that ends or later. -/
theorem pairwise (h : Laid lo hi ms) :
    ms.Pairwise fun m n => n ∈ m.inner ∨ m.span.stop ≤ n.span.start := by
  induction h with
  | nil => exact .nil
  | @cons lo hi k ms hlo hinner hrest ihinner ihrest =>
    refine .cons (fun n hn => ?_) (List.pairwise_append.mpr ⟨ihinner, ihrest, fun m hm n hn => ?_⟩)
    · exact (List.mem_append.mp hn).imp_right fun hn => (hrest.bounds n hn).1
    · exact .inr (Int.le_trans (hinner.bounds m hm).2.2 (hrest.bounds n hn).1)

/-- Matches are laid out by where they start. -/
theorem pairwise_start (h : Laid lo hi ms) :
    ms.Pairwise fun m n => m.span.start < n.span.start := by
  refine h.pairwise.imp_of_mem fun {m n} hm _ hmn => ?_
  rcases hmn with hmn | hmn
  · exact (h.nests_of_inner hm hmn).1
  · have hm := h.bounds m hm
    omega

/-- Two matches are one, or one occurs inside the other, or they are apart. -/
theorem trichotomy (h : Laid lo hi ms) (hm : m ∈ ms) (hn : n ∈ ms) :
    m = n ∨ n ∈ m.inner ∨ m ∈ n.inner ∨ m.span.Apart n.span := by
  let S (m n : Match) : Prop := m = n ∨ n ∈ m.inner ∨ m ∈ n.inner ∨ m.span.Apart n.span
  have hforward : ms.Pairwise S := h.pairwise.imp fun hmn =>
    .inr (hmn.imp_right fun hmn => .inr (.inl hmn))
  have hback : ms.Pairwise (flip S) := h.pairwise.imp fun hmn =>
    .inr (.inr (hmn.imp_right .inr))
  exact hforward.forall_of_forall_of_flip (fun _ _ => .inl rfl) hback hm hn

/-- **One match lies inside another exactly if it occurs inside it.** -/
theorem nests_iff (h : Laid lo hi ms) (hm : m ∈ ms) (hn : n ∈ ms) :
    m.span.Nests n.span ↔ n ∈ m.inner := by
  refine ⟨fun ⟨hstart, hstop⟩ => ?_, h.nests_of_inner hm⟩
  have hwithin := h.bounds n hn
  rcases h.trichotomy hm hn with rfl | hmn | hmn | hmn | hmn
  · omega
  · exact hmn
  · have hback := (h.nests_of_inner hn hmn).1
    omega
  · omega
  · have hself := h.bounds m hm
    omega

/-- Two matches that do not start at the same place lie inside one another, or are apart. -/
theorem apart (h : Laid lo hi ms) (hm : m ∈ ms) (hn : n ∈ ms) (hne : m ≠ n) :
    m.span.Nests n.span ∨ n.span.Nests m.span ∨ m.span.Apart n.span := by
  rcases h.trichotomy hm hn with heq | hmn | hmn | hmn
  · exact absurd heq hne
  · exact .inl (h.nests_of_inner hm hmn)
  · exact .inr (.inl (h.nests_of_inner hn hmn))
  · exact .inr (.inr hmn)

end Laid

end Surface

end PatternPlan
