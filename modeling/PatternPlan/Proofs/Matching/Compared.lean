import PatternPlan.Proofs.Matching.Exhaustive

/-!
# The test of one pattern against another, step by step

The test whether a pattern covers another is given a number of steps.  Every step goes into one of
the two, so that the number that it is given never runs out, and the test is a recursion on the
patterns.

* `coversStep`, `covers_eq` — one step of the test, and **the test as a recursion of such steps**;
* `Compares` — the constants that the test comes to compare: where alternatives of the first pattern
  are tried one after the other, those of the first that covers;
* `comparedHere` — what is compared at once are constants of the two patterns themselves.
-/

namespace PatternPlan.Typed

open Pattern

/-! ### Depth of the parts -/

theorem depth_le_depthOfList {p : Pattern} {ps : List Pattern} (h : p ∈ ps) :
    p.depth ≤ depthOfList ps := by
  induction ps with
  | nil => cases h
  | cons q ps ih =>
    rw [depthOfList]
    rcases List.mem_cons.mp h with rfl | h
    · exact Nat.le_max_left _ _
    · exact (ih h).trans (Nat.le_max_right _ _)

theorem depth_le_depthOfFields {f : String × Pattern} {fs : List (String × Pattern)} (h : f ∈ fs) :
    f.2.depth ≤ depthOfFields fs := by
  induction fs with
  | nil => cases h
  | cons g fs ih =>
    rw [depthOfFields]
    rcases List.mem_cons.mp h with rfl | h
    · exact Nat.le_max_left _ _
    · exact (ih h).trans (Nat.le_max_right _ _)

theorem depth_le_depthOfItems {p : Pattern} {items : List (SliceItem Pattern)}
    (h : .element p ∈ items) : p.depth ≤ depthOfItems items := by
  induction items with
  | nil => cases h
  | cons item items ih =>
    cases item with
    | element q =>
      rw [depthOfItems]
      rcases List.mem_cons.mp h with heq | h
      · cases heq
        exact Nat.le_max_left _ _
      · exact (ih h).trans (Nat.le_max_right _ _)
    | rest n s =>
      rcases List.mem_cons.mp h with heq | h
      · cases heq
      · exact ih h

/-! ### One step -/

/-- One step of the test, which goes on with `r`. -/
def coversStep (r : Pattern → Pattern → Bool) (a b : Pattern) : Bool :=
  if a.irrefutable then true
  else match a, b with
    | .binding _ _ _ p, b => r p b
    | a, .binding _ _ _ q => r a q
    | a, .or _ qs => !qs.isEmpty && qs.all fun q => r a q
    | .or _ ps, b => ps.any fun p => r p b
    | a, b => headCovers r a b

theorem coversWithin_succ (fuel : Nat) (a b : Pattern) :
    coversWithin (fuel + 1) a b = coversStep (coversWithin fuel) a b := rfl

section Congruence

variable {r r' : Pattern → Pattern → Bool}

theorem allPairs_congr {ps qs : List Pattern} (h : ∀ p ∈ ps, ∀ q ∈ qs, r p q = r' p q) :
    allPairs r ps qs = allPairs r' ps qs := by
  induction ps generalizing qs with
  | nil => cases qs <;> rfl
  | cons p ps ih =>
    cases qs with
    | nil => rfl
    | cons q qs =>
      rw [allPairs, allPairs, h p List.mem_cons_self q List.mem_cons_self,
        ih fun p hp q hq => h p (List.mem_cons_of_mem _ hp) q (List.mem_cons_of_mem _ hq)]

theorem SliceShape.covers_congr {a b : SliceShape}
    (h : ∀ p ∈ a.front ++ a.back, ∀ q ∈ b.front ++ b.back, r p q = r' p q) :
    a.covers r b = a.covers r' b := by
  have hpairs : ∀ ps qs, ps ⊆ a.front ++ a.back → qs ⊆ b.front ++ b.back →
      allPairs r ps qs = allPairs r' ps qs :=
    fun ps qs hps hqs => allPairs_congr fun p hp q hq => h p (hps hp) q (hqs hq)
  have hfront := List.subset_append_left a.front a.back
  have hback := List.subset_append_right a.front a.back
  have hfront' := List.subset_append_left b.front b.back
  have hback' := List.subset_append_right b.front b.back
  rw [covers, covers, hpairs _ _ hfront hfront',
    hpairs _ _ hfront fun p hp => hfront' (List.mem_of_mem_take hp),
    hpairs _ _ hback fun p hp => hfront' (List.mem_of_mem_drop hp),
    hpairs _ _ hback fun p hp => hback' (List.mem_of_mem_drop hp)]

/-- The forms of two patterns are compared in the same way if the parts inside them are. -/
theorem headCovers_congr {a b : Pattern}
    (h : ∀ p q, p.depth + q.depth < a.depth + b.depth → r p q = r' p q) :
    headCovers r a b = headCovers r' a b := by
  unfold headCovers
  split
  · rfl
  · rfl
  · rfl
  · refine allPairs_congr fun p hp q hq => h p q ?_
    have := depth_le_depthOfList hp
    have := depth_le_depthOfList hq
    simp only [depth]
    omega
  · rename_i i n ps j n' qs
    have hpairs : allPairs r ps qs = allPairs r' ps qs := by
      refine allPairs_congr fun p hp q hq => h p q ?_
      have := depth_le_depthOfList hp
      have := depth_le_depthOfList hq
      simp only [depth]
      omega
    rw [hpairs]
  · rename_i i fs s j gs s'
    rw [Bool.eq_iff_iff, List.all_eq_true, List.all_eq_true]
    refine forall₂_congr fun f hf => ?_
    cases hq : fieldPattern? f.1 gs with
    | none => exact Iff.rfl
    | some q =>
      have hparts : r f.2 q = r' f.2 q := by
        refine h f.2 q ?_
        have := depth_le_depthOfFields hf
        have : q.depth ≤ depthOfFields gs := depth_le_depthOfFields (mem_of_fieldPattern? hq)
        simp only [depth]
        omega
      simp only [hparts]
  · rename_i i is j js
    split
    · rename_i s t hs ht
      refine SliceShape.covers_congr fun p hp q hq => h p q ?_
      have := depth_le_depthOfItems (mem_of_mem_sliceShape? hs hp)
      have := depth_le_depthOfItems (mem_of_mem_sliceShape? ht hq)
      simp only [depth]
      omega
    · rfl
  · rfl
  · rename_i i n k u arg j n' l u' arg'
    cases arg with
    | none => rfl
    | some p =>
      cases arg' with
      | none => rfl
      | some q =>
        have hparts : r p q = r' p q := h p q (by simp only [depth]; omega)
        simp only [hparts]
  · rfl

/-- So is a whole step. -/
theorem coversStep_congr {a b : Pattern}
    (h : ∀ p q, p.depth + q.depth < a.depth + b.depth → r p q = r' p q) :
    coversStep r a b = coversStep r' a b := by
  unfold coversStep
  split
  · rfl
  · split
    · exact h _ _ (by simp only [depth]; omega)
    · exact h _ _ (by simp only [depth]; omega)
    · rename_i i qs _
      have hall : (qs.all fun q => r a q) = qs.all fun q => r' a q := by
        rw [Bool.eq_iff_iff, List.all_eq_true, List.all_eq_true]
        refine forall₂_congr fun q hq => ?_
        have := depth_le_depthOfList hq
        rw [h a q (by simp only [depth]; omega)]
      rw [hall]
    · rename_i i ps _ _
      rw [Bool.eq_iff_iff, List.any_eq_true, List.any_eq_true]
      refine exists_congr fun p => and_congr_right fun hp => ?_
      have := depth_le_depthOfList hp
      rw [h p b (by simp only [depth]; omega)]
    · exact headCovers_congr h

end Congruence

/-- More steps than the patterns are deep give one answer. -/
theorem coversWithin_congr {fuel fuel' : Nat} {a b : Pattern} (h : a.depth + b.depth < fuel)
    (h' : a.depth + b.depth < fuel') : coversWithin fuel a b = coversWithin fuel' a b := by
  induction fuel generalizing fuel' a b with
  | zero => omega
  | succ fuel ih =>
    obtain ⟨fuel', rfl⟩ : ∃ k, fuel' = k + 1 := ⟨fuel' - 1, by omega⟩
    rw [coversWithin_succ, coversWithin_succ]
    exact coversStep_congr fun p q hlt => ih (by omega) (by omega)

/-- **The test goes on with itself.** -/
theorem covers_eq (a b : Pattern) : covers a b = coversStep covers a b := by
  rw [covers, coversWithin_succ]
  refine coversStep_congr fun p q hlt => ?_
  rw [covers]
  exact coversWithin_congr hlt (Nat.lt_succ_self _)

/-! ### What is compared -/

/-- The elements of two slices that meet: from the front, and behind a rest marker from the back. -/
def SliceShape.pairs (a b : SliceShape) : List (Pattern × Pattern) :=
  if !a.hasRest then a.front.zip b.front
  else if !b.hasRest then
    a.front.zip (b.front.take a.front.length)
      ++ a.back.zip (b.front.drop (b.front.length - a.back.length))
  else
    a.front.zip (b.front.take a.front.length)
      ++ a.back.zip (b.back.drop (b.back.length - a.back.length))

theorem SliceShape.mem_pairs {a b : SliceShape} {c : Pattern × Pattern} (h : c ∈ a.pairs b) :
    c.1 ∈ a.front ++ a.back ∧ c.2 ∈ b.front ++ b.back := by
  obtain ⟨p, q⟩ := c
  rw [pairs] at h
  split at h
  · obtain ⟨hp, hq⟩ := List.of_mem_zip h
    exact ⟨List.mem_append_left _ hp, List.mem_append_left _ hq⟩
  · split at h
    · rcases List.mem_append.mp h with h | h
      · obtain ⟨hp, hq⟩ := List.of_mem_zip h
        exact ⟨List.mem_append_left _ hp, List.mem_append_left _ (List.mem_of_mem_take hq)⟩
      · obtain ⟨hp, hq⟩ := List.of_mem_zip h
        exact ⟨List.mem_append_right _ hp, List.mem_append_left _ (List.mem_of_mem_drop hq)⟩
    · rcases List.mem_append.mp h with h | h
      · obtain ⟨hp, hq⟩ := List.of_mem_zip h
        exact ⟨List.mem_append_left _ hp, List.mem_append_left _ (List.mem_of_mem_take hq)⟩
      · obtain ⟨hp, hq⟩ := List.of_mem_zip h
        exact ⟨List.mem_append_right _ hp, List.mem_append_right _ (List.mem_of_mem_drop hq)⟩

/-- The constants of two patterns themselves that are compared: a constant with a constant or with
the bounds of a range, and the bounds of two ranges one by one. -/
def comparedHere : Pattern → Pattern → List (Literal × Literal)
  | .literal _ l, .literal _ k => [(l, k)]
  | .range _ start stop _, .literal _ k =>
    (start.toList ++ stop.toList).map fun b => (b.value, k)
  | .range _ start stop _, .range _ start' stop' _ =>
    (start.toList.zip start'.toList ++ stop.toList.zip stop'.toList).map fun c =>
      (c.1.value, c.2.value)
  | _, _ => []

/-- Whether a pattern is neither a name bound to a pattern nor made of alternatives. -/
def hasHead : Pattern → Bool
  | .binding _ _ _ _ | .or _ _ => false
  | _ => true

/-- `Compares a b l k`: asked whether `a` covers `b`, the test comes to compare the constant `l` of
`a` with the constant `k` of `b`.  Alternatives of `b` are all looked at; those of `a` up to the
first that covers. -/
inductive Compares : Pattern → Pattern → Literal → Literal → Prop
  | here {a b : Pattern} {l k : Literal} : (l, k) ∈ comparedHere a b → Compares a b l k
  | bindingLeft {i : Info} {n : String} {viaAt : Bool} {p b : Pattern} {l k : Literal} :
      Compares p b l k → Compares (.binding i n viaAt p) b l k
  | bindingRight {i : Info} {n : String} {viaAt : Bool} {a q : Pattern} {l k : Literal} :
      Compares a q l k → Compares a (.binding i n viaAt q) l k
  | orRight {i : Info} {qs : List Pattern} {a q : Pattern} {l k : Literal} :
      q ∈ qs → Compares a q l k → Compares a (.or i qs) l k
  | orLeft {i : Info} {ps : List Pattern} {p b : Pattern} {l k : Literal} : hasHead b = true →
      (ps.find? fun p => covers p b) = some p → Compares p b l k → Compares (.or i ps) b l k
  | tuple {i j : Info} {ps qs : List Pattern} {index : Nat} {p q : Pattern} {l k : Literal} :
      ps.length = qs.length → ps[index]? = some p → qs[index]? = some q → Compares p q l k →
      Compares (.tuple i ps) (.tuple j qs) l k
  | construct {i j : Info} {n : String} {ps qs : List Pattern} {index : Nat} {p q : Pattern}
      {l k : Literal} : ps[index]? = some p → qs[index]? = some q → Compares p q l k →
      Compares (.construct i n ps) (.construct j n qs) l k
  | record {i j : Info} {fs gs : List (String × Pattern)} {r s : Bool} {f : String × Pattern}
      {q : Pattern} {l k : Literal} : f ∈ fs → fieldPattern? f.1 gs = some q →
      Compares f.2 q l k → Compares (.record i fs r) (.record j gs s) l k
  | slice {i j : Info} {is js : List (SliceItem Pattern)} {s t : SliceShape} {p q : Pattern}
      {l k : Literal} : sliceShape? is = some s → sliceShape? js = some t → (p, q) ∈ s.pairs t →
      Compares p q l k → Compares (.slice i is) (.slice j js) l k
  | active {i j : Info} {n : String} {kind : RecognizerKind} {u : Bool} {p q : Pattern}
      {l k : Literal} : Compares p q l k →
      Compares (.active i n kind false (some p)) (.active j n kind u (some q)) l k

end PatternPlan.Typed
