import PatternPlan.Proofs.Matching.Compared
import Mathlib.Data.String.Basic
import Mathlib.Tactic.Linarith
import Mathlib.Tactic.Ring

/-!
# When one pattern covers another, it accepts whatever the other accepts

The test goes into both patterns at once and compares constants, keys and forms.

* `Double.less_iff`, `Literal.atMost_of_compare?` — **the order of constants** is the order of the
  numbers and texts they stand for, as long as both have one type;
* `Pattern.At`, `Pattern.OneTyped` — the places of a pattern, and two patterns whose constants have
  one type wherever they stand in the same place, so that no constants of two types are compared;
* `Pattern.HasFields` — the records inside a value have the fields that a pattern names there;
* `Comparable`, `RightCover` — what the test relies on, and the test being right about patterns of
  a depth wherever it can rely on it;
* `rightCover_covers`, `covers_sound` — **soundness**, by induction on the depth of the patterns.
-/

namespace PatternPlan

/-! ### Doubles by value -/

namespace Double

theorem scaledTo_mul (d : Double) {e : Int} (he : e ≤ d.exponent) :
    (d.scaledTo e : ℚ) * 2 ^ e = d.toRat := by
  have hpow : ((2 : ℚ) ^ (d.exponent - e).toNat) * 2 ^ e = 2 ^ d.exponent := by
    rw [← zpow_natCast, ← zpow_add₀ (by norm_num), Int.toNat_of_nonneg (by omega)]
    congr 1
    omega
  have hcast : ((powTwo (d.exponent - e).toNat : ℕ) : ℚ) = 2 ^ (d.exponent - e).toNat := by
    simp [powTwo]
  rw [scaledTo, toRat, ← hpow]
  split
  · push_cast
    rw [hcast]
    ring
  · push_cast
    rw [hcast]
    ring

/-- Order by value is order of the numbers. -/
theorem less_iff (a b : Double) : a.less b = true ↔ a.toRat < b.toRat := by
  have hpos : (0 : ℚ) < 2 ^ min a.exponent b.exponent := zpow_pos (by norm_num) _
  rw [less, decide_eq_true_eq, ← a.scaledTo_mul (min_le_left a.exponent b.exponent),
    ← b.scaledTo_mul (min_le_right a.exponent b.exponent), mul_lt_mul_iff_left₀ hpos, Int.cast_lt]

/-- Equality by value is equality of the numbers. -/
theorem same_iff (a b : Double) : a.same b = true ↔ a.toRat = b.toRat := by
  have hpos : (2 : ℚ) ^ min a.exponent b.exponent ≠ 0 := zpow_ne_zero _ (by norm_num)
  rw [same, decide_eq_true_eq, ← a.scaledTo_mul (min_le_left a.exponent b.exponent),
    ← b.scaledTo_mul (min_le_right a.exponent b.exponent), mul_left_inj' hpos, Int.cast_inj]

end Double

/-! ### Constants of one type -/

namespace Literal

theorem same_eq_equal (a b : Literal) : a.same b = a.equal b := by
  cases a <;> cases b <;> try rfl
  rename_i a b
  rw [Bool.eq_iff_iff]
  show a.same b = true ↔ decide (a.toRat = b.toRat) = true
  rw [decide_eq_true_eq, Double.same_iff]

theorem equal_comm (a b : Literal) : a.equal b = b.equal a := by
  cases a <;> cases b <;> simp only [equal, eq_comm]

theorem equal_trans {a b c : Literal} (hab : a.equal b = true) (hbc : b.equal c = true) :
    a.equal c = true := by
  cases a <;> cases b <;> simp [equal] at hab <;> cases c <;> simp [equal] at hbc ⊢ <;>
    exact hab.trans hbc

theorem ofDoubles_eq_lt {a b : Double} (h : compare?.ofDoubles a b = .lt) : a.toRat < b.toRat := by
  rw [compare?.ofDoubles] at h
  split at h
  · rename_i hless
    exact (Double.less_iff a b).mp hless
  · split at h <;> cases h

theorem ofDoubles_eq_eq {a b : Double} (h : compare?.ofDoubles a b = .eq) : a.toRat = b.toRat := by
  rw [compare?.ofDoubles] at h
  split at h
  · cases h
  · rename_i hab
    split at h
    · cases h
    · rename_i hba
      rw [Double.less_iff] at hab hba
      exact le_antisymm (not_lt.mp hba) (not_lt.mp hab)

/-- What the comparison of two constants of one type says. -/
theorem below_of_compare? {a b : Literal} (ht : Ty.ofLiteral a = Ty.ofLiteral b)
    (h : a.compare? b = some .lt) : a.below b = true := by
  cases a <;> cases b <;> simp [compare?] at h <;> simp [Ty.ofLiteral, Ty.int, Ty.float] at ht
  · simpa [below] using Int.compare_eq_lt.mp h
  · simpa [below] using ofDoubles_eq_lt h
  · simpa [below] using compare_lt_iff_lt.mp h

theorem equal_of_compare? {a b : Literal} (ht : Ty.ofLiteral a = Ty.ofLiteral b)
    (h : a.compare? b = some .eq) : a.equal b = true := by
  cases a <;> cases b <;> simp [compare?] at h <;> simp [Ty.ofLiteral, Ty.int, Ty.float] at ht
  · simpa [equal] using h
  · simpa [equal] using ofDoubles_eq_eq h
  · simpa [equal] using h

theorem atMost_of_compare? {a b : Literal} {o : Ordering} (ht : Ty.ofLiteral a = Ty.ofLiteral b)
    (h : a.compare? b = some o) (ho : o ≠ .gt) : a.atMost b = true := by
  rw [atMost, Bool.or_eq_true]
  cases o with
  | lt => exact .inl (below_of_compare? ht h)
  | eq => exact .inr (equal_of_compare? ht h)
  | gt => exact absurd rfl ho

theorem below_of_below_of_atMost {a b c : Literal} (hab : a.below b = true)
    (hbc : b.atMost c = true) : a.below c = true := by
  cases a <;> cases b <;> simp only [below, decide_eq_true_eq, Bool.false_eq_true] at hab <;>
    cases c <;> simp only [atMost, below, equal, Bool.or_eq_true, decide_eq_true_eq,
      Bool.false_eq_true, reduceCtorEq, or_self, int.injEq, text.injEq] at hbc ⊢ <;>
    rcases hbc with h | h
  · exact lt_trans hab h
  · exact h ▸ hab
  · exact lt_trans hab h
  · exact h ▸ hab
  · exact lt_trans hab h
  · exact h ▸ hab

theorem below_of_atMost_of_below {a b c : Literal} (hab : a.atMost b = true)
    (hbc : b.below c = true) : a.below c = true := by
  cases b <;> cases c <;> simp only [below, decide_eq_true_eq, Bool.false_eq_true] at hbc <;>
    cases a <;> simp only [atMost, below, equal, Bool.or_eq_true, decide_eq_true_eq,
      Bool.false_eq_true, reduceCtorEq, or_self, int.injEq, text.injEq] at hab ⊢ <;>
    rcases hab with h | h
  · exact lt_trans h hbc
  · exact h ▸ hbc
  · exact lt_trans h hbc
  · exact h ▸ hbc
  · exact lt_trans h hbc
  · exact h ▸ hbc

theorem atMost_trans {a b c : Literal} (hab : a.atMost b = true) (hbc : b.atMost c = true) :
    a.atMost c = true := by
  by_cases h : a.below b = true
  · rw [atMost, below_of_below_of_atMost h hbc, Bool.true_or]
  · have heq : a.equal b = true := by simpa [atMost, h] using hab
    by_cases h' : b.below c = true
    · rw [atMost, below_of_atMost_of_below hab h', Bool.true_or]
    · have heq' : b.equal c = true := by simpa [atMost, h'] using hbc
      rw [atMost, Bool.or_eq_true]
      exact .inr (equal_trans heq heq')

end Literal

namespace Typed

namespace Pattern

/-! ### Places -/

/-- One step into a pattern.  Alternatives and names bound to a whole pattern take no step. -/
inductive Step where
  | tuple (arity index : Nat)
  | arg (constructor : String) (index : Nat)
  | key (name : String)
  | element
  | payload (recognizer : String)

/-- `At p place q`: the pattern `q` stands in a place of `p`. -/
inductive At : Pattern → List Step → Pattern → Prop
  | here (p : Pattern) : At p [] p
  | binding {i : Info} {n : String} {viaAt : Bool} {p q : Pattern} {place : List Step} :
      At p place q → At (.binding i n viaAt p) place q
  | or {i : Info} {ps : List Pattern} {p q : Pattern} {place : List Step} :
      p ∈ ps → At p place q → At (.or i ps) place q
  | tuple {i : Info} {ps : List Pattern} {p q : Pattern} {place : List Step} {n k : Nat} :
      ps.length = n → ps[k]? = some p → At p place q → At (.tuple i ps) (.tuple n k :: place) q
  | construct {i : Info} {n : String} {ps : List Pattern} {p q : Pattern} {place : List Step}
      {k : Nat} : ps[k]? = some p → At p place q → At (.construct i n ps) (.arg n k :: place) q
  | record {i : Info} {fs : List (String × Pattern)} {hasRest : Bool} {n : String}
      {p q : Pattern} {place : List Step} : (n, p) ∈ fs → At p place q →
      At (.record i fs hasRest) (.key n :: place) q
  | slice {i : Info} {items : List (SliceItem Pattern)} {p q : Pattern} {place : List Step} :
      .element p ∈ items → At p place q → At (.slice i items) (.element :: place) q
  | active {i : Info} {n : String} {k : RecognizerKind} {unresolved : Bool} {p q : Pattern}
      {place : List Step} : At p place q →
      At (.active i n k unresolved (some p)) (.payload n :: place) q

/-- The constants that a node compares values with. -/
def constants : Pattern → List Literal
  | .literal _ l => [l]
  | .range _ start stop _ => (start.toList ++ stop.toList).map Bound.value
  | _ => []

/-- Constants in the same place of two patterns have one type. -/
def OneTyped (a b : Pattern) : Prop :=
  ∀ place x y, At a place x → At b place y →
    ∀ l ∈ x.constants, ∀ k ∈ y.constants, Ty.ofLiteral l = Ty.ofLiteral k

theorem constants_of_comparedHere {a b : Pattern} {l k : Literal}
    (h : (l, k) ∈ comparedHere a b) : l ∈ a.constants ∧ k ∈ b.constants := by
  unfold comparedHere at h
  split at h
  · simpa [constants] using h
  · obtain ⟨c, hc, heq⟩ := List.mem_map.mp h
    cases heq
    exact ⟨List.mem_map_of_mem hc, List.mem_singleton_self _⟩
  · obtain ⟨⟨c, d⟩, hc, heq⟩ := List.mem_map.mp h
    cases heq
    rcases List.mem_append.mp hc with hc | hc
    · exact ⟨List.mem_map_of_mem (List.mem_append_left _ (List.of_mem_zip hc).1),
        List.mem_map_of_mem (List.mem_append_left _ (List.of_mem_zip hc).2)⟩
    · exact ⟨List.mem_map_of_mem (List.mem_append_right _ (List.of_mem_zip hc).1),
        List.mem_map_of_mem (List.mem_append_right _ (List.of_mem_zip hc).2)⟩
  · cases h

/-- What is compared stands in the same place of the two patterns. -/
theorem exists_at_of_compares {a b : Pattern} {l k : Literal} (h : Compares a b l k) :
    ∃ place x y, At a place x ∧ At b place y ∧ l ∈ x.constants ∧ k ∈ y.constants := by
  induction h with
  | here h => exact ⟨[], _, _, .here _, .here _, constants_of_comparedHere h⟩
  | bindingLeft _ ih =>
    obtain ⟨place, x, y, hx, hy, h⟩ := ih
    exact ⟨place, x, y, .binding hx, hy, h⟩
  | bindingRight _ ih =>
    obtain ⟨place, x, y, hx, hy, h⟩ := ih
    exact ⟨place, x, y, hx, .binding hy, h⟩
  | orRight hq _ ih =>
    obtain ⟨place, x, y, hx, hy, h⟩ := ih
    exact ⟨place, x, y, hx, .or hq hy, h⟩
  | orLeft _ hfind _ ih =>
    obtain ⟨place, x, y, hx, hy, h⟩ := ih
    exact ⟨place, x, y, .or (List.mem_of_find?_eq_some hfind) hx, hy, h⟩
  | tuple hlen hp hq _ ih =>
    obtain ⟨place, x, y, hx, hy, h⟩ := ih
    exact ⟨_, x, y, .tuple hlen hp hx, .tuple rfl hq hy, h⟩
  | construct hp hq _ ih =>
    obtain ⟨place, x, y, hx, hy, h⟩ := ih
    exact ⟨_, x, y, .construct hp hx, .construct hq hy, h⟩
  | record hf hq _ ih =>
    obtain ⟨place, x, y, hx, hy, h⟩ := ih
    exact ⟨_, x, y, .record hf hx, .record (mem_of_fieldPattern? hq) hy, h⟩
  | slice hs ht hpair _ ih =>
    obtain ⟨place, x, y, hx, hy, h⟩ := ih
    obtain ⟨hp, hq⟩ := SliceShape.mem_pairs hpair
    exact ⟨_, x, y, .slice (mem_of_mem_sliceShape? hs hp) hx,
      .slice (mem_of_mem_sliceShape? ht hq) hy, h⟩
  | active _ ih =>
    obtain ⟨place, x, y, hx, hy, h⟩ := ih
    exact ⟨_, x, y, .active hx, .active hy, h⟩

theorem OneTyped.of_compares {a b : Pattern} (h : OneTyped a b) {l k : Literal}
    (hc : Compares a b l k) : Ty.ofLiteral l = Ty.ofLiteral k := by
  obtain ⟨place, x, y, hx, hy, hl, hk⟩ := exists_at_of_compares hc
  exact h place x y hx hy l hl k hk

/-- `Reaches m p v q w`: matching `p` with `v` comes to match `q` with `w`. -/
inductive Reaches (m : Meaning) : Pattern → Value → Pattern → Value → Prop
  | here (p : Pattern) (v : Value) : Reaches m p v p v
  | binding {i : Info} {n : String} {viaAt : Bool} {p q : Pattern} {v w : Value} :
      Reaches m p v q w → Reaches m (.binding i n viaAt p) v q w
  | or {i : Info} {ps : List Pattern} {p q : Pattern} {v w : Value} :
      p ∈ ps → Reaches m p v q w → Reaches m (.or i ps) v q w
  | tuple {i : Info} {ps : List Pattern} {vs : List Value} {k : Nat} {p q : Pattern}
      {v w : Value} : ps[k]? = some p → vs[k]? = some v → Reaches m p v q w →
      Reaches m (.tuple i ps) (.tuple vs) q w
  | construct {i : Info} {n : String} {ps : List Pattern} {vs : List Value} {k : Nat}
      {p q : Pattern} {v w : Value} : ps[k]? = some p → vs[k]? = some v → Reaches m p v q w →
      Reaches m (.construct i n ps) (.variant n vs) q w
  | record {i : Info} {fs : List (String × Pattern)} {hasRest : Bool}
      {gs : List (String × Value)} {f : String × Pattern} {q : Pattern} {v w : Value} :
      f ∈ fs → Value.field? f.1 gs = some v → Reaches m f.2 v q w →
      Reaches m (.record i fs hasRest) (.record gs) q w
  | slice {i : Info} {items : List (SliceItem Pattern)} {vs : List Value} {p q : Pattern}
      {v w : Value} : .element p ∈ items → v ∈ vs → Reaches m p v q w →
      Reaches m (.slice i items) (.array vs) q w
  | payload {i : Info} {n : String} {k : RecognizerKind} {unresolved : Bool} {p q : Pattern}
      {u v w : Value} : m.recognize n u = some v → Reaches m p v q w →
      Reaches m (.active i n k unresolved (some p)) u q w

/-- The records inside a value have the fields that a pattern names there. -/
def HasFields (m : Meaning) (p : Pattern) (v : Value) : Prop :=
  ∀ i fs hasRest gs, Reaches m p v (.record i fs hasRest) (.record gs) →
    ∀ f ∈ fs, f.1 ∈ gs.map Prod.fst

end Pattern

/-! ### Lists of patterns -/

open Pattern

variable {m : Meaning}

/-- Patterns that cover others one by one accept what these accept. -/
theorem acceptsAll_of_allPairs {r : Pattern → Pattern → Bool} {ps qs : List Pattern}
    {vs : List Value} (h : allPairs r ps qs = true) (hq : acceptsAll m qs vs = true)
    (hstep : ∀ (k : Nat) p q v, ps[k]? = some p → qs[k]? = some q → vs[k]? = some v →
      r p q = true → q.accepts m v = true → p.accepts m v = true) :
    acceptsAll m ps vs = true := by
  induction ps generalizing qs vs with
  | nil =>
    cases qs with
    | nil => exact hq
    | cons q qs => simp [allPairs] at h
  | cons p ps ih =>
    cases qs with
    | nil => simp [allPairs] at h
    | cons q qs =>
      cases vs with
      | nil => simp [acceptsAll] at hq
      | cons v vs =>
        rw [allPairs, Bool.and_eq_true] at h
        rw [acceptsAll, Bool.and_eq_true] at hq ⊢
        refine ⟨hstep 0 p q v rfl rfl rfl h.1 hq.1, ih h.2 hq.2 fun k => ?_⟩
        exact hstep (k + 1)

theorem length_of_allPairs {r : Pattern → Pattern → Bool} {ps qs : List Pattern}
    (h : allPairs r ps qs = true) : ps.length = qs.length := by
  induction ps generalizing qs with
  | nil =>
    cases qs with
    | nil => rfl
    | cons q qs => simp [allPairs] at h
  | cons p ps ih =>
    cases qs with
    | nil => simp [allPairs] at h
    | cons q qs =>
      rw [allPairs, Bool.and_eq_true] at h
      rw [List.length_cons, List.length_cons, ih h.2]

theorem acceptsAll_take {ps : List Pattern} {vs : List Value} (n : Nat)
    (h : acceptsAll m ps vs = true) : acceptsAll m (ps.take n) (vs.take n) = true :=
  acceptsAll_iff.mpr (List.forall₂_take n (acceptsAll_iff.mp h))

theorem acceptsAll_drop {ps : List Pattern} {vs : List Value} (n : Nat)
    (h : acceptsAll m ps vs = true) : acceptsAll m (ps.drop n) (vs.drop n) = true :=
  acceptsAll_iff.mpr (List.forall₂_drop n (acceptsAll_iff.mp h))

/-- A slice with a rest marker accepts an array if its ends accept the ends of the array. -/
theorem acceptsItems_of_ends {items : List (SliceItem Pattern)} {s : SliceShape}
    (hs : sliceShape? items = some s) (hr : s.hasRest = true) {vs : List Value}
    (hlen : s.front.length + s.back.length ≤ vs.length)
    (hfront : acceptsAll m s.front (vs.take s.front.length) = true)
    (hback : acceptsAll m s.back (vs.drop (vs.length - s.back.length)) = true) :
    acceptsItems m items vs = true := by
  refine (acceptsItems_open hs hr vs).mpr ⟨vs.take s.front.length,
    (vs.drop s.front.length).take (vs.length - s.back.length - s.front.length),
    vs.drop (vs.length - s.back.length), ?_, hfront, hback⟩
  have hdrop : vs.drop (vs.length - s.back.length)
      = (vs.drop s.front.length).drop (vs.length - s.back.length - s.front.length) := by
    rw [List.drop_drop]
    congr 1
    omega
  rw [hdrop, List.append_assoc, List.take_append_drop, List.take_append_drop]

theorem mem_zip_of_index {ps qs : List Pattern} {k : Nat} {p q : Pattern} (hp : ps[k]? = some p)
    (hq : qs[k]? = some q) : (p, q) ∈ ps.zip qs :=
  List.mem_of_getElem? (List.getElem?_zip_eq_some.mpr ⟨hp, hq⟩)

/-- A slice that covers another accepts the arrays that the other accepts. -/
theorem acceptsItems_of_covers {r : Pattern → Pattern → Bool} {is js : List (SliceItem Pattern)}
    {a b : SliceShape} {vs : List Value} (ha : sliceShape? is = some a)
    (hb : sliceShape? js = some b) (h : a.covers r b = true)
    (hstep : ∀ p q v, (p, q) ∈ a.pairs b → v ∈ vs → r p q = true → q.accepts m v = true →
      p.accepts m v = true)
    (hj : acceptsItems m js vs = true) : acceptsItems m is vs = true := by
  -- one list of elements of `a` against one of `b`, both met with elements of the array
  have hpairs : ∀ ps qs ws, ps.zip qs ⊆ a.pairs b → ws ⊆ vs → allPairs r ps qs = true →
      acceptsAll m qs ws = true → acceptsAll m ps ws = true := by
    intro ps qs ws hzip hws hall hacc
    refine acceptsAll_of_allPairs hall hacc fun k p q w hp hq hw => ?_
    exact hstep p q w (hzip (mem_zip_of_index hp hq)) (hws (List.mem_of_getElem? hw))
  rw [SliceShape.covers] at h
  rw [SliceShape.pairs] at hpairs
  cases hra : a.hasRest with
  | false =>
    simp only [hra, Bool.not_false, if_true, Bool.and_eq_true, Bool.not_eq_true'] at h hpairs
    rw [acceptsItems_closed hb h.1] at hj
    rw [acceptsItems_closed ha hra]
    exact hpairs _ _ _ (List.Subset.refl _) (List.Subset.refl _) h.2 hj
  | true =>
    cases hrb : b.hasRest with
    | false =>
      simp only [hra, hrb, Bool.not_true, Bool.not_false, if_true, Bool.false_eq_true, if_false,
        Bool.and_eq_true, decide_eq_true_eq] at h hpairs
      obtain ⟨⟨hlen, hfront⟩, hback⟩ := h
      rw [acceptsItems_closed hb hrb] at hj
      have hvs := acceptsAll_length hj
      refine acceptsItems_of_ends ha hra (by omega) ?_ ?_
      · exact hpairs _ _ _ (List.subset_append_left _ _) (List.take_subset _ _) hfront
          (acceptsAll_take _ hj)
      · rw [← hvs]
        exact hpairs _ _ _ (List.subset_append_right _ _) (List.drop_subset _ _) hback
          (acceptsAll_drop _ hj)
    | true =>
      simp only [hra, hrb, Bool.not_true, Bool.false_eq_true, if_false, Bool.and_eq_true,
        decide_eq_true_eq] at h hpairs
      obtain ⟨⟨⟨hfl, hbl⟩, hfront⟩, hback⟩ := h
      obtain ⟨xs, ys, zs, rfl, hx, hz⟩ := (acceptsItems_open hb hrb vs).mp hj
      have hxl := acceptsAll_length hx
      have hzl := acceptsAll_length hz
      have hlen : (xs ++ ys ++ zs).length = xs.length + ys.length + zs.length := by
        simp only [List.length_append]
      refine acceptsItems_of_ends ha hra (by omega) ?_ ?_
      · have htake : (xs ++ ys ++ zs).take a.front.length = xs.take a.front.length := by
          rw [List.append_assoc, List.take_append_of_le_length (by omega)]
        rw [htake]
        exact hpairs _ _ _ (List.subset_append_left _ _)
          (fun w hw => by simp [List.mem_of_mem_take hw]) hfront (acceptsAll_take _ hx)
      · have hdrop : (xs ++ ys ++ zs).drop ((xs ++ ys ++ zs).length - a.back.length)
            = zs.drop (b.back.length - a.back.length) := by
          rw [List.drop_append, List.drop_of_length_le (by simp; omega), List.nil_append]
          congr 1
          simp only [List.length_append]
          omega
        rw [hdrop]
        exact hpairs _ _ _ (List.subset_append_right _ _)
          (fun w hw => by simp [List.mem_of_mem_drop hw]) hback (acceptsAll_drop _ hz)

/-! ### Ranges -/

/-- A range that holds a constant holds every value equal to it. -/
theorem within_of_rangeHolds {start stop : Option Bound} {inclusive : Bool} {l w : Literal}
    (ht : ∀ b ∈ start.toList ++ stop.toList, Ty.ofLiteral b.value = Ty.ofLiteral l)
    (h : rangeHolds start stop inclusive l = true) (hw : l.equal w = true) :
    w.within start stop inclusive = true := by
  have hlw : l.atMost w = true := by rw [Literal.atMost, hw, Bool.or_true]
  have hwl : w.atMost l = true := by
    rw [Literal.atMost, Literal.equal_comm, hw, Bool.or_true]
  rw [rangeHolds.eq_def, Bool.and_eq_true] at h
  rw [Literal.within, Bool.and_eq_true]
  constructor
  · cases start with
    | none => rfl
    | some s =>
      have hs := h.1
      simp only [startsBy] at hs
      split at hs
      · rename_i o ho
        refine Literal.atMost_trans (Literal.atMost_of_compare? (ht s (by simp)) ho ?_) hlw
        simpa using hs
      · cases hs
  · cases stop with
    | none => rfl
    | some e =>
      have he := h.2
      have hte := (ht e (by simp)).symm
      simp only at he
      show (if inclusive then w.atMost e.value else w.below e.value) = true
      split at he
      · rename_i hlt
        have hbelow := Literal.below_of_atMost_of_below hwl (Literal.below_of_compare? hte hlt)
        cases inclusive with
        | false => exact hbelow
        | true => rw [if_pos rfl, Literal.atMost, hbelow, Bool.true_or]
      · rename_i heq
        rw [he, if_pos rfl]
        exact Literal.atMost_trans hwl (Literal.atMost_of_compare? hte heq (by simp))
      · cases he

/-- A range that covers another holds what the other holds. -/
theorem within_of_rangeCovers {aStart aStop bStart bStop : Option Bound} {i j : Bool} {w : Literal}
    (hstart : ∀ b ∈ aStart, ∀ c ∈ bStart, Ty.ofLiteral b.value = Ty.ofLiteral c.value)
    (hstop : ∀ b ∈ aStop, ∀ c ∈ bStop, Ty.ofLiteral b.value = Ty.ofLiteral c.value)
    (h : rangeCovers aStart aStop i bStart bStop j = true) (hw : w.within bStart bStop j = true) :
    w.within aStart aStop i = true := by
  rw [rangeCovers.eq_def, Bool.and_eq_true] at h
  rw [Literal.within, Bool.and_eq_true] at hw ⊢
  constructor
  · cases aStart with
    | none => rfl
    | some a =>
      cases bStart with
      | none => exact absurd h.1 (by simp)
      | some b =>
        have hab := h.1
        simp only at hab
        split at hab
        · rename_i o ho
          have hle := Literal.atMost_of_compare? (hstart a rfl b rfl) ho (by simpa using hab)
          exact Literal.atMost_trans hle hw.1
        · cases hab
  · cases aStop with
    | none => rfl
    | some a =>
      cases bStop with
      | none => exact absurd h.2 (by simp)
      | some b =>
        have hba := h.2
        have hte := (hstop a rfl b rfl).symm
        have hwb : (if j then w.atMost b.value else w.below b.value) = true := hw.2
        have hwle : w.atMost b.value = true := by
          cases j with
          | false => rw [Literal.atMost, show w.below b.value = true from hwb, Bool.true_or]
          | true => exact hwb
        show (if i then w.atMost a.value else w.below a.value) = true
        simp only at hba
        split at hba
        · rename_i hlt
          have hbelow := Literal.below_of_atMost_of_below hwle (Literal.below_of_compare? hte hlt)
          cases i with
          | false => exact hbelow
          | true => rw [if_pos rfl, Literal.atMost, hbelow, Bool.true_or]
        · rename_i heq
          have hle := Literal.atMost_of_compare? hte heq (by simp)
          cases i with
          | true => exact Literal.atMost_trans hwle hle
          | false =>
            -- the other range leaves its end out as well
            have hj : j = false := by simpa using hba
            rw [hj] at hwb
            exact Literal.below_of_below_of_atMost hwb hle
        · cases hba

/-! ### The test -/

/-- What the test relies on when it asks whether `a` covers `b`, for a value `v`. -/
structure Comparable (m : Meaning) (a b : Pattern) (v : Value) : Prop where
  total : ∀ q ∈ a.nodes, NeverMisses m q
  constants : ∀ l k, Compares a b l k → Ty.ofLiteral l = Ty.ofLiteral k
  fields : HasFields m a v

namespace Comparable

/-! Going into the parts that the test goes into. -/

variable {v : Value}

theorem bindingLeft {i : Info} {n : String} {viaAt : Bool} {a b : Pattern}
    (h : Comparable m (.binding i n viaAt a) b v) : Comparable m a b v where
  total x hx := h.total x (List.mem_cons_of_mem _ hx)
  constants l k hlk := h.constants l k (.bindingLeft hlk)
  fields i fs r gs hx := h.fields i fs r gs (.binding hx)

theorem bindingRight {i : Info} {n : String} {viaAt : Bool} {a b : Pattern}
    (h : Comparable m a (.binding i n viaAt b) v) : Comparable m a b v where
  total := h.total
  constants l k hlk := h.constants l k (.bindingRight hlk)
  fields := h.fields

theorem orLeft {i : Info} {ps : List Pattern} {p b : Pattern} (h : Comparable m (.or i ps) b v)
    (hb : hasHead b = true) (hp : (ps.find? fun p => covers p b) = some p) :
    Comparable m p b v where
  total x hx := h.total x (List.mem_cons_of_mem _
    (mem_nodesOfList.mpr ⟨p, List.mem_of_find?_eq_some hp, hx⟩))
  constants l k hlk := h.constants l k (.orLeft hb hp hlk)
  fields i fs r gs hx := h.fields i fs r gs (.or (List.mem_of_find?_eq_some hp) hx)

theorem orRight {i : Info} {qs : List Pattern} {a q : Pattern} (h : Comparable m a (.or i qs) v)
    (hq : q ∈ qs) : Comparable m a q v where
  total := h.total
  constants l k hlk := h.constants l k (.orRight hq hlk)
  fields := h.fields

theorem tuple {i j : Info} {ps qs : List Pattern} {vs : List Value} {k : Nat} {p q : Pattern}
    (h : Comparable m (.tuple i ps) (.tuple j qs) (.tuple vs)) (hl : ps.length = qs.length)
    (hp : ps[k]? = some p) (hq : qs[k]? = some q) (hv : vs[k]? = some v) : Comparable m p q v where
  total x hx := h.total x (List.mem_cons_of_mem _
    (mem_nodesOfList.mpr ⟨p, List.mem_of_getElem? hp, hx⟩))
  constants c d hcd := h.constants c d (.tuple hl hp hq hcd)
  fields i fs r gs hx := h.fields i fs r gs (.tuple hp hv hx)

theorem construct {i j : Info} {n : String} {ps qs : List Pattern} {vs : List Value} {k : Nat}
    {p q : Pattern} (h : Comparable m (.construct i n ps) (.construct j n qs) (.variant n vs))
    (hp : ps[k]? = some p) (hq : qs[k]? = some q) (hv : vs[k]? = some v) : Comparable m p q v where
  total x hx := h.total x (List.mem_cons_of_mem _
    (mem_nodesOfList.mpr ⟨p, List.mem_of_getElem? hp, hx⟩))
  constants c d hcd := h.constants c d (.construct hp hq hcd)
  fields i fs r gs hx := h.fields i fs r gs (.construct hp hv hx)

theorem record {i j : Info} {fs gs : List (String × Pattern)} {r s : Bool}
    {ws : List (String × Value)} {f : String × Pattern} {q : Pattern}
    (h : Comparable m (.record i fs r) (.record j gs s) (.record ws)) (hf : f ∈ fs)
    (hq : fieldPattern? f.1 gs = some q) (hv : Value.field? f.1 ws = some v) :
    Comparable m f.2 q v where
  total x hx := h.total x (List.mem_cons_of_mem _ (mem_nodesOfFields.mpr ⟨f, hf, hx⟩))
  constants c d hcd := h.constants c d (.record hf hq hcd)
  fields i fs r gs hx := h.fields i fs r gs (.record hf hv hx)

theorem slice {i j : Info} {is js : List (SliceItem Pattern)} {s t : SliceShape} {vs : List Value}
    {p q : Pattern} (h : Comparable m (.slice i is) (.slice j js) (.array vs))
    (hs : sliceShape? is = some s) (ht : sliceShape? js = some t) (hpq : (p, q) ∈ s.pairs t)
    (hv : v ∈ vs) : Comparable m p q v where
  total x hx := h.total x (List.mem_cons_of_mem _ (mem_nodesOfItems.mpr
    ⟨p, mem_of_mem_sliceShape? hs (SliceShape.mem_pairs hpq).1, hx⟩))
  constants c d hcd := h.constants c d (.slice hs ht hpq hcd)
  fields i fs r gs hx := h.fields i fs r gs
    (.slice (mem_of_mem_sliceShape? hs (SliceShape.mem_pairs hpq).1) hv hx)

theorem active {i j : Info} {n : String} {k : RecognizerKind} {u : Bool} {p q : Pattern}
    {w : Value} (h : Comparable m (.active i n k false (some p)) (.active j n k u (some q)) w)
    (hv : m.recognize n w = some v) : Comparable m p q v where
  total x hx := h.total x (List.mem_cons_of_mem _ hx)
  constants c d hcd := h.constants c d (.active hcd)
  fields i fs r gs hx := h.fields i fs r gs (.payload hv hx)

end Comparable

/-- The test is right about patterns of less than a depth together, wherever it can be relied on. -/
def RightCover (m : Meaning) (depth : Nat) : Prop :=
  ∀ a b v, a.depth + b.depth < depth → Comparable m a b v → covers a b = true →
    b.accepts m v = true → a.accepts m v = true

namespace RightCover

variable {depth : Nat}

theorem acceptsAll {ps qs : List Pattern} {vs : List Value} (hr : RightCover m depth)
    (hdepth : depthOfList ps + depthOfList qs < depth)
    (hc : ∀ (k : Nat) p q w, ps[k]? = some p → qs[k]? = some q → vs[k]? = some w → Comparable m p q w)
    (h : allPairs covers ps qs = true) (hb : Pattern.acceptsAll m qs vs = true) :
    Pattern.acceptsAll m ps vs = true := by
  refine acceptsAll_of_allPairs h hb fun k p q w hp hq hw => ?_
  have := depth_le_depthOfList (List.mem_of_getElem? hp)
  have := depth_le_depthOfList (List.mem_of_getElem? hq)
  exact hr p q w (by omega) (hc k p q w hp hq hw)

/-- A key that the second record does not name is matched by anything there. -/
theorem record {i j : Info} {fs gs : List (String × Pattern)} {s s' : Bool} {ws : List (String × Value)}
    (hr : RightCover m depth) (hdepth : (Pattern.record i fs s).depth + (Pattern.record j gs s').depth ≤ depth)
    (hc : Comparable m (.record i fs s) (.record j gs s') (.record ws))
    (h : headCovers covers (.record i fs s) (.record j gs s') = true)
    (hb : (Pattern.record j gs s').accepts m (.record ws) = true) :
    (Pattern.record i fs s).accepts m (.record ws) = true := by
  refine acceptsFields_iff.mpr fun f hf => ?_
  obtain ⟨w, hw⟩ := exists_field? (hc.fields _ _ _ _ (.here _ _) f hf)
  refine ⟨w, hw, ?_⟩
  have hcover := List.all_eq_true.mp h f hf
  split at hcover
  · refine accepts_of_irrefutable hcover (fun x hx => ?_) w
    exact hc.total x (List.mem_cons_of_mem _ (mem_nodesOfFields.mpr ⟨f, hf, hx⟩))
  · rename_i q hq
    have hg := mem_of_fieldPattern? hq
    obtain ⟨w', hw', hacc⟩ := acceptsFields_iff.mp hb _ hg
    obtain rfl : w = w' := Option.some.inj (hw.symm.trans hw')
    have := depth_le_depthOfFields hf
    have : q.depth ≤ depthOfFields gs := depth_le_depthOfFields hg
    simp only [Pattern.depth] at hdepth
    exact hr f.2 q w (by omega) (hc.record hf hq hw) hcover hacc

theorem slice {i j : Info} {is js : List (SliceItem Pattern)} {vs : List Value} (hr : RightCover m depth)
    (hdepth : (Pattern.slice i is).depth + (Pattern.slice j js).depth ≤ depth)
    (hc : Comparable m (.slice i is) (.slice j js) (.array vs))
    (h : headCovers covers (.slice i is) (.slice j js) = true)
    (hb : acceptsItems m js vs = true) : acceptsItems m is vs = true := by
  rw [headCovers] at h
  split at h
  · rename_i s t hs ht
    refine acceptsItems_of_covers hs ht h (fun p q w hpq hw => ?_) hb
    obtain ⟨hp, hq⟩ : p ∈ s.front ++ s.back ∧ q ∈ t.front ++ t.back := SliceShape.mem_pairs hpq
    have := depth_le_depthOfItems (mem_of_mem_sliceShape? hs hp)
    have := depth_le_depthOfItems (mem_of_mem_sliceShape? ht hq)
    simp only [Pattern.depth] at hdepth
    exact hr p q w (by omega) (hc.slice hs ht hpq hw)
  · cases h

/-- Both calls give the same payload. -/
theorem active {i j : Info} {n : String} {k : RecognizerKind} {u : Bool} {arg arg' : Option Pattern}
    {v : Value} (hr : RightCover m depth)
    (hdepth : (Pattern.active i n k false arg).depth + (Pattern.active j n k u arg').depth ≤ depth)
    (hc : Comparable m (.active i n k false arg) (.active j n k u arg') v)
    (h : headCovers covers (.active i n k false arg) (.active j n k u arg') = true)
    (hb : (Pattern.active j n k u arg').accepts m v = true) :
    (Pattern.active i n k false arg).accepts m v = true := by
  have hrec : ∃ w, m.recognize n v = some w ∧ ∀ q, arg' = some q → q.accepts m w = true := by
    cases arg' with
    | none =>
      obtain ⟨w, hw⟩ := Option.isSome_iff_exists.mp hb
      exact ⟨w, hw, by simp⟩
    | some q =>
      simp only [accepts] at hb
      split at hb
      · rename_i w hw
        exact ⟨w, hw, fun q' hq' => Option.some.inj hq' ▸ hb⟩
      · cases hb
  obtain ⟨w, hw, hq⟩ := hrec
  cases arg with
  | none => simp [accepts, hw]
  | some p =>
    simp only [accepts, hw]
    cases arg' with
    | none =>
      have hp : p.irrefutable = true := by simpa [headCovers] using h
      exact accepts_of_irrefutable hp (fun x hx => hc.total x (List.mem_cons_of_mem _ hx)) w
    | some q =>
      have hcover : covers p q = true := by simpa [headCovers] using h
      simp only [Pattern.depth] at hdepth
      exact hr p q w (by omega) (hc.active hw) hcover (hq q rfl)

end RightCover

theorem accepts_of_headCovers {a b : Pattern} (hr : RightCover m (a.depth + b.depth)) {v : Value}
    (hc : Comparable m a b v) (h : headCovers covers a b = true) (hb : b.accepts m v = true) :
    a.accepts m v = true := by
  have hcovers := h
  unfold headCovers at h
  split at h
  · -- literal, literal
    rename_i i l j k
    cases v with
    | literal w =>
      have hlk : l.equal k = true := Literal.same_eq_equal l k ▸ h
      exact Literal.equal_trans hlk hb
    | _ => simp [accepts] at hb
  · -- range, literal
    cases v with
    | literal w =>
      refine within_of_rangeHolds ?_ h hb
      exact fun b hmem => hc.constants _ _ (.here (List.mem_map_of_mem hmem))
    | _ => simp [accepts] at hb
  · -- range, range: the bounds are compared one by one
    cases v with
    | literal w =>
      refine within_of_rangeCovers (fun b hmem c hmem' => ?_) (fun b hmem c hmem' => ?_) h hb <;>
      · cases hmem
        cases hmem'
        exact hc.constants _ _ (.here (by simp [comparedHere]))
    | _ => simp [accepts] at hb
  · -- tuple, tuple
    cases v with
    | tuple vs =>
      exact hr.acceptsAll (by simp only [depth]; omega)
        (fun k p q w hp hq hw => hc.tuple (length_of_allPairs h) hp hq hw) h hb
    | _ => simp [accepts] at hb
  · -- constructor, constructor
    rw [Bool.and_eq_true, decide_eq_true_eq] at h
    obtain ⟨rfl, h⟩ := h
    cases v with
    | variant c vs =>
      simp only [accepts, Bool.and_eq_true, decide_eq_true_eq] at hb ⊢
      obtain ⟨rfl, hb⟩ := hb
      exact ⟨rfl, hr.acceptsAll (by simp only [depth]; omega)
        (fun k p q w hp hq hw => hc.construct hp hq hw) h hb⟩
    | _ => simp [accepts] at hb
  · -- record, record
    cases v with
    | record ws => exact hr.record le_rfl hc hcovers hb
    | _ => simp [accepts] at hb
  · -- slice, slice
    cases v with
    | array vs => exact hr.slice le_rfl hc hcovers hb
    | _ => simp [accepts] at hb
  · -- regex, regex
    rw [decide_eq_true_eq] at h
    subst h
    exact hb
  · -- recognizer call, recognizer call
    simp only [Bool.and_eq_true, decide_eq_true_eq, Bool.not_eq_true'] at h
    obtain ⟨⟨⟨rfl, rfl⟩, rfl⟩, -⟩ := h
    exact hr.active le_rfl hc hcovers hb
  · cases h

/-- **The test is right.**  Each step goes into one of the two patterns, and what the test relies on
goes with it. -/
theorem rightCover (depth : Nat) : RightCover m depth := by
  induction depth with
  | zero => exact fun a b v hlt => absurd hlt (Nat.not_lt_zero _)
  | succ n ih =>
    intro a b v hlt hc h hb
    have hr : RightCover m (a.depth + b.depth) := fun p q w hpq => ih p q w (by omega)
    rw [covers_eq, coversStep.eq_def] at h
    split at h
    · rename_i hirr
      exact accepts_of_irrefutable hirr hc.total v
    · split at h
      · -- a name bound to the first pattern
        rename_i p _
        exact hr p b v (by simp only [Pattern.depth]; omega) hc.bindingLeft h hb
      · -- a name bound to the second
        rename_i q _
        exact hr a q v (by simp only [Pattern.depth]; omega) hc.bindingRight h hb
      · -- alternatives of the second: the one that accepts is covered
        rw [Bool.and_eq_true] at h
        obtain ⟨q, hq, hacc⟩ := acceptsAny_iff.mp hb
        have := depth_le_depthOfList hq
        exact hr _ q v (by simp only [Pattern.depth]; omega) (hc.orRight hq)
          (List.all_eq_true.mp h.2 q hq) hacc
      · -- alternatives of the first: the first one that covers
        rename_i i ps hbinding hor
        have hhead : hasHead b = true := by
          cases b with
          | binding i n viaAt q => exact absurd rfl (hbinding i n viaAt q)
          | or i qs => exact absurd rfl (hor i qs)
          | _ => rfl
        obtain ⟨p, hp⟩ := Option.isSome_iff_exists.mp (List.find?_isSome.mpr (List.any_eq_true.mp h))
        have hmem := List.mem_of_find?_eq_some hp
        have := depth_le_depthOfList hmem
        exact acceptsAny_iff.mpr ⟨p, hmem, hr p _ v (by simp only [Pattern.depth]; omega)
          (hc.orLeft hhead hp) (by simpa using List.find?_some hp) hb⟩
      · exact accepts_of_headCovers hr hc h hb

theorem rightCover_covers {a b : Pattern} {v : Value} (hc : Comparable m a b v)
    (h : covers a b = true) (hb : b.accepts m v = true) : a.accepts m v = true :=
  rightCover _ a b v (Nat.lt_succ_self _) hc h hb

/-- **A pattern that covers another accepts whatever the other accepts**, for all meanings of
regexes and recognizers in which the recognizers that the first calls as total never miss: as long as
the constants that get compared have one type, on every value that has the fields that the first
pattern names. -/
theorem covers_sound {a b : Pattern} (htotal : ∀ q ∈ a.nodes, NeverMisses m q)
    (hconstants : ∀ l k, Compares a b l k → Ty.ofLiteral l = Ty.ofLiteral k)
    (h : covers a b = true) {v : Value} (hfields : HasFields m a v)
    (hb : b.accepts m v = true) : a.accepts m v = true :=
  rightCover_covers ⟨htotal, hconstants, hfields⟩ h hb

/-! An instance: `[0..=9 | 20, ..]` covers `[n as 5, 7]`.  The range is the first alternative that
covers, so that its bounds are compared with the 5 and the 20 with nothing. -/

def digitFirst : Pattern :=
  let info : Info := ⟨{}, .array .int⟩
  .slice info [.element (.or info
    [.range info (some ⟨{}, .int 0⟩) (some ⟨{}, .int 9⟩) true, .literal info (.int 20)]), .rest "" {}]

def fiveSeven : Pattern :=
  let info : Info := ⟨{}, .array .int⟩
  .slice info [.element (.binding info "n" false (.literal info (.int 5))),
    .element (.literal info (.int 7))]

theorem compares_digitFirst {l k : Literal} (h : Compares digitFirst fiveSeven l k) :
    Ty.ofLiteral l = Ty.ofLiteral k := by
  simp only [digitFirst, fiveSeven] at h
  cases h with
  | here h => cases h
  | slice hs ht hpq h =>
    cases hs
    cases ht
    obtain ⟨rfl, rfl⟩ := Prod.mk.inj (List.mem_singleton.mp hpq)
    cases h with
    | here h => cases h
    | orLeft hb => cases hb
    | bindingRight h =>
      cases h with
      | here h => cases h
      | orLeft hb hfind h =>
        cases hfind
        cases h with
        | here h =>
          rcases List.mem_pair.mp h with heq | heq <;> cases heq <;> rfl

theorem hasFields_digitFirst (m : Meaning) (v : Value) : HasFields m digitFirst v := by
  intro i fs r gs h
  simp only [digitFirst] at h
  cases h with
  | slice hp hw h =>
    rcases List.mem_pair.mp hp with heq | heq
    · cases heq
      cases h with
      | or hp h => rcases List.mem_pair.mp hp with rfl | rfl <;> cases h
    · cases heq

theorem digitFirst_accepts_fiveSeven :
    ∃ m v, (∀ q ∈ digitFirst.nodes, NeverMisses m q) ∧
      (∀ l k, Compares digitFirst fiveSeven l k → Ty.ofLiteral l = Ty.ofLiteral k) ∧
      covers digitFirst fiveSeven = true ∧ HasFields m digitFirst v ∧
      fiveSeven.accepts m v = true ∧ digitFirst.accepts m v = true := by
  let m : Meaning := ⟨fun _ _ => false, fun _ _ => none⟩
  let v : Value := .array [.literal (.int 5), .literal (.int 7)]
  have htotal : ∀ q ∈ digitFirst.nodes, NeverMisses m q := by
    simp [digitFirst, nodes, nodesOfList, nodesOfItems, NeverMisses]
  have hcovers : covers digitFirst fiveSeven = true := by decide
  have hfields : HasFields m digitFirst v := hasFields_digitFirst m v
  have hb : fiveSeven.accepts m v = true := by decide
  exact ⟨m, v, htotal, fun _ _ => compares_digitFirst, hcovers, hfields, hb,
    covers_sound htotal (fun _ _ => compares_digitFirst) hcovers hfields hb⟩

end Typed

end PatternPlan
