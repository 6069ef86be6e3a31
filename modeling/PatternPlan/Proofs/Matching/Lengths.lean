import PatternPlan.Proofs.Matching.Covers
import PatternPlan.Proofs.Matching.Genuine

/-!
# Which lengths of arrays have to be told apart

Slice patterns with a rest marker look at the first and at the last elements of an array.  The search
for missing arrays looks at the lengths up to a longest one.

* `OneRest` — a slice pattern with at most one rest marker, wherever it stands;
* `longestFront`, `longestBack` — the most elements in front of a rest marker and behind one;
* `cut` — an array without some of its middle;
* `accepts_cut` — **a long array and the array cut to a length are accepted by the same slices**, if
  the length is more than that of every closed slice, and a front and a back fit into it side by side;
* `slices_exhaust` — the lengths that are told apart suffice if the longest front and the longest back
  fit into the longest of them; otherwise the lengths up to both together have to be looked at too;
* `slices_leave_gap` — and they have to be: `[]`, `[true, ..]` and `[.., false]`.
-/

namespace PatternPlan.Typed

open Pattern

variable {types : TypeTable} {m : Meaning}

/-! ### Slices around their rest marker -/

/-- A slice pattern with at most one rest marker. -/
def OneRest (p : Pattern) : Prop :=
  ∃ i items, p = .slice i items ∧ items.countP SliceItem.isRest ≤ 1

theorem exists_elements? {items : List (SliceItem Pattern)}
    (h : items.countP SliceItem.isRest = 0) : ∃ ps, elements? items = some ps := by
  induction items with
  | nil => exact ⟨[], rfl⟩
  | cons item items ih =>
    cases item with
    | element p =>
      obtain ⟨ps, hps⟩ := ih (by simpa [SliceItem.isRest] using h)
      exact ⟨p :: ps, by simp [elements?, hps]⟩
    | rest n s => simp [SliceItem.isRest] at h

theorem exists_sliceShape? {items : List (SliceItem Pattern)}
    (h : items.countP SliceItem.isRest ≤ 1) : ∃ s, sliceShape? items = some s := by
  induction items with
  | nil => exact ⟨_, rfl⟩
  | cons item items ih =>
    cases item with
    | element p =>
      obtain ⟨s, hs⟩ := ih (by simpa [SliceItem.isRest] using h)
      exact ⟨_, by rw [sliceShape?, hs]; rfl⟩
    | rest n s =>
      rw [List.countP_cons_of_pos rfl] at h
      obtain ⟨ps, hps⟩ : ∃ ps, elements? items = some ps := exists_elements? (by omega)
      exact ⟨_, by rw [sliceShape?, hps]; rfl⟩

/-- The number of elements in front of the rest marker and behind it; a slice without one has
none of both. -/
def restEnds : Pattern → Nat × Nat
  | .slice _ items => match sliceShape? items with
    | some s => if s.hasRest then (s.front.length, s.back.length) else (0, 0)
    | none => (0, 0)
  | _ => (0, 0)

/-- The most elements in front of a rest marker. -/
def longestFront (ps : List Pattern) : Nat := (ps.map fun p => (restEnds p).1).foldl max 0

/-- The most elements behind a rest marker. -/
def longestBack (ps : List Pattern) : Nat := (ps.map fun p => (restEnds p).2).foldl max 0

theorem le_longestFront {p : Pattern} {ps : List Pattern} (h : p ∈ ps) :
    (restEnds p).1 ≤ longestFront ps :=
  le_foldl_max 0 (.inl (List.mem_map.mpr ⟨p, h, rfl⟩))

theorem le_longestBack {p : Pattern} {ps : List Pattern} (h : p ∈ ps) :
    (restEnds p).2 ≤ longestBack ps :=
  le_foldl_max 0 (.inl (List.mem_map.mpr ⟨p, h, rfl⟩))

/-- A slice with a rest marker accepts an array if and only if its ends accept the ends of the array
and do not meet there. -/
theorem acceptsItems_iff_ends {items : List (SliceItem Pattern)} {s : SliceShape}
    (hs : sliceShape? items = some s) (hr : s.hasRest = true) (vs : List Value) :
    acceptsItems m items vs = true ↔ s.front.length + s.back.length ≤ vs.length ∧
      acceptsAll m s.front (vs.take s.front.length) = true ∧
      acceptsAll m s.back (vs.drop (vs.length - s.back.length)) = true := by
  constructor
  · intro h
    obtain ⟨xs, ys, zs, rfl, hx, hz⟩ := (acceptsItems_open hs hr vs).mp h
    have hxl := acceptsAll_length hx
    have hzl := acceptsAll_length hz
    have hdrop : (xs ++ ys ++ zs).length - s.back.length = (xs ++ ys).length := by
      simp only [List.length_append]
      omega
    refine ⟨by simp only [List.length_append]; omega, ?_, ?_⟩
    · rw [hxl, List.append_assoc, List.take_left]
      exact hx
    · rw [hdrop, List.drop_left]
      exact hz
  · rintro ⟨hlen, hfront, hback⟩
    exact acceptsItems_of_ends hs hr hlen hfront hback

/-! ### Cutting an array -/

theorem hasTypes_replicate_iff {t : Ty} {vs : List Value} :
    types.HasTypes vs (List.replicate vs.length t) ↔ ∀ v ∈ vs, types.HasType v t := by
  induction vs with
  | nil => simpa using TypeTable.HasTypes.nil
  | cons v vs ih =>
    rw [List.forall_mem_cons, ← ih, List.length_cons, List.replicate_succ]
    constructor
    · intro h
      cases h with
      | cons hv hvs => exact ⟨hv, hvs⟩
    · intro h
      exact .cons h.1 h.2

/-- An array has an array type if its elements have the element type. -/
theorem hasType_array_iff {t : Ty} {vs : List Value} :
    types.HasType (.array vs) (.array t) ↔ ∀ v ∈ vs, types.HasType v t := by
  rw [← hasTypes_replicate_iff]
  constructor
  · intro h
    cases h with
    | array hvs => exact hvs
  · exact .array

/-- The array of length `n` that has the first elements of another one, and its last `back`
elements. -/
def cut (n back : Nat) (vs : List Value) : List Value :=
  vs.take (n - back) ++ vs.drop (vs.length - back)

section Cut

variable {n back : Nat} {vs : List Value}

theorem length_cut (hback : back ≤ n) (hn : n ≤ vs.length) : (cut n back vs).length = n := by
  simp only [cut, List.length_append, List.length_take, List.length_drop]
  omega

/-- Cutting keeps the elements in front. -/
theorem take_cut {k : Nat} (hk : k + back ≤ n) (hn : n ≤ vs.length) :
    (cut n back vs).take k = vs.take k := by
  have hlen : k ≤ (vs.take (n - back)).length := by
    rw [List.length_take]
    omega
  rw [cut, List.take_append_of_le_length hlen, List.take_take, Nat.min_eq_left (by omega)]

/-- Cutting keeps the elements at the back. -/
theorem drop_cut {k : Nat} (hk : k ≤ back) (hback : back ≤ n) (hn : n ≤ vs.length) :
    (cut n back vs).drop (n - k) = vs.drop (vs.length - k) := by
  have hlen : (vs.take (n - back)).length = n - back := by
    rw [List.length_take]
    omega
  rw [cut, List.drop_append, hlen, List.drop_of_length_le (by omega), List.nil_append,
    List.drop_drop]
  congr 1
  omega

theorem hasType_cut {t : Ty} (h : types.HasType (.array vs) (.array t)) :
    types.HasType (.array (cut n back vs)) (.array t) := by
  rw [hasType_array_iff] at h ⊢
  intro v hv
  apply h
  rcases List.mem_append.mp hv with hv | hv
  · exact List.mem_of_mem_take hv
  · exact List.mem_of_mem_drop hv

/-- **A long array and the array cut down to a length are accepted by the same slices**, if every
closed slice is shorter and the ends of every slice fit into that length. -/
theorem accepts_cut {p : Pattern} (hp : OneRest p)
    (hclosed : ∀ k, sliceLength false (some p) = some k → k < n)
    (hfront : (restEnds p).1 + back ≤ n) (hends : (restEnds p).2 ≤ back) (hback : back ≤ n)
    (hn : n ≤ vs.length) :
    p.accepts m (.array (cut n back vs)) = p.accepts m (.array vs) := by
  obtain ⟨i, items, rfl, hone⟩ := hp
  obtain ⟨s, hs⟩ := exists_sliceShape? hone
  have hlen := length_cut hback hn
  show acceptsItems m items _ = acceptsItems m items _
  rw [Bool.eq_iff_iff]
  cases hr : s.hasRest with
  | false =>
    -- a closed slice is too short for either of the two
    have hshort : s.front.length < n := by
      have hk := hclosed (s.front.length + s.back.length) (by simp [sliceLength, hs, hr])
      omega
    rw [acceptsItems_closed hs hr, acceptsItems_closed hs hr]
    constructor
    · intro h
      have hl := acceptsAll_length h
      omega
    · intro h
      have hl := acceptsAll_length h
      omega
  | true =>
    have hends' : restEnds (.slice i items) = (s.front.length, s.back.length) := by
      simp [restEnds, hs, hr]
    rw [hends'] at hfront hends
    rw [acceptsItems_iff_ends hs hr, acceptsItems_iff_ends hs hr, hlen,
      take_cut (by omega) hn, drop_cut hends hback hn]
    apply and_congr_left
    intro
    omega

end Cut

/-! ### The lengths that are told apart -/

/-- The longest length of an array that is told apart. -/
def longestLength (cells : List Cell) : Nat :=
  max (((cells.filterMap (sliceLength false)).map fun n => n + 1).foldl max 0)
    ((cells.filterMap (sliceLength true)).foldl max 0)

theorem exists_shape_of_le (t : Ty) {cells : List Cell} {n : Nat} (h : n ≤ longestLength cells) :
    ∃ s ∈ sliceShapes t cells, s.fields.length = n := by
  refine ⟨_, List.mem_map.mpr ⟨n, List.mem_range.mpr (Nat.lt_succ_of_le h), rfl⟩, ?_⟩
  simp [Shape.fields]

theorem length_le_of_mem_shapes {t : Ty} {cells : List Cell} {s : Shape}
    (h : s ∈ sliceShapes t cells) : s.fields.length ≤ longestLength cells := by
  obtain ⟨n, hn, rfl⟩ := List.mem_map.mp h
  show (List.replicate n t).length ≤ _
  rw [List.length_replicate]
  exact Nat.le_of_lt_succ (List.mem_range.mp hn)

theorem closed_lt_longestLength {cells : List Cell} {c : Cell} (hc : c ∈ cells) {k : Nat}
    (hk : sliceLength false c = some k) : k < longestLength cells := by
  apply Nat.lt_of_succ_le
  apply Nat.le_trans (le_foldl_max 0 (.inl ?_)) (Nat.le_max_left _ _)
  exact List.mem_map.mpr ⟨k, List.mem_filterMap.mpr ⟨c, hc, hk⟩, rfl⟩

/-- Whether one of the patterns accepts an array. -/
def AcceptArray (m : Meaning) (ps : List Pattern) (vs : List Value) : Prop :=
  ∃ p ∈ ps, p.accepts m (.array vs) = true

/-- **The lengths up to the longest one that is told apart, and up to the longest front and the
longest back side by side, suffice.** -/
theorem acceptArray_of_lengths {t : Ty} {ps : List Pattern} (hps : ∀ p ∈ ps, OneRest p)
    (h : ∀ vs, types.HasType (.array vs) (.array t) →
      vs.length ≤ max (longestLength (ps.map some)) (longestFront ps + longestBack ps) →
      AcceptArray m ps vs)
    {vs : List Value} (hvs : types.HasType (.array vs) (.array t)) : AcceptArray m ps vs := by
  let n := max (longestLength (ps.map some)) (longestFront ps + longestBack ps)
  by_cases hn : vs.length ≤ n
  · exact h vs hvs hn
  · have hback : longestBack ps ≤ n :=
      (Nat.le_add_left _ _).trans (Nat.le_max_right _ _)
    have hn' : n ≤ vs.length := by omega
    -- what accepts the array cut down accepts the array
    obtain ⟨p, hp, hacc⟩ := h (cut n (longestBack ps) vs) (hasType_cut hvs)
      (length_cut hback hn').le
    have hclosed : ∀ k, sliceLength false (some p) = some k → k < n := by
      intro k hk
      have hlt := closed_lt_longestLength (List.mem_map_of_mem hp) hk
      exact hlt.trans_le (Nat.le_max_left _ _)
    have hfront : (restEnds p).1 + longestBack ps ≤ n := by
      have hle := le_longestFront hp
      have hends := Nat.le_max_right (longestLength (ps.map some))
        (longestFront ps + longestBack ps)
      omega
    rw [accepts_cut (hps p hp) hclosed hfront (le_longestBack hp) hback hn'] at hacc
    exact ⟨p, hp, hacc⟩

/-- **When the cut-off for arrays is adequate.**  Let every array of a length that is told apart be
accepted.  If the longest front and the longest back fit side by side into one of these lengths, every
array is accepted.  In any case every array is accepted exactly if those are that are longer than all
of these lengths and not longer than the longest front and the longest back together. -/
theorem slices_exhaust (types : TypeTable) (m : Meaning) (t : Ty) (ps : List Pattern)
    (hps : ∀ p ∈ ps, OneRest p)
    (hshapes : ∀ s ∈ sliceShapes t (ps.map some), ∀ vs, vs.length = s.fields.length →
      types.HasType (.array vs) (.array t) → AcceptArray m ps vs) :
    ((∃ s ∈ sliceShapes t (ps.map some), longestFront ps + longestBack ps ≤ s.fields.length) →
      ∀ vs, types.HasType (.array vs) (.array t) → AcceptArray m ps vs) ∧
    ((∀ vs, types.HasType (.array vs) (.array t) → AcceptArray m ps vs) ↔
      ∀ vs, types.HasType (.array vs) (.array t) →
        (∀ s ∈ sliceShapes t (ps.map some), s.fields.length < vs.length) →
        vs.length ≤ longestFront ps + longestBack ps → AcceptArray m ps vs) := by
  have hshort : ∀ vs, types.HasType (.array vs) (.array t) →
      vs.length ≤ longestLength (ps.map some) → AcceptArray m ps vs := by
    intro vs hvs hle
    obtain ⟨s, hs, hlen⟩ := exists_shape_of_le t hle
    exact hshapes s hs vs hlen.symm hvs
  constructor
  · rintro ⟨s, hs, hfit⟩ vs hvs
    have hle := hfit.trans (length_le_of_mem_shapes hs)
    apply acceptArray_of_lengths hps _ hvs
    intro ws hws hlen
    rw [Nat.max_eq_left hle] at hlen
    exact hshort ws hws hlen
  · constructor
    · intro h vs hvs _ _
      exact h vs hvs
    · intro h vs hvs
      apply acceptArray_of_lengths hps _ hvs
      intro ws hws hlen
      by_cases hle : ws.length ≤ longestLength (ps.map some)
      · exact hshort ws hws hle
      · apply h ws hws
        · intro s hs
          exact (length_le_of_mem_shapes hs).trans_lt (Nat.lt_of_not_le hle)
        · omega

/-! Instances are arrays of truth values and slices that test them. -/

def truths (bs : List Bool) : List Value := bs.map fun b => .literal (.bool b)

/-- An item that tests a truth value, or the rest marker. -/
def truthItem (test : Option Bool) : SliceItem Pattern :=
  test.elim (.rest "" {}) fun b => .element (.literal ⟨{}, .bool⟩ (.bool b))

def truthSlice (tests : List (Option Bool)) : Pattern :=
  .slice ⟨{}, .array .bool⟩ (tests.map truthItem)

theorem oneRest_truthSlices {slices : List (List (Option Bool))}
    (h : ∀ tests ∈ slices, tests.countP Option.isNone ≤ 1) :
    ∀ p ∈ slices.map truthSlice, OneRest p := by
  intro p hp
  obtain ⟨tests, htests, rfl⟩ := List.mem_map.mp hp
  have hrest : SliceItem.isRest ∘ truthItem = Option.isNone := by
    funext test
    cases test <;> rfl
  refine ⟨_, _, rfl, ?_⟩
  rw [List.countP_map, hrest]
  exact h tests htests

theorem exists_truths {vs : List Value}
    (h : TypeTable.builtin.HasType (.array vs) (.array .bool)) : ∃ bs, vs = truths bs := by
  have hb : TypeTable.builtin.KeepsBuiltins := by
    unfold TypeTable.KeepsBuiltins
    decide
  rw [hasType_array_iff] at h
  induction vs with
  | nil => exact ⟨[], rfl⟩
  | cons v vs ih =>
    rw [List.forall_mem_cons] at h
    obtain ⟨bs, rfl⟩ := ih h.2
    obtain ⟨l, rfl, hl⟩ := TypeTable.HasType.literal_inv hb (k := .bool true) h.1
    cases l with
    | bool b => exact ⟨b :: bs, rfl⟩
    | int | float | text | unit =>
      simp [Ty.ofLiteral, Ty.int, Ty.float, Ty.string, Ty.bool, Ty.unit] at hl

instance (m : Meaning) (ps : List Pattern) (vs : List Value) : Decidable (AcceptArray m ps vs) :=
  inferInstanceAs (Decidable (∃ p ∈ ps, p.accepts m (.array vs) = true))

theorem hasType_truths (bs : List Bool) :
    TypeTable.builtin.HasType (.array (truths bs)) (.array .bool) := by
  apply hasType_array_iff.mpr
  intro v hv
  obtain ⟨b, -, rfl⟩ := List.mem_map.mp hv
  exact .literal rfl

theorem length_truths (bs : List Bool) : (truths bs).length = bs.length :=
  List.length_map _

/-- With `[]`, `[true]`, `[false]`, `[true, ..]`, `[.., false]` and `[false, .., true]` the ends fit
into the arrays of length 2, and longer arrays need not be looked at. -/
theorem slices_exhaust_truths :
    let m : Meaning := ⟨fun _ _ => false, fun _ _ => none⟩
    let ps := [[], [some true], [some false], [some true, none], [none, some false],
      [some false, none, some true]].map truthSlice
    (∀ p ∈ ps, OneRest p) ∧
      (∀ s ∈ sliceShapes .bool (ps.map some), ∀ vs, vs.length = s.fields.length →
        TypeTable.builtin.HasType (.array vs) (.array .bool) → AcceptArray m ps vs) ∧
      AcceptArray m ps (truths [false, true, false, true]) := by
  intro m ps
  have hone : ∀ p ∈ ps, OneRest p := oneRest_truthSlices (by decide)
  have hshort : ∀ cs : List Bool, cs.length ≤ 2 → AcceptArray m ps (truths cs) := by
    intro cs hcs
    rcases cs with _ | ⟨a, _ | ⟨b, _ | ⟨c, cs⟩⟩⟩
    · decide
    · cases a <;> decide
    · cases a <;> cases b <;> decide
    · simp at hcs
  have hshapes : ∀ s ∈ sliceShapes .bool (ps.map some), ∀ vs, vs.length = s.fields.length →
      TypeTable.builtin.HasType (.array vs) (.array .bool) → AcceptArray m ps vs := by
    intro s hs vs hlen hvs
    obtain ⟨cs, rfl⟩ := exists_truths hvs
    apply hshort
    rw [← length_truths, hlen]
    exact length_le_of_mem_shapes hs
  have hfit : ∃ s ∈ sliceShapes .bool (ps.map some),
      longestFront ps + longestBack ps ≤ s.fields.length := by
    have hle : longestFront ps + longestBack ps ≤ longestLength (ps.map some) := by decide
    obtain ⟨s, hs, hlen⟩ := exists_shape_of_le .bool hle
    exact ⟨s, hs, hlen.ge⟩
  exact ⟨hone, hshapes,
    (slices_exhaust .builtin m .bool ps hone hshapes).1 hfit _ (hasType_truths _)⟩

/-- **The lengths that are told apart leave a gap.**  `[]`, `[true, ..]` and `[.., false]` accept all
arrays of the lengths 0 and 1, which are told apart, and no array is found missing; but none of them
accepts `[false, true]`. -/
theorem slices_leave_gap :
    let m : Meaning := ⟨fun _ _ => false, fun _ _ => none⟩
    let ps := [[], [some true, none], [none, some false]].map truthSlice
    (∀ p ∈ ps, OneRest p) ∧
      (∀ s ∈ sliceShapes .bool (ps.map some), ∀ vs, vs.length = s.fields.length →
        TypeTable.builtin.HasType (.array vs) (.array .bool) → AcceptArray m ps vs) ∧
      TypeTable.builtin.HasType (.array (truths [false, true])) (.array .bool) ∧
      ¬ AcceptArray m ps (truths [false, true]) ∧
      missingValue .builtin (.array .bool) ps = none := by
  intro m ps
  refine ⟨oneRest_truthSlices (by decide), ?_, hasType_truths _, by decide, by decide⟩
  intro s hs vs hlen hvs
  obtain ⟨bs, rfl⟩ := exists_truths hvs
  have hle : bs.length ≤ 1 := by
    rw [← length_truths, hlen]
    exact length_le_of_mem_shapes hs
  rcases bs with _ | ⟨b, _ | ⟨c, bs⟩⟩
  · decide
  · cases b <;> decide
  · simp at hle

end PatternPlan.Typed
