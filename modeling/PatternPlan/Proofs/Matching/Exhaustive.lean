import PatternPlan.Check.Matches
import PatternPlan.Proofs.Matching.WellFormed

/-!
# Matches without a report of missing cases are exhaustive

The search for a missing value goes column by column.  Read backwards, a search that finds nothing
says that some row accepts every row of values.

* `Cell.accepts`, `RowAccepts`, `RowFits` — rows of cells against rows of values and of types;
* `accepts_of_mem_normalizePattern` — the alternatives of a cell accept only what the cell accepts;
* `HasShapes` — **the shapes of a known type**, one rule for each kind of type;
* `exists_shape` — **every value has a shape**: its parts are accepted by a specialized row only if
  the value itself is accepted.  A long array is cut down to the longest length that is told apart;
* `Exhausts`, `missingIn_exhausts` — **the search**, by induction on the depth of the patterns, with
  the search behind the first column as a parameter;
* `exhaustive_of_unreported` — a match on a known type that has no report of missing cases has an
  arm without a guard for every value.
-/

namespace PatternPlan.Typed

open Pattern (WellFormed NodeFits NeverMisses RestLast)

variable {types : TypeTable} {m : Meaning}

/-! ### Rows against values -/

/-- Whether a cell matches a value. -/
def Cell.accepts (m : Meaning) : Cell → Value → Bool
  | none, _ => true
  | some p, v => p.accepts m v

/-- Every cell of a row matches the value in its place. -/
def RowAccepts (m : Meaning) (row : Row) (vs : List Value) : Prop :=
  List.Forall₂ (fun c v => Cell.accepts m c v = true) row vs

/-- A cell is well formed at a type. -/
def Cell.Fits (types : TypeTable) (m : Meaning) (c : Cell) (t : Ty) : Prop :=
  ∀ p, c = some p → WellFormed types m t p

/-- Every cell of a row is well formed at the type in its place. -/
def RowFits (types : TypeTable) (m : Meaning) (row : Row) (ts : List Ty) : Prop :=
  List.Forall₂ (Cell.Fits types m) row ts

theorem Cell.fits_none (t : Ty) : Cell.Fits types m none t := by
  intro p hp
  cases hp

theorem Cell.fits_some {p : Pattern} {t : Ty} (h : WellFormed types m t p) :
    Cell.Fits types m (some p) t := by
  intro q hq
  cases hq
  exact h

/-- Patterns in a row accept values exactly if each accepts the value in its place. -/
theorem rowAccepts_map_some {ps : List Pattern} {vs : List Value} :
    RowAccepts m (ps.map some) vs ↔ Pattern.acceptsAll m ps vs = true := by
  rw [Pattern.acceptsAll_iff, RowAccepts, List.forall₂_map_left_iff]
  rfl

theorem rowFits_map_some {ps : List Pattern} {ts : List Ty} (hl : ps.length = ts.length)
    (h : ∀ e ∈ ts.zip ps, WellFormed types m e.1 e.2) : RowFits types m (ps.map some) ts := by
  induction ps generalizing ts with
  | nil =>
    cases ts with
    | nil => exact .nil
    | cons t ts => simp at hl
  | cons p ps ih =>
    cases ts with
    | nil => simp at hl
    | cons t ts =>
      refine .cons (Cell.fits_some (h (t, p) (by simp))) (ih (by simpa using hl) fun e he => ?_)
      exact h e (by simp [he])

theorem rowFits_nones (ts : List Ty) : RowFits types m (ts.map fun _ => none) ts := by
  induction ts with
  | nil => exact .nil
  | cons t ts ih => exact .cons (Cell.fits_none t) ih

/-! ### Alternatives of a cell -/

theorem mem_normalizePatterns {c : Cell} {ps : List Pattern} :
    c ∈ normalizePatterns ps ↔ ∃ p ∈ ps, c ∈ normalizePattern p := by
  induction ps with
  | nil => simp [normalizePatterns]
  | cons p ps ih => simp [normalizePatterns, ih]

/-- **The alternatives of a pattern accept only what it accepts**, and fit where it fits. -/
theorem accepts_of_mem_normalizePattern {p : Pattern} {c : Cell} {t : Ty}
    (hc : c ∈ normalizePattern p) (hp : WellFormed types m t p) :
    Cell.Fits types m c t ∧ ∀ v, Cell.accepts m c v = true → p.accepts m v = true := by
  induction p using Pattern.induction generalizing c with
  | wildcard i =>
    obtain rfl := List.mem_singleton.mp hc
    exact ⟨Cell.fits_none t, fun _ _ => rfl⟩
  | var i n =>
    obtain rfl := List.mem_singleton.mp hc
    exact ⟨Cell.fits_none t, fun _ _ => rfl⟩
  | literal i l =>
    cases l with
    | bool b =>
      obtain rfl := List.mem_singleton.mp hc
      exact ⟨Cell.fits_some hp, fun _ h => h⟩
    | unit =>
      obtain rfl := List.mem_singleton.mp hc
      exact ⟨Cell.fits_some hp, fun _ h => h⟩
    | int | float | text => simp [normalizePattern] at hc
  | tuple | record | construct | slice =>
    obtain rfl := List.mem_singleton.mp hc
    exact ⟨Cell.fits_some hp, fun _ h => h⟩
  | binding i n viaAt p ih => exact ih hc hp.binding
  | or i ps ih =>
    obtain ⟨p, hmem, hc⟩ := mem_normalizePatterns.mp hc
    obtain ⟨hfits, hacc⟩ := ih p hmem hc (hp.or hmem)
    exact ⟨hfits, fun v hv => Pattern.acceptsAny_iff.mpr ⟨p, hmem, hacc v hv⟩⟩
  | range | regex => simp [normalizePattern] at hc
  | call i n k u | callWith i n k u p ih =>
    rw [normalizePattern] at hc
    split at hc
    · rename_i hirr
      obtain rfl := List.mem_singleton.mp hc
      refine ⟨Cell.fits_none t, fun v _ => ?_⟩
      exact Pattern.accepts_of_irrefutable hirr (fun q hq => (hp.nodes q hq).1) v
    · simp at hc

/-- The same for a cell. -/
theorem accepts_of_mem_normalize {c d : Cell} {t : Ty} (hd : d ∈ normalize c)
    (hc : Cell.Fits types m c t) :
    Cell.Fits types m d t ∧ ∀ v, Cell.accepts m d v = true → Cell.accepts m c v = true := by
  cases c with
  | none =>
    obtain rfl := List.mem_singleton.mp hd
    exact ⟨hc, fun _ h => h⟩
  | some p => exact accepts_of_mem_normalizePattern hd (hc p rfl)

/-! ### Specialization, shape by shape -/

theorem length_substituteAll (args : List (String × Ty)) (params : List String) (ts : List Ty) :
    (TypeTable.substituteAll args params ts).length = ts.length := by
  induction ts with
  | nil => rfl
  | cons t ts ih => rw [TypeTable.substituteAll, List.length_cons, List.length_cons, ih]

theorem length_fieldTypes (types : TypeTable) (v : Variant) (t : Ty) :
    (types.fieldTypes v t).length = v.fields.length := by
  rw [TypeTable.fieldTypes]
  split
  · exact length_substituteAll _ _ _
  · rfl

theorem specialize_none {s : Shape} {row : Row} (h : specialize s none = some row) :
    RowFits types m row s.fields := by
  cases h
  exact rowFits_nones s.fields

theorem specialize_truth {b : Bool} {c : Cell} {row : Row} (h : specialize (.truth b) c = some row) :
    row = [] ∧ Cell.accepts m c (.literal (.bool b)) = true := by
  cases c with
  | none =>
    cases h
    exact ⟨rfl, rfl⟩
  | some p =>
    cases p with
    | literal i l =>
      cases l with
      | bool d =>
        obtain ⟨rfl, hrow⟩ : b = d ∧ [] = row := by simpa [specialize] using h
        exact ⟨hrow.symm, by simp [Cell.accepts, Pattern.accepts, Literal.equal]⟩
      | int | float | text | unit => simp [specialize] at h
    | _ => simp [specialize] at h

theorem specialize_unit {c : Cell} {row : Row} (h : specialize .unit c = some row) :
    row = [] ∧ Cell.accepts m c (.literal .unit) = true := by
  cases c with
  | none =>
    cases h
    exact ⟨rfl, rfl⟩
  | some p =>
    cases p with
    | literal i l =>
      cases l with
      | unit =>
        cases h
        exact ⟨rfl, by simp [Cell.accepts, Pattern.accepts, Literal.equal]⟩
      | int | float | text | bool => simp [specialize] at h
    | _ => simp [specialize] at h

theorem specialize_tuple {ts : List Ty} {c : Cell} {row : Row}
    (h : specialize (.tuple ts) c = some row) (hc : Cell.Fits types m c (.tuple ts)) :
    RowFits types m row ts ∧
      ∀ vs, RowAccepts m row vs → Cell.accepts m c (.tuple vs) = true := by
  cases c with
  | none => exact ⟨specialize_none h, fun _ _ => rfl⟩
  | some p =>
    cases p with
    | tuple i ps =>
      obtain ⟨hl, rfl⟩ : ps.length = ts.length ∧ ps.map some = row := by
        simpa [specialize] using h
      refine ⟨rowFits_map_some hl fun e he => (hc _ rfl).tuple he, fun vs hvs => ?_⟩
      exact rowAccepts_map_some.mp hvs
    | _ => simp [specialize] at h

theorem specialize_variant {t : Ty} {s : SumType} {v : Variant} {c : Cell} {row : Row}
    (hs : types.sumOf? (types.resolve t) = some s) (hv : v ∈ s.variants)
    (h : specialize (.variant v.name (types.fieldTypes v t)) c = some row)
    (hc : Cell.Fits types m c t) :
    RowFits types m row (types.fieldTypes v t) ∧
      ∀ vs, RowAccepts m row vs → Cell.accepts m c (.variant v.name vs) = true := by
  cases c with
  | none => exact ⟨specialize_none h, fun _ _ => rfl⟩
  | some p =>
    cases p with
    | construct i n ps =>
      obtain ⟨hn, hrow⟩ : n = v.name ∧ padded (types.fieldTypes v t).length ps = row := by
        simpa [specialize] using h
      have hwf := hc _ rfl
      have hl : ps.length = (types.fieldTypes v t).length := by
        rw [length_fieldTypes]
        exact hwf.fits _ _ (.here _ _) s v hs hv hn.symm
      -- with the declared arity nothing is padded and nothing cut off
      have hpad : padded (types.fieldTypes v t).length ps = ps.map some := by
        simp [padded, ← hl]
      rw [hpad] at hrow
      subst hrow
      refine ⟨rowFits_map_some hl fun e he => hwf.construct hs hv hn.symm he, fun vs hvs => ?_⟩
      have hacc := rowAccepts_map_some.mp hvs
      simp only [Cell.accepts, Pattern.accepts, hacc, hn, decide_true, Bool.and_self]
    | _ => simp [specialize] at h

/-! Records: the columns are the declared fields, so every key of the pattern has to be one. -/

theorem fieldPattern?_of_mem {fs : List (String × Pattern)} {f : String × Pattern}
    (hd : (fs.map Prod.fst).Nodup) (hf : f ∈ fs) : Pattern.fieldPattern? f.1 fs = some f.2 := by
  induction fs with
  | nil => simp at hf
  | cons g fs ih =>
    rw [List.map_cons, List.nodup_cons] at hd
    rcases List.mem_cons.mp hf with rfl | hf
    · simp [Pattern.fieldPattern?]
    · have hne : g.1 ≠ f.1 := by
        intro heq
        exact hd.1 (heq ▸ List.mem_map_of_mem hf)
      rw [Pattern.fieldPattern?, if_neg hne]
      exact ih hd.2 hf

theorem mem_of_fieldPattern? {fs : List (String × Pattern)} {k : String} {p : Pattern}
    (h : Pattern.fieldPattern? k fs = some p) : (k, p) ∈ fs := by
  induction fs with
  | nil => simp [Pattern.fieldPattern?] at h
  | cons g fs ih =>
    rw [Pattern.fieldPattern?] at h
    split at h
    · rename_i hk
      cases h
      rw [← hk]
      exact List.mem_cons_self
    · exact List.mem_cons_of_mem _ (ih h)

theorem exists_field? {k : String} {gs : List (String × Value)} (h : k ∈ gs.map Prod.fst) :
    ∃ v, Value.field? k gs = some v := by
  induction gs with
  | nil => simp at h
  | cons g gs ih =>
    rw [Value.field?]
    by_cases hk : g.1 = k
    · exact ⟨g.2, if_pos hk⟩
    · rw [if_neg hk]
      refine ih ?_
      simpa [Ne.symm hk] using h

/-- Cells in the order of the declared fields accept the values of the fields by name. -/
theorem accepts_field_of_rowAccepts {fs : List (String × Ty)} {gs : List (String × Value)}
    (cell : String → Cell) {k : String} {v : Value} (hk : gs.map Prod.fst = fs.map Prod.fst)
    (h : RowAccepts m (fs.map fun f => cell f.1) (gs.map Prod.snd))
    (hv : Value.field? k gs = some v) : Cell.accepts m (cell k) v = true := by
  induction gs generalizing fs with
  | nil => simp [Value.field?] at hv
  | cons g gs ih =>
    cases fs with
    | nil => simp at hk
    | cons f fs =>
      rw [List.map_cons, List.map_cons, List.cons.injEq] at hk
      cases h with
      | cons hg hrest =>
        rw [Value.field?] at hv
        split at hv
        · rename_i hgk
          cases hv
          rw [← hgk, hk.1]
          exact hg
        · exact ih hk.2 hrest hv

theorem specialize_record {t : Ty} {n : String} {fs : List (String × Ty)} {c : Cell} {row : Row}
    (ht : types.resolve t = .record n fs) (h : specialize (.record fs) c = some row)
    (hc : Cell.Fits types m c t) :
    RowFits types m row (fs.map Prod.snd) ∧ ∀ gs, gs.map Prod.fst = fs.map Prod.fst →
      RowAccepts m row (gs.map Prod.snd) → Cell.accepts m c (.record gs) = true := by
  cases c with
  | none => exact ⟨specialize_none h, fun _ _ _ => rfl⟩
  | some p =>
    cases p with
    | record i ps r =>
      obtain rfl : fs.map (fun f => Pattern.fieldPattern? f.1 ps) = row := by
        simpa [specialize] using h
      have hwf := hc _ rfl
      have hfields : types.recordFields t = fs := by simp [TypeTable.recordFields, ht]
      obtain ⟨hnodup, hdecl⟩ := hwf.fits _ _ (.here _ _)
      rw [hfields] at hdecl
      constructor
      · rw [RowFits, List.forall₂_map_left_iff, List.forall₂_map_right_iff, List.forall₂_same]
        intro f hf p hp
        exact hwf.record (hfields ▸ hf) (mem_of_fieldPattern? hp)
      · intro gs hk hacc
        refine Pattern.acceptsFields_iff.mpr fun f hf => ?_
        obtain ⟨v, hv⟩ : ∃ v, Value.field? f.1 gs = some v := by
          refine exists_field? ?_
          rw [hk]
          exact hdecl f.1 (List.mem_map_of_mem hf)
        refine ⟨v, hv, ?_⟩
        have hcell := accepts_field_of_rowAccepts (fun k => Pattern.fieldPattern? k ps) hk hacc hv
        rw [fieldPattern?_of_mem hnodup hf] at hcell
        exact hcell
    | _ => simp [specialize] at h

/-! Slices: a row for `n` elements speaks of the first `n` elements of a longer array as well, unless
it comes from a slice pattern of exactly that length. -/

theorem rowFits_replicate {row : Row} {t : Ty} (h : ∀ c ∈ row, Cell.Fits types m c t) :
    RowFits types m row (List.replicate row.length t) := by
  induction row with
  | nil => exact .nil
  | cons c row ih =>
    rw [List.length_cons, List.replicate_succ]
    exact .cons (h c List.mem_cons_self) (ih fun d hd => h d (List.mem_cons_of_mem _ hd))

theorem fits_of_mem_slice {t : Ty} {i : Info} {items : List (SliceItem Pattern)} {s : SliceShape}
    (hwf : WellFormed types m (.array t) (.slice i items)) (hs : sliceShape? items = some s)
    {c : Cell} (hc : c ∈ s.front.map some ∨ c ∈ s.back.map some ∨ c = none) :
    Cell.Fits types m c t := by
  rcases hc with hc | hc | rfl
  · obtain ⟨p, hp, rfl⟩ := List.mem_map.mp hc
    refine Cell.fits_some (hwf.slice (Pattern.mem_of_mem_sliceShape? hs ?_))
    exact List.mem_append_left _ hp
  · obtain ⟨p, hp, rfl⟩ := List.mem_map.mp hc
    refine Cell.fits_some (hwf.slice (Pattern.mem_of_mem_sliceShape? hs ?_))
    exact List.mem_append_right _ hp
  · exact Cell.fits_none t

/-- The row of a slice pattern without a rest marker. -/
theorem closed_slice {t : Ty} {n : Nat} {i : Info} {items : List (SliceItem Pattern)} {s : SliceShape}
    (hwf : WellFormed types m (.array t) (.slice i items)) (hs : sliceShape? items = some s)
    (hr : s.hasRest = false) (hl : s.front.length = n) :
    RowFits types m (s.front.map some) (List.replicate n t) ∧ ∀ vs, n ≤ vs.length →
      (vs.length = n ∨ ∀ k, sliceLength false (some (.slice i items)) = some k → k < n) →
      RowAccepts m (s.front.map some) (vs.take n) → Pattern.acceptsItems m items vs = true := by
  constructor
  · have hfits : RowFits types m (s.front.map some) (List.replicate (s.front.map some).length t) :=
      rowFits_replicate fun c hc => fits_of_mem_slice hwf hs (.inl hc)
    rwa [List.length_map, hl] at hfits
  · intro vs hle hlen hacc
    have hback : s.back = [] := Pattern.back_eq_nil hs (hwf.nodes _ (Pattern.self_mem_nodes _)).2
    have hvs : vs.length = n := by
      refine hlen.resolve_right fun hlt => ?_
      have hk : sliceLength false (some (.slice i items)) = some n := by
        simp [sliceLength, hs, hr, hback, hl]
      exact Nat.lt_irrefl n (hlt n hk)
    rw [List.take_of_length_le (by omega)] at hacc
    rw [Pattern.acceptsItems_closed hs hr]
    exact rowAccepts_map_some.mp hacc

/-- The row of a slice pattern with a rest marker: the cells of the elements before the marker
decide. -/
theorem open_slice {t : Ty} {n : Nat} {i : Info} {items : List (SliceItem Pattern)} {s : SliceShape}
    (hwf : WellFormed types m (.array t) (.slice i items)) (hs : sliceShape? items = some s)
    (hr : s.hasRest = true) (hle : s.front.length ≤ n) :
    RowFits types m (s.front.map some ++ List.replicate (n - s.front.length) none) (List.replicate n t) ∧
      ∀ vs, n ≤ vs.length →
        RowAccepts m (s.front.map some ++ List.replicate (n - s.front.length) none) (vs.take n) →
        Pattern.acceptsItems m items vs = true := by
  have hback : s.back = [] := Pattern.back_eq_nil hs (hwf.nodes _ (Pattern.self_mem_nodes _)).2
  constructor
  · have hfits : RowFits types m
        (s.front.map some ++ List.replicate (n - s.front.length) none)
        (List.replicate (s.front.map some
          ++ List.replicate (n - s.front.length) (none : Cell)).length t) := by
      refine rowFits_replicate fun c hc => fits_of_mem_slice hwf hs ?_
      rcases List.mem_append.mp hc with hc | hc
      · exact .inl hc
      · exact .inr (.inr (List.eq_of_mem_replicate hc))
    simpa [hle] using hfits
  · intro vs _ hacc
    have hfront : RowAccepts m (s.front.map some) (vs.take s.front.length) := by
      have htake := List.forall₂_take s.front.length hacc
      rw [List.take_take, Nat.min_eq_left hle] at htake
      have hcells : (s.front.map some ++ List.replicate (n - s.front.length)
          (none : Cell)).take s.front.length = s.front.map some := by
        rw [List.take_append_of_le_length (by simp)]
        exact List.take_of_length_le (by simp)
      rwa [hcells] at htake
    refine (Pattern.acceptsItems_open hs hr vs).mpr
      ⟨vs.take s.front.length, vs.drop s.front.length, [], ?_, ?_, ?_⟩
    · rw [List.append_nil, List.take_append_drop]
    · exact rowAccepts_map_some.mp hfront
    · rw [hback]
      rfl

theorem specialize_slice {t : Ty} {n : Nat} {isOpen : Bool} {c : Cell} {row : Row}
    (h : specialize (.slice (List.replicate n t) isOpen) c = some row)
    (hc : Cell.Fits types m c (.array t)) :
    RowFits types m row (List.replicate n t) ∧ ∀ vs, n ≤ vs.length →
      (vs.length = n ∨ ∀ k, sliceLength false c = some k → k < n) →
      RowAccepts m row (vs.take n) → Cell.accepts m c (.array vs) = true := by
  cases c with
  | none => exact ⟨specialize_none h, fun _ _ _ _ => rfl⟩
  | some p =>
    cases p with
    | slice i items =>
      have hwf := hc _ rfl
      simp only [specialize, List.length_replicate] at h
      cases hs : sliceShape? items with
      | none => simp [hs] at h
      | some s =>
        simp only [hs] at h
        cases hr : s.hasRest with
        | false =>
          obtain ⟨hl, rfl⟩ : s.front.length = n ∧ s.front.map some = row := by
            simpa [hr] using h
          exact closed_slice hwf hs hr hl
        | true =>
          have hback : s.back = [] :=
            Pattern.back_eq_nil hs (hwf.nodes _ (Pattern.self_mem_nodes _)).2
          obtain ⟨hle, rfl⟩ : s.front.length ≤ n ∧
              s.front.map some ++ List.replicate (n - s.front.length) none = row := by
            simpa [hr, hback] using h
          obtain ⟨hfits, haccepts⟩ := open_slice hwf hs hr hle
          exact ⟨hfits, fun vs hn _ => haccepts vs hn⟩
    | _ => simp [specialize] at h

theorem le_foldl_max {k : Nat} {ns : List Nat} (start : Nat) (h : k ∈ ns ∨ k ≤ start) :
    k ≤ ns.foldl max start := by
  induction ns generalizing start with
  | nil => simpa using h
  | cons n ns ih =>
    refine ih (max start n) ?_
    rcases h with h | h
    · rcases List.mem_cons.mp h with rfl | h
      · exact .inr (Nat.le_max_right _ _)
      · exact .inl h
    · exact .inr (Nat.le_trans h (Nat.le_max_left _ _))

/-- **The cut-off for arrays.**  Among the lengths that are told apart is the length of the array
itself, or one that is longer than every closed slice of the column. -/
theorem exists_slice_shape (u : Ty) (cells : List Cell) (vs : List Value) :
    ∃ n isOpen, Shape.slice (List.replicate n u) isOpen ∈ sliceShapes u cells ∧ n ≤ vs.length ∧
      (vs.length = n ∨ ∀ c ∈ cells, ∀ k, sliceLength false c = some k → k < n) := by
  let limit := max (((cells.filterMap (sliceLength false)).map (· + 1)).foldl max 0)
    ((cells.filterMap (sliceLength true)).foldl max 0)
  have hmem : ∀ n, n ≤ limit → ∃ isOpen,
      Shape.slice (List.replicate n u) isOpen ∈ sliceShapes u cells := by
    intro n hn
    exact ⟨_, List.mem_map.mpr ⟨n, List.mem_range.mpr (Nat.lt_succ_of_le hn), rfl⟩⟩
  have hclosed : ∀ c ∈ cells, ∀ k, sliceLength false c = some k → k < limit := by
    intro c hc k hk
    refine Nat.lt_of_lt_of_le (Nat.lt_succ_self k) (Nat.le_trans ?_ (Nat.le_max_left _ _))
    refine le_foldl_max 0 (.inl (List.mem_map.mpr ⟨k, ?_, rfl⟩))
    exact List.mem_filterMap.mpr ⟨c, hc, hk⟩
  rcases Nat.lt_or_ge limit vs.length with hlt | hge
  · obtain ⟨isOpen, ho⟩ := hmem limit (Nat.le_refl _)
    exact ⟨limit, isOpen, ho, Nat.le_of_lt hlt, .inr hclosed⟩
  · obtain ⟨isOpen, ho⟩ := hmem vs.length hge
    exact ⟨vs.length, isOpen, ho, Nat.le_refl _, .inl rfl⟩

/-! ### The shapes of a type -/

/-- The shapes of a type that is known, by the kind of the type. -/
inductive HasShapes (types : TypeTable) (cells : List Cell) : Ty → List Shape → Prop
  | bool : HasShapes types cells .bool [.truth true, .truth false]
  | unit : HasShapes types cells .unit [.unit]
  | tuple (ts : List Ty) : HasShapes types cells (.tuple ts) [.tuple ts]
  | record {t : Ty} {n : String} {fs : List (String × Ty)} :
      types.resolve t = .record n fs → HasShapes types cells t [.record fs]
  | array (u : Ty) : HasShapes types cells (.array u) (sliceShapes u cells)
  | sum {t : Ty} {s : SumType} : types.sumOf? (types.resolve t) = some s →
      HasShapes types cells t
        (s.variants.map fun v => .variant v.name (types.fieldTypes v t))

theorem hasShapes_of_shapes {t : Ty} {cells : List Cell} {ss : List Shape} (ht : t ≠ .unknown)
    (h : shapes types t cells = some ss) : HasShapes types cells t ss := by
  cases t with
  | con n =>
    cases hr : types.record? n with
    | some fs =>
      have hres : types.resolve (.con n) = .record n fs := by simp [TypeTable.resolve, hr]
      obtain rfl : [Shape.record fs] = ss := by simpa [shapes, hres, Ty.isUnknown] using h
      exact .record hres
    | none =>
      have hres : types.resolve (.con n) = .con n := by simp [TypeTable.resolve, hr]
      simp only [shapes, hres, Ty.isUnknown] at h
      by_cases hbool : n = "Bool"
      · subst hbool
        cases h
        exact .bool
      · by_cases hunit : n = "()"
        · subst hunit
          cases h
          exact .unit
        · obtain ⟨s, hs, rfl⟩ : ∃ s, types.sumOf? (.con n) = some s ∧
              (s.variants.map fun v => Shape.variant v.name (types.fieldTypes v (.con n))) = ss := by
            simpa [hbool, hunit] using h
          exact .sum (by rw [hres]; exact hs)
  | app n ts =>
    obtain ⟨s, hs, rfl⟩ : ∃ s, types.sumOf? (.app n ts) = some s ∧
        (s.variants.map fun v => Shape.variant v.name (types.fieldTypes v (.app n ts))) = ss := by
      simpa [shapes, TypeTable.resolve, Ty.isUnknown] using h
    exact .sum hs
  | tuple ts =>
    cases h
    exact .tuple ts
  | array u =>
    cases h
    exact .array u
  | record n fs =>
    cases h
    exact .record rfl
  | func ps r => simp [shapes, TypeTable.resolve, Ty.isUnknown, TypeTable.sumOf?] at h
  | unknown => exact absurd rfl ht

/-- What the expansion of a part reaches, that of the type reaches. -/
theorem HasShapes.part {t : Ty} {cells : List Cell} {ss : List Shape}
    (h : HasShapes types cells t ss) {s : Shape} (hs : s ∈ ss) {u w : Ty} (hu : u ∈ s.fields)
    (hpart : types.Part u w) : types.Part t w := by
  cases h with
  | bool =>
    rcases List.mem_pair.mp hs with rfl | rfl <;> simp [Shape.fields] at hu
  | unit =>
    obtain rfl := List.mem_singleton.mp hs
    simp [Shape.fields] at hu
  | tuple ts =>
    obtain rfl := List.mem_singleton.mp hs
    exact .tuple hu hpart
  | record hr =>
    obtain rfl := List.mem_singleton.mp hs
    obtain ⟨f, hf, rfl⟩ := List.mem_map.mp hu
    exact .record hr hf hpart
  | array w =>
    obtain ⟨n, -, rfl⟩ := List.mem_map.mp hs
    obtain rfl := List.eq_of_mem_replicate hu
    exact .array hpart
  | sum hsum =>
    obtain ⟨v, hv, rfl⟩ := List.mem_map.mp hs
    exact .variant hsum hv hu hpart

/-- The parts of a known type are known. -/
theorem HasShapes.known {t : Ty} {cells : List Cell} {ss : List Shape}
    (h : HasShapes types cells t ss) (ht : types.Known t) {s : Shape} (hs : s ∈ ss) {u : Ty}
    (hu : u ∈ s.fields) : types.Known u :=
  fun hpart => ht (h.part hs hu hpart)

/-- The rows of a shape fit its parts. -/
theorem HasShapes.rowFits {t : Ty} {cells : List Cell} {ss : List Shape}
    (h : HasShapes types cells t ss) {s : Shape} (hs : s ∈ ss) {c : Cell} {row : Row}
    (hrow : specialize s c = some row) (hc : Cell.Fits types m c t) :
    RowFits types m row s.fields := by
  cases h with
  | bool =>
    rcases List.mem_pair.mp hs with rfl | rfl <;>
      exact (specialize_truth (m := m) hrow).1 ▸ .nil
  | unit =>
    obtain rfl := List.mem_singleton.mp hs
    exact (specialize_unit (m := m) hrow).1 ▸ .nil
  | tuple ts =>
    obtain rfl := List.mem_singleton.mp hs
    exact (specialize_tuple hrow hc).1
  | record hr =>
    obtain rfl := List.mem_singleton.mp hs
    exact (specialize_record hr hrow hc).1
  | array u =>
    obtain ⟨n, -, rfl⟩ := List.mem_map.mp hs
    exact (specialize_slice hrow hc).1
  | sum hsum =>
    obtain ⟨v, hv, rfl⟩ := List.mem_map.mp hs
    exact (specialize_variant hsum hv hrow hc).1

/-- **Every value has a shape.**  A value of the type has parts of the types of one of the shapes,
and a cell whose row accepts the parts accepts the value. -/
theorem HasShapes.exists_shape (hb : types.KeepsBuiltins) {t : Ty} {cells : List Cell}
    {ss : List Shape} (h : HasShapes types cells t ss) {v : Value} (hv : types.HasType v t) :
    ∃ s ∈ ss, ∃ parts, types.HasTypes parts s.fields ∧
      ∀ c ∈ cells, Cell.Fits types m c t → ∀ row, specialize s c = some row →
        RowAccepts m row parts → Cell.accepts m c v = true := by
  cases h with
  | bool =>
    obtain ⟨l, rfl, hl⟩ := TypeTable.HasType.literal_inv hb (k := .bool true) hv
    cases l with
    | bool b =>
      refine ⟨.truth b, by cases b <;> simp, [], .nil, ?_⟩
      intro c _ _ row hrow _
      exact (specialize_truth hrow).2
    | int | float | text | unit =>
      simp [Ty.ofLiteral, Ty.int, Ty.float, Ty.string, Ty.bool, Ty.unit] at hl
  | unit =>
    obtain ⟨l, rfl, hl⟩ := TypeTable.HasType.literal_inv hb (k := .unit) hv
    cases l with
    | unit =>
      refine ⟨.unit, by simp, [], .nil, ?_⟩
      intro c _ _ row hrow _
      exact (specialize_unit hrow).2
    | int | float | text | bool =>
      simp [Ty.ofLiteral, Ty.int, Ty.float, Ty.string, Ty.bool, Ty.unit] at hl
  | tuple ts =>
    obtain ⟨vs, rfl, hvs⟩ := hv.tuple_inv
    refine ⟨.tuple ts, by simp, vs, hvs, ?_⟩
    intro c _ hc row hrow
    exact (specialize_tuple hrow hc).2 vs
  | record hr =>
    obtain ⟨gs, rfl, hk, hgs⟩ := hv.record_inv hb hr
    refine ⟨_, List.mem_singleton_self _, gs.map Prod.snd, hgs, ?_⟩
    intro c _ hc row hrow
    exact (specialize_record hr hrow hc).2 gs hk
  | array u =>
    obtain ⟨vs, rfl, hvs⟩ := hv.array_inv
    obtain ⟨n, isOpen, hmem, hn, hlen⟩ := exists_slice_shape u cells vs
    refine ⟨_, hmem, vs.take n, hvs.take_replicate n hn, ?_⟩
    intro c hcell hc row hrow
    exact (specialize_slice hrow hc).2 vs hn (hlen.imp_right fun h => h c hcell)
  | sum hsum =>
    obtain ⟨d, hd, vs, rfl, hvs⟩ := hv.variant_inv hb hsum
    refine ⟨_, List.mem_map_of_mem hd, vs, hvs, ?_⟩
    intro c _ hc row hrow
    exact (specialize_variant hsum hd hrow hc).2 vs

/-! ### The search -/

/-- A search that finds nothing in rows fitting the columns leaves no row of values unmatched. -/
def Exhausts (types : TypeTable) (m : Meaning) (ts : List Ty)
    (search : List Row → Option (List String)) : Prop :=
  ∀ rows, (∀ r ∈ rows, RowFits types m r ts) → search rows = none →
    ∀ vs, types.HasTypes vs ts → ∃ r ∈ rows, RowAccepts m r vs

theorem mem_expand {rows : List Row} {e : Cell × Row} :
    e ∈ expand rows ↔ ∃ c row, c :: row ∈ rows ∧ e.1 ∈ normalize c ∧ e.2 = row := by
  simp only [expand, List.mem_flatMap]
  constructor
  · rintro ⟨row, hrow, he⟩
    cases row with
    | nil => simp at he
    | cons c row =>
      obtain ⟨d, hd, rfl⟩ := List.mem_map.mp he
      exact ⟨c, row, hrow, hd, rfl⟩
  · rintro ⟨c, row, hrow, hd, rfl⟩
    exact ⟨c :: e.2, hrow, List.mem_map.mpr ⟨e.1, hd, rfl⟩⟩

/-- An expanded row fits, and accepts only what the row it comes from accepts. -/
theorem rowAccepts_of_mem_expand {rows : List Row} {t : Ty} {ts : List Ty} {e : Cell × Row}
    (hrows : ∀ r ∈ rows, RowFits types m r (t :: ts)) (he : e ∈ expand rows) :
    Cell.Fits types m e.1 t ∧ RowFits types m e.2 ts ∧
      ∀ v vs, Cell.accepts m e.1 v = true → RowAccepts m e.2 vs →
        ∃ r ∈ rows, RowAccepts m r (v :: vs) := by
  obtain ⟨c, row, hmem, hd, hrow⟩ := mem_expand.mp he
  subst hrow
  cases hrows _ hmem with
  | cons hc hrest =>
    obtain ⟨hfits, hacc⟩ := accepts_of_mem_normalize hd hc
    exact ⟨hfits, hrest, fun v vs hv hvs => ⟨_, hmem, .cons (hacc v hv) hvs⟩⟩

/-- Going on with the rows whose first cell matches everything. -/
theorem exhausts_default {t : Ty} {ts : List Ty} {after : List Row → Option (List String)}
    (hafter : Exhausts types m ts after) :
    Exhausts types m (t :: ts)
      fun rows => (after (defaultRows (expand rows))).map ("_" :: ·) := by
  intro rows hrows hnone vs hvs
  cases hvs with
  | cons hv hvs =>
    have hmem : ∀ r ∈ defaultRows (expand rows), (none, r) ∈ expand rows := by
      intro r hr
      obtain ⟨e, he, hsome⟩ := List.mem_filterMap.mp hr
      obtain ⟨c, row⟩ := e
      cases c with
      | none =>
        cases hsome
        exact he
      | some p => simp at hsome
    obtain ⟨r, hr, hacc⟩ := hafter (defaultRows (expand rows))
      (fun r hr => (rowAccepts_of_mem_expand hrows (hmem r hr)).2.1)
      (Option.map_eq_none_iff.mp hnone) _ hvs
    exact (rowAccepts_of_mem_expand hrows (hmem r hr)).2.2 _ _ rfl hacc

/-- Searches of single columns make a search of all columns. -/
theorem exhausts_foldr {step : Ty → (List Row → Option (List String)) →
      List Row → Option (List String)}
    (hstep : ∀ t ts after, types.Known t → Exhausts types m ts after →
      Exhausts types m (t :: ts) (step t after))
    {us ts : List Ty} {after : List Row → Option (List String)}
    (hus : ∀ u ∈ us, types.Known u) (hafter : Exhausts types m ts after) :
    Exhausts types m (us ++ ts) (us.foldr step after) := by
  induction us with
  | nil => exact hafter
  | cons u us ih =>
    refine hstep u (us ++ ts) _ (hus u List.mem_cons_self) (ih fun w hw => ?_)
    exact hus w (List.mem_cons_of_mem _ hw)

/-- **The search through a column is sound**, by induction on the depth of its patterns. -/
theorem missingIn_exhausts (hb : types.KeepsBuiltins) (depth : Nat) (t : Ty) (ts : List Ty)
    (after : List Row → Option (List String)) (ht : types.Known t)
    (hafter : Exhausts types m ts after) :
    Exhausts types m (t :: ts) (missingIn types depth after t) := by
  induction depth generalizing t ts after with
  | zero => exact exhausts_default hafter
  | succ depth ih =>
    intro rows hrows hnone vs hvs
    rw [missingIn] at hnone
    split at hnone
    · exact exhausts_default hafter rows hrows hnone vs hvs
    · rename_i ss hfound
      have hss : HasShapes types ((expand rows).map (·.1)) t ss := by
        refine hasShapes_of_shapes ht.ne_unknown ?_
        split at hfound
        · simp at hfound
        · exact hfound
      cases hvs with
      | @cons v _ ws _ hv hvs =>
        -- the value in the first column has a shape, and the search under that shape found nothing
        obtain ⟨s, hs, parts, hparts, hcell⟩ := hss.exists_shape (m := m) hb hv
        have hsearch := Option.map_eq_none_iff.mp (List.findSome?_eq_none_iff.mp hnone s hs)
        have hfold : Exhausts types m (s.fields ++ ts)
            (s.fields.foldr (fun u k => missingIn types depth k u) after) :=
          exhausts_foldr (fun u us k hu hk => ih u us k hu hk)
            (fun u hu => hss.known ht hs hu) hafter
        have hspecialized : ∀ r ∈ specializedRows s (expand rows),
            RowFits types m r (s.fields ++ ts) := by
          intro r hr
          obtain ⟨e, he, hsome⟩ := List.mem_filterMap.mp hr
          obtain ⟨row, hrow, rfl⟩ := Option.map_eq_some_iff.mp hsome
          obtain ⟨hfits, hrest, -⟩ := rowAccepts_of_mem_expand hrows he
          exact List.rel_append (hss.rowFits hs hrow hfits) hrest
        obtain ⟨r, hr, hacc⟩ := hfold _ hspecialized hsearch _ (hparts.append hvs)
        obtain ⟨e, he, hsome⟩ := List.mem_filterMap.mp hr
        obtain ⟨row, hrow, rfl⟩ := Option.map_eq_some_iff.mp hsome
        obtain ⟨hfits, -, hback⟩ := rowAccepts_of_mem_expand hrows he
        have hlen : row.length = parts.length := by
          rw [(hss.rowFits hs hrow hfits).length_eq, hparts.length_eq]
        have hfront : RowAccepts m row parts := by
          have htake := List.forall₂_take_append _ _ _ hacc
          rwa [List.take_left' hlen] at htake
        have hrest : RowAccepts m e.2 ws := by
          have hdrop := List.forall₂_drop_append _ _ _ hacc
          rwa [List.drop_left' hlen] at hdrop
        exact hback v ws (hcell e.1 (List.mem_map_of_mem he) hfits row hrow hfront) hrest

/-- **The whole search is sound**: if nothing is missing from rows of patterns, every row of values
of the column types is accepted by one of them. -/
theorem missing_exhausts (hb : types.KeepsBuiltins) {columns : List Ty}
    (hcolumns : ∀ t ∈ columns, types.Known t) :
    Exhausts types m columns fun rows => missing types rows columns := by
  intro rows hrows hnone vs hvs
  have hend : Exhausts types m [] fun rows => if rows.isEmpty then some [] else none := by
    intro rows hrows hnone vs hvs
    cases hvs
    cases rows with
    | nil => simp at hnone
    | cons r rows =>
      refine ⟨r, List.mem_cons_self, ?_⟩
      cases hrows r List.mem_cons_self
      exact .nil
  let depth := (rows.flatMap fun r => r.map cellDepth).foldl max 0
  have hfold := exhausts_foldr
    (fun t ts after ht hk => missingIn_exhausts hb depth t ts after ht hk) hcolumns hend
  rw [List.append_nil] at hfold
  exact hfold rows hrows hnone vs hvs

/-- The search for one value: if none is missing, some pattern accepts every value. -/
theorem exists_accepts_of_missingValue (hb : types.KeepsBuiltins) {t : Ty} (ht : types.Known t)
    {patterns : List Pattern} (hwf : ∀ p ∈ patterns, WellFormed types m t p)
    (hnone : missingValue types t patterns = none) {v : Value} (hv : types.HasType v t) :
    ∃ p ∈ patterns, p.accepts m v = true := by
  have hmissing := Option.map_eq_none_iff.mp hnone
  have hrows : ∀ r ∈ patterns.map fun p => [some p], RowFits types m r [t] := by
    intro r hr
    obtain ⟨p, hp, rfl⟩ := List.mem_map.mp hr
    exact .cons (Cell.fits_some (hwf p hp)) .nil
  obtain ⟨r, hr, hacc⟩ := missing_exhausts hb (by simpa using ht) _ hrows hmissing [v]
    (.cons hv .nil)
  obtain ⟨p, hp, rfl⟩ := List.mem_map.mp hr
  cases hacc with
  | cons hacc _ => exact ⟨p, hp, hacc⟩

/-! ### Whole matches -/

/-- The types whose values patterns can tell apart. -/
inductive Matchable (types : TypeTable) : Ty → Prop
  | bool : Matchable types .bool
  | unit : Matchable types .unit
  | tuple (ts : List Ty) : Matchable types (.tuple ts)
  | array (t : Ty) : Matchable types (.array t)
  | record (n : String) (fs : List (String × Ty)) : Matchable types (.record n fs)
  | declaredRecord {n : String} {fs : List (String × Ty)} :
      types.record? n = some fs → Matchable types (.con n)
  | sum {t : Ty} {s : SumType} : types.sumOf? t = some s → Matchable types t

theorem Matchable.shapes_isSome {t : Ty} (h : Matchable types t) (cells : List Cell) :
    (shapes types t cells).isSome = true := by
  have hcon : ∀ n, (types.record? n).isSome ∨ n = "Bool" ∨ n = "()" ∨ (types.sum? n).isSome →
      (shapes types (.con n) cells).isSome = true := by
    intro n hn
    cases hr : types.record? n with
    | some fs => simp [shapes, TypeTable.resolve, hr, Ty.isUnknown]
    | none =>
      simp only [shapes, TypeTable.resolve, hr, Ty.isUnknown, TypeTable.sumOf?]
      by_cases hbool : n = "Bool"
      · simp [hbool]
      · by_cases hunit : n = "()"
        · simp [hunit]
        · have hs : (types.sum? n).isSome = true := by simpa [hr, hbool, hunit] using hn
          simpa [hbool, hunit] using hs
  cases h with
  | bool => exact hcon _ (.inr (.inl rfl))
  | unit => exact hcon _ (.inr (.inr (.inl rfl)))
  | tuple | array | record => rfl
  | declaredRecord hr => exact hcon _ (.inl (by rw [hr]; rfl))
  | @sum t s hs =>
    cases t with
    | con n => exact hcon n (.inr (.inr (.inr (by rw [show types.sum? n = some s from hs]; rfl))))
    | app n ts => simp [shapes, TypeTable.resolve, Ty.isUnknown, hs]
    | tuple | array | record | func | unknown => cases hs

theorem code_of_mem_missingFallback {arms : List (Arm Pattern Expr)} {d : Diagnostic}
    (h : d ∈ missingFallback arms) : d.code = .notExhaustive := by
  rw [missingFallback] at h
  split at h
  · simp at h
  · split at h
    · simp at h
    · obtain rfl := List.mem_singleton.mp h
      rfl

theorem code_of_mem_missingCases {target : Ty} {arms : List (Arm Pattern Expr)} {d : Diagnostic}
    (h : d ∈ missingCases types target arms) : d.code = .notExhaustive := by
  simp only [missingCases] at h
  split at h
  · simp at h
  · split at h
    · obtain rfl := List.mem_singleton.mp h
      rfl
    · simp at h

/-- A match without a report of missing cases passed the search. -/
theorem missingCases_of_unreported {s : Surroundings} {target : Ty}
    {arms : List (Arm Pattern Expr)}
    (h : ∀ d ∈ matchProblems s target arms, d.code ≠ .notExhaustive) :
    missingCases s.types target arms = [] := by
  have hfallback : missingFallback arms = [] := by
    refine List.eq_nil_iff_forall_not_mem.mpr fun d hd => ?_
    refine h d ?_ (code_of_mem_missingFallback hd)
    simp [matchProblems, hd]
  refine List.eq_nil_iff_forall_not_mem.mpr fun d hd => ?_
  refine h d ?_ (code_of_mem_missingCases hd)
  simp [matchProblems, hfallback, hd]

/-- **A match that is not reported is exhaustive.**  If the checks of a match on a known type report
no missing case, every value of the type is accepted by an arm without a guard. -/
theorem exhaustive_of_unreported (s : Surroundings) (m : Meaning) (target : Ty)
    (arms : List (Arm Pattern Expr)) (hne : arms ≠ []) (hb : s.types.KeepsBuiltins)
    (hknown : s.types.Known target) (hmatchable : Matchable s.types target)
    (hwf : ∀ a ∈ arms, WellFormed s.types m target a.pattern)
    (hquiet : ∀ d ∈ matchProblems s target arms, d.code ≠ .notExhaustive)
    (v : Value) (hv : s.types.HasType v target) :
    ∃ a ∈ arms, a.guard.isNone = true ∧ a.pattern.accepts m v = true := by
  have hcases := missingCases_of_unreported hquiet
  have hstructured : ∀ ps, structured s.types target ps = true := by
    intro ps
    rw [structured, hknown.isUnknown_eq]
    exact hmatchable.shapes_isSome []
  let open_ := arms.filter fun a => a.guard.isNone
  have hnone : missingValue s.types target (open_.map Arm.pattern) = none := by
    have hempty : arms.isEmpty = false := by simpa using hne
    simp only [missingCases, hempty, hstructured, Bool.not_true, Bool.or_self] at hcases
    cases hm : missingValue s.types target (open_.map Arm.pattern) with
    | none => rfl
    | some w => simp [open_, hm] at hcases
  obtain ⟨p, hp, hacc⟩ := exists_accepts_of_missingValue hb hknown (m := m) (by
    intro p hp
    obtain ⟨a, ha, rfl⟩ := List.mem_map.mp hp
    exact hwf a (List.mem_of_mem_filter ha)) hnone hv
  obtain ⟨a, ha, rfl⟩ := List.mem_map.mp hp
  exact ⟨a, List.mem_of_mem_filter ha, by simpa using (List.mem_filter.mp ha).2, hacc⟩

/-! An instance: `[]`, `[Some(_), ..]` and `[None, ..]` on arrays of optional truth values. -/

def optionArms : List (Arm Pattern Expr) :=
  let arm (items : List (SliceItem Pattern)) : Arm Pattern Expr :=
    ⟨{}, .slice ⟨{}, .array (.option .bool)⟩ items, none, false, none, .literal ⟨{}, .unit⟩ .unit⟩
  let head (n : String) (ps : List Pattern) : List (SliceItem Pattern) :=
    [.element (.construct ⟨{}, .option .bool⟩ n ps), .rest "" {}]
  [arm [], arm (head "Some" [.wildcard ⟨{}, .bool⟩]), arm (head "None" [])]

theorem known_optionArray : TypeTable.builtin.Known (.array (.option .bool)) := by
  refine TypeTable.known_of_closed
    (fun t => t = .array (.option .bool) ∨ t = .option .bool ∨ t = .bool) (.inl rfl)
    (by rintro (h | h | h) <;> cases h) ?_ ?_ ?_ ?_
  · rintro ts (h | h | h) <;> cases h
  · rintro u (h | h | h) <;> cases h
    exact .inr (.inl rfl)
  · rintro t n fs (rfl | rfl | rfl) h <;> cases h
  · rintro t s (rfl | rfl | rfl) h v hv u hu <;> cases h
    rcases List.mem_pair.mp hv with rfl | rfl
    · obtain rfl := List.mem_singleton.mp hu
      exact .inr (.inr rfl)
    · cases hu

theorem wellFormed_optionArms (m : Meaning) :
    ∀ a ∈ optionArms, WellFormed .builtin m (.array (.option .bool)) a.pattern := by
  intro a ha
  constructor
  · intro u q hq
    simp only [optionArms, List.mem_cons, List.not_mem_nil, or_false] at ha
    rcases ha with rfl | rfl | rfl
    · cases hq with
      | here => trivial
      | slice hp => simp at hp
    · cases hq with
      | here => trivial
      | slice hp hq =>
        obtain rfl := SliceItem.element.inj (by simpa using hp)
        cases hq with
        | here =>
          intro s v hs hv hn
          cases hs
          rcases List.mem_pair.mp hv with rfl | rfl
          · rfl
          · exact absurd hn (by decide)
        | @construct _ _ _ _ _ _ _ e _ _ _ _ he hq =>
          obtain ⟨w, p⟩ := e
          obtain rfl : p = _ := List.mem_singleton.mp (List.of_mem_zip he).2
          cases hq
          trivial
    · cases hq with
      | here => trivial
      | slice hp hq =>
        obtain rfl := SliceItem.element.inj (by simpa using hp)
        cases hq with
        | here =>
          intro s v hs hv hn
          cases hs
          rcases List.mem_pair.mp hv with rfl | rfl
          · exact absurd hn (by decide)
          · rfl
        | construct hs hv hn he hq => simp at he
  · simp only [optionArms, List.mem_cons, List.not_mem_nil, or_false] at ha
    rcases ha with rfl | rfl | rfl <;>
      simp [Pattern.nodes, Pattern.nodesOfItems, Pattern.nodesOfList, NeverMisses, RestLast,
        Pattern.endsInRest]

/-- An array longer than any length the search tells apart. -/
theorem exhaustive_optionArms :
    TypeTable.builtin.HasType (.array [.variant "None" [],
      .variant "Some" [.literal (.bool true)], .variant "None" []]) (.array (.option .bool)) ∧
    ∃ a ∈ optionArms, a.guard.isNone = true ∧
      a.pattern.accepts ⟨fun _ _ => false, fun _ _ => none⟩ (.array [.variant "None" [],
        .variant "Some" [.literal (.bool true)], .variant "None" []]) = true := by
  have hnone : TypeTable.builtin.HasType (.variant "None" []) (.option .bool) :=
    .variant (v := ⟨"None", [], "Option"⟩) rfl (.tail _ (.head _)) .nil
  have hsome : TypeTable.builtin.HasType (.variant "Some" [.literal (.bool true)])
      (.option .bool) :=
    .variant (v := ⟨"Some", [.con "T"], "Option"⟩) rfl (.head _) (.cons (.literal rfl) .nil)
  have hv : TypeTable.builtin.HasType (.array [.variant "None" [],
      .variant "Some" [.literal (.bool true)], .variant "None" []]) (.array (.option .bool)) :=
    .array (.cons hnone (.cons hsome (.cons hnone .nil)))
  refine ⟨hv, exhaustive_of_unreported ⟨.builtin, [], false⟩ _ _ _ ?_ ?_ known_optionArray
    (.array _) (wellFormed_optionArms _) ?_ _ hv⟩
  · simp [optionArms]
  · unfold TypeTable.KeepsBuiltins
    decide
  · decide

end PatternPlan.Typed
