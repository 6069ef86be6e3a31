import PatternPlan.Proofs.Matching.Value

/-!
# Patterns that fit the type they are matched at

The checks let many odd patterns through.  What a pattern has to keep so that the checks can be
trusted is said here node by node.

* `Pattern.Occurs` — which pattern inside another stands at which type, going down the type and the
  pattern together; `payload` gives a type to what a recognizer hands to its argument, or `none` if
  arguments are not looked into;
* `Pattern.NodeFits` — **the condition on a node**: a constructor has its declared arity, and the
  keys of a record are distinct and declared;
* `Pattern.RestLast` — no slice has an element behind a rest marker;
* `Pattern.WellFormed` — all of it, with the total calls that never miss.
-/

namespace PatternPlan.Typed.Pattern

/-- `Occurs types payload t p u q`: in `p`, matched at type `t`, the pattern `q` stands at `u`. -/
inductive Occurs (types : TypeTable) (payload : String → Option Ty) :
    Ty → Pattern → Ty → Pattern → Prop
  | here (t : Ty) (p : Pattern) : Occurs types payload t p t p
  | binding {t u : Ty} {i : Info} {n : String} {viaAt : Bool} {p q : Pattern} :
      Occurs types payload t p u q → Occurs types payload t (.binding i n viaAt p) u q
  | or {t u : Ty} {i : Info} {ps : List Pattern} {p q : Pattern} :
      p ∈ ps → Occurs types payload t p u q → Occurs types payload t (.or i ps) u q
  | tuple {ts : List Ty} {u : Ty} {i : Info} {ps : List Pattern} {e : Ty × Pattern}
      {q : Pattern} : e ∈ ts.zip ps → Occurs types payload e.1 e.2 u q →
      Occurs types payload (.tuple ts) (.tuple i ps) u q
  | record {t u : Ty} {i : Info} {fs : List (String × Pattern)} {hasRest : Bool}
      {g : String × Ty} {p q : Pattern} : g ∈ types.recordFields t → (g.1, p) ∈ fs →
      Occurs types payload g.2 p u q → Occurs types payload t (.record i fs hasRest) u q
  | construct {t u : Ty} {i : Info} {n : String} {ps : List Pattern} {s : SumType} {v : Variant}
      {e : Ty × Pattern} {q : Pattern} : types.sumOf? (types.resolve t) = some s →
      v ∈ s.variants → v.name = n → e ∈ (types.fieldTypes v t).zip ps →
      Occurs types payload e.1 e.2 u q → Occurs types payload t (.construct i n ps) u q
  | slice {t u : Ty} {i : Info} {items : List (SliceItem Pattern)} {p q : Pattern} :
      .element p ∈ items → Occurs types payload t p u q →
      Occurs types payload (.array t) (.slice i items) u q
  | arg {t u w : Ty} {i : Info} {n : String} {k : RecognizerKind} {unresolved : Bool}
      {p q : Pattern} : payload n = some w → Occurs types payload w p u q →
      Occurs types payload t (.active i n k unresolved (some p)) u q

/-- What a node keeps at the type where it stands. -/
def NodeFits (types : TypeTable) (t : Ty) : Pattern → Prop
  | .construct _ n ps => ∀ s v, types.sumOf? (types.resolve t) = some s → v ∈ s.variants →
      v.name = n → ps.length = v.fields.length
  | .record _ fs _ => (fs.map Prod.fst).Nodup ∧
      ∀ k ∈ fs.map Prod.fst, k ∈ (types.recordFields t).map Prod.fst
  | _ => True

/-- Whether no element follows a rest marker. -/
def endsInRest : List (SliceItem Pattern) → Bool
  | [] => true
  | .element _ :: items => endsInRest items
  | .rest _ _ :: items => items.all SliceItem.isRest

/-- A slice has no element behind a rest marker. -/
def RestLast : Pattern → Prop
  | .slice _ items => endsInRest items = true
  | _ => True

/-- What the checks rely on in a pattern that is matched at a type. -/
structure WellFormed (types : TypeTable) (m : Meaning) (t : Ty) (p : Pattern) : Prop where
  /-- Constructors have their declared arity, record keys are distinct and declared. -/
  fits : ∀ u q, Occurs types (fun _ => none) t p u q → NodeFits types u q
  /-- Recognizers called as total ones never miss, and no element stands behind a rest marker. -/
  nodes : ∀ q ∈ p.nodes, NeverMisses m q ∧ RestLast q

namespace WellFormed

variable {types : TypeTable} {m : Meaning}

theorem binding {t : Ty} {i : Info} {n : String} {viaAt : Bool} {p : Pattern}
    (h : WellFormed types m t (.binding i n viaAt p)) : WellFormed types m t p where
  fits u q hq := h.fits u q (.binding hq)
  nodes q hq := h.nodes q (List.mem_cons_of_mem _ hq)

theorem or {t : Ty} {i : Info} {ps : List Pattern} {p : Pattern}
    (h : WellFormed types m t (.or i ps)) (hp : p ∈ ps) : WellFormed types m t p where
  fits u q hq := h.fits u q (.or hp hq)
  nodes q hq := h.nodes q (List.mem_cons_of_mem _ (mem_nodesOfList.mpr ⟨p, hp, hq⟩))

theorem tuple {ts : List Ty} {i : Info} {ps : List Pattern} {e : Ty × Pattern}
    (h : WellFormed types m (.tuple ts) (.tuple i ps)) (he : e ∈ ts.zip ps) :
    WellFormed types m e.1 e.2 where
  fits u q hq := h.fits u q (.tuple he hq)
  nodes q hq := h.nodes q (List.mem_cons_of_mem _
    (mem_nodesOfList.mpr ⟨e.2, (List.of_mem_zip he).2, hq⟩))

theorem record {t : Ty} {i : Info} {fs : List (String × Pattern)} {hasRest : Bool}
    {g : String × Ty} {p : Pattern} (h : WellFormed types m t (.record i fs hasRest))
    (hg : g ∈ types.recordFields t) (hp : (g.1, p) ∈ fs) : WellFormed types m g.2 p where
  fits u q hq := h.fits u q (.record hg hp hq)
  nodes q hq := h.nodes q (List.mem_cons_of_mem _ (mem_nodesOfFields.mpr ⟨_, hp, hq⟩))

theorem construct {t : Ty} {i : Info} {n : String} {ps : List Pattern} {s : SumType}
    {v : Variant} {e : Ty × Pattern} (h : WellFormed types m t (.construct i n ps))
    (hs : types.sumOf? (types.resolve t) = some s) (hv : v ∈ s.variants) (hn : v.name = n)
    (he : e ∈ (types.fieldTypes v t).zip ps) : WellFormed types m e.1 e.2 where
  fits u q hq := h.fits u q (.construct hs hv hn he hq)
  nodes q hq := h.nodes q (List.mem_cons_of_mem _
    (mem_nodesOfList.mpr ⟨e.2, (List.of_mem_zip he).2, hq⟩))

theorem slice {t : Ty} {i : Info} {items : List (SliceItem Pattern)} {p : Pattern}
    (h : WellFormed types m (.array t) (.slice i items)) (hp : .element p ∈ items) :
    WellFormed types m t p where
  fits u q hq := h.fits u q (.slice hp hq)
  nodes q hq := h.nodes q (List.mem_cons_of_mem _ (mem_nodesOfItems.mpr ⟨p, hp, hq⟩))

end WellFormed

/-! ### Slices -/

theorem mem_of_mem_elements? {items : List (SliceItem Pattern)} {ps : List Pattern} {p : Pattern}
    (h : elements? items = some ps) (hp : p ∈ ps) : .element p ∈ items := by
  induction items generalizing ps with
  | nil =>
    cases h
    exact absurd hp (by simp)
  | cons item items ih =>
    cases item with
    | element q =>
      obtain ⟨qs, hqs, rfl⟩ := Option.map_eq_some_iff.mp h
      rcases List.mem_cons.mp hp with rfl | hp
      · exact List.mem_cons_self
      · exact List.mem_cons_of_mem _ (ih hqs hp)
    | rest n s => exact absurd h (by simp [elements?])

/-- The elements of the shape of a slice are its elements. -/
theorem mem_of_mem_sliceShape? {items : List (SliceItem Pattern)} {s : SliceShape} {p : Pattern}
    (h : sliceShape? items = some s) (hp : p ∈ s.front ++ s.back) : .element p ∈ items := by
  induction items generalizing s with
  | nil =>
    cases h
    exact absurd hp (by simp)
  | cons item items ih =>
    cases item with
    | element q =>
      obtain ⟨s', hs', rfl⟩ := Option.map_eq_some_iff.mp h
      rcases List.mem_cons.mp hp with rfl | hp
      · exact List.mem_cons_self
      · exact List.mem_cons_of_mem _ (ih hs' hp)
    | rest n sp =>
      obtain ⟨ps, hps, rfl⟩ := Option.map_eq_some_iff.mp h
      exact List.mem_cons_of_mem _ (mem_of_mem_elements? hps hp)

/-- A slice without elements behind its rest marker has an empty back. -/
theorem back_eq_nil {items : List (SliceItem Pattern)} {s : SliceShape}
    (h : sliceShape? items = some s) (hr : endsInRest items = true) : s.back = [] := by
  induction items generalizing s with
  | nil =>
    cases h
    rfl
  | cons item items ih =>
    cases item with
    | element q =>
      obtain ⟨s', hs', rfl⟩ := Option.map_eq_some_iff.mp h
      have hback := ih hs' hr
      exact hback
    | rest n sp =>
      obtain ⟨ps, hps, rfl⟩ := Option.map_eq_some_iff.mp h
      show ps = []
      -- a second marker would leave the items without a shape
      cases items with
      | nil =>
        cases hps
        rfl
      | cons item items =>
        cases item with
        | element q => exact absurd hr (by simp [endsInRest, SliceItem.isRest])
        | rest n sp => exact absurd hps (by simp [elements?])

end PatternPlan.Typed.Pattern
