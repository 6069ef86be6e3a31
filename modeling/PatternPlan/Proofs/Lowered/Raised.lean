import PatternPlan.Proofs.Lowered.Accepted
import PatternPlan.Proofs.Typed.Pattern

/-!
# Patterns are read back from their records

A lowered pattern is one flat record for all forms, and every form uses fields of its own: elements,
arguments, variants, the two ends of a slice.  Nothing a backend needs is lost on the way.

* `Pattern.raise` — the typed pattern of a record, if its form has its parts;
* `around_parts` — a slice with one rest marker at most is put together again from its ends;
* `raise_ofTyped` — lowering can be undone;
* `lowering_lossless` — **a lowered pattern gives back the pattern it was lowered from**, and every
  recognizer call in it has a miss target exactly if it may miss.
-/

namespace PatternPlan

namespace Typed.Pattern

/-- No slice in a pattern has more than one rest marker. -/
def SingleRests (p : Pattern) : Prop :=
  ∀ i items, .slice i items ∈ p.nodes → items.countP SliceItem.isRest ≤ 1

end Typed.Pattern

namespace Lowered

open Typed.Pattern (mem_nodesOfList mem_nodesOfFields mem_nodesOfItems self_mem_nodes stripped
  strippedAll_eq_map strippedFields strippedItems_eq_map)

/-! ### Slices -/

/-- The items of a slice from its ends and what its rest marker binds; without a marker nothing
stands behind it. -/
def around {π : Type} : (rest : Option String) → (front back : List π) → Option (List (SliceItem π))
  | some n, front, back => some (front.map .element ++ .rest n default :: back.map .element)
  | none, front, [] => some (front.map .element)
  | none, _, _ :: _ => none

section Slices

variable {π : Type} {items : List (SliceItem π)}

theorem lastRest?_cons (item : SliceItem π) (items : List (SliceItem π)) :
    lastRest? (item :: items) = (lastRest? items).or (lastRest? [item]) := by
  rw [lastRest?, List.reverse_cons, List.findSome?_append]
  rfl

/-- Items without a rest marker are elements. -/
theorem exists_elements (h : items.countP SliceItem.isRest = 0) :
    ∃ ps : List π, items = ps.map .element := by
  induction items with
  | nil => exact ⟨[], rfl⟩
  | cons item items ih =>
    cases item with
    | element p =>
      obtain ⟨ps, rfl⟩ := ih (by rwa [List.countP_cons_of_neg (by simp [SliceItem.isRest])] at h)
      exact ⟨p :: ps, rfl⟩
    | rest n s =>
      rw [List.countP_cons_of_pos rfl] at h
      omega

theorem lastRest?_elements (ps : List π) : lastRest? (ps.map SliceItem.element) = none := by
  induction ps with
  | nil => rfl
  | cons p ps ih =>
    rw [List.map_cons, lastRest?_cons, ih]
    rfl

/-- **A slice is put together again from its ends**, if it has one rest marker at most. -/
theorem around_parts (h : items.countP SliceItem.isRest ≤ 1) :
    around (lastRest? items) (beforeRest items) (afterRest items)
      = some (items.map (SliceItem.unplaced id)) := by
  induction items with
  | nil => rfl
  | cons item items ih =>
    cases item with
    | element p =>
      rw [List.countP_cons_of_neg (by simp [SliceItem.isRest])] at h
      have hitems := ih h
      have hlast : lastRest? (.element p :: items) = lastRest? items := by
        rw [lastRest?_cons]
        exact Option.or_none
      rw [hlast, beforeRest, afterRest, List.map_cons]
      cases hrest : lastRest? items with
      | some n =>
        rw [hrest, around, Option.some_inj] at hitems
        rw [around, List.map_cons, List.cons_append, hitems]
        rfl
      | none =>
        rw [hrest] at hitems
        cases hafter : afterRest items with
        | nil =>
          rw [hafter, around, Option.some_inj] at hitems
          rw [around, List.map_cons, hitems]
          rfl
        | cons q qs =>
          rw [hafter] at hitems
          cases hitems
    | rest n s =>
      -- no marker is left, so this one is the last as well as the first
      rw [List.countP_cons_of_pos rfl] at h
      obtain ⟨ps, rfl⟩ : ∃ ps : List π, items = ps.map .element := exists_elements (by omega)
      have hlast : lastRest? (.rest n s :: ps.map .element) = some n := by
        rw [lastRest?_cons, lastRest?_elements]
        rfl
      have hback : afterRest (.rest n s :: ps.map .element) = ps := by
        rw [afterRest, List.filterMap_map]
        exact List.filterMap_some
      have hfront : beforeRest (.rest n s :: ps.map .element) = [] := rfl
      rw [hlast, hback, hfront, around, List.map_cons, List.map_map]
      rfl

end Slices

/-! ### Reading back -/

namespace Pattern

/-- A bound of a range, which may be left out; `none` if it is no constant. -/
def raiseBound : Option Pattern → Option (Option Typed.Bound)
  | none => some none
  | some p => if p.form = .literal then p.literal.map fun v => some ⟨p.span, v⟩ else none

mutual

/-- **The typed pattern of a record**, read off the fields of its form; `none` if one is missing. -/
def raise : Pattern → Option Typed.Pattern
  | ⟨form, span, _, name, literal, elements, fields, hasRest, args, inner, viaAt, variants, head,
      rest, tail, start, stop, inclusive, regex, call⟩ =>
    let i : Typed.Info := ⟨span, .unknown⟩
    match form with
    | .wildcard => some (.wildcard i)
    | .var => some (.var i name)
    | .literal => literal.map (.literal i)
    | .tuple => (raiseAll elements).map (.tuple i)
    | .record => (raiseFields fields).map fun fs => .record i fs hasRest
    | .construct => (raiseAll args).map (.construct i name)
    | .binding => (raiseNeeded inner).map (.binding i name viaAt)
    | .or => (raiseAll variants).map (.or i)
    | .slice => do
      let front ← raiseAll head
      let back ← raiseAll tail
      let items ← around rest front back
      return .slice i items
    | .range => do
      let a ← raiseBound start
      let b ← raiseBound stop
      return .range i a b inclusive
    | .regex => some (.regex i regex)
    | .active => raiseCall i call
    | .other _ => none

/-- A pattern that has to be there. -/
def raiseNeeded : Option Pattern → Option Typed.Pattern
  | none => none
  | some p => raise p

def raiseAll : List (Option Pattern) → Option (List Typed.Pattern)
  | [] => some []
  | p :: ps => do
    let q ← raiseNeeded p
    let qs ← raiseAll ps
    return q :: qs

def raiseFields : List (String × Option Pattern) → Option (List (String × Typed.Pattern))
  | [] => some []
  | (n, p) :: fs => do
    let q ← raiseNeeded p
    let gs ← raiseFields fs
    return (n, q) :: gs

/-- A recognizer call, whose argument may be left out. -/
def raiseCall (i : Typed.Info) : Option (Call Pattern) → Option Typed.Pattern
  | none => none
  | some ⟨name, kind, none, _, _⟩ => some (.active i name kind false none)
  | some ⟨name, kind, some p, _, _⟩ => (raise p).map fun q => .active i name kind false (some q)

end

theorem raiseBound_ofBound (b : Option Typed.Bound) : raiseBound (b.map ofBound) = some b := by
  cases b <;> rfl

theorem raiseAll_some {ps : List Typed.Pattern} (h : ∀ p ∈ ps, raise (ofTyped p) = some p.stripped) :
    raiseAll ((ps.map ofTyped).map some) = some (ps.map stripped) := by
  induction ps with
  | nil => rfl
  | cons p ps ih =>
    rw [List.map_cons, List.map_cons, raiseAll, raiseNeeded, h p List.mem_cons_self,
      ih fun q hq => h q (List.mem_cons_of_mem _ hq)]
    rfl

theorem raiseFields_ofTypedFields {fs : List (String × Typed.Pattern)}
    (h : ∀ f ∈ fs, raise (ofTyped f.2) = some f.2.stripped) :
    raiseFields (ofTypedFields fs) = some (strippedFields fs) := by
  induction fs with
  | nil => rfl
  | cons f fs ih =>
    obtain ⟨n, p⟩ := f
    have hp : raise (ofTyped p) = some p.stripped := h (n, p) List.mem_cons_self
    rw [ofTypedFields, raiseFields, raiseNeeded, hp, ih fun g hg => h g (List.mem_cons_of_mem _ hg)]
    rfl

/-! The ends of a slice are those of the pattern, lowered. -/

theorem beforeRest_ofTypedItems (items : List (SliceItem Typed.Pattern)) :
    beforeRest (ofTypedItems items) = (beforeRest items).map ofTyped := by
  induction items with
  | nil => rfl
  | cons item items ih =>
    cases item with
    | element p => rw [ofTypedItems, beforeRest, beforeRest, ih, List.map_cons]
    | rest n s => rfl

theorem elements_ofTypedItems (items : List (SliceItem Typed.Pattern)) :
    (ofTypedItems items).filterMap SliceItem.element?
      = (items.filterMap SliceItem.element?).map ofTyped := by
  induction items with
  | nil => rfl
  | cons item items ih =>
    cases item with
    | element p => exact congrArg (ofTyped p :: ·) ih
    | rest n s => exact ih

theorem afterRest_ofTypedItems (items : List (SliceItem Typed.Pattern)) :
    afterRest (ofTypedItems items) = (afterRest items).map ofTyped := by
  induction items with
  | nil => rfl
  | cons item items ih =>
    cases item with
    | element p => exact ih
    | rest n s => exact elements_ofTypedItems items

theorem lastRest?_ofTypedItems (items : List (SliceItem Typed.Pattern)) :
    lastRest? (ofTypedItems items) = lastRest? items := by
  induction items with
  | nil => rfl
  | cons item items ih =>
    cases item <;> rw [ofTypedItems, lastRest?_cons, lastRest?_cons _ items, ih] <;> rfl

/-- Putting together commutes with what is done to the elements. -/
theorem around_map {α β : Type} (f : α → β) (rest : Option String) (front back : List α) :
    around rest (front.map f) (back.map f)
      = (around rest front back).map (List.map (SliceItem.unplaced f)) := by
  have hitems : ∀ ps : List α, (ps.map f).map SliceItem.element
      = (ps.map .element).map (SliceItem.unplaced f) := by
    intro ps
    rw [List.map_map, List.map_map]
    rfl
  cases rest with
  | some n =>
    rw [around, around, Option.map_some, List.map_append, List.map_cons, hitems, hitems]
    rfl
  | none =>
    cases back with
    | nil =>
      rw [List.map_nil, around, around, Option.map_some, hitems]
    | cons q qs => rfl

/-- The items of a lowered slice are those of the slice, read back one by one. -/
theorem around_stripped {items : List (SliceItem Typed.Pattern)}
    (h : items.countP SliceItem.isRest ≤ 1) :
    around (lastRest? items) ((beforeRest items).map stripped) ((afterRest items).map stripped)
      = some (items.map (SliceItem.unplaced stripped)) := by
  rw [around_map, around_parts h, Option.map_some, List.map_map]
  congr 2
  funext item
  cases item <;> rfl

/-- **Lowering is undone by reading back.** -/
theorem raise_ofTyped {p : Typed.Pattern} (h : p.SingleRests) : raise (ofTyped p) = some p.stripped := by
  induction p using Typed.Pattern.induction with
  | wildcard i => rfl
  | var i n => rfl
  | literal i v => rfl
  | tuple i ps ih =>
    have hps := raiseAll_some fun p hp => ih p hp fun j items hmem =>
      h j items (List.mem_cons_of_mem _ (mem_nodesOfList.mpr ⟨p, hp, hmem⟩))
    rw [ofTyped, ofTypedList_eq_map, stripped, strippedAll_eq_map]
    show (raiseAll _).map _ = _
    rw [hps]
    rfl
  | record i fs hasRest ih =>
    have hfs := raiseFields_ofTypedFields fun f hf => ih f hf fun j items hmem =>
      h j items (List.mem_cons_of_mem _ (mem_nodesOfFields.mpr ⟨f, hf, hmem⟩))
    show (raiseFields (ofTypedFields fs)).map _ = _
    rw [hfs]
    rfl
  | construct i n ps ih =>
    have hps := raiseAll_some fun p hp => ih p hp fun j items hmem =>
      h j items (List.mem_cons_of_mem _ (mem_nodesOfList.mpr ⟨p, hp, hmem⟩))
    rw [ofTyped, ofTypedList_eq_map, stripped, strippedAll_eq_map]
    show (raiseAll _).map _ = _
    rw [hps]
    rfl
  | binding i n viaAt p ih =>
    have hp := ih fun j items hmem => h j items (List.mem_cons_of_mem _ hmem)
    show (raise (ofTyped p)).map _ = _
    rw [hp]
    rfl
  | or i ps ih =>
    have hps := raiseAll_some fun p hp => ih p hp fun j items hmem =>
      h j items (List.mem_cons_of_mem _ (mem_nodesOfList.mpr ⟨p, hp, hmem⟩))
    rw [ofTyped, ofTypedList_eq_map, stripped, strippedAll_eq_map]
    show (raiseAll _).map _ = _
    rw [hps]
    rfl
  | slice i items ih =>
    have hitem : ∀ p, .element p ∈ items → raise (ofTyped p) = some p.stripped := fun p hp =>
      ih p hp fun j is hmem =>
        h j is (List.mem_cons_of_mem _ (mem_nodesOfItems.mpr ⟨p, hp, hmem⟩))
    have hfront := raiseAll_some fun p hp => hitem p (element_of_mem_beforeRest hp)
    have hback := raiseAll_some fun p hp => hitem p (element_of_mem_afterRest hp)
    have hone : items.countP SliceItem.isRest ≤ 1 := h i items (self_mem_nodes _)
    rw [stripped, strippedItems_eq_map]
    show (raiseAll ((beforeRest (ofTypedItems items)).map some) >>= fun front =>
      raiseAll ((afterRest (ofTypedItems items)).map some) >>= fun back =>
        around (lastRest? (ofTypedItems items)) front back >>= fun is =>
          some (Typed.Pattern.slice i.stripped is)) = _
    rw [beforeRest_ofTypedItems, afterRest_ofTypedItems, lastRest?_ofTypedItems, hfront, hback]
    show (around (lastRest? items) _ _ >>= fun is => some (Typed.Pattern.slice i.stripped is)) = _
    rw [around_stripped hone]
    rfl
  | range i start stop inclusive =>
    show (raiseBound (start.map ofBound) >>= fun a => raiseBound (stop.map ofBound) >>= fun b =>
      some (Typed.Pattern.range i.stripped a b inclusive)) = _
    rw [raiseBound_ofBound, raiseBound_ofBound]
    rfl
  | regex i s => rfl
  | call i n kind u => rfl
  | callWith i n kind u p ih =>
    have hp := ih fun j items hmem => h j items (List.mem_cons_of_mem _ hmem)
    show (raise (ofTyped p)).map _ = _
    rw [hp]
    rfl

/-! ### Miss targets -/

theorem mem_ofTypedList {ps : List Typed.Pattern} {q : Pattern}
    (h : q ∈ (ofTypedList ps).filterMap id) : ∃ r ∈ ps, ofTyped r = q := by
  rw [ofTypedList_eq_map, List.filterMap_map, List.filterMap_map, Function.id_comp] at h
  obtain ⟨r, hr, heq⟩ := List.mem_filterMap.mp h
  exact ⟨r, hr, Option.some.inj heq⟩

/-- What stands right inside a lowered pattern is lowered from a part of the pattern. -/
theorem inside_ofTyped {p : Typed.Pattern} {q : Pattern} (h : q ∈ (ofTyped p).inside) :
    ∃ r, ofTyped r = q ∧ ∀ s ∈ r.nodes, s ∈ p.nodes := by
  cases p with
  | wildcard i => cases h
  | var i n => cases h
  | literal i v => cases h
  | range i start stop inclusive => cases h
  | regex i s => cases h
  | tuple i ps =>
    obtain ⟨r, hr, heq⟩ := mem_ofTypedList h
    exact ⟨r, heq, fun s hs => List.mem_cons_of_mem _ (mem_nodesOfList.mpr ⟨r, hr, hs⟩)⟩
  | record i fs hasRest =>
    have hfield : q ∈ ((ofTypedFields fs).map (·.2)).filterMap id := h
    rw [List.filterMap_map] at hfield
    obtain ⟨f, hf, rfl⟩ := mem_ofTypedFields hfield
    exact ⟨f.2, rfl, fun s hs => List.mem_cons_of_mem _ (mem_nodesOfFields.mpr ⟨f, hf, hs⟩)⟩
  | construct i n ps =>
    obtain ⟨r, hr, heq⟩ := mem_ofTypedList h
    exact ⟨r, heq, fun s hs => List.mem_cons_of_mem _ (mem_nodesOfList.mpr ⟨r, hr, hs⟩)⟩
  | binding i n viaAt p =>
    obtain rfl := List.mem_singleton.mp h
    exact ⟨p, rfl, fun s hs => List.mem_cons_of_mem _ hs⟩
  | or i ps =>
    obtain ⟨r, hr, heq⟩ := mem_ofTypedList h
    exact ⟨r, heq, fun s hs => List.mem_cons_of_mem _ (mem_nodesOfList.mpr ⟨r, hr, hs⟩)⟩
  | slice i items =>
    have hitem : SliceItem.element q ∈ ofTypedItems items := by
      rcases List.mem_append.mp h with hmem | hmem
      · rw [ofTyped, List.filterMap_map, Function.id_comp] at hmem
        obtain ⟨q', hq', heq⟩ := List.mem_filterMap.mp hmem
        cases heq
        exact element_of_mem_beforeRest hq'
      · rw [ofTyped, List.filterMap_map, Function.id_comp] at hmem
        obtain ⟨q', hq', heq⟩ := List.mem_filterMap.mp hmem
        cases heq
        exact element_of_mem_afterRest hq'
    obtain ⟨r, hr, rfl⟩ := mem_ofTypedItems hitem
    exact ⟨r, rfl, fun s hs => List.mem_cons_of_mem _ (mem_nodesOfItems.mpr ⟨r, hr, hs⟩)⟩
  | active i n kind u argument =>
    cases argument with
    | none => cases h
    | some p =>
      obtain rfl := List.mem_singleton.mp h
      exact ⟨p, rfl, fun s hs => List.mem_cons_of_mem _ hs⟩

theorem reaches_ofTyped {p : Typed.Pattern} {q : Pattern} (h : (ofTyped p).Reaches q) :
    ∃ r ∈ p.nodes, ofTyped r = q := by
  generalize hfrom : ofTyped p = from' at h
  induction h using Relation.ReflTransGen.head_induction_on generalizing p with
  | refl => exact ⟨p, self_mem_nodes p, hfrom⟩
  | head hinside _ ih =>
    subst hfrom
    obtain ⟨r, hr, hsub⟩ := inside_ofTyped hinside
    obtain ⟨s, hs, heq⟩ := ih hr
    exact ⟨s, hsub s hs, heq⟩

theorem missTarget_ofTyped {p : Typed.Pattern} {c : Call Pattern} (h : (ofTyped p).call = some c) :
    c.missTarget ≠ none ↔ c.kind = .optional := by
  have hkind : c.missTarget = c.kind.missTarget := by
    cases p with
    | active i n kind u argument => cases argument <;> (cases h; rfl)
    | _ => cases h
  rw [hkind]
  cases c.kind <;> decide

/-! ### Nothing is lost -/

/-- **A lowered pattern gives back the pattern it was lowered from**, if no slice of it has more than
one rest marker: all but types, places of rest markers and whether recognizers are declared.  At any
depth inside it a recognizer call has a miss target exactly if it may miss. -/
theorem lowering_lossless {p : Typed.Pattern} (h : p.SingleRests) :
    raise (ofTyped p) = some p.stripped ∧
      ∀ q, (ofTyped p).Reaches q → ∀ c, q.call = some c →
        (c.missTarget ≠ none ↔ c.kind = .optional) := by
  refine ⟨raise_ofTyped h, fun q hq c hc => ?_⟩
  obtain ⟨r, -, rfl⟩ := reaches_ofTyped hq
  exact missTarget_ofTyped hc

/-- Two elements, a marker that binds what is between them, and one more; recognizers are called on
both sides. -/
def evenEnds (i : Typed.Info) (unresolved : Bool) : Typed.Pattern :=
  .slice i
    [.element (.active i "Even" .optional unresolved (some (.var i "x"))),
      .element (.binding i "half" true (.active i "Half" .total unresolved none)),
      .rest "between" default,
      .element (.active i "Even" .optional unresolved (some (.literal i (.int 0))))]

theorem lowering_lossless_evenEnds :
    (evenEnds ⟨{}, .int⟩ true).SingleRests ∧
      raise (ofTyped (evenEnds ⟨{}, .int⟩ true)) = some (evenEnds ⟨{}, .unknown⟩ false) := by
  have hone : (evenEnds ⟨{}, .int⟩ true).SingleRests := by
    intro i items h
    simp [evenEnds, Typed.Pattern.nodes, Typed.Pattern.nodesOfItems] at h
    rw [h.2]
    decide
  exact ⟨hone, (lowering_lossless hone).1⟩

end Pattern

end Lowered

end PatternPlan
