import PatternPlan.Typed.Tree

/-!
# Typed patterns

Patterns nest through lists, fields, slice items and options.  The recursor that comes with them has
one motive for each of these; the principle here has one motive and hands out the hypotheses by
membership, and the functions that go through a pattern are read in the same way.

* `Pattern.induction` — **the principle**: what holds of a pattern whenever it holds of the
  patterns inside it holds of all patterns;
* `Pattern.mem_nodesOfList`, `Pattern.mem_nodesOfFields`, `Pattern.mem_nodesOfItems` — a node of
  several patterns is a node of one of them;
* `Pattern.stripped` — a pattern without what the checker adds to it: the types, the marks at calls of
  recognizers that nobody declares, and the places of rest markers.
-/

namespace PatternPlan.Typed.Pattern

@[elab_as_elim]
theorem induction {motive : Pattern → Prop}
    (wildcard : ∀ i, motive (.wildcard i))
    (var : ∀ i n, motive (.var i n))
    (literal : ∀ i l, motive (.literal i l))
    (tuple : ∀ i ps, (∀ p ∈ ps, motive p) → motive (.tuple i ps))
    (record : ∀ i fs r, (∀ f ∈ fs, motive f.2) → motive (.record i fs r))
    (construct : ∀ i n ps, (∀ p ∈ ps, motive p) → motive (.construct i n ps))
    (binding : ∀ i n v p, motive p → motive (.binding i n v p))
    (or : ∀ i ps, (∀ p ∈ ps, motive p) → motive (.or i ps))
    (slice : ∀ i items, (∀ p, SliceItem.element p ∈ items → motive p) → motive (.slice i items))
    (range : ∀ i a b c, motive (.range i a b c))
    (regex : ∀ i s, motive (.regex i s))
    (call : ∀ i n k u, motive (.active i n k u none))
    (callWith : ∀ i n k u p, motive p → motive (.active i n k u (some p))) :
    ∀ p, motive p := by
  intro p
  -- on the size, so that the hypotheses can be stated by membership
  induction hs : sizeOf p using Nat.strongRecOn generalizing p with
  | ind n ih =>
    subst hs
    have inner : ∀ q : Pattern, sizeOf q < sizeOf p → motive q := fun q hq => ih _ hq q rfl
    cases p with
    | wildcard i => exact wildcard i
    | var i n => exact var i n
    | literal i l => exact literal i l
    | tuple i ps =>
      refine tuple i ps fun q hq => inner q ?_
      have := List.sizeOf_lt_of_mem hq
      simp only [Pattern.tuple.sizeOf_spec]
      omega
    | record i fs r =>
      refine record i fs r fun f hf => inner f.2 ?_
      have := List.sizeOf_lt_of_mem hf
      obtain ⟨k, q⟩ := f
      simp only [Pattern.record.sizeOf_spec, Prod.mk.sizeOf_spec] at *
      omega
    | construct i n ps =>
      refine construct i n ps fun q hq => inner q ?_
      have := List.sizeOf_lt_of_mem hq
      simp only [Pattern.construct.sizeOf_spec]
      omega
    | binding i n v p =>
      refine binding i n v p (inner p ?_)
      simp only [Pattern.binding.sizeOf_spec]
      omega
    | or i ps =>
      refine or i ps fun q hq => inner q ?_
      have := List.sizeOf_lt_of_mem hq
      simp only [Pattern.or.sizeOf_spec]
      omega
    | slice i items =>
      refine slice i items fun q hq => inner q ?_
      have := List.sizeOf_lt_of_mem hq
      simp only [Pattern.slice.sizeOf_spec, SliceItem.element.sizeOf_spec] at *
      omega
    | range i a b c => exact range i a b c
    | regex i s => exact regex i s
    | active i n k u arg =>
      cases arg with
      | none => exact call i n k u
      | some p =>
        refine callWith i n k u p (inner p ?_)
        simp only [Pattern.active.sizeOf_spec, Option.some.sizeOf_spec]
        omega

theorem mem_nodesOfList {q : Pattern} {ps : List Pattern} :
    q ∈ nodesOfList ps ↔ ∃ p ∈ ps, q ∈ p.nodes := by
  induction ps with
  | nil => simp [nodesOfList]
  | cons p ps ih => simp [nodesOfList, ih]

theorem mem_nodesOfFields {q : Pattern} {fs : List (String × Pattern)} :
    q ∈ nodesOfFields fs ↔ ∃ f ∈ fs, q ∈ f.2.nodes := by
  induction fs with
  | nil => simp [nodesOfFields]
  | cons f fs ih => simp only [nodesOfFields, List.mem_append, ih, List.mem_cons, exists_eq_or_imp]

theorem mem_nodesOfItems {q : Pattern} {items : List (SliceItem Pattern)} :
    q ∈ nodesOfItems items ↔ ∃ p, SliceItem.element p ∈ items ∧ q ∈ p.nodes := by
  induction items with
  | nil => simp [nodesOfItems]
  | cons item items ih =>
    cases item with
    | element p => simp [nodesOfItems, ih, or_and_right, exists_or]
    | rest n s => simp [nodesOfItems, ih]

theorem self_mem_nodes (p : Pattern) : p ∈ p.nodes := by
  cases p with
  | active i n k u arg => cases arg <;> simp [nodes]
  | _ => simp [nodes]

end PatternPlan.Typed.Pattern

/-! ### Patterns without what the checker adds -/

namespace PatternPlan

namespace SliceItem

variable {α β : Type}

/-- An item with its element mapped; the place of a rest marker is dropped. -/
def unplaced (f : α → β) : SliceItem α → SliceItem β
  | .element p => .element (f p)
  | .rest n _ => .rest n default

end SliceItem

namespace Typed

/-- A node of which only the place is known. -/
def Info.stripped (i : Info) : Info := ⟨i.span, .unknown⟩

namespace Pattern

mutual

/-- A pattern without types, without the places of rest markers, and with every recognizer taken for
declared. -/
def stripped : Pattern → Pattern
  | wildcard i => wildcard i.stripped
  | var i n => var i.stripped n
  | literal i v => literal i.stripped v
  | tuple i ps => tuple i.stripped (strippedAll ps)
  | record i fs hasRest => record i.stripped (strippedFields fs) hasRest
  | construct i n ps => construct i.stripped n (strippedAll ps)
  | binding i n viaAt p => binding i.stripped n viaAt (stripped p)
  | or i ps => or i.stripped (strippedAll ps)
  | slice i items => slice i.stripped (strippedItems items)
  | range i start stop inclusive => range i.stripped start stop inclusive
  | regex i s => regex i.stripped s
  | active i n kind _ none => active i.stripped n kind false none
  | active i n kind _ (some p) => active i.stripped n kind false (some (stripped p))

def strippedAll : List Pattern → List Pattern
  | [] => []
  | p :: ps => stripped p :: strippedAll ps

def strippedFields : List (String × Pattern) → List (String × Pattern)
  | [] => []
  | (n, p) :: fs => (n, stripped p) :: strippedFields fs

def strippedItems : List (SliceItem Pattern) → List (SliceItem Pattern)
  | [] => []
  | .element p :: items => .element (stripped p) :: strippedItems items
  | .rest n _ :: items => .rest n default :: strippedItems items

end

theorem strippedAll_eq_map (ps : List Pattern) : strippedAll ps = ps.map stripped := by
  induction ps with
  | nil => rfl
  | cons p ps ih => rw [strippedAll, ih, List.map_cons]

theorem strippedItems_eq_map (items : List (SliceItem Pattern)) :
    strippedItems items = items.map (SliceItem.unplaced stripped) := by
  induction items with
  | nil => rfl
  | cons item items ih => cases item <;> rw [strippedItems, ih] <;> rfl

end Pattern

end Typed

end PatternPlan
