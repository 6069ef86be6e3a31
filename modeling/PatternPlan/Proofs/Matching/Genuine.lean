import PatternPlan.Proofs.Matching.Compared
import PatternPlan.Proofs.Matching.Witness

/-!
# What is reported as missing is missing

A search that finds something describes values that no row matches.  Read backwards, a value that has
a description found under a shape has that shape, and a cell that matches it keeps a row for its parts.

* `Seen` — the nodes that the search sees all of: what they match is decided by shapes;
* `TypeTable.Distinct`, `TypeTable.Spelled` — constructors of a type with different names, and names
  that can be read in a description;
* `exists_mem_normalize` — a cell that matches a value has an alternative that does;
* `HasShapes.exists_parts` — **a described value has the shape of its description**, and whatever
  matches it matches its parts.  An open array stands for all lengths that no slice tells apart;
* `RightFinds`, `rightFinds_missingIn` — **the search**, by induction on the depth of the patterns,
  with the search behind the first column as a parameter;
* `missing_genuine` — no arm without a guard matches a value that matches the description, however
  it is read.
-/

namespace PatternPlan

namespace TypeTable

/-- In the expansion of a type no sum type has two constructors of one name, and fields of a record
that have one name have one type. -/
def Distinct (types : TypeTable) (t : Ty) : Prop := ∀ u, types.Part t u →
  (∀ s, types.sumOf? (types.resolve u) = some s → (s.variants.map Variant.name).Nodup) ∧
  ∀ f ∈ types.recordFields u, ∀ g ∈ types.recordFields u, f.1 = g.1 → f.2 = g.2

/-- In the expansion of a type all names can be told from signs and words, and no tuple is empty. -/
def Spelled (types : TypeTable) (t : Ty) : Prop := ∀ u, types.Part t u →
  (∀ s, types.sumOf? (types.resolve u) = some s → ∀ v ∈ s.variants,
    Typed.IsName v.name ∧ v.name ∉ Typed.words) ∧
  (∀ f ∈ types.recordFields u, Typed.IsName f.1) ∧ u ≠ .tuple []

end TypeTable

namespace Typed

open Pattern (endsInRest)

variable {types : TypeTable} {m : Meaning}

/-! ### Cells that the search sees all of -/

/-- A node of which the search sees all: constants of finite types, slices with at most one rest
marker, at the end, and calls of recognizers that match everything. -/
def Seen : Pattern → Prop
  | .literal _ (.bool _) | .literal _ .unit => True
  | .literal _ _ | .range _ _ _ _ | .regex _ _ => False
  | .slice _ items => endsInRest items = true ∧ (sliceShape? items).isSome = true
  | .active i n k u arg => (Pattern.active i n k u arg).irrefutable = true
  | _ => True

/-- A cell of a column, no deeper than the search may go, of which it sees all. -/
def Cell.Within (depth : Nat) (c : Cell) : Prop :=
  ∀ p, c = some p → p.depth ≤ depth ∧ ∀ q ∈ p.nodes, Seen q

/-- Whether a pattern shows how the values it matches are built. -/
def showsShape : Pattern → Bool
  | .literal _ (.bool _) | .literal _ .unit => true
  | .tuple _ _ | .record _ _ _ | .construct _ _ _ | .slice _ _ => true
  | _ => false

/-- A cell that matches everything, or shows how values are built. -/
def Cell.Shown (c : Cell) : Prop := ∀ p, c = some p → showsShape p = true

theorem Cell.within_some {depth : Nat} {p : Pattern} (hd : p.depth ≤ depth)
    (hs : ∀ q ∈ p.nodes, Seen q) : Cell.Within depth (some p) := by
  intro q hq
  cases hq
  exact ⟨hd, hs⟩

theorem depth_pos (p : Pattern) : 0 < p.depth := by
  cases p with
  | active i n k u arg => cases arg <;> simp [Pattern.depth]
  | _ => simp [Pattern.depth]

/-- The alternatives of a pattern are no deeper, stand in it, and show how values are built. -/
theorem of_mem_normalizePattern {p q : Pattern} (hq : some q ∈ normalizePattern p) :
    q.depth ≤ p.depth ∧ (∀ x ∈ q.nodes, x ∈ p.nodes) ∧ showsShape q = true := by
  induction p using Pattern.induction with
  | wildcard | var => simp [normalizePattern] at hq
  | literal i l =>
    cases l with
    | bool b | unit =>
      cases List.mem_singleton.mp hq
      exact ⟨Nat.le_refl _, fun x hx => hx, rfl⟩
    | int | float | text => simp [normalizePattern] at hq
  | tuple | record | construct | slice =>
    cases List.mem_singleton.mp hq
    exact ⟨Nat.le_refl _, fun x hx => hx, rfl⟩
  | binding i n viaAt p ih =>
    obtain ⟨hd, hnodes, hshown⟩ := ih hq
    exact ⟨Nat.le_succ_of_le hd, fun x hx => List.mem_cons_of_mem _ (hnodes x hx), hshown⟩
  | or i ps ih =>
    obtain ⟨p, hmem, hc⟩ := mem_normalizePatterns.mp hq
    obtain ⟨hd, hnodes, hshown⟩ := ih p hmem hc
    refine ⟨Nat.le_succ_of_le (hd.trans (depth_le_depthOfList hmem)), fun x hx => ?_, hshown⟩
    exact List.mem_cons_of_mem _ (Pattern.mem_nodesOfList.mpr ⟨p, hmem, hnodes x hx⟩)
  | range | regex => simp [normalizePattern] at hq
  | call i n k u | callWith i n k u p ih =>
    rw [normalizePattern] at hq
    split at hq <;> simp at hq

theorem normalizePattern_within {depth : Nat} {p : Pattern} {c : Cell}
    (hc : c ∈ normalizePattern p) (hp : Cell.Within depth (some p)) :
    c.Within depth ∧ c.Shown := by
  obtain ⟨hd, hs⟩ := hp p rfl
  constructor
  · rintro q rfl
    obtain ⟨hdepth, hnodes, -⟩ := of_mem_normalizePattern hc
    exact ⟨hdepth.trans hd, fun x hx => hs x (hnodes x hx)⟩
  · rintro q rfl
    exact (of_mem_normalizePattern hc).2.2

/-- **A pattern that matches a value has an alternative that does.** -/
theorem exists_mem_normalizePattern {p : Pattern} (hp : ∀ q ∈ p.nodes, Seen q) {v : Value}
    (hv : p.accepts m v = true) : ∃ c ∈ normalizePattern p, Cell.accepts m c v = true := by
  induction p using Pattern.induction with
  | wildcard i => exact ⟨none, List.mem_singleton_self _, rfl⟩
  | var i n => exact ⟨none, List.mem_singleton_self _, rfl⟩
  | literal i l =>
    have hseen := hp _ (Pattern.self_mem_nodes _)
    cases l with
    | bool b => exact ⟨_, List.mem_singleton_self _, hv⟩
    | unit => exact ⟨_, List.mem_singleton_self _, hv⟩
    | int | float | text => exact hseen.elim
  | tuple | record | construct | slice => exact ⟨_, List.mem_singleton_self _, hv⟩
  | binding i n viaAt p ih => exact ih (fun q hq => hp q (List.mem_cons_of_mem _ hq)) hv
  | or i ps ih =>
    obtain ⟨p, hmem, hacc⟩ := Pattern.acceptsAny_iff.mp hv
    obtain ⟨c, hc, hcacc⟩ := ih p hmem (fun q hq =>
      hp q (List.mem_cons_of_mem _ (Pattern.mem_nodesOfList.mpr ⟨p, hmem, hq⟩))) hacc
    exact ⟨c, mem_normalizePatterns.mpr ⟨p, hmem, hc⟩, hcacc⟩
  | range | regex => exact (hp _ (Pattern.self_mem_nodes _)).elim
  | call i n k u | callWith i n k u p ih =>
    have hirr : (Pattern.active i n k u _).irrefutable = true := hp _ (Pattern.self_mem_nodes _)
    rw [normalizePattern, if_pos hirr]
    exact ⟨none, List.mem_singleton_self _, rfl⟩

theorem within_of_mem_normalize {depth : Nat} {c d : Cell} (hd : d ∈ normalize c)
    (hc : c.Within depth) : d.Within depth ∧ d.Shown := by
  cases c with
  | none =>
    obtain rfl := List.mem_singleton.mp hd
    exact ⟨hc, nofun⟩
  | some p => exact normalizePattern_within hd hc

theorem exists_mem_normalize {depth : Nat} {c : Cell} (hc : c.Within depth) {v : Value}
    (hv : Cell.accepts m c v = true) : ∃ d ∈ normalize c, Cell.accepts m d v = true := by
  cases c with
  | none => exact ⟨none, List.mem_singleton_self _, rfl⟩
  | some p => exact exists_mem_normalizePattern (hc p rfl).2 hv

/-! ### Specialized rows are as long as the shape has parts, and less deep -/

/-- A pattern that stands inside another one. -/
structure Pattern.Inside (q p : Pattern) : Prop where
  depth_lt : q.depth < p.depth
  nodes : ∀ x ∈ q.nodes, x ∈ p.nodes

/-- The rows for a shape have as many cells as the shape has parts; their patterns stand inside the
pattern of the cell. -/
theorem specialize_inside {s : Shape} {c : Cell} {row : Row} (h : specialize s c = some row) :
    row.length = s.fields.length ∧ ∀ q, some q ∈ row → ∃ p, c = some p ∧ q.Inside p := by
  unfold specialize at h
  split at h
  · cases h
    exact ⟨List.length_map _, by simp⟩
  · rename_i p
    split at h
    · split at h
      · cases h
        exact ⟨rfl, by simp⟩
      · cases h
    · cases h
      exact ⟨rfl, by simp⟩
    · rename_i ts i ps
      split at h
      · rename_i hlen
        cases h
        refine ⟨by rw [List.length_map]; exact hlen, fun q hq => ⟨_, rfl, ?_⟩⟩
        have hmem : q ∈ ps := by simpa using hq
        exact ⟨Nat.lt_succ_of_le (depth_le_depthOfList hmem), fun x hx =>
          List.mem_cons_of_mem _ (Pattern.mem_nodesOfList.mpr ⟨q, hmem, hx⟩)⟩
      · cases h
    · rename_i fs i gs r
      cases h
      refine ⟨by simp [Shape.fields], fun q hq => ?_⟩
      obtain ⟨f, -, hf⟩ := List.mem_map.mp hq
      have hmem := mem_of_fieldPattern? hf
      refine ⟨_, rfl, Nat.lt_succ_of_le (depth_le_depthOfFields hmem), fun x hx => ?_⟩
      exact List.mem_cons_of_mem _ (Pattern.mem_nodesOfFields.mpr ⟨_, hmem, hx⟩)
    · rename_i ts isOpen i items
      split at h
      · cases h
      · rename_i sh hsh
        have hpart : ∀ q ∈ sh.front ++ sh.back, q.Inside (.slice i items) := fun q hq => by
          have hmem := Pattern.mem_of_mem_sliceShape? hsh hq
          exact ⟨Nat.lt_succ_of_le (depth_le_depthOfItems hmem), fun x hx =>
            List.mem_cons_of_mem _ (Pattern.mem_nodesOfItems.mpr ⟨q, hmem, hx⟩)⟩
        split at h
        · split at h
          · rename_i hlen
            cases h
            refine ⟨by rw [List.length_map]; exact hlen, fun q hq => ⟨_, rfl, hpart q ?_⟩⟩
            simpa using Or.inl hq
          · cases h
        · split at h
          · cases h
          · rename_i hle
            cases h
            refine ⟨by simp [Shape.fields]; omega, fun q hq => ⟨_, rfl, hpart q ?_⟩⟩
            simpa using hq
    · rename_i n ts i k ps
      split at h
      · cases h
        refine ⟨by simp [padded, Shape.fields]; omega, fun q hq => ⟨_, rfl, ?_⟩⟩
        have hmem : q ∈ ps := by simpa using List.mem_of_mem_take hq
        exact ⟨Nat.lt_succ_of_le (depth_le_depthOfList hmem), fun x hx =>
          List.mem_cons_of_mem _ (Pattern.mem_nodesOfList.mpr ⟨q, hmem, hx⟩)⟩
      · cases h
    · cases h

theorem specialize_within {s : Shape} {c : Cell} {row : Row} {depth : Nat}
    (h : specialize s c = some row) (hc : c.Within (depth + 1)) :
    row.length = s.fields.length ∧ ∀ d ∈ row, Cell.Within depth d := by
  obtain ⟨hlen, hinside⟩ := specialize_inside h
  refine ⟨hlen, ?_⟩
  rintro d hd q rfl
  obtain ⟨p, rfl, hlt, hnodes⟩ := hinside q hd
  obtain ⟨hdepth, hseen⟩ := hc p rfl
  exact ⟨by omega, fun x hx => hseen x (hnodes x hx)⟩

/-! ### Values that a described shape has

What a description accepts has the shape that it shows. -/

theorem rowAccepts_nones {ts : List Ty} {vs : List Value} (h : ts.length = vs.length) :
    RowAccepts m (ts.map fun _ => none) vs := by
  rw [RowAccepts, List.forall₂_map_left_iff, List.forall₂_iff_zip]
  exact ⟨h, fun _ => rfl⟩

namespace Witness

theorem accepts_truth {b : Bool} {v : Value} (h : (truth b).accepts m v) :
    v = .literal (.bool b) := by
  cases v with
  | literal l =>
    cases l with
    | bool d =>
      have hequal : b = d := by simpa [accepts, pattern, Pattern.accepts, Literal.equal] using h
      rw [hequal]
    | _ => simp [accepts, pattern, Pattern.accepts, Literal.equal] at h
  | _ => simp [accepts, pattern, Pattern.accepts] at h

theorem accepts_unit {v : Value} (h : unit.accepts m v) : v = .literal .unit := by
  cases v with
  | literal l =>
    cases l with
    | unit => rfl
    | _ => simp [accepts, pattern, Pattern.accepts, Literal.equal] at h
  | _ => simp [accepts, pattern, Pattern.accepts] at h

theorem acceptsAll_patterns {ws : List Witness} {vs : List Value} :
    Pattern.acceptsAll m (ws.map pattern) vs = true ↔ List.Forall₂ (accepts m) ws vs := by
  rw [Pattern.acceptsAll_iff, List.forall₂_map_left_iff]
  rfl

theorem accepts_tuple {ws : List Witness} {v : Value} (h : (tuple ws).accepts m v) :
    ∃ vs, v = .tuple vs ∧ List.Forall₂ (accepts m) ws vs := by
  cases v with
  | tuple vs =>
    rw [accepts, pattern, Pattern.accepts, patterns_eq] at h
    exact ⟨vs, rfl, acceptsAll_patterns.mp h⟩
  | _ => simp [accepts, pattern, Pattern.accepts] at h

theorem accepts_variant {n : String} {ws : List Witness} {v : Value}
    (h : (variant n ws).accepts m v) : ∃ vs, v = .variant n vs ∧ List.Forall₂ (accepts m) ws vs := by
  cases v with
  | variant c vs =>
    rw [accepts, pattern, Pattern.accepts, Bool.and_eq_true, decide_eq_true_eq, patterns_eq] at h
    exact ⟨vs, by rw [h.1], acceptsAll_patterns.mp h.2⟩
  | _ => simp [accepts, pattern, Pattern.accepts] at h

theorem accepts_record {fs : List (String × Witness)} {v : Value} (h : (record fs).accepts m v) :
    ∃ gs, v = .record gs ∧ ∀ f ∈ fs, ∃ x, Value.field? f.1 gs = some x ∧ f.2.accepts m x := by
  cases v with
  | record gs =>
    rw [accepts, pattern, Pattern.accepts, fieldPatterns_eq, Pattern.acceptsFields_iff] at h
    exact ⟨gs, rfl, fun f hf => h (f.1, f.2.pattern) (List.mem_map_of_mem hf)⟩
  | _ => simp [accepts, pattern, Pattern.accepts] at h

/-- The elements of an array begin with those that its description shows, and end with them unless
more may follow. -/
theorem accepts_array {ws : List Witness} {isOpen : Bool} {v : Value}
    (h : (array ws isOpen).accepts m v) : ∃ vs, v = .array vs ∧ ws.length ≤ vs.length ∧
      (isOpen = false → vs.length = ws.length) ∧
      List.Forall₂ (accepts m) ws (vs.take ws.length) := by
  cases v with
  | array vs =>
    rw [accepts, pattern, Pattern.accepts] at h
    have hshape := sliceShape?_items ws isOpen
    cases isOpen with
    | false =>
      rw [Pattern.acceptsItems_closed hshape rfl] at h
      have hall := acceptsAll_patterns.mp h
      refine ⟨vs, rfl, hall.length_eq.le, fun _ => hall.length_eq.symm, ?_⟩
      rwa [List.take_of_length_le hall.length_eq.ge]
    | true =>
      obtain ⟨xs, ys, zs, rfl, hx, -⟩ := (Pattern.acceptsItems_open hshape rfl vs).mp h
      have hall := acceptsAll_patterns.mp hx
      refine ⟨_, rfl, ?_, by simp, ?_⟩
      · simp only [List.length_append, hall.length_eq]
        omega
      · rwa [List.append_assoc, List.take_left' hall.length_eq.symm]
  | _ => simp [accepts, pattern, Pattern.accepts] at h

end Witness

/-! ### Cells keep a row for the shape of what they match -/

theorem exists_row_truth {b : Bool} {c : Cell} (hs : c.Shown)
    (h : Cell.accepts m c (.literal (.bool b)) = true) :
    ∃ row, specialize (.truth b) c = some row ∧ RowAccepts m row [] := by
  cases c with
  | none => exact ⟨_, rfl, .nil⟩
  | some p =>
    have hshown := hs p rfl
    cases p with
    | literal i l =>
      cases l with
      | bool d =>
        have hequal : d = b := by simpa [Cell.accepts, Pattern.accepts, Literal.equal] using h
        exact ⟨[], by simp [specialize, hequal], .nil⟩
      | unit => simp [Cell.accepts, Pattern.accepts, Literal.equal] at h
      | int | float | text => cases hshown
    | tuple | record | construct | slice => simp [Cell.accepts, Pattern.accepts] at h
    | _ => cases hshown

theorem exists_row_unit {c : Cell} (hs : c.Shown)
    (h : Cell.accepts m c (.literal .unit) = true) :
    ∃ row, specialize .unit c = some row ∧ RowAccepts m row [] := by
  cases c with
  | none => exact ⟨_, rfl, .nil⟩
  | some p =>
    have hshown := hs p rfl
    cases p with
    | literal i l =>
      cases l with
      | bool d => simp [Cell.accepts, Pattern.accepts, Literal.equal] at h
      | unit => exact ⟨[], rfl, .nil⟩
      | int | float | text => cases hshown
    | tuple | record | construct | slice => simp [Cell.accepts, Pattern.accepts] at h
    | _ => cases hshown

theorem exists_row_tuple {ts : List Ty} {vs : List Value} {c : Cell}
    (hlen : vs.length = ts.length) (hs : c.Shown) (h : Cell.accepts m c (.tuple vs) = true) :
    ∃ row, specialize (.tuple ts) c = some row ∧ RowAccepts m row vs := by
  cases c with
  | none => exact ⟨_, rfl, rowAccepts_nones hlen.symm⟩
  | some p =>
    have hshown := hs p rfl
    cases p with
    | tuple i ps =>
      have hps : ps.length = ts.length := (Pattern.acceptsAll_length h).trans hlen
      exact ⟨ps.map some, by simp [specialize, hps], rowAccepts_map_some.mpr h⟩
    | literal | record | construct | slice => simp [Cell.accepts, Pattern.accepts] at h
    | _ => cases hshown

theorem exists_row_variant {n : String} {ts : List Ty} {vs : List Value} {c : Cell}
    (hlen : vs.length = ts.length) (hs : c.Shown) (h : Cell.accepts m c (.variant n vs) = true) :
    ∃ row, specialize (.variant n ts) c = some row ∧ RowAccepts m row vs := by
  cases c with
  | none => exact ⟨_, rfl, rowAccepts_nones hlen.symm⟩
  | some p =>
    have hshown := hs p rfl
    cases p with
    | construct i k ps =>
      rw [Cell.accepts, Pattern.accepts, Bool.and_eq_true, decide_eq_true_eq] at h
      obtain ⟨hk, hacc⟩ := h
      have hps : ps.length = ts.length := (Pattern.acceptsAll_length hacc).trans hlen
      -- a constructor with as many arguments as its shape has parts is neither padded nor cut off
      have hpad : padded ts.length ps = ps.map some := by simp [padded, ← hps]
      refine ⟨ps.map some, ?_, rowAccepts_map_some.mpr hacc⟩
      rw [← hpad]
      exact if_pos hk
    | literal | tuple | record | slice => simp [Cell.accepts, Pattern.accepts] at h
    | _ => cases hshown

/-! Records: the parts are the values of the fields as they are found by name. -/

/-- The values of the declared fields. -/
def fieldValues (fs : List (String × Ty)) (gs : List (String × Value)) : List Value :=
  fs.map fun f => (Value.field? f.1 gs).getD default

/-- A value that is found by name has the type of a field of that name. -/
theorem exists_mem_of_field? {fs : List (String × Ty)} {gs : List (String × Value)} {k : String}
    {x : Value} (hk : gs.map Prod.fst = fs.map Prod.fst)
    (hgs : types.HasTypes (gs.map Prod.snd) (fs.map Prod.snd)) (hx : Value.field? k gs = some x) :
    ∃ f ∈ fs, f.1 = k ∧ types.HasType x f.2 := by
  induction gs generalizing fs with
  | nil => cases hx
  | cons g gs ih =>
    cases fs with
    | nil => cases hk
    | cons f fs =>
      obtain ⟨hname, hk⟩ := List.cons.inj hk
      cases hgs with
      | cons hg hgs =>
        rw [Value.field?] at hx
        split at hx
        · rename_i hgk
          cases hx
          exact ⟨f, List.mem_cons_self, hname.symm.trans hgk, hg⟩
        · obtain ⟨d, hd, h⟩ := ih hk hgs hx
          exact ⟨d, List.mem_cons_of_mem _ hd, h⟩

theorem hasTypes_of_forall {fs : List (String × Ty)} {gs : List (String × Value)}
    (h : ∀ f ∈ fs, types.HasType ((Value.field? f.1 gs).getD default) f.2) :
    types.HasTypes (fieldValues fs gs) (fs.map Prod.snd) := by
  induction fs with
  | nil => exact .nil
  | cons f fs ih =>
    obtain ⟨hf, hfs⟩ := List.forall_mem_cons.mp h
    exact .cons hf (ih hfs)

theorem hasTypes_fieldValues {fs : List (String × Ty)} {gs : List (String × Value)}
    (hone : ∀ f ∈ fs, ∀ g ∈ fs, f.1 = g.1 → f.2 = g.2) (hk : gs.map Prod.fst = fs.map Prod.fst)
    (hgs : types.HasTypes (gs.map Prod.snd) (fs.map Prod.snd)) :
    types.HasTypes (fieldValues fs gs) (fs.map Prod.snd) := by
  refine hasTypes_of_forall fun f hf => ?_
  obtain ⟨x, hx⟩ : ∃ x, Value.field? f.1 gs = some x :=
    exists_field? (hk ▸ List.mem_map_of_mem hf)
  obtain ⟨g, hg, hname, htype⟩ := exists_mem_of_field? hk hgs hx
  rw [hx, hone f hf g hg hname.symm]
  exact htype

theorem exists_row_record {fs : List (String × Ty)} {gs : List (String × Value)} {c : Cell}
    (hs : c.Shown) (h : Cell.accepts m c (.record gs) = true) :
    ∃ row, specialize (.record fs) c = some row ∧ RowAccepts m row (fieldValues fs gs) := by
  cases c with
  | none => exact ⟨_, rfl, rowAccepts_nones (by simp [Shape.fields, fieldValues])⟩
  | some p =>
    have hshown := hs p rfl
    cases p with
    | record i ps r =>
      refine ⟨_, rfl, ?_⟩
      rw [fieldValues, RowAccepts, List.forall₂_map_left_iff, List.forall₂_map_right_iff,
        List.forall₂_same]
      intro f _
      cases hq : Pattern.fieldPattern? f.1 ps with
      | none => rfl
      | some q =>
        obtain ⟨x, hx, hacc⟩ := Pattern.acceptsFields_iff.mp h _ (mem_of_fieldPattern? hq)
        rw [hx]
        exact hacc
    | literal | tuple | construct | slice => simp [Cell.accepts, Pattern.accepts] at h
    | _ => cases hshown

/-- What a description of a record shows field by field, the values of the fields keep in order. -/
theorem forall₂_fieldValues {fs : List (String × Ty)} {ws : List Witness}
    {gs : List (String × Value)} (hlen : ws.length = fs.length)
    (h : ∀ f ∈ List.zipWith (fun f w => (f.1, w)) fs ws,
      ∃ x, Value.field? f.1 gs = some x ∧ f.2.accepts m x) :
    List.Forall₂ (Witness.accepts m) ws (fieldValues fs gs) := by
  rw [fieldValues, List.forall₂_map_right_iff, List.forall₂_iff_zip]
  refine ⟨hlen, fun {w f} hmem => ?_⟩
  have hzip : (f.1, w) ∈ List.zipWith (fun f w => (f.1, w)) fs ws := by
    rw [← List.map_uncurry_zip_eq_zipWith, ← List.zip_swap, List.map_map]
    exact List.mem_map.mpr ⟨(w, f), hmem, rfl⟩
  obtain ⟨x, hx, hacc⟩ := h _ hzip
  rw [hx]
  exact hacc

/-! Slices: the row for an open array speaks of its first elements, and no slice pattern of the
column tells apart what follows them. -/

theorem mem_sliceShapes {u : Ty} {cells : List Cell} {s : Shape} (h : s ∈ sliceShapes u cells) :
    ∃ n isOpen, s = .slice (List.replicate n u) isOpen ∧ (isOpen = true → ∀ c ∈ cells,
      (∀ k, sliceLength false c = some k → k < n) ∧ ∀ k, sliceLength true c = some k → k ≤ n) := by
  obtain ⟨n, -, rfl⟩ := List.mem_map.mp h
  refine ⟨n, _, rfl, fun hopen c hc => ⟨fun k hk => ?_, fun k hk => ?_⟩⟩
  all_goals
    simp only [Bool.and_eq_true, decide_eq_true_eq] at hopen
    obtain ⟨⟨hlimit, hfixed⟩, -⟩ := hopen
  · refine Nat.lt_of_lt_of_le (Nat.lt_succ_self k) (Nat.le_trans ?_ hfixed)
    refine le_foldl_max 0 (.inl (List.mem_map.mpr ⟨k, ?_, rfl⟩))
    exact List.mem_filterMap.mpr ⟨c, hc, hk⟩
  · rw [hlimit]
    refine Nat.le_trans (le_foldl_max 0 (.inl ?_)) (Nat.le_max_right _ _)
    exact List.mem_filterMap.mpr ⟨c, hc, hk⟩

theorem exists_row_slice (ts : List Ty) (isOpen : Bool) {vs : List Value} {c : Cell}
    (hle : ts.length ≤ vs.length)
    (hlen : vs.length = ts.length ∨ (∀ k, sliceLength false c = some k → k < ts.length) ∧
      ∀ k, sliceLength true c = some k → k ≤ ts.length)
    (hseen : ∀ p, c = some p → Seen p) (hs : c.Shown)
    (h : Cell.accepts m c (.array vs) = true) :
    ∃ row, specialize (.slice ts isOpen) c = some row ∧ RowAccepts m row (vs.take ts.length) := by
  cases c with
  | none => exact ⟨_, rfl, rowAccepts_nones (List.length_take_of_le hle).symm⟩
  | some p =>
    have hshown := hs p rfl
    cases p with
    | slice i items =>
      obtain ⟨hrest, hshape⟩ := hseen _ rfl
      obtain ⟨sh, hsh⟩ := Option.isSome_iff_exists.mp hshape
      have hback : sh.back = [] := Pattern.back_eq_nil hsh hrest
      have hacc : Pattern.acceptsItems m items vs = true := h
      cases hr : sh.hasRest with
      | false =>
        rw [Pattern.acceptsItems_closed hsh hr] at hacc
        have hfront : sh.front.length = vs.length := Pattern.acceptsAll_length hacc
        have hn : vs.length = ts.length := by
          refine hlen.resolve_right fun hlt => ?_
          have hk := hlt.1 sh.front.length (by simp [sliceLength, hsh, hr, hback])
          omega
        refine ⟨sh.front.map some, by simp [specialize, hsh, hr, hfront, hn], ?_⟩
        rw [List.take_of_length_le hn.le]
        exact rowAccepts_map_some.mpr hacc
      | true =>
        obtain ⟨xs, ys, zs, rfl, hx, -⟩ := (Pattern.acceptsItems_open hsh hr vs).mp hacc
        have hfront : sh.front.length = xs.length := Pattern.acceptsAll_length hx
        have hn : sh.front.length ≤ ts.length := by
          rcases hlen with hlen | hlt
          · rw [← hlen, hfront, List.append_assoc, List.length_append]
            exact Nat.le_add_right _ _
          · exact hlt.2 _ (by simp [sliceLength, hsh, hr, hback])
        refine ⟨sh.front.map some ++ List.replicate (ts.length - sh.front.length) none, ?_, ?_⟩
        · simp [specialize, hsh, hr, hback, Nat.not_lt.mpr hn]
        · have htake : (xs ++ ys ++ zs).take ts.length
              = xs ++ (ys ++ zs).take (ts.length - xs.length) := by
            rw [List.append_assoc, List.take_append, List.take_of_length_le (hfront ▸ hn)]
          rw [htake]
          refine List.rel_append (rowAccepts_map_some.mpr hx) ?_
          rw [List.forall₂_iff_zip]
          refine ⟨?_, fun hmem => ?_⟩
          · rw [List.length_replicate, List.length_take, hfront]
            simp only [List.length_append] at hle ⊢
            omega
          · obtain rfl := List.eq_of_mem_replicate (List.of_mem_zip hmem).1
            rfl
    | literal | tuple | record | construct => simp [Cell.accepts, Pattern.accepts] at h
    | _ => cases hshown

/-! ### Parts of a described value -/

theorem hasTypes_of_record {t : Ty} {n : String} {fs : List (String × Ty)}
    {gs : List (String × Value)} (h : types.HasType (.record gs) t)
    (ht : types.resolve t = .record n fs) :
    gs.map Prod.fst = fs.map Prod.fst ∧ types.HasTypes (gs.map Prod.snd) (fs.map Prod.snd) := by
  cases h with
  | record hr hk hgs =>
    rw [ht] at hr
    cases hr
    exact ⟨hk, hgs⟩
  | unknown => cases ht

theorem hasTypes_of_variant {t : Ty} {s : SumType} {n : String} {vs : List Value}
    (h : types.HasType (.variant n vs) t) (ht : types.sumOf? (types.resolve t) = some s) :
    ∃ c ∈ s.variants, c.name = n ∧ types.HasTypes vs (types.fieldTypes c t) := by
  cases h with
  | variant hs hc hvs =>
    rw [ht] at hs
    cases hs
    exact ⟨_, hc, rfl, hvs⟩
  | unknown => cases ht

/-- **A described value has the shape of its description**, and a cell that matches the value keeps a
row that matches its parts. -/
theorem HasShapes.exists_parts {t : Ty} {cells : List Cell} {ss : List Shape}
    (h : HasShapes types cells t ss) (ht : types.Distinct t) {s : Shape} (hs : s ∈ ss)
    {ws : List Witness} (hlen : ws.length = s.fields.length) {v : Value} (hv : types.HasType v t)
    (hw : (s.witness ws).accepts m v) :
    ∃ parts, types.HasTypes parts s.fields ∧ List.Forall₂ (Witness.accepts m) ws parts ∧
      ∀ c ∈ cells, (∀ p, c = some p → Seen p) → c.Shown → Cell.accepts m c v = true →
        ∃ row, specialize s c = some row ∧ RowAccepts m row parts := by
  obtain ⟨hvariants, hfields⟩ := ht t (.refl t)
  cases h with
  | bool =>
    obtain ⟨b, rfl⟩ : ∃ b, s = .truth b := by
      rcases List.mem_pair.mp hs with rfl | rfl <;> exact ⟨_, rfl⟩
    obtain rfl := List.length_eq_zero_iff.mp hlen
    obtain rfl := Witness.accepts_truth hw
    exact ⟨[], .nil, .nil, fun c _ _ hshown hacc => exists_row_truth hshown hacc⟩
  | unit =>
    obtain rfl := List.mem_singleton.mp hs
    obtain rfl := List.length_eq_zero_iff.mp hlen
    obtain rfl := Witness.accepts_unit hw
    exact ⟨[], .nil, .nil, fun c _ _ hshown hacc => exists_row_unit hshown hacc⟩
  | tuple ts =>
    obtain rfl := List.mem_singleton.mp hs
    obtain ⟨vs, rfl, hws⟩ := Witness.accepts_tuple hw
    obtain ⟨_, heq, hvs⟩ := hv.tuple_inv
    cases heq
    exact ⟨vs, hvs, hws, fun c _ _ hshown hacc => exists_row_tuple hvs.length_eq hshown hacc⟩
  | @record _ n fs hr =>
    obtain rfl := List.mem_singleton.mp hs
    obtain ⟨gs, rfl, hshows⟩ := Witness.accepts_record hw
    obtain ⟨hk, hgs⟩ := hasTypes_of_record hv hr
    have hone : ∀ f ∈ fs, ∀ g ∈ fs, f.1 = g.1 → f.2 = g.2 := by
      simpa only [TypeTable.recordFields, hr] using hfields
    have hws := forall₂_fieldValues (by simpa [Shape.fields] using hlen) hshows
    exact ⟨_, hasTypes_fieldValues hone hk hgs, hws,
      fun c _ _ hshown hacc => exists_row_record hshown hacc⟩
  | array u =>
    obtain ⟨n, isOpen, rfl, hcells⟩ := mem_sliceShapes hs
    obtain ⟨vs, rfl, hle, hclosed, hws⟩ := Witness.accepts_array hw
    obtain ⟨_, heq, hvs⟩ := hv.array_inv
    cases heq
    have hn : ws.length = n := by simpa [Shape.fields] using hlen
    rw [hn] at hle hclosed hws
    refine ⟨vs.take n, hvs.take_replicate n hle, hws, fun c hc hseen hshown hacc => ?_⟩
    have hlength : vs.length = (List.replicate n u).length ∨
        (∀ k, sliceLength false c = some k → k < (List.replicate n u).length) ∧
          ∀ k, sliceLength true c = some k → k ≤ (List.replicate n u).length := by
      cases isOpen with
      | false => exact .inl (by simpa using hclosed rfl)
      | true => exact .inr (by simpa using hcells rfl c hc)
    have hrow :=
      exists_row_slice (List.replicate n u) isOpen (by simpa using hle) hlength hseen hshown hacc
    simpa using hrow
  | @sum _ d hsum =>
    obtain ⟨c, hc, rfl⟩ := List.mem_map.mp hs
    obtain ⟨vs, rfl, hws⟩ := Witness.accepts_variant hw
    obtain ⟨c', hc', hname, hvs⟩ := hasTypes_of_variant hv hsum
    obtain rfl := List.inj_on_of_nodup_map (hvariants d hsum) hc' hc hname
    exact ⟨vs, hvs, hws, fun _ _ _ hshown hacc => exists_row_variant hvs.length_eq hshown hacc⟩

/-- The pattern for a shape of a type with readable names is plain. -/
theorem HasShapes.plain_witness {t : Ty} {cells : List Cell} {ss : List Shape}
    (h : HasShapes types cells t ss) (ht : types.Spelled t) {s : Shape} (hs : s ∈ ss)
    {ws : List Witness} (hlen : ws.length = s.fields.length) (hws : ∀ w ∈ ws, w.Plain) :
    (s.witness ws).Plain := by
  obtain ⟨hvariants, hfields, hne⟩ := ht t (.refl t)
  cases h with
  | bool => rcases List.mem_pair.mp hs with rfl | rfl <;> exact .truth _
  | unit =>
    obtain rfl := List.mem_singleton.mp hs
    exact .unit
  | tuple ts =>
    obtain rfl := List.mem_singleton.mp hs
    refine .tuple (fun hnil => hne ?_) hws
    rw [hnil] at hlen
    have hts : ts = [] := List.length_eq_zero_iff.mp hlen.symm
    rw [hts]
  | @record _ n fs hr =>
    obtain rfl := List.mem_singleton.mp hs
    have hnames : ∀ f ∈ fs, IsName f.1 := by simpa [TypeTable.recordFields, hr] using hfields
    refine .record (fun f hf => ?_) fun f hf => ?_
    · rw [← List.map_uncurry_zip_eq_zipWith] at hf
      obtain ⟨⟨g, w⟩, hmem, rfl⟩ := List.mem_map.mp hf
      exact hnames g (List.of_mem_zip hmem).1
    · rw [← List.map_uncurry_zip_eq_zipWith] at hf
      obtain ⟨⟨g, w⟩, hmem, rfl⟩ := List.mem_map.mp hf
      exact hws w (List.of_mem_zip hmem).2
  | array u =>
    obtain ⟨n, -, rfl⟩ := List.mem_map.mp hs
    exact .array _ hws
  | @sum _ d hsum =>
    obtain ⟨c, hc, rfl⟩ := List.mem_map.mp hs
    obtain ⟨hname, hword⟩ := hvariants d hsum c hc
    exact .variant hname hword hws

theorem matchable_of_record {t : Ty} {n : String} {fs : List (String × Ty)}
    (h : types.resolve t = .record n fs) : Matchable types t := by
  cases t with
  | con c =>
    cases hr : types.record? c with
    | some gs => exact .declaredRecord hr
    | none => simp [TypeTable.resolve, hr] at h
  | record n fs => exact .record n fs
  | app | tuple | array | func | unknown => cases h

theorem matchable_of_sumOf? {t : Ty} {s : SumType}
    (h : types.sumOf? (types.resolve t) = some s) : Matchable types t := by
  cases t with
  | con c =>
    cases hr : types.record? c with
    | some gs => exact .declaredRecord hr
    | none => exact .sum (s := s) (by simpa [TypeTable.resolve, hr] using h)
  | app c ts => exact .sum h
  | tuple | array | record | func | unknown => cases h

/-- A type of values that a pattern looks into has shapes. -/
theorem matchable_of_accepts {t : Ty} {p : Pattern} {v : Value} (ht : t ≠ .unknown)
    (hv : types.HasType v t) (hp : showsShape p = true) (hacc : p.accepts m v = true) :
    Matchable types t := by
  cases hv with
  | @literal _ l hl =>
    subst hl
    cases l with
    | bool b => exact .bool
    | unit => exact .unit
    | int | float | text =>
      cases p with
      | literal i k => cases k <;> simp [showsShape, Pattern.accepts, Literal.equal] at hp hacc
      | tuple | record | construct | slice => simp [Pattern.accepts] at hacc
      | _ => cases hp
  | tuple => exact .tuple _
  | record hr => exact matchable_of_record hr
  | variant hs => exact matchable_of_sumOf? hs
  | array => exact .array _
  | foreign =>
    cases p with
    | literal | tuple | record | construct | slice => simp [Pattern.accepts] at hacc
    | _ => cases hp
  | unknown => exact absurd rfl ht

/-! ### The search -/

/-- A column of the search: how deep its patterns may nest, and the type of its values. -/
structure Column where
  depth : Nat
  type : Ty

/-- Every cell of a row is one of which the search sees all. -/
def RowWithin (row : Row) (cols : List Column) : Prop :=
  List.Forall₂ (fun c col => Cell.Within col.depth c) row cols

/-- Texts that describe values of the columns that no row matches, and that are read in one way if the
names in the types can be read. -/
def Describes (types : TypeTable) (cols : List Column) (rows : List Row) (found : List String) :
    Prop :=
  ∃ ws : List Witness, ws.map Witness.text = found ∧ ws.length = cols.length ∧
    ((∀ col ∈ cols, types.Spelled col.type) → ∀ w ∈ ws, w.Plain) ∧
    ∀ m vs, types.HasTypes vs (cols.map Column.type) → List.Forall₂ (Witness.accepts m) ws vs →
      ∀ r ∈ rows, ¬ RowAccepts m r vs

/-- What a search finds describes values that no row matches. -/
def RightFinds (types : TypeTable) (cols : List Column)
    (search : List Row → Option (List String)) : Prop :=
  ∀ rows, (∀ r ∈ rows, RowWithin r cols) → ∀ found, search rows = some found →
    Describes types cols rows found

section Expand

variable {col : Column} {cols : List Column} {rows : List Row}

theorem within_of_mem_expand (hrows : ∀ r ∈ rows, RowWithin r (col :: cols)) {e : Cell × Row}
    (he : e ∈ expand rows) : e.1.Within col.depth ∧ e.1.Shown ∧ RowWithin e.2 cols := by
  obtain ⟨c, row, hmem, hd, hrow⟩ := mem_expand.mp he
  subst hrow
  cases hrows _ hmem with
  | cons hc hrest =>
    obtain ⟨hwithin, hshown⟩ := within_of_mem_normalize hd hc
    exact ⟨hwithin, hshown, hrest⟩

/-- A row that matches is still there after the expansion. -/
theorem exists_mem_expand (hrows : ∀ r ∈ rows, RowWithin r (col :: cols)) {v : Value}
    {vs : List Value} {r : Row} (hr : r ∈ rows) (hacc : RowAccepts m r (v :: vs)) :
    ∃ e ∈ expand rows, Cell.accepts m e.1 v = true ∧ RowAccepts m e.2 vs := by
  cases hacc with
  | @cons c _ row _ hv hvs =>
    cases hrows _ hr with
    | cons hc _ =>
      obtain ⟨d, hd, hdacc⟩ := exists_mem_normalize hc hv
      exact ⟨(d, row), mem_expand.mpr ⟨c, row, hr, hd, rfl⟩, hdacc, hvs⟩

/-- Going on with the rows whose first cell matches everything, if no other cell matches a value. -/
theorem describes_default {after : List Row → Option (List String)}
    (hafter : RightFinds types cols after) (hrows : ∀ r ∈ rows, RowWithin r (col :: cols))
    (hcells : ∀ e ∈ expand rows, ∀ m v, types.HasType v col.type →
      Cell.accepts m e.1 v = true → e.1 = none) {found : List String}
    (hfound : (after (defaultRows (expand rows))).map ("_" :: ·) = some found) :
    Describes types (col :: cols) rows found := by
  obtain ⟨rest, hrest, rfl⟩ := Option.map_eq_some_iff.mp hfound
  have hdefault : ∀ r, r ∈ defaultRows (expand rows) ↔ (none, r) ∈ expand rows := by
    intro r
    simp [defaultRows]
  obtain ⟨ws, htext, hlen, hplain, hnone⟩ := hafter _
    (fun r hr => (within_of_mem_expand hrows ((hdefault r).mp hr)).2.2) _ hrest
  refine ⟨.any :: ws, by rw [List.map_cons, htext]; rfl, by simp [hlen], fun hspelled => ?_, ?_⟩
  · rintro w (_ | ⟨_, hw⟩)
    · exact .any
    · exact hplain (fun c hc => hspelled c (List.mem_cons_of_mem _ hc)) w hw
  · intro m vs hvs hws r hr hacc
    cases hvs with
    | cons hv hvs =>
      cases hws with
      | cons _ hws =>
        obtain ⟨⟨c, row⟩, he, hc, hrow⟩ := exists_mem_expand hrows hr hacc
        obtain rfl : c = none := hcells _ he m _ hv hc
        exact hnone m _ hvs hws row ((hdefault row).mpr he) hrow

end Expand

/-- Searches of single columns make a search of all columns. -/
theorem rightFinds_foldr {depth : Nat} {step : Ty → (List Row → Option (List String)) →
      List Row → Option (List String)}
    (hstep : ∀ t cols after, types.Known t → types.Distinct t → RightFinds types cols after →
      RightFinds types (⟨depth, t⟩ :: cols) (step t after))
    {us : List Ty} {cols : List Column} {after : List Row → Option (List String)}
    (hus : ∀ u ∈ us, types.Known u ∧ types.Distinct u) (hafter : RightFinds types cols after) :
    RightFinds types (us.map (⟨depth, ·⟩) ++ cols) (us.foldr step after) := by
  induction us with
  | nil => exact hafter
  | cons u us ih =>
    obtain ⟨⟨hknown, hdistinct⟩, hus⟩ := List.forall_mem_cons.mp hus
    exact hstep u _ _ hknown hdistinct (ih hus)

theorem HasShapes.distinct {t : Ty} {cells : List Cell} {ss : List Shape}
    (h : HasShapes types cells t ss) (ht : types.Distinct t) {s : Shape} (hs : s ∈ ss) {u : Ty}
    (hu : u ∈ s.fields) : types.Distinct u :=
  fun w hw => ht w (h.part hs hu hw)

theorem HasShapes.spelled {t : Ty} {cells : List Cell} {ss : List Shape}
    (h : HasShapes types cells t ss) (ht : types.Spelled t) {s : Shape} (hs : s ∈ ss) {u : Ty}
    (hu : u ∈ s.fields) : types.Spelled u :=
  fun w hw => ht w (h.part hs hu hw)

theorem rowWithin_of_specialize {s : Shape} {c : Cell} {row rest : Row} {depth : Nat}
    {cols : List Column} (h : specialize s c = some row) (hc : c.Within (depth + 1))
    (hrest : RowWithin rest cols) :
    RowWithin (row ++ rest) (s.fields.map (⟨depth, ·⟩) ++ cols) := by
  obtain ⟨hlen, hwithin⟩ := specialize_within h hc
  refine List.rel_append ?_ hrest
  rw [List.forall₂_map_right_iff, List.forall₂_iff_zip]
  exact ⟨hlen, fun hmem => hwithin _ (List.of_mem_zip hmem).1⟩

/-- **What is found under a shape describes values that no row matches.** -/
theorem describes_gather {depth : Nat} {t : Ty} {cols : List Column} {rows : List Row}
    {ss : List Shape} (hss : HasShapes types ((expand rows).map (·.1)) t ss)
    (hdistinct : types.Distinct t) (hrows : ∀ r ∈ rows, RowWithin r (⟨depth, t⟩ :: cols))
    {s : Shape} (hs : s ∈ ss) {depth' : Nat} {found : List String}
    (hfound : Describes types (s.fields.map (⟨depth', ·⟩) ++ cols)
      (specializedRows s (expand rows)) found) :
    Describes types (⟨depth, t⟩ :: cols) rows (gather s found) := by
  obtain ⟨ws, rfl, hlen, hplain, hnone⟩ := hfound
  have hle : s.fields.length ≤ ws.length := by simp [hlen]
  have hargs : (ws.take s.fields.length).length = s.fields.length := List.length_take_of_le hle
  refine ⟨s.witness (ws.take s.fields.length) :: ws.drop s.fields.length, ?_, ?_, ?_, ?_⟩
  · rw [List.map_cons, text_witness, gather, List.map_take, List.map_drop]
  · simp [hlen]
  · intro hspelled
    obtain ⟨ht, hcols⟩ := List.forall_mem_cons.mp hspelled
    have hws : ∀ w ∈ ws, w.Plain := by
      refine hplain fun col hcol => ?_
      rcases List.mem_append.mp hcol with hcol | hcol
      · obtain ⟨u, hu, rfl⟩ := List.mem_map.mp hcol
        exact hss.spelled ht hs hu
      · exact hcols col hcol
    rintro w (_ | ⟨_, hw⟩)
    · exact hss.plain_witness ht hs hargs fun w hw => hws w (List.mem_of_mem_take hw)
    · exact hws w (List.mem_of_mem_drop hw)
  · intro m values hvalues hall r hr hacc
    cases hvalues with
    | @cons v _ vs _ hv hvs =>
      cases hall with
      | cons hw hws =>
        -- the described value has parts of the shape, and the row that matches it keeps one for them
        obtain ⟨parts, hparts, haccepts, hcell⟩ := hss.exists_parts hdistinct hs hargs hv hw
        obtain ⟨e, he, hc, hrow⟩ := exists_mem_expand hrows hr hacc
        obtain ⟨hwithin, hshown, -⟩ := within_of_mem_expand hrows he
        obtain ⟨row, hspecialize, hrowparts⟩ := hcell e.1 (List.mem_map_of_mem he)
          (fun p hp => (hwithin p hp).2 p (Pattern.self_mem_nodes p)) hshown hc
        refine hnone m (parts ++ vs) ?_ ?_ (row ++ e.2) ?_ (List.rel_append hrowparts hrow)
        · have htypes : (s.fields.map (Column.mk depth') ++ cols).map Column.type
              = s.fields ++ cols.map Column.type := by
            simp [Function.comp_def]
          rw [htypes]
          exact hparts.append hvs
        · rw [← List.take_append_drop s.fields.length ws]
          exact List.rel_append haccepts hws
        · exact List.mem_filterMap.mpr ⟨e, he, by rw [hspecialize]; rfl⟩

/-- **The search through a column is right**, by induction on the depth of its patterns. -/
theorem rightFinds_missingIn (depth : Nat) (t : Ty) (cols : List Column)
    (after : List Row → Option (List String)) (hknown : types.Known t)
    (hdistinct : types.Distinct t) (hafter : RightFinds types cols after) :
    RightFinds types (⟨depth, t⟩ :: cols) (missingIn types depth after t) := by
  induction depth generalizing t cols after with
  | zero =>
    intro rows hrows found hfound
    refine describes_default hafter hrows (fun e he m v _ _ => ?_) hfound
    -- no pattern is so little deep
    have hwithin := (within_of_mem_expand hrows he).1
    rcases e with ⟨_ | p, row⟩
    · rfl
    · exact absurd (hwithin p rfl).1 (Nat.not_le.mpr (depth_pos p))
  | succ depth ih =>
    intro rows hrows found hfound
    rw [missingIn] at hfound
    split at hfound
    · rename_i hnone
      refine describes_default hafter hrows (fun e he m v hv hacc => ?_) hfound
      have hcell : e.1 ∈ (expand rows).map (·.1) := List.mem_map_of_mem he
      split at hnone
      · rename_i hall
        exact Option.isNone_iff_eq_none.mp (List.all_eq_true.mp hall _ hcell)
      · cases hc : e.1 with
        | none => rfl
        | some p =>
          rw [hc] at hacc
          have hp := (within_of_mem_expand hrows he).2.1 p hc
          have hsome := (matchable_of_accepts hknown.ne_unknown hv hp hacc).shapes_isSome
            ((expand rows).map (·.1))
          rw [hnone] at hsome
          cases hsome
    · rename_i ss hsome
      have hss : HasShapes types ((expand rows).map (·.1)) t ss := by
        refine hasShapes_of_shapes hknown.ne_unknown ?_
        split at hsome
        · cases hsome
        · exact hsome
      obtain ⟨s, hs, hfound⟩ := List.exists_of_findSome?_eq_some hfound
      obtain ⟨parts, hparts, rfl⟩ := Option.map_eq_some_iff.mp hfound
      have hsearch : RightFinds types (s.fields.map (⟨depth, ·⟩) ++ cols)
          (s.fields.foldr (fun u k => missingIn types depth k u) after) :=
        rightFinds_foldr ih (fun u hu => ⟨hss.known hknown hs hu, hss.distinct hdistinct hs hu⟩)
          hafter
      have hspecialized : ∀ r ∈ specializedRows s (expand rows),
          RowWithin r (s.fields.map (⟨depth, ·⟩) ++ cols) := by
        intro r hr
        obtain ⟨e, he, hsome⟩ := List.mem_filterMap.mp hr
        obtain ⟨row, hrow, rfl⟩ := Option.map_eq_some_iff.mp hsome
        obtain ⟨hwithin, -, hrest⟩ := within_of_mem_expand hrows he
        exact rowWithin_of_specialize hrow hwithin hrest
      exact describes_gather hss hdistinct hrows hs (hsearch _ hspecialized _ hparts)

/-- A search for one value: what is found is the text of a pattern, and no pattern of the rows matches
a value that this pattern matches. -/
theorem describes_missingValue {t : Ty} (hknown : types.Known t) (hdistinct : types.Distinct t)
    {patterns : List Pattern} (hseen : ∀ p ∈ patterns, ∀ q ∈ p.nodes, Seen q) {text : String}
    (h : missingValue types t patterns = some text) :
    ∃ w : Witness, w.text = text ∧ (types.Spelled t → w.Plain) ∧
      ∀ m v, types.HasType v t → w.accepts m v → ∀ p ∈ patterns, p.accepts m v = false := by
  obtain ⟨found, hfound, rfl⟩ := Option.map_eq_some_iff.mp h
  let rows : List Row := patterns.map fun p => [some p]
  let depth := (rows.flatMap fun r => r.map cellDepth).foldl max 0
  have hend : RightFinds types [] fun rows => if rows.isEmpty then some [] else none := by
    intro rows hrows found hfound
    cases rows with
    | nil =>
      cases hfound
      exact ⟨[], rfl, rfl, by simp, by simp⟩
    | cons r rows => cases hfound
  have hrows : ∀ r ∈ rows, RowWithin r [⟨depth, t⟩] := by
    intro r hr
    obtain ⟨p, hp, rfl⟩ := List.mem_map.mp hr
    refine .cons (Cell.within_some ?_ (hseen p hp)) .nil
    refine le_foldl_max 0 (.inl (List.mem_flatMap.mpr ⟨_, hr, ?_⟩))
    exact List.mem_singleton_self _
  obtain ⟨ws, htext, hlen, hplain, hnone⟩ :=
    rightFinds_missingIn depth t [] _ hknown hdistinct hend rows hrows found hfound
  obtain ⟨w, rfl⟩ := List.length_eq_one_iff.mp hlen
  refine ⟨w, by rw [← htext]; rfl, fun hspelled => hplain (by simpa using hspelled) w (by simp), ?_⟩
  intro m v hv hw p hp
  refine Bool.eq_false_iff.mpr fun hacc => ?_
  exact hnone m [v] (.cons hv .nil) (.cons hw .nil) [some p] (List.mem_map_of_mem hp)
    (.cons hacc .nil)

/-- No arm without a guard matches a value of a type that a description matches. -/
def Unmatched (types : TypeTable) (t : Ty) (arms : List (Arm Pattern Expr)) (w : Witness) : Prop :=
  ∀ m v, types.HasType v t → w.accepts m v →
    ∀ a ∈ arms, a.guard.isNone = true → a.pattern.accepts m v = false

/-- **What is reported as missing is missing.**  The report for a match on a known type is the text of
a pattern, and no arm without a guard matches a value that this pattern matches.  If the names in the
type can be read, the text can be read in this one way only. -/
theorem missing_genuine (types : TypeTable) (t : Ty) (arms : List (Arm Pattern Expr))
    (text : String) (hknown : types.Known t) (hdistinct : types.Distinct t)
    (hseen : ∀ a ∈ arms, a.guard.isNone = true → ∀ q ∈ a.pattern.nodes, Seen q)
    (hmissing : missingValue types t ((arms.filter fun a => a.guard.isNone).map Arm.pattern)
      = some text) :
    (∃ w : Witness, w.text = text ∧ Unmatched types t arms w) ∧
      (types.Spelled t → ∀ w : Witness, w.Plain → w.text = text → Unmatched types t arms w) := by
  obtain ⟨w, htext, hplain, hnone⟩ := describes_missingValue hknown hdistinct (fun p hp => by
    obtain ⟨a, ha, rfl⟩ := List.mem_map.mp hp
    obtain ⟨ha, hguard⟩ := List.mem_filter.mp ha
    exact hseen a ha hguard) hmissing
  have hunmatched : Unmatched types t arms w := by
    intro m v hv hw a ha hguard
    exact hnone m v hv hw _ (List.mem_map_of_mem (List.mem_filter.mpr ⟨ha, hguard⟩))
  refine ⟨⟨w, htext, hunmatched⟩, fun hspelled u hu hutext => ?_⟩
  rwa [Witness.text_inj hu (hplain hspelled) (hutext.trans htext.symm)]

/-! An instance: `[]` and `[Some(_), ..]` on arrays of optional truth values leave `[None, ..]`. -/

theorem part_optionArray {u : Ty} (h : TypeTable.builtin.Part (.array (.option .bool)) u) :
    u = .array (.option .bool) ∨ u = .option .bool ∨ u = .bool := by
  refine h.mem_of_closed (fun t => t = .array (.option .bool) ∨ t = .option .bool ∨ t = .bool)
    (.inl rfl) ?_ ?_ ?_ ?_
  · rintro ts (h | h | h) <;> cases h
  · rintro u (h | h | h) <;> cases h
    exact .inr (.inl rfl)
  · rintro t n fs (rfl | rfl | rfl) h <;> cases h
  · rintro t s (rfl | rfl | rfl) h v hv u hu <;> cases h
    rcases List.mem_pair.mp hv with rfl | rfl
    · obtain rfl := List.mem_singleton.mp hu
      exact .inr (.inr rfl)
    · cases hu

theorem distinct_optionArray : TypeTable.builtin.Distinct (.array (.option .bool)) := by
  intro u hu
  refine ⟨fun s hs => ?_, ?_⟩
  · rcases part_optionArray hu with rfl | rfl | rfl <;> cases hs
    decide
  · intro f hf
    rcases part_optionArray hu with rfl | rfl | rfl <;> cases hf

theorem spelled_optionArray : TypeTable.builtin.Spelled (.array (.option .bool)) := by
  intro u hu
  refine ⟨fun s hs v hv => ?_, ?_, ?_⟩
  · rcases part_optionArray hu with rfl | rfl | rfl <;> cases hs
    rcases List.mem_pair.mp hv with rfl | rfl <;>
      exact ⟨⟨by decide, by simp [TypeTable.variant, signs]⟩, by decide⟩
  · intro f hf
    rcases part_optionArray hu with rfl | rfl | rfl <;> cases hf
  · rcases part_optionArray hu with rfl | rfl | rfl <;> simp [Ty.option, Ty.bool]

/-- No array that begins with `None` is matched, however long it is. -/
theorem noneFirst_genuine :
    missingValue .builtin (.array (.option .bool))
        (((optionArms.take 2).filter fun a => a.guard.isNone).map Arm.pattern) = some "[None, ..]" ∧
      Unmatched .builtin (.array (.option .bool)) (optionArms.take 2)
        (.array [.variant "None" []] true) := by
  have hmissing : missingValue .builtin (.array (.option .bool))
      (((optionArms.take 2).filter fun a => a.guard.isNone).map Arm.pattern)
        = some "[None, ..]" := by decide
  refine ⟨hmissing, (missing_genuine .builtin (.array (.option .bool)) (optionArms.take 2)
    "[None, ..]" known_optionArray distinct_optionArray ?_ hmissing).2 spelled_optionArray _ ?_ rfl⟩
  · intro a ha _ q hq
    simp only [optionArms, List.take, List.mem_cons, List.not_mem_nil, or_false] at ha
    rcases ha with rfl | rfl
    · obtain rfl : q = _ := by simpa [Pattern.nodes, Pattern.nodesOfItems] using hq
      exact ⟨rfl, rfl⟩
    · simp only [Pattern.nodes, Pattern.nodesOfItems, Pattern.nodesOfList, List.mem_cons,
        List.not_mem_nil, or_false, List.append_nil] at hq
      rcases hq with rfl | rfl | rfl
      · exact ⟨rfl, rfl⟩
      · trivial
      · trivial
  · refine .array true fun w hw => ?_
    obtain rfl := List.mem_singleton.mp hw
    exact .variant ⟨by decide, by simp [signs]⟩ (by decide) (by simp)

end Typed

end PatternPlan
