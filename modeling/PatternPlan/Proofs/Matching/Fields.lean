import PatternPlan.Proofs.Matching.Genuine

/-!
# The columns of record patterns

A record pattern tests fields by name, and the search for missing values has one column for each
declared field.  The cell of a column is the first test of its field.

* `rowAccepts_fields_iff` — cells in the order of the declared fields accept the values of a record
  if and only if the cell of every field accepts its value;
* `leftOut` — the tests that have no cell: of a field that is not declared, and of one that has been
  tested before;
* `accepts_record_iff` — **a record pattern accepts a record if and only if its cells do and the tests
  that are left out hold**;
* `specialize_record_exact` — **the columns of a record pattern are exact** if its keys are declared and
  distinct;
* `specialize_record_loses` — with a repeated key they are not.
-/

namespace PatternPlan.Typed

open Pattern

variable {types : TypeTable} {m : Meaning}

/-! ### Cells by name -/

theorem mem_keys_of_field? {k : String} {v : Value} {gs : List (String × Value)}
    (h : Value.field? k gs = some v) : k ∈ gs.map Prod.fst := by
  induction gs with
  | nil => simp [Value.field?] at h
  | cons g gs ih =>
    rw [Value.field?] at h
    by_cases hk : g.1 = k
    · simp [hk]
    · rw [if_neg hk] at h
      exact List.mem_cons_of_mem _ (ih h)

/-- Cells in the order of the declared fields accept the values of a record if and only if the cell
of every field accepts its value. -/
theorem rowAccepts_fields_iff {fs : List (String × Ty)} {gs : List (String × Value)}
    (cell : String → Cell) (hk : gs.map Prod.fst = fs.map Prod.fst)
    (hd : (fs.map Prod.fst).Nodup) :
    RowAccepts m (fs.map fun f => cell f.1) (gs.map Prod.snd) ↔
      ∀ k v, Value.field? k gs = some v → Cell.accepts m (cell k) v = true := by
  constructor
  · intro h k v hv
    exact accepts_field_of_rowAccepts cell hk h hv
  · intro h
    induction gs generalizing fs with
    | nil =>
      obtain rfl : fs = [] := by simpa using hk.symm
      exact .nil
    | cons g gs ih =>
      cases fs with
      | nil => simp at hk
      | cons f fs =>
        rw [List.map_cons, List.map_cons, List.cons.injEq] at hk
        rw [List.map_cons, List.nodup_cons] at hd
        apply List.Forall₂.cons
        · apply h
          simp [Value.field?, hk.1]
        · apply ih hk.2 hd.2
          intro k v hv
          apply h
          -- a later field has another name
          have hmem : k ∈ fs.map Prod.fst := by
            rw [← hk.2]
            exact mem_keys_of_field? hv
          have hne : g.1 ≠ k := by
            intro heq
            exact hd.1 (hk.1 ▸ heq ▸ hmem)
          rw [Value.field?, if_neg hne]
          exact hv

/-! ### Tests without a cell -/

/-- The tests that have no cell of their own when each of the `declared` fields has one: tests of
other fields, and those of a field that has been tested before. -/
def leftOut : (declared : List String) → List (String × Pattern) → List (String × Pattern)
  | _, [] => []
  | declared, f :: fs =>
    if f.1 ∈ declared then leftOut (declared.erase f.1) fs else f :: leftOut declared fs

theorem leftOut_subset (declared : List String) (fs : List (String × Pattern)) :
    leftOut declared fs ⊆ fs := by
  induction fs generalizing declared with
  | nil => exact List.Subset.refl _
  | cons f fs ih =>
    rw [leftOut]
    split
    · exact List.subset_cons_of_subset f (ih _)
    · exact List.cons_subset_cons f (ih _)

/-- A test that is not left out is the first one of a declared field. -/
theorem mem_leftOut_or {declared : List String} (hd : declared.Nodup)
    {fs : List (String × Pattern)} {f : String × Pattern} (hf : f ∈ fs) :
    f ∈ leftOut declared fs ∨ f.1 ∈ declared ∧ fieldPattern? f.1 fs = some f.2 := by
  induction fs generalizing declared with
  | nil => cases hf
  | cons g fs ih =>
    rw [leftOut, fieldPattern?]
    by_cases hg : g.1 ∈ declared
    · rw [if_pos hg]
      rcases List.mem_cons.mp hf with rfl | hf
      · exact .inr ⟨hg, if_pos rfl⟩
      · rcases ih (hd.erase g.1) hf with h | ⟨hmem, h⟩
        · exact .inl h
        · obtain ⟨hne, hmem⟩ := hd.mem_erase_iff.mp hmem
          exact .inr ⟨hmem, by rw [if_neg (Ne.symm hne), h]⟩
    · rw [if_neg hg]
      rcases List.mem_cons.mp hf with rfl | hf
      · exact .inl List.mem_cons_self
      · rcases ih hd hf with h | ⟨hmem, h⟩
        · exact .inl (List.mem_cons_of_mem _ h)
        · have hne : g.1 ≠ f.1 := fun heq => hg (heq ▸ hmem)
          exact .inr ⟨hmem, by rw [if_neg hne, h]⟩

/-- No test is left out if the keys are declared and distinct. -/
theorem leftOut_eq_nil {declared : List String} {fs : List (String × Pattern)}
    (hd : (fs.map Prod.fst).Nodup) (hk : ∀ k ∈ fs.map Prod.fst, k ∈ declared) :
    leftOut declared fs = [] := by
  induction fs generalizing declared with
  | nil => rfl
  | cons f fs ih =>
    rw [List.map_cons, List.nodup_cons] at hd
    rw [List.map_cons, List.forall_mem_cons] at hk
    rw [leftOut, if_pos hk.1]
    apply ih hd.2
    intro k hmem
    have hne : k ≠ f.1 := fun heq => hd.1 (heq ▸ hmem)
    exact (List.mem_erase_of_ne hne).mpr (hk.2 k hmem)

/-- **A record pattern accepts a record if and only if its cells accept the fields and the tests
that are left out hold.** -/
theorem accepts_record_iff {fs : List (String × Ty)} {gs : List (String × Value)} {i : Info}
    {ps : List (String × Pattern)} {hasRest : Bool} (hk : gs.map Prod.fst = fs.map Prod.fst)
    (hd : (fs.map Prod.fst).Nodup) :
    accepts m (.record i ps hasRest) (.record gs) = true ↔
      RowAccepts m (fs.map fun f => fieldPattern? f.1 ps) (gs.map Prod.snd) ∧
        acceptsFields m (leftOut (fs.map Prod.fst) ps) gs = true := by
  rw [rowAccepts_fields_iff (fun k => fieldPattern? k ps) hk hd]
  show acceptsFields m ps gs = true ↔ _
  simp only [acceptsFields_iff]
  constructor
  · intro h
    refine ⟨fun k v hv => ?_, fun f hf => h f (leftOut_subset _ _ hf)⟩
    cases hp : fieldPattern? k ps with
    | none => rfl
    | some p =>
      obtain ⟨w, hw, hacc⟩ := h _ (mem_of_fieldPattern? hp)
      rw [hv] at hw
      cases hw
      exact hacc
  · rintro ⟨hcells, hleft⟩ f hf
    rcases mem_leftOut_or hd hf with hout | ⟨hmem, hfirst⟩
    · exact hleft f hout
    · obtain ⟨v, hv⟩ : ∃ v, Value.field? f.1 gs = some v := exists_field? (hk ▸ hmem)
      have hcell := hcells f.1 v hv
      rw [hfirst] at hcell
      exact ⟨v, hv, hcell⟩

/-! ### Values of a record type -/

/-- **The columns of a record pattern are exact.**  For a type that is a record with distinct field
names there is one shape, and a record pattern has a cell for each field.  A value of the type is
accepted by the pattern if and only if it is a record whose fields are accepted by the cells in their
places and the tests that are left out hold; with declared and distinct keys none is left out. -/
theorem specialize_record_exact (types : TypeTable) (m : Meaning) (t : Ty) (n : String)
    (fs : List (String × Ty)) (hres : types.resolve t = .record n fs)
    (hd : (fs.map Prod.fst).Nodup) (i : Info) (ps : List (String × Pattern)) (hasRest : Bool) :
    (∀ cells, shapes types t cells = some [.record fs]) ∧
    ∃ row, specialize (.record fs) (some (.record i ps hasRest)) = some row ∧
      row.length = fs.length ∧
      (∀ v, types.HasType v t → (accepts m (.record i ps hasRest) v = true ↔
        ∃ gs, v = .record gs ∧ RowAccepts m row (gs.map Prod.snd) ∧
          acceptsFields m (leftOut (fs.map Prod.fst) ps) gs = true)) ∧
      ((ps.map Prod.fst).Nodup → (∀ k ∈ ps.map Prod.fst, k ∈ fs.map Prod.fst) →
        ∀ v, types.HasType v t → (accepts m (.record i ps hasRest) v = true ↔
          ∃ gs, v = .record gs ∧ RowAccepts m row (gs.map Prod.snd))) := by
  have hexact : ∀ v, types.HasType v t → (accepts m (.record i ps hasRest) v = true ↔
      ∃ gs, v = .record gs ∧
        RowAccepts m (fs.map fun f => fieldPattern? f.1 ps) (gs.map Prod.snd) ∧
        acceptsFields m (leftOut (fs.map Prod.fst) ps) gs = true) := by
    intro v hv
    cases v with
    | record gs =>
      rw [accepts_record_iff (hasTypes_of_record hv hres).1 hd]
      simp
    | _ => simp [accepts]
  refine ⟨fun cells => ?_, _, rfl, by simp, hexact, fun hkeys hdecl v hv => ?_⟩
  · simp [shapes, hres, Ty.isUnknown]
  · rw [hexact v hv, leftOut_eq_nil hkeys hdecl]
    simp [acceptsFields]

/-! An instance, with the keys in another order than the fields: `{b: true, a: false}` on a record of
two truth values. -/

/-- A record pattern that tests truth values. -/
def flagPattern (tests : List (String × Bool)) : Pattern :=
  .record ⟨{}, .con "Flags"⟩ (tests.map fun f => (f.1, .literal ⟨{}, .bool⟩ (.bool f.2))) false

def flagRecord (fields : List (String × Bool)) : Value :=
  .record (fields.map fun f => (f.1, .literal (.bool f.2)))

/-- The table in which `Flags` is a record of truth values. -/
def flagTable (names : List String) : TypeTable :=
  (TypeTable.builtin.declareRecord "Flags" (names.map fun n => (n, .bool))).toOption.getD .builtin

theorem specialize_record_exact_flags :
    ∃ row, specialize (.record [("a", .bool), ("b", .bool)])
        (some (flagPattern [("b", true), ("a", false)])) = some row ∧
      (flagTable ["a", "b"]).HasType (flagRecord [("a", false), ("b", true)]) (.con "Flags") ∧
      RowAccepts ⟨fun _ _ => false, fun _ _ => none⟩ row
        [.literal (.bool false), .literal (.bool true)] := by
  have hres : (flagTable ["a", "b"]).resolve (.con "Flags")
      = .record "Flags" [("a", .bool), ("b", .bool)] := rfl
  have hv : (flagTable ["a", "b"]).HasType (flagRecord [("a", false), ("b", true)])
      (.con "Flags") := .record hres rfl (.cons (.literal rfl) (.cons (.literal rfl) .nil))
  obtain ⟨-, row, hrow, -, -, hexact⟩ := specialize_record_exact _
    ⟨fun _ _ => false, fun _ _ => none⟩ _ _ _ hres (by decide) ⟨{}, .con "Flags"⟩
    [("b", .literal ⟨{}, .bool⟩ (.bool true)), ("a", .literal ⟨{}, .bool⟩ (.bool false))] false
  obtain ⟨gs, hgs, hacc⟩ := (hexact (by decide) (by decide) _ hv).mp (by decide)
  cases hgs
  exact ⟨row, hrow, hv, hacc⟩

/-- **With a repeated key, or one that is not declared, the columns accept too much.**  The cells of
`{a: true, a: false}` and of `{b: true}` accept the record `{a: true}`, the patterns do not; and the
search finds no value missing although no pattern accepts that one. -/
theorem specialize_record_loses :
    let types := flagTable ["a"]
    let m : Meaning := ⟨fun _ _ => false, fun _ _ => none⟩
    let twice := flagPattern [("a", true), ("a", false)]
    let other := flagPattern [("b", true)]
    let v := flagRecord [("a", true)]
    types.HasType v (.con "Flags") ∧
      (∀ p ∈ [twice, other], accepts m p v = false ∧
        ∃ row, specialize (.record [("a", .bool)]) (some p) = some row ∧
          RowAccepts m row [.literal (.bool true)]) ∧
      accepts m (flagPattern [("a", false)]) v = false ∧
      missingValue types (.con "Flags") [twice, flagPattern [("a", false)]] = none ∧
      missingValue types (.con "Flags") [other] = none := by
  intro types m twice other v
  have hres : types.resolve (.con "Flags") = .record "Flags" [("a", .bool)] := rfl
  refine ⟨.record hres rfl (.cons (.literal rfl) .nil), ?_, by decide, by decide, by decide⟩
  intro p hp
  rcases List.mem_pair.mp hp with rfl | rfl
  · exact ⟨by decide, _, rfl, .cons (by decide) .nil⟩
  · exact ⟨by decide, _, rfl, .cons (by decide) .nil⟩

end PatternPlan.Typed
