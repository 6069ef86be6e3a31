import PatternPlan.Proofs.Json.Text

/-!
# Places that are written once

What writing gives to a place of a document is what reading takes from it.

* `fieldsOf`, `slotValues` — an object as a list of keys with their values, in which a field that was
  left out has none;
* `record_fieldsOf` — **a record is built from the values of its keys**, if it has no others;
* `text_textValues`, `flag_flagValues`, `list_listValues`, … — what was left out is read as if it had
  been written;
* `depth_lt_object`, `depth_lt_array` — the values inside a value nest less deep;
* `Recovers` — a value is read back whenever there is room for it.
-/

namespace PatternPlan

namespace Json

/-! ### Nesting -/

theorem depth_le_depthOfItems {v : Json} {items : List Json} (h : v ∈ items) :
    v.depth ≤ depth.depthOfItems items := by
  induction items with
  | nil => cases h
  | cons w ws ih =>
    rw [depth.depthOfItems]
    rcases List.mem_cons.mp h with rfl | h
    · exact Nat.le_max_left _ _
    · exact Nat.le_trans (ih h) (Nat.le_max_right _ _)

theorem depth_le_depthOfFields {f : String × Json} {fields : List (String × Json)}
    (h : f ∈ fields) : f.2.depth ≤ depth.depthOfFields fields := by
  induction fields with
  | nil => cases h
  | cons g gs ih =>
    rw [depth.depthOfFields]
    rcases List.mem_cons.mp h with rfl | h
    · exact Nat.le_max_left _ _
    · exact Nat.le_trans (ih h) (Nat.le_max_right _ _)

/-- An item nests less deep than its array. -/
theorem depth_lt_array {v : Json} {items : List Json} (h : v ∈ items) :
    v.depth < (Json.array items).depth := by
  rw [depth.eq_1]
  exact Nat.lt_succ_of_le (depth_le_depthOfItems h)

/-- The value of a field nests less deep than its object. -/
theorem depth_lt_object {f : String × Json} {fields : List (String × Json)} (h : f ∈ fields) :
    f.2.depth < (Json.object fields).depth := by
  rw [depth.eq_2]
  exact Nat.lt_succ_of_le (depth_le_depthOfFields h)

end Json

namespace Reader

/-! ### Records -/

/-- The fields that give to each key its values. -/
def fieldsOf (slots : List (String × List Json)) : List (String × Json) :=
  slots.flatMap fun s => s.2.map fun j => (s.1, j)

/-- The values of a key. -/
def slotValues : List (String × List Json) → String → List Json
  | [], _ => []
  | s :: slots, key => if s.1 = key then s.2 else slotValues slots key

variable {α : Type} {slots : List (String × List Json)} {names : List String}

@[simp] theorem slotValues_head (key : String) (js : List Json) :
    slotValues ((key, js) :: slots) key = js := if_pos rfl

@[simp] theorem slotValues_tail {key name : String} (h : key ≠ name) (js : List Json) :
    slotValues ((key, js) :: slots) name = slotValues slots name := if_neg h

theorem valuesOf_append (fs gs : List (String × Json)) (key : String) :
    valuesOf (fs ++ gs) key = valuesOf fs key ++ valuesOf gs key :=
  List.filterMap_append

theorem valuesOf_slot (key name : String) (js : List Json) :
    valuesOf (js.map fun j => (key, j)) name = if key = name then js else [] := by
  induction js with
  | nil => simp [valuesOf]
  | cons j js ih =>
    have hfirst : valuesOf [(key, j)] name = if key = name then [j] else [] := by
      by_cases h : key = name <;> simp [valuesOf, h]
    rw [List.map_cons, ← List.singleton_append, valuesOf_append, ih, hfirst]
    by_cases h : key = name <;> simp [h]

theorem slotValues_eq_nil {key : String} (h : key ∉ slots.map (·.1)) : slotValues slots key = [] := by
  induction slots with
  | nil => rfl
  | cons s slots ih =>
    rw [List.map_cons, List.mem_cons, not_or] at h
    rw [slotValues, if_neg (Ne.symm h.1), ih h.2]

theorem valuesOf_fieldsOf (h : (slots.map (·.1)).Nodup) :
    valuesOf (fieldsOf slots) = slotValues slots := by
  funext key
  induction slots with
  | nil => rfl
  | cons s slots ih =>
    rw [List.map_cons, List.nodup_cons] at h
    have htail : valuesOf (fieldsOf (s :: slots)) key
        = (if s.1 = key then s.2 else []) ++ slotValues slots key := by
      rw [fieldsOf, List.flatMap_cons, valuesOf_append, valuesOf_slot, ← fieldsOf, ih h.2]
    rw [htail, slotValues]
    split
    · rename_i heq
      rw [slotValues_eq_nil (heq ▸ h.1), List.append_nil]
    · rw [List.nil_append]

/-- A key that is a name stands for itself. -/
theorem nameOf?_of_mem {key : String} (h : key ∈ names) : nameOf? names key = some key := by
  have hfind : names.find? (· = key) = some key := by
    induction names with
    | nil => cases h
    | cons n names ih =>
      by_cases heq : n = key
      · rw [List.find?_cons_of_pos (by simpa using heq), heq]
      · rw [List.find?_cons_of_neg (by simpa using heq)]
        exact ih ((List.mem_cons.mp h).resolve_left (Ne.symm heq))
  rw [nameOf?, hfind]
  rfl

theorem known_of_mem (strict : Bool) {fields : List (String × Json)}
    (h : ∀ f ∈ fields, f.1 ∈ names) : known strict names fields = some fields := by
  induction fields with
  | nil => rfl
  | cons f fields ih =>
    rw [List.forall_mem_cons] at h
    rw [known, nameOf?_of_mem h.1]
    dsimp only
    rw [ih h.2]
    rfl

theorem fst_mem_of_mem_fieldsOf {f : String × Json} (h : f ∈ fieldsOf slots) :
    f.1 ∈ slots.map (·.1) := by
  obtain ⟨s, hs, hf⟩ := List.mem_flatMap.mp h
  obtain ⟨j, _, rfl⟩ := List.mem_map.mp hf
  exact List.mem_map_of_mem hs

theorem objects_fieldsOf (strict : Bool) (h : slots.map (·.1) = names) :
    objects strict names [.object (fieldsOf slots)] = some [fieldsOf slots] := by
  have hknown : known strict names (fieldsOf slots) = some (fieldsOf slots) :=
    known_of_mem strict fun f hf => h ▸ fst_mem_of_mem_fieldsOf hf
  rw [objects, hknown]
  rfl

/-- **A record is built from the values of its keys.** -/
theorem record_fieldsOf (strict : Bool) {build : (String → List Json) → Option α}
    (hkeys : slots.map (·.1) = names) (hnames : names.Nodup) :
    record strict names build [.object (fieldsOf slots)] = build (slotValues slots) := by
  rw [record, objects_fieldsOf strict hkeys, Option.bind_some, List.flatten_singleton,
    valuesOf_fieldsOf (hkeys.symm ▸ hnames)]

/-- The values of a key nest less deep than the object. -/
theorem depth_lt_fieldsOf {s : String × List Json} (hs : s ∈ slots) {j : Json} (hj : j ∈ s.2) :
    j.depth < (Json.object (fieldsOf slots)).depth := by
  have hmem : (s.1, j) ∈ fieldsOf slots :=
    List.mem_flatMap.mpr ⟨s, hs, List.mem_map.mpr ⟨j, hj, rfl⟩⟩
  exact Json.depth_lt_object hmem

/-! ### Plain places -/

/-- What is written for a text that is left out when empty. -/
def textValues (s : String) : List Json := if s = "" then [] else [.text s]

/-- What is written for a truth value that is left out when false. -/
def flagValues (b : Bool) : List Json := if b then [.bool b] else []

/-- What is written for a list that is left out when empty. -/
def listValues (items : List Json) : List Json := if items.isEmpty then [] else [.array items]

theorem textField_eq (key s : String) :
    Json.textField key s = (textValues s).map fun j => (key, j) := by
  rw [Json.textField, Json.fieldUnless, textValues]
  by_cases h : s = "" <;> simp [h]

theorem flagField_eq (key : String) (b : Bool) :
    Json.flagField key b = (flagValues b).map fun j => (key, j) := by
  cases b <;> rfl

theorem listField_eq (key : String) (items : List Json) :
    Json.listField key items = (listValues items).map fun j => (key, j) := by
  cases items <;> rfl

theorem optionField_eq (key : String) (o : Option Json) :
    Json.optionField key o = o.toList.map fun j => (key, j) := by
  cases o <;> rfl

theorem text_text (s : String) : text [.text s] = some s := rfl

theorem flag_bool (b : Bool) : flag [.bool b] = some b := rfl

theorem text_textValues (s : String) : text (textValues s) = some s := by
  rw [textValues]
  split
  · rename_i h
    rw [h]
    rfl
  · rfl

theorem flag_flagValues (b : Bool) : flag (flagValues b) = some b := by
  cases b <;> rfl

theorem int_int {i : Int} (h : fitsInt64 i = true) : int [.int i] = some i := by
  have hread : (Json.intOfNumeral? (decimal i)).filter fitsInt64 = some i := by
    rw [Json.intOfNumeral?_decimal, Option.filter_some, if_pos h]
  show ((Json.intOfNumeral? (decimal i)).filter fitsInt64).bind _ = some i
  rw [hread]
  rfl

/-- The number of a row, if it fits its word. -/
theorem nat_nat {n : Nat} (h : n < 2 ^ 32) : nat [.nat n] = some n := by
  have hplain : (decimal (n : Int)).toList.contains '-' = false := by
    rw [Json.decimal_eq, decide_eq_false (by omega), String.toList_ofList, List.contains_eq_mem]
    refine decide_eq_false fun hmem => ?_
    exact absurd (Decimal.isDigit_of_mem_digits '-' hmem) (by decide)
  have hread : ((Json.intOfNumeral? (decimal (n : Int))).filter fitsUInt32).map Int.toNat = some n := by
    rw [Json.intOfNumeral?_decimal, Option.filter_some, if_pos (by simp [fitsUInt32]; omega)]
    rfl
  show (if (decimal (n : Int)).toList.contains '-' then none
    else ((Json.intOfNumeral? (decimal (n : Int))).filter fitsUInt32).map Int.toNat).bind _ = some n
  rw [hplain, hread]
  rfl

theorem named_text {ofName : String → Option α} {s : String} {a : α} (h : ofName s = some a) (d : α) :
    named ofName d [.text s] = some a := by
  rw [named, h]
  rfl

/-! ### Parts and lists -/

variable {r : Reader α} {f : α → Json}

theorem option_of_ne_null {j : Json} {a : α} (hj : j ≠ .null) (h : r [j] = some a) :
    option r [j] = some (some a) := by
  have hstep : option r [j] = optionFrom r [j] [] := by
    rw [option]
    cases j with
    | null => exact absurd rfl hj
    | _ => rfl
  rw [hstep]
  show (r [j]).map some = _
  rw [h]
  rfl

/-- A part that was left out when absent. -/
theorem option_toList {o : Option α} (hnull : ∀ a, f a ≠ .null) (h : ∀ a ∈ o, r [f a] = some a) :
    option r (o.map f).toList = some o := by
  cases o with
  | none => rfl
  | some a => exact option_of_ne_null (hnull a) (h a rfl)

/-- A part for which `null` was written when absent. -/
theorem option_null {o : Option α} (hnull : ∀ a, f a ≠ .null) (h : ∀ a ∈ o, r [f a] = some a) :
    option r [(o.map f).getD .null] = some o := by
  cases o with
  | none => rfl
  | some a => exact option_of_ne_null (hnull a) (h a rfl)

theorem mapM_singletons {xs : List α} (h : ∀ x ∈ xs, r [f x] = some x) :
    ((xs.map f).map fun j => [j]).mapM r = some xs := by
  induction xs with
  | nil => rfl
  | cons x xs ih =>
    rw [List.forall_mem_cons] at h
    rw [List.map_cons, List.map_cons, List.mapM_cons, h.1, ih h.2]
    rfl

theorem listed_array {xs : List α} (h : ∀ x ∈ xs, r [f x] = some x) :
    listed r [.array (xs.map f)] = some (some xs) := by
  cases xs with
  | nil => rfl
  | cons x xs =>
    have hitems : items r [(x :: xs).map f] = some (x :: xs) := by
      rw [items, columns_singleton, mapM_singletons h]
      show some ((x :: xs).take ((x :: xs).map f).length) = _
      rw [List.length_map, List.take_length]
    show (items r [(x :: xs).map f]).map some = _
    rw [hitems]
    rfl

/-- A list that was left out when empty. -/
theorem list_listValues {xs : List α} (h : ∀ x ∈ xs, r [f x] = some x) :
    list r (listValues (xs.map f)) = some xs := by
  cases xs with
  | nil => rfl
  | cons x xs =>
    show (listed r [.array ((x :: xs).map f)]).map (Option.getD · []) = _
    rw [listed_array h]
    rfl

/-! ### Numerals -/

/-- The numbers of an object are numerals if those of its values are. -/
theorem proper_fieldsOf :
    (Json.object (fieldsOf slots)).Proper ↔ ∀ s ∈ slots, Json.ProperItems s.2 := by
  rw [Json.Proper, Json.properFields_iff]
  constructor
  · intro h s hs
    refine Json.properItems_iff.mpr fun j hj => ?_
    exact h (s.1, j) (List.mem_flatMap.mpr ⟨s, hs, List.mem_map.mpr ⟨j, hj, rfl⟩⟩)
  · intro h g hg
    obtain ⟨s, hs, hg⟩ := List.mem_flatMap.mp hg
    obtain ⟨j, hj, rfl⟩ := List.mem_map.mp hg
    exact Json.properItems_iff.mp (h s hs) j hj

@[simp] theorem properItems_nil : Json.ProperItems [] := by
  rw [Json.ProperItems]
  trivial

@[simp] theorem properItems_cons {j : Json} {js : List Json} :
    Json.ProperItems (j :: js) ↔ j.Proper ∧ Json.ProperItems js := by
  rw [Json.ProperItems]

@[simp] theorem proper_array {items : List Json} :
    (Json.array items).Proper ↔ Json.ProperItems items := by
  rw [Json.Proper]

@[simp] theorem proper_null : Json.null.Proper := by
  rw [Json.Proper]
  trivial

@[simp] theorem proper_text (s : String) : (Json.text s).Proper := by
  rw [Json.Proper]
  trivial

@[simp] theorem proper_bool (b : Bool) : (Json.bool b).Proper := by
  rw [Json.Proper]
  trivial

@[simp] theorem proper_int (i : Int) : (Json.int i).Proper := by
  rw [Json.int, Json.Proper]
  exact Json.isNumeral_decimal i

@[simp] theorem proper_nat (n : Nat) : (Json.nat n).Proper := proper_int n

@[simp] theorem properItems_textValues (s : String) : Json.ProperItems (textValues s) := by
  rw [textValues]
  split <;> simp

@[simp] theorem properItems_flagValues (b : Bool) : Json.ProperItems (flagValues b) := by
  cases b <;> simp [flagValues]

@[simp] theorem properItems_listValues {items : List Json} :
    Json.ProperItems (listValues items) ↔ Json.ProperItems items := by
  cases items <;> simp [listValues]

theorem properItems_map {xs : List α} :
    Json.ProperItems (xs.map f) ↔ ∀ x ∈ xs, (f x).Proper := by
  rw [Json.properItems_iff, List.forall_mem_map]

theorem properItems_toList {o : Option α} :
    Json.ProperItems (o.map f).toList ↔ ∀ a ∈ o, (f a).Proper := by
  cases o <;> simp

theorem proper_listed {l : Listed α} :
    (Json.listed f l).Proper ↔ ∀ xs ∈ l, ∀ x ∈ xs, (f x).Proper := by
  cases l <;> simp [Json.listed, Json.option, properItems_map]

/-! ### Room -/

/-- The items of a list that is written to a key stand two levels below the object. -/
theorem succ_depth_lt_items (key : String) {items : List Json}
    (hs : (key, listValues items) ∈ slots) {j : Json} (hj : j ∈ items) :
    j.depth + 1 < (Json.object (fieldsOf slots)).depth := by
  have hvalues : Json.array items ∈ listValues items := by
    cases items with
    | nil => cases hj
    | cons i items => exact List.mem_singleton_self _
  exact Nat.lt_of_le_of_lt (Json.depth_lt_array hj) (depth_lt_fieldsOf hs hvalues)

theorem depth_lt_items (key : String) {items : List Json} (hs : (key, listValues items) ∈ slots)
    {j : Json} (hj : j ∈ items) : j.depth < (Json.object (fieldsOf slots)).depth :=
  Nat.lt_of_succ_lt (succ_depth_lt_items key hs hj)

/-- The items of a list that may be missing nest less deep than the list. -/
theorem depth_lt_listed {f : α → Json} {l : Listed α} {a : α} (h : a ∈ l.getD []) :
    (f a).depth < (Json.listed f l).depth := by
  cases l with
  | none => cases h
  | some items => exact Json.depth_lt_array (List.mem_map_of_mem h)

/-- The items of the list of a key nest less deep than the object, by two levels. -/
theorem succ_depth_lt_listed (key : String) {f : α → Json} {l : Listed α}
    (hs : (key, [Json.listed f l]) ∈ slots) {a : α} (ha : a ∈ l.getD []) :
    (f a).depth + 1 < (Json.object (fieldsOf slots)).depth :=
  Nat.lt_of_le_of_lt (depth_lt_listed ha) (depth_lt_fieldsOf hs (List.mem_singleton_self _))

/-- There is room for the value of a key if there is room for the object. -/
theorem depth_le_of_slot {room : Nat} (hroom : (Json.object (fieldsOf slots)).depth ≤ room)
    (key : String) {j : Json} (h : (key, [j]) ∈ slots) : j.depth ≤ room :=
  Nat.le_trans (Nat.le_of_lt (depth_lt_fieldsOf h (List.mem_singleton_self j))) hroom

/-- A value that is written in numerals, and is read back wherever there is room for it. -/
structure Recovers (r : Nat → Reader α) (f : α → Json) (a : α) : Prop where
  proper : (f a).Proper
  reads : ∀ room, (f a).depth ≤ room → r room [f a] = some a

/-- A list that may be missing, of values that are read back. -/
theorem Recovers.listed {r : Nat → Reader α} {l : Listed α}
    (h : ∀ xs ∈ l, ∀ x ∈ xs, Recovers r f x) {room : Nat} (hroom : (Json.listed f l).depth ≤ room) :
    Reader.listed (r room) [Json.listed f l] = some l := by
  cases l with
  | none => rfl
  | some xs =>
    refine listed_array fun x hx => (h xs rfl x hx).reads room ?_
    have hdepth : (f x).depth < (Json.array (xs.map f)).depth :=
      Json.depth_lt_array (List.mem_map_of_mem hx)
    exact Nat.le_trans (Nat.le_of_lt hdepth) hroom

end Reader

end PatternPlan
