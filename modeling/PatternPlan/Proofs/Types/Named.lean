import PatternPlan.Proofs.Surface.Parsed
import PatternPlan.Types.Table

/-!
# Types whose names are not empty

Typing takes types apart and puts them together again.  None of it makes an empty name, so that a
type that is known has a text.

* `Ty.isNamed` — no name inside a type is empty;
* `Ty.text_ne_empty` — **a named type has a text**;
* `named_join`, `named_substitute`, `named_ofTypeExpr` — the operations on types keep names;
* `TypeTable.Named`, `named_fieldTypes`, `Named.recordFields` — tables of named declarations, and
  what is looked up in them.
-/

namespace PatternPlan

namespace Ty

mutual

/-- Whether no name in a type is empty. -/
def isNamed : Ty → Bool
  | con n => n ≠ ""
  | app _ ts | tuple ts => allNamed ts
  | array t => isNamed t
  | record _ fs => fieldsNamed fs
  | func ps r => allNamed ps && isNamed r
  | unknown => true

def allNamed : List Ty → Bool
  | [] => true
  | t :: ts => isNamed t && allNamed ts

def fieldsNamed : List (String × Ty) → Bool
  | [] => true
  | (_, t) :: fs => isNamed t && fieldsNamed fs

end

theorem allNamed_iff {ts : List Ty} : allNamed ts = true ↔ ∀ t ∈ ts, isNamed t = true := by
  induction ts with
  | nil => simp [allNamed]
  | cons t ts ih => simp [allNamed, ih]

theorem fieldsNamed_iff {fs : List (String × Ty)} :
    fieldsNamed fs = true ↔ ∀ f ∈ fs, isNamed f.2 = true := by
  induction fs with
  | nil => simp [fieldsNamed]
  | cons f fs ih => simp [fieldsNamed, ih]

/-- **A named type has a text.** -/
theorem text_ne_empty {t : Ty} (h : isNamed t = true) : text t ≠ "" := by
  cases t with
  | con n => simpa [isNamed, text] using h
  | app n ts =>
    rw [text]
    exact append_ne_empty_right (by decide)
  | tuple ts =>
    rw [text]
    exact append_ne_empty_right (by decide)
  | array t =>
    rw [text]
    exact append_ne_empty_right (by decide)
  | record n fs =>
    by_cases hn : n = ""
    · rw [hn, text]
      exact append_ne_empty_right (by decide)
    · rw [text]
      · exact hn
      · exact hn
  | func ps r =>
    rw [text]
    refine append_ne_empty_left (append_ne_empty_right (by decide))
  | unknown => decide

theorem named_ofLiteral (l : Literal) : (ofLiteral l).isNamed = true := by
  cases l <;> rfl

theorem named_payload {t : Ty} (h : isNamed t = true) : t.payload.isNamed = true := by
  rw [payload.eq_def]
  split
  · rename_i n u
    split
    · simpa [isNamed, allNamed] using h
    · rfl
  · rfl

theorem named_field? {fs : List (String × Ty)} {n : String} (h : ∀ f ∈ fs, f.2.isNamed = true) :
    ((field? n fs).getD .unknown).isNamed = true := by
  induction fs with
  | nil => rfl
  | cons f fs ih =>
    rw [field?]
    split
    · exact h f List.mem_cons_self
    · exact ih fun g hg => h g (List.mem_cons_of_mem _ hg)

theorem named_ite {c : Prop} [Decidable c] {t : Ty} (h : isNamed t = true) :
    (if c then t else unknown).isNamed = true := by
  split
  · exact h
  · rfl

mutual

theorem named_join {t u : Ty} (ht : isNamed t = true) (hu : isNamed u = true) :
    (join t u).isNamed = true := by
  rw [join.eq_def]
  cases t with
  | unknown => exact hu
  | app a ts =>
    dsimp only
    split
    · exact ht
    · rename_i b us
      split
      · exact named_joinAll ht hu
      · exact named_ite ht
    · exact named_ite ht
  | con | tuple | array | record | func => exact named_ite ht

theorem named_joinAll {ts us : List Ty} (ht : allNamed ts = true) (hu : allNamed us = true) :
    allNamed (joinAll ts us) = true := by
  cases ts with
  | nil => rfl
  | cons t ts =>
    cases us with
    | nil => rfl
    | cons u us =>
      rw [allNamed, Bool.and_eq_true] at ht hu
      rw [joinAll, allNamed, named_join ht.1 hu.1, named_joinAll ht.2 hu.2, Bool.and_self]

end

theorem named_foldl_join {ts : List Ty} (h : ∀ t ∈ ts, t.isNamed = true) {t : Ty}
    (ht : t.isNamed = true) : (ts.foldl join t).isNamed = true := by
  induction ts generalizing t with
  | nil => exact ht
  | cons u ts ih =>
    rw [List.foldl_cons]
    exact ih (fun v hv => h v (List.mem_cons_of_mem _ hv)) (named_join ht (h u List.mem_cons_self))

/-! ### Annotations -/

theorem named_ofName {n : String} (hn : n ≠ "") {ts : List Ty} (h : allNamed ts = true) :
    (ofName n ts).isNamed = true := by
  rw [ofName.eq_def]
  split
  iterate 5 rfl
  · simpa [isNamed, allNamed] using h
  · simpa [isNamed, allNamed] using h
  · simpa [isNamed] using hn
  · exact h

mutual

theorem named_ofTypeExpr {t : Surface.TypeExpr} (h : t.isNamed = true) :
    (ofTypeExpr t).isNamed = true := by
  cases t with
  | named m n ts =>
    rw [Surface.TypeExpr.isNamed, Bool.and_eq_true, decide_eq_true_eq] at h
    rw [ofTypeExpr]
    exact named_ofName h.1 (named_ofTypeExprs h.2)
  | tuple m ts =>
    cases ts with
    | nil => rfl
    | cons t ts =>
      rw [Surface.TypeExpr.isNamed, Surface.TypeExpr.allNamed, Bool.and_eq_true] at h
      rw [ofTypeExpr, isNamed, allNamed, named_ofTypeExpr h.1, named_ofTypeExprs h.2, Bool.and_self]
  | array m t =>
    rw [ofTypeExpr, isNamed]
    exact named_ofTypeExpr h

theorem named_ofTypeExprs {ts : List Surface.TypeExpr}
    (h : Surface.TypeExpr.allNamed ts = true) : allNamed (ofTypeExprs ts) = true := by
  cases ts with
  | nil => rfl
  | cons t ts =>
    rw [Surface.TypeExpr.allNamed, Bool.and_eq_true] at h
    rw [ofTypeExprs, allNamed, named_ofTypeExpr h.1, named_ofTypeExprs h.2, Bool.and_self]

end

theorem named_ofTypeExpr? {t : Option Surface.TypeExpr} (h : Surface.Annotated t) :
    (ofTypeExpr? t).isNamed = true := by
  cases t with
  | none => rfl
  | some u => exact named_ofTypeExpr (h u rfl)

end Ty

/-! ### Tables -/

namespace TypeTable

open Ty

/-- The declarations of a table have no empty names. -/
structure Named (t : TypeTable) : Prop where
  constructors : ∀ v ∈ t.constructors, v.owner ≠ "" ∧ ∀ u ∈ v.fields, u.isNamed = true
  records : ∀ r ∈ t.records, ∀ f ∈ r.2, f.2.isNamed = true

theorem named_builtin : builtin.Named where
  constructors := by decide
  records := by decide

theorem named_declareRecord {t t' : TypeTable} (h : t.Named) {name : String}
    {fields : List (String × Ty)} (hf : ∀ f ∈ fields, f.2.isNamed = true)
    (hd : t.declareRecord name fields = .ok t') : t'.Named := by
  rw [declareRecord] at hd
  split at hd
  · cases hd
  · cases hd
    refine ⟨h.constructors, fun r hr => ?_⟩
    rcases List.mem_append.mp hr with hr | hr
    · exact h.records r hr
    · obtain rfl := List.mem_singleton.mp hr
      exact hf

theorem named_declareSum {t t' : TypeTable} (h : t.Named) {s : SumType} (hn : s.name ≠ "")
    (hf : ∀ v ∈ s.variants, ∀ u ∈ v.fields, u.isNamed = true)
    (hd : t.declareSum s = .ok t') : t'.Named := by
  rw [declareSum] at hd
  split at hd
  · cases hd
  · split at hd
    · cases hd
    · cases hd
      refine ⟨fun v hv => ?_, h.records⟩
      rcases List.mem_append.mp hv with hv | hv
      · obtain ⟨w, hw, rfl⟩ := List.mem_map.mp (List.mem_reverse.mp hv)
        exact ⟨hn, hf w hw⟩
      · exact h.constructors v hv

mutual

theorem named_substitute {args : List (String × Ty)} (ha : ∀ f ∈ args, f.2.isNamed = true)
    {params : List String} {t : Ty} (h : t.isNamed = true) :
    (substitute args params t).isNamed = true := by
  cases t with
  | con n =>
    have harg : ((field? n args).getD .unknown).isNamed = true := named_field? ha
    rw [substitute]
    cases hfield : field? n args with
    | some u =>
      rw [hfield] at harg
      exact harg
    | none =>
      dsimp only
      split
      · rfl
      · exact h
  | app n ts => exact named_substituteAll ha h
  | tuple ts => exact named_substituteAll ha h
  | array t =>
    rw [substitute, isNamed]
    exact named_substitute (t := t) ha h
  | record | func | unknown => exact h

theorem named_substituteAll {args : List (String × Ty)} (ha : ∀ f ∈ args, f.2.isNamed = true)
    {params : List String} {ts : List Ty} (h : allNamed ts = true) :
    allNamed (substituteAll args params ts) = true := by
  cases ts with
  | nil => rfl
  | cons t ts =>
    rw [allNamed, Bool.and_eq_true] at h
    rw [substituteAll, allNamed, named_substitute ha h.1, named_substituteAll ha h.2, Bool.and_self]

end

theorem named_arguments {s : SumType} {u : Ty} (h : u.isNamed = true) :
    ∀ f ∈ arguments s u, f.2.isNamed = true := by
  cases u with
  | app n ts =>
    rw [arguments]
    split
    · intro f hf
      exact allNamed_iff.mp h _ (List.of_mem_zip (List.mem_reverse.mp hf)).2
    · simp
  | _ => simp [arguments]

theorem named_fieldTypes {t : TypeTable} {v : Variant} (hv : ∀ u ∈ v.fields, u.isNamed = true)
    {u : Ty} (h : u.isNamed = true) : ∀ w ∈ t.fieldTypes v u, w.isNamed = true := by
  rw [fieldTypes]
  split
  · exact allNamed_iff.mp (named_substituteAll (named_arguments h) (allNamed_iff.mpr hv))
  · exact hv

theorem Named.of_constructor? {t : TypeTable} (h : t.Named) {n : String} {v : Variant}
    (hv : t.constructor? n = some v) : v.owner ≠ "" ∧ ∀ u ∈ v.fields, u.isNamed = true :=
  h.constructors v (List.mem_of_find?_eq_some hv)

theorem Named.recordFields {t : TypeTable} (h : t.Named) {u : Ty} (hu : u.isNamed = true) :
    ∀ f ∈ t.recordFields u, f.2.isNamed = true := by
  rw [TypeTable.recordFields]
  split
  · rename_i n fs hres
    cases u with
    | con c =>
      rw [resolve] at hres
      split at hres
      · rename_i gs hrec
        cases hres
        obtain ⟨r, hr, rfl⟩ := Option.map_eq_some_iff.mp hrec
        exact h.records r (List.mem_of_find?_eq_some hr)
      · cases hres
    | record m gs =>
      cases hres
      exact fieldsNamed_iff.mp hu
    | app | tuple | array | func | unknown => cases hres
  · simp

end TypeTable

end PatternPlan
