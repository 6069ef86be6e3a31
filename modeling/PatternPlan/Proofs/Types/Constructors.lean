import Mathlib.Data.List.Nodup
import Mathlib.Data.List.Pairwise
import PatternPlan.Compile.Compilation
import PatternPlan.Proofs.Types.Declared

/-!
# Names of constructors

A call that declares a sum type is refused if one of its constructors has been declared before.  What
it lists itself is not compared, so a declaration may list one name twice.

* `declareAll` — calls none of which is refused;
* `TypeTable.Listed` — the constructors that are found are those that the sum types list, and no two
  sum types share a name;
* `Listed.run`, `Listed.declareAll` — one call, any number of calls;
* `constructors_unique` — **no name is used twice, and each constructor is found by its name, exactly
  if no declaration lists a name twice**;
* `constructors_repeated` — a declaration that does.
-/

namespace PatternPlan

namespace SumType

/-- The names of the constructors. -/
def constructorNames (s : SumType) : List String := s.variants.map Variant.name

/-- No name is listed twice. -/
def Distinct (s : SumType) : Prop := s.constructorNames.Nodup

instance (s : SumType) : Decidable s.Distinct :=
  inferInstanceAs (Decidable s.constructorNames.Nodup)

/-- The sum type with its constructors as its own. -/
def withOwner (s : SumType) : SumType := { s with variants := TypeTable.owned s }

theorem constructorNames_withOwner (s : SumType) :
    s.withOwner.constructorNames = s.constructorNames := by
  rw [constructorNames, withOwner, TypeTable.owned, List.map_map]
  rfl

theorem distinct_withOwner {s : SumType} : s.withOwner.Distinct ↔ s.Distinct := by
  rw [Distinct, constructorNames_withOwner, Distinct]

end SumType

namespace TypeTable

/-- The sum type that a call declares. -/
def Declaration.sum? : Declaration → Option SumType
  | .sum s => some s.withOwner
  | .record _ _ => none

/-- The table after calls none of which may be refused. -/
def declareAll (t : TypeTable) (calls : List Declaration) : Except DeclareError TypeTable :=
  calls.foldlM Declaration.run t

/-- The constructors that the sum types list. -/
def variants (t : TypeTable) : List Variant := t.sums.flatMap SumType.variants

/-- **What is found of constructors**: those that the sum types list, newest first.  No two sum types
have one name, or a constructor of one name. -/
structure Listed (t : TypeTable) : Prop where
  constructors : t.constructors = t.variants.reverse
  names : (t.sums.map SumType.name).Nodup
  apart : t.sums.Pairwise fun r s => r.constructorNames.Disjoint s.constructorNames

variable {t u : TypeTable} {c : Declaration} {s : SumType}

/-! ### One call -/

theorem variants_withSum (t : TypeTable) (s : SumType) :
    (t.withSum s).variants = t.variants ++ owned s := by
  rw [variants, withSum, List.flatMap_append, List.flatMap_singleton]
  rfl

/-- A constructor is taken that a sum type lists. -/
theorem Listed.taken (h : t.Listed) (htaken : t.taken? s.variants = none) {r : SumType}
    (hr : r ∈ t.sums) : r.constructorNames.Disjoint s.constructorNames := by
  intro n hold hnew
  obtain ⟨w, hw, rfl⟩ := List.mem_map.mp hold
  obtain ⟨v, hv, hname⟩ := List.mem_map.mp hnew
  have hnone : t.constructors.find? (fun x => x.name = v.name) = none :=
    List.findSome?_eq_none_iff.mp htaken v hv
  have hfound : w ∈ t.constructors := by
    rw [h.constructors, List.mem_reverse]
    exact List.mem_flatMap.mpr ⟨r, hr, hw⟩
  exact List.find?_eq_none.mp hnone w hfound (decide_eq_true hname.symm)

theorem Listed.withSum (h : t.Listed) (hname : t.has s.name = false)
    (htaken : t.taken? s.variants = none) : (t.withSum s).Listed where
  constructors := by
    rw [variants_withSum, List.reverse_append, ← h.constructors]
    rfl
  names := by
    have hnew : s.name ∉ t.sums.map SumType.name := fun hmem => by
      obtain ⟨r, hr, hrs⟩ := List.mem_map.mp hmem
      exact List.find?_eq_none.mp (has_eq_false.mp hname).1 r hr (decide_eq_true hrs)
    rw [TypeTable.withSum, List.map_append]
    exact h.names.append (List.nodup_singleton _) (List.disjoint_singleton.mpr hnew)
  apart := by
    refine List.pairwise_append.mpr ⟨h.apart, List.pairwise_singleton _ _, fun r hr r' hr' => ?_⟩
    rw [List.mem_singleton.mp hr']
    exact s.constructorNames_withOwner ▸ h.taken htaken hr

/-- **One call lists what it declares**, behind what was listed. -/
theorem Listed.run (h : t.Listed) (hrun : c.run t = .ok u) :
    u.Listed ∧ u.sums = t.sums ++ c.sum?.toList := by
  cases c with
  | sum s =>
    obtain ⟨hname, htaken, rfl⟩ := declareSum_ok hrun
    exact ⟨h.withSum hname htaken, rfl⟩
  | record n fs =>
    obtain ⟨-, rfl⟩ := declareRecord_ok hrun
    exact ⟨⟨h.constructors, h.names, h.apart⟩, (List.append_nil _).symm⟩

/-! ### Any number of calls -/

theorem Listed.declareAll (h : t.Listed) {calls : List Declaration}
    (hall : t.declareAll calls = .ok u) :
    u.Listed ∧ u.sums = t.sums ++ calls.filterMap Declaration.sum? := by
  induction calls generalizing t with
  | nil =>
    cases hall
    exact ⟨h, (List.append_nil _).symm⟩
  | cons c calls ih =>
    rw [TypeTable.declareAll, List.foldlM_cons] at hall
    cases hrun : c.run t with
    | error e =>
      rw [hrun] at hall
      cases hall
    | ok t' =>
      rw [hrun] at hall
      obtain ⟨ht', hsums⟩ := h.run hrun
      obtain ⟨hu, hrest⟩ := ih ht' hall
      refine ⟨hu, ?_⟩
      rw [hrest, hsums, List.append_assoc]
      cases c <;> rfl

theorem listed_empty : Listed {} :=
  ⟨rfl, List.nodup_nil, List.Pairwise.nil⟩

theorem declareAll_builtin :
    declareAll {} [.sum optionType, .sum resultType] = .ok builtin := rfl

theorem listed_builtin : builtin.Listed := (listed_empty.declareAll declareAll_builtin).1

/-! ### Finding a constructor -/

/-- What other sum types list has other names. -/
theorem Listed.filter_variants (h : t.Listed) (hs : s ∈ t.sums) {v : Variant}
    (hv : v ∈ s.variants) :
    t.variants.filter (fun w => w.name = v.name) =
      s.variants.filter fun w => w.name = v.name := by
  have hname : v.name ∈ s.constructorNames := List.mem_map_of_mem hv
  have hother : ∀ rs : List SumType, (∀ r ∈ rs, v.name ∉ r.constructorNames) →
      (rs.flatMap SumType.variants).filter (fun w => w.name = v.name) = [] := by
    intro rs hrs
    refine List.filter_eq_nil_iff.mpr fun w hw heq => ?_
    obtain ⟨r, hr, hw⟩ := List.mem_flatMap.mp hw
    exact hrs r hr (of_decide_eq_true heq ▸ List.mem_map_of_mem hw)
  obtain ⟨before, behind, hsums⟩ := List.append_of_mem hs
  have hapart := h.apart
  rw [hsums, List.pairwise_append, List.pairwise_cons] at hapart
  obtain ⟨-, ⟨hbehind, -⟩, hbefore⟩ := hapart
  rw [variants, hsums, List.flatMap_append, List.flatMap_cons, List.filter_append,
    List.filter_append, hother before fun r hr hmem => hbefore r hr s List.mem_cons_self hmem hname,
    hother behind fun r hr hmem => hbehind r hr hname hmem, List.nil_append, List.append_nil]

/-- **A name stands for the constructor that its sum type lists last under it.** -/
theorem Listed.constructor?_eq (h : t.Listed) (hs : s ∈ t.sums) {v : Variant}
    (hv : v ∈ s.variants) :
    t.constructor? v.name = (s.variants.filter fun w => w.name = v.name).getLast? := by
  rw [← h.filter_variants hs hv, List.getLast?_filter, ← h.constructors]
  rfl

/-- Of distinct names each stands for its constructor. -/
theorem Listed.constructor?_of_distinct (h : t.Listed) (hs : s ∈ t.sums) (hdistinct : s.Distinct)
    {v : Variant} (hv : v ∈ s.variants) : t.constructor? v.name = some v := by
  have hmem : v ∈ s.variants.filter fun w => w.name = v.name :=
    List.mem_filter.mpr ⟨hv, decide_eq_true rfl⟩
  cases hlast : (s.variants.filter fun w => w.name = v.name).getLast? with
  | none =>
    rw [List.getLast?_eq_none_iff.mp hlast] at hmem
    cases hmem
  | some w =>
    obtain ⟨hw, hname⟩ := List.mem_filter.mp (List.mem_of_getLast? hlast)
    have hsame : w = v := List.inj_on_of_nodup_map hdistinct hw hv (of_decide_eq_true hname)
    rw [h.constructor?_eq hs hv, hlast, hsame]

/-- All names are used once if each sum type uses its own once. -/
theorem Listed.nodup_iff (h : t.Listed) :
    (t.variants.map Variant.name).Nodup ↔ ∀ s ∈ t.sums, s.Distinct := by
  rw [variants, List.map_flatMap, List.nodup_flatMap]
  exact and_iff_left h.apart

theorem distinct_builtin : ∀ s ∈ builtin.sums, s.Distinct := by
  have hsums : builtin.sums = [optionType.withOwner, resultType.withOwner] := rfl
  rw [hsums, List.forall_mem_cons, List.forall_mem_singleton, SumType.distinct_withOwner,
    SumType.distinct_withOwner]
  exact ⟨by decide, by decide⟩

/-- The sum types of a table list no name twice if those declared do not. -/
theorem distinct_declareAll {calls : List Declaration}
    (hsums : t.sums = builtin.sums ++ calls.filterMap Declaration.sum?) :
    (∀ s ∈ t.sums, s.Distinct) ↔ ∀ s, .sum s ∈ calls → s.Distinct := by
  rw [hsums, List.forall_mem_append]
  constructor
  · rintro ⟨-, hcalls⟩ s hs
    exact SumType.distinct_withOwner.mp (hcalls _ (List.mem_filterMap.mpr ⟨.sum s, hs, rfl⟩))
  · refine fun hcalls => ⟨distinct_builtin, fun r hr => ?_⟩
    obtain ⟨c, hc, hr⟩ := List.mem_filterMap.mp hr
    cases c with
    | sum s =>
      cases hr
      exact SumType.distinct_withOwner.mpr (hcalls s hc)
    | record n fs => cases hr

/-- **Names of constructors are unique, as far as declarations list them once.**  After any calls none
of which is refused, different sum types share no name, and a name stands for the constructor that its
type lists last under it.  No name is used twice exactly if no call lists one twice; and then each
constructor is found by its name. -/
theorem constructors_unique {calls : List Declaration} {t : TypeTable}
    (hall : builtin.declareAll calls = .ok t) :
    (∀ r ∈ t.sums, ∀ s ∈ t.sums, r.name ≠ s.name →
      ∀ v ∈ r.variants, ∀ w ∈ s.variants, v.name ≠ w.name) ∧
    (∀ s ∈ t.sums, ∀ v ∈ s.variants,
      t.constructor? v.name = (s.variants.filter fun w => w.name = v.name).getLast?) ∧
    ((t.variants.map Variant.name).Nodup ↔ ∀ s, .sum s ∈ calls → s.Distinct) ∧
    ((∀ s, .sum s ∈ calls → s.Distinct) →
      ∀ s ∈ t.sums, ∀ v ∈ s.variants, t.constructor? v.name = some v) := by
  obtain ⟨hlisted, hsums⟩ := listed_builtin.declareAll hall
  refine ⟨fun r hr s hs hne v hv w hw heq => ?_, fun s hs v hv => hlisted.constructor?_eq hs hv,
    hlisted.nodup_iff.trans (distinct_declareAll hsums), fun hdistinct s hs v hv => ?_⟩
  · have hsymm : Std.Symm fun r s : SumType => r.constructorNames.Disjoint s.constructorNames :=
      ⟨fun _ _ hrs => List.disjoint_comm.mp hrs⟩
    have hdisjoint : r.constructorNames.Disjoint s.constructorNames :=
      hlisted.apart.forall hr hs fun h => hne (congrArg SumType.name h)
    exact hdisjoint (List.mem_map_of_mem hv) (heq ▸ List.mem_map_of_mem hw)
  · exact hlisted.constructor?_of_distinct hs ((distinct_declareAll hsums).mpr hdistinct s hs) hv

/-! Trees whose leaves and nodes have names of their own, declared behind a record. -/

def treeType : SumType :=
  ⟨"Tree", ["T"], [variant "Leaf" [], variant "Node" [.app "Tree" [.con "T"], .con "T"]]⟩

theorem constructors_unique_tree :
    ∃ t, builtin.declareAll [.record "Point" [("x", .int)], .sum treeType] = .ok t ∧
      (t.variants.map Variant.name).Nodup ∧
      ∀ s ∈ t.sums, ∀ v ∈ s.variants, t.constructor? v.name = some v := by
  have hall : builtin.declareAll [.record "Point" [("x", .int)], .sum treeType] = .ok _ := rfl
  have hdistinct : ∀ s, .sum s ∈ [Declaration.record "Point" [("x", .int)], .sum treeType] →
      s.Distinct := by
    intro s hs
    rcases List.mem_cons.mp hs with h | h
    · cases h
    · cases List.mem_singleton.mp h
      decide
  obtain ⟨-, -, hnodup, hfound⟩ := constructors_unique hall
  exact ⟨_, hall, hnodup.mpr hdistinct, hfound hdistinct⟩

/-! The same name for a constructor without and with a field. -/

def repeatedType : SumType := ⟨"T", [], [variant "A" [], variant "A" [.int]]⟩

/-- **A declaration may list a name twice**: it is accepted, in a table as in a source file, where
nothing is reported, and the name stands for the second constructor only. -/
theorem constructors_repeated :
    (∃ t, builtin.declareAll [.sum repeatedType] = .ok t ∧
      ¬ (t.variants.map Variant.name).Nodup ∧
      ∃ s ∈ t.sums, ∃ v ∈ s.variants, t.constructor? v.name ≠ some v) ∧
    ∃ c ∈ compile? {} "repeated.mc" (Text.ofString "type T = A | A(Int)"),
      c.report = [] ∧ ¬ (c.typed.types.variants.map Variant.name).Nodup := by
  refine ⟨?_, by decide +kernel⟩
  have hall : builtin.declareAll [.sum repeatedType] = .ok _ := rfl
  refine ⟨_, hall, by decide, repeatedType.withOwner, ?_, ⟨"A", [], "T"⟩, ?_, fun heq => ?_⟩
  · exact List.mem_append_right _ List.mem_cons_self
  · exact List.mem_cons_self
  · have hfields : [Ty.int] = [] := congrArg Variant.fields (Option.some.inj heq)
    cases hfields

end TypeTable

end PatternPlan
