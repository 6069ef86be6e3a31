import PatternPlan.Check.Effects
import PatternPlan.Proofs.Document.Modules
import PatternPlan.Proofs.Lowered.Contract
import PatternPlan.Proofs.Lowered.Table
import PatternPlan.Proofs.Typed.Limits

/-!
# The numbers of a lowered module

Lowering uses each form for what it is for, and numbers rows from 0 on, so that what it gives can be
written and read back as long as the numbers of the rows fit their words.

* `Pattern.regular_ofTyped` — a storable pattern is lowered to a regular one;
* `plain_rowOf`, `plain_flatten` — the row of an expression, and all rows of its table;
* `Module.storable_ofTyped` — **the lowered module of a storable one is storable**, if no body has
  more expressions than there are numbers for its rows.
-/

namespace PatternPlan.Lowered

open Typed.Pattern (mem_nodesOfList mem_nodesOfFields mem_nodesOfItems self_mem_nodes)
open Typed.Expr (childInduction children)

/-! ### Patterns -/

namespace Pattern

/-- Nothing is asked of the constant of a node that has none. -/
theorem no_value {holds : Literal → Prop} {value : Option Literal} (h : value = none) :
    ∀ v, value = some v → holds v := by
  intro v hv
  rw [h] at hv
  cases hv

theorem regular_ofBound {b : Typed.Bound} (h : b.Meets .word) : (ofBound b).Regular := by
  refine .mk ⟨rfl, fun _ => rfl, fun _ => rfl, h.span, ?_⟩ (by simp [parts, ofBound])
  intro v hv
  cases hv
  exact h.value

theorem filterMap_some (ps : List Pattern) : (ps.map some).filterMap id = ps := by
  induction ps with
  | nil => rfl
  | cons p ps ih =>
    show p :: (ps.map some).filterMap id = p :: ps
    rw [ih]

theorem regular_ofTypedList {ps : List Typed.Pattern}
    (h : ∀ q ∈ Typed.Pattern.nodesOfList ps, q.NodeMeets .word)
    (ih : ∀ p ∈ ps, p.Meets .word → (ofTyped p).Regular) :
    ∀ q ∈ (ofTypedList ps).filterMap id, q.Regular := by
  intro q hq
  rw [ofTypedList_eq_map, filterMap_some] at hq
  obtain ⟨p, hp, rfl⟩ := List.mem_map.mp hq
  exact ih p hp fun r hr => h r (mem_nodesOfList.mpr ⟨p, hp, hr⟩)

/-- **A storable pattern is lowered to a regular one.** -/
theorem regular_ofTyped {p : Typed.Pattern} (h : p.Meets .word) : (ofTyped p).Regular := by
  induction p using Typed.Pattern.induction with
  | wildcard i => exact .mk ⟨rfl, fun _ => rfl, fun _ => rfl, h.own.span, no_value rfl⟩ (List.forall_mem_nil _)
  | var i n => exact .mk ⟨rfl, fun _ => rfl, fun _ => rfl, h.own.span, no_value rfl⟩ (List.forall_mem_nil _)
  | literal i v =>
    refine .mk ⟨rfl, fun _ => rfl, fun _ => rfl, h.own.span, ?_⟩ (List.forall_mem_nil _)
    intro w hw
    cases hw
    exact (h.own.bounds ⟨i.span, v⟩ (List.mem_singleton_self _)).value
  | tuple i ps ih =>
    have hps := regular_ofTypedList (fun q hq => h q (List.mem_cons_of_mem _ hq)) ih
    refine .mk ⟨rfl, fun _ => rfl, fun _ => rfl, h.own.span, no_value rfl⟩ fun q hq => hps q ?_
    simpa [parts, ofTyped, placed] using hq
  | record i fs hasRest ih =>
    refine .mk ⟨rfl, fun _ => rfl, fun _ => rfl, h.own.span, no_value rfl⟩ fun q hq => ?_
    have hmem : q ∈ (ofTypedFields fs).filterMap (·.2) := by
      simpa [parts, ofTyped, placed] using hq
    obtain ⟨f, hf, rfl⟩ := mem_ofTypedFields hmem
    refine ih f hf fun r hr => h r ?_
    exact List.mem_cons_of_mem _ (mem_nodesOfFields.mpr ⟨f, hf, hr⟩)
  | construct i n ps ih =>
    have hps := regular_ofTypedList (fun q hq => h q (List.mem_cons_of_mem _ hq)) ih
    refine .mk ⟨rfl, fun _ => rfl, fun _ => rfl, h.own.span, no_value rfl⟩ fun q hq => hps q ?_
    simpa [parts, ofTyped, placed] using hq
  | binding i n viaAt p ih =>
    refine .mk ⟨rfl, fun hform => absurd rfl hform, fun _ => rfl, h.own.span, no_value rfl⟩ fun q hq => ?_
    obtain rfl : q = ofTyped p := by simpa [parts, ofTyped, placed] using hq
    exact ih fun r hr => h r (List.mem_cons_of_mem _ hr)
  | or i ps ih =>
    have hps := regular_ofTypedList (fun q hq => h q (List.mem_cons_of_mem _ hq)) ih
    refine .mk ⟨rfl, fun _ => rfl, fun _ => rfl, h.own.span, no_value rfl⟩ fun q hq => hps q ?_
    simpa [parts, ofTyped, placed] using hq
  | slice i items ih =>
    refine .mk ⟨rfl, fun _ => rfl, fun _ => rfl, h.own.span, no_value rfl⟩ fun q hq => ?_
    have hends : q ∈ beforeRest (ofTypedItems items) ∨ q ∈ afterRest (ofTypedItems items) := by
      simpa [parts, ofTyped, placed, filterMap_some] using hq
    have hmem : .element q ∈ ofTypedItems items := by
      rcases hends with hbefore | hafter
      · exact element_of_mem_beforeRest hbefore
      · exact element_of_mem_afterRest hafter
    obtain ⟨p, hp, rfl⟩ := mem_ofTypedItems hmem
    refine ih p hp fun r hr => h r ?_
    exact List.mem_cons_of_mem _ (mem_nodesOfItems.mpr ⟨p, hp, hr⟩)
  | range i start stop inclusive =>
    refine .mk ⟨rfl, fun _ => rfl, fun _ => rfl, h.own.span, no_value rfl⟩ fun q hq => ?_
    have hmem : q ∈ (start.toList ++ stop.toList).map ofBound := by
      rw [List.map_append, ← Option.toList_map, ← Option.toList_map]
      simpa [parts, ofTyped, placed] using hq
    obtain ⟨b, hb, rfl⟩ := List.mem_map.mp hmem
    exact regular_ofBound (h.own.bounds b hb)
  | regex i s =>
    exact .mk ⟨rfl, fun _ => rfl, fun hform => absurd rfl hform, h.own.span, no_value rfl⟩ (List.forall_mem_nil _)
  | call i n kind u => exact .mk ⟨rfl, fun _ => rfl, fun _ => rfl, h.own.span, no_value rfl⟩ (List.forall_mem_nil _)
  | callWith i n kind u p ih =>
    refine .mk ⟨rfl, fun _ => rfl, fun _ => rfl, h.own.span, no_value rfl⟩ fun q hq => ?_
    obtain rfl : q = ofTyped p := by simpa [parts, ofTyped, placed] using hq
    exact ih fun r hr => h r (List.mem_cons_of_mem _ hr)

end Pattern

/-! ### Rows -/

theorem Plan.storable_ofMatch (o : Placeholders) (owner : String) {m : Typed.Match}
    (h : m.Meets .word) : (Plan.ofMatch o owner m).Storable := by
  have hcount : m.arms.length ≤ 2 ^ 60 := h.count
  exact ⟨h.span, fitsInt64_ofNat (by omega)⟩

/-- The plans of a module within limits are the plans of matches within them. -/
theorem Plan.match_of_mem_ofModule {L : Limits} {o : Placeholders} {m : Typed.Module}
    (h : m.Meets L) {p : Plan} (hp : p ∈ Plan.ofModule o m) :
    ∃ owner t, Typed.Match.Meets L t ∧ p = Plan.ofMatch o owner t := by
  rcases List.mem_append.mp hp with hp | hp
  · rcases List.mem_append.mp hp with hp | hp
    · obtain ⟨f, hf, hp⟩ := List.mem_flatMap.mp hp
      obtain ⟨t, ht, rfl⟩ := List.mem_map.mp hp
      exact ⟨_, t, (h.functions f hf).2.allMatches t ht, rfl⟩
    · obtain ⟨r, hr, hp⟩ := List.mem_flatMap.mp hp
      obtain ⟨t, ht, rfl⟩ := List.mem_map.mp hp
      exact ⟨_, t, (h.recognizers r hr).2.allMatches t ht, rfl⟩
  · obtain ⟨e, he, hp⟩ := List.mem_flatMap.mp hp
    obtain ⟨t, ht, rfl⟩ := List.mem_map.mp hp
    exact ⟨_, t, (h.inline e he).allMatches t ht, rfl⟩

theorem Plan.storable_ofModule (o : Placeholders) {m : Typed.Module} (h : m.Meets .word) :
    ∀ p ∈ Plan.ofModule o m, p.Storable := by
  intro p hp
  obtain ⟨owner, t, ht, rfl⟩ := match_of_mem_ofModule h hp
  exact storable_ofMatch o owner ht

/-- The arms of a plan are no more than the limits allow. -/
theorem Plan.armCount_ofModule {L : Limits} {o : Placeholders} {m : Typed.Module} (h : m.Meets L)
    {p : Plan} (hp : p ∈ Plan.ofModule o m) : ∃ n : Nat, p.armCount = n ∧ n ≤ L.count := by
  obtain ⟨owner, t, ht, rfl⟩ := match_of_mem_ofModule h hp
  exact ⟨t.arms.length, rfl, ht.count⟩

theorem pattern_armRows {arms : List (Arm Typed.Pattern Typed.Expr)} {refs : List Nat}
    {a : MatchArm} (ha : a ∈ armRows arms refs) : ∃ b ∈ arms, a.pattern = some (.ofTyped b.pattern) := by
  fun_induction armRows arms refs with
  | case1 span p g usedIf asName body arms guard bodyRef refs ih =>
    rcases List.mem_cons.mp ha with rfl | ha
    · exact ⟨_, List.mem_cons_self, rfl⟩
    · obtain ⟨b, hb, hpattern⟩ := ih ha
      exact ⟨b, List.mem_cons_of_mem _ hb, hpattern⟩
  | case2 span p usedIf asName body arms bodyRef refs ih =>
    rcases List.mem_cons.mp ha with rfl | ha
    · exact ⟨_, List.mem_cons_self, rfl⟩
    · obtain ⟨b, hb, hpattern⟩ := ih ha
      exact ⟨b, List.mem_cons_of_mem _ hb, hpattern⟩
  | case3 => cases ha

/-- A row that is neither a constant nor a match. -/
theorem Expr.Plain.node {e : Expr} (span : e.span.Storable) (form : ExprForm.ofName e.form.name = e.form)
    (hliteral : e.literal = none) (harms : e.arms = []) (hplan : e.plan = none) : e.Plain :=
  ⟨span, form, by simp [hliteral], by simp [harms], by simp [hplan]⟩

/-- The row of a storable expression can be read back, its numbers aside. -/
theorem plain_rowOf (s : Setting) {e : Typed.Expr} (h : e.Meets .word) (refs : List Nat) :
    (rowOf s e refs).Plain := by
  cases h with
  | mk span constant ownMatch _ =>
    cases e with
    | literal i v => exact ⟨span, rfl, constant, nofun, nofun⟩
    | select i t arms =>
      have hmatch : Typed.Match.Meets .word ⟨i.span, t, arms⟩ :=
        ownMatch _ (List.mem_singleton_self _)
      refine ⟨span, rfl, nofun, ?_, ?_⟩
      · intro a ha p hp
        obtain ⟨b, hb, hpattern⟩ := pattern_armRows ha
        cases hpattern.symm.trans hp
        exact Pattern.regular_ofTyped (hmatch.arms b hb).pattern
      · intro p hp
        cases hp
        exact Plan.storable_ofMatch _ _ hmatch
    | _ => exact .node span rfl rfl rfl rfl

theorem plain_flattenList (s : Setting) {es : List Typed.Expr}
    (h : ∀ e ∈ es, ∀ start, ∀ row ∈ (flatten s start e).1, row.Plain) (start : Nat) :
    ∀ row ∈ (flattenList s start es).1, row.Plain := by
  induction es generalizing start with
  | nil => exact List.forall_mem_nil _
  | cons e es ih =>
    rw [flattenList_cons]
    refine List.forall_mem_append.mpr ⟨h e List.mem_cons_self start, ?_⟩
    exact ih (fun c hc => h c (List.mem_cons_of_mem _ hc)) _

/-- All rows of a storable expression can be read back, their numbers aside. -/
theorem plain_flatten (s : Setting) {e : Typed.Expr} (h : e.Meets .word) (start : Nat) :
    ∀ row ∈ (flatten s start e).1, row.Plain := by
  induction h generalizing start with
  | @mk e span constant ownMatch children ih =>
    have hrow := plain_rowOf s (.mk span constant ownMatch children)
      (flattenList s start e.children).2
    rw [flatten_eq]
    refine List.forall_mem_append.mpr ⟨plain_flattenList s ih start, ?_⟩
    exact List.forall_mem_singleton.mpr ⟨hrow.span, hrow.form, hrow.literal, hrow.patterns, hrow.plan⟩

/-- **The table of a storable expression is storable**, if its rows have numbers. -/
theorem storable_flatten (s : Setting) {e : Typed.Expr} (h : e.Meets .word) (hsize : e.size ≤ 2 ^ 32) :
    (flatten s 0 e).2 < 2 ^ 32 ∧ ∀ row ∈ (flatten s 0 e).1, row.Storable := by
  have hnumbered := numbered_flatten s e 0
  have hrows := rows_flatten s e 0
  have hid : ∀ row ∈ (flatten s 0 e).1, row.id < 2 ^ 32 := by
    intro row hrow
    have hmem : row.id ∈ List.range' 0 (flatten s 0 e).1.length :=
      hnumbered.ids ▸ List.mem_map_of_mem hrow
    have hlt := (List.mem_range'_1.mp hmem).2
    omega
  refine ⟨?_, fun row hrow => ?_⟩
  · have hpos := Typed.Expr.size_eq e
    rw [root_flatten]
    omega
  · refine { plain_flatten s h 0 row hrow with id := hid row hrow, references := ?_ }
    intro r hr
    exact Nat.lt_trans (hnumbered.backwards row hrow r hr) (hid row hrow)

/-! ### Modules -/

/-- **The lowered module of a storable one is storable**, if no body has more expressions than there
are numbers for its rows. -/
theorem Module.storable_ofTyped (o : Placeholders) {m : Typed.Module} (h : m.Meets .word)
    (hrows : ∀ b ∈ m.bodies, b.2.size ≤ 2 ^ 32) : (Module.ofTyped o m).Storable := by
  constructor
  · intro fs hfs f hf
    cases hfs
    obtain ⟨g, hg, rfl⟩ := List.mem_map.mp hf
    have hbody : (.function g.name, g.body) ∈ m.bodies :=
      List.mem_append_left _ (List.mem_map.mpr ⟨g, hg, rfl⟩)
    obtain ⟨hroot, htable⟩ := storable_flatten ⟨o, Plan.functionOwner g.name⟩
      (h.functions g hg).2 (hrows _ hbody)
    refine ⟨(h.functions g hg).1, hroot, fun es hes => ?_⟩
    cases hes
    exact htable
  · intro rs hrs r hr
    cases hrs
    obtain ⟨g, hg, rfl⟩ := List.mem_map.mp hr
    have hbody : (.recognizer g.name, g.body) ∈ m.bodies :=
      List.mem_append_right _ (List.mem_map.mpr ⟨g, hg, rfl⟩)
    obtain ⟨hroot, htable⟩ := storable_flatten ⟨o, Plan.recognizerOwner g.name⟩
      (h.recognizers g hg).2 (hrows _ hbody)
    refine ⟨(h.recognizers g hg).1, hroot, fun es hes => ?_⟩
    cases hes
    exact htable
  · intro ps hps p hp
    cases hps
    exact Plan.storable_ofModule o h p hp

end PatternPlan.Lowered
