import PatternPlan.Lowered.Build
import PatternPlan.Lowered.Validate
import PatternPlan.Proofs.Plan.Selection
import PatternPlan.Proofs.Typed.Typing

/-!
# Lowering keeps the contract

A lowered module is refused for a pattern that misses something its form needs, for a row out of
order or with a reference that is no earlier row, and for a plan that does not fit.  None of it
happens to a module lowered from a named one.

* `Pattern.error?_ofTyped` — patterns;
* `table_flatten` — expressions: the rows from `start` on, and the number of the last;
* `Plan.errors_ofModule`, `Plan.traces_of_errors` — plans, and their traces;
* `Module.errors_ofTyped` — **whole modules**.
-/

namespace PatternPlan.Lowered

open Typed.Pattern (mem_nodesOfList mem_nodesOfFields mem_nodesOfItems self_mem_nodes)

/-! ### Patterns -/

namespace Pattern

/-- The first thing that is wrong inside a pattern. -/
def innerError? (p : Pattern) : Option PatternError :=
  match p.form with
  | .tuple => firstError? p.elements
  | .record => firstFieldError? p.fields
  | .construct => firstError? p.args
  | .binding => optionError? p.inner
  | .or => firstError? p.variants
  | .slice => (firstError? p.head).or (firstError? p.tail)
  | .active => callError? p.call
  | _ => none

theorem error?_eq_none {p : Pattern} (hown : p.ownError? = none) (hinner : p.innerError? = none) :
    p.error? = none := by
  cases p
  rw [error?.eq_def]
  dsimp only
  rw [hown]
  exact Option.map_eq_none_iff.mpr hinner

theorem firstFieldError?_ofTypedFields {fs : List (String × Typed.Pattern)}
    (h : ∀ f ∈ fs, error? (ofTyped f.2) = none) : firstFieldError? (ofTypedFields fs) = none := by
  induction fs with
  | nil => rfl
  | cons f fs ih =>
    have hfirst : error? (ofTyped f.2) = none := h f List.mem_cons_self
    rw [ofTypedFields, firstFieldError?, optionError?, hfirst,
      ih fun g hg => h g (List.mem_cons_of_mem _ hg)]
    rfl

theorem firstError?_map_some {ps : List Pattern} (h : ∀ p ∈ ps, error? p = none) :
    firstError? (ps.map some) = none := by
  induction ps with
  | nil => rfl
  | cons p ps ih =>
    rw [List.map_cons, firstError?, neededError?, h p List.mem_cons_self,
      ih fun q hq => h q (List.mem_cons_of_mem _ hq)]
    rfl

theorem ofTypedList_eq_map (ps : List Typed.Pattern) :
    ofTypedList ps = (ps.map ofTyped).map some := by
  induction ps with
  | nil => rfl
  | cons p ps ih =>
    rw [ofTypedList, ih]
    rfl

theorem firstError?_ofTypedList {ps : List Typed.Pattern}
    (h : ∀ p ∈ ps, error? (ofTyped p) = none) : firstError? (ofTypedList ps) = none := by
  rw [ofTypedList_eq_map]
  refine firstError?_map_some fun p hp => ?_
  obtain ⟨q, hq, rfl⟩ := List.mem_map.mp hp
  exact h q hq

/-! Slices: what stands before and after the rest marker are elements, and without a marker nothing
stands after it. -/

theorem mem_ofTypedFields {fs : List (String × Typed.Pattern)} {q : Pattern}
    (h : q ∈ (ofTypedFields fs).filterMap (·.2)) : ∃ f ∈ fs, q = ofTyped f.2 := by
  induction fs with
  | nil => cases h
  | cons f fs ih =>
    rcases List.mem_cons.mp h with rfl | h
    · exact ⟨f, List.mem_cons_self, rfl⟩
    · obtain ⟨g, hg, rfl⟩ := ih h
      exact ⟨g, List.mem_cons_of_mem _ hg, rfl⟩

theorem mem_ofTypedItems {items : List (SliceItem Typed.Pattern)} {p : Pattern}
    (h : .element p ∈ ofTypedItems items) : ∃ q, .element q ∈ items ∧ p = ofTyped q := by
  induction items with
  | nil => cases h
  | cons item items ih =>
    cases item with
    | element r =>
      rcases List.mem_cons.mp h with heq | h
      · exact ⟨r, List.mem_cons_self, SliceItem.element.inj heq⟩
      · obtain ⟨q, hq, rfl⟩ := ih h
        exact ⟨q, List.mem_cons_of_mem _ hq, rfl⟩
    | rest n s =>
      rcases List.mem_cons.mp h with heq | h
      · cases heq
      · obtain ⟨q, hq, rfl⟩ := ih h
        exact ⟨q, List.mem_cons_of_mem _ hq, rfl⟩

theorem element_of_mem_beforeRest {π : Type} {items : List (SliceItem π)} {p : π}
    (h : p ∈ beforeRest items) : .element p ∈ items := by
  induction items with
  | nil => cases h
  | cons item items ih =>
    cases item with
    | element q =>
      rcases List.mem_cons.mp h with rfl | h
      · exact List.mem_cons_self
      · exact List.mem_cons_of_mem _ (ih h)
    | rest n s => cases h

theorem element_of_mem_afterRest {π : Type} {items : List (SliceItem π)} {p : π}
    (h : p ∈ afterRest items) : .element p ∈ items := by
  induction items with
  | nil => cases h
  | cons item items ih =>
    cases item with
    | element q => exact List.mem_cons_of_mem _ (ih h)
    | rest n s =>
      obtain ⟨item, hitem, helement⟩ := List.mem_filterMap.mp h
      cases item with
      | element q =>
        cases helement
        exact List.mem_cons_of_mem _ hitem
      | rest m t => cases helement

theorem afterRest_eq_nil {items : List (SliceItem Pattern)} (h : lastRest? items = none) :
    afterRest items = [] := by
  rw [lastRest?, List.findSome?_eq_none_iff] at h
  induction items with
  | nil => rfl
  | cons item items ih =>
    cases item with
    | element q => exact ih fun i hi => h i (by simp_all)
    | rest n s => cases h (.rest n s) (by simp)

/-- **A lowered pattern keeps the contract.** -/
theorem error?_ofTyped {p : Typed.Pattern} (h : ∀ q ∈ p.nodes, q.NodeNamed) :
    error? (ofTyped p) = none := by
  induction p using Typed.Pattern.induction with
  | wildcard i => exact error?_eq_none rfl rfl
  | var i n =>
    have hname : isIdentifier n = true := h _ (self_mem_nodes _)
    exact error?_eq_none (if_neg (ne_empty_of_isIdentifier hname)) rfl
  | literal i l => exact error?_eq_none rfl rfl
  | tuple i ps ih =>
    refine error?_eq_none rfl (firstError?_ofTypedList fun p hp => ih p hp fun q hq => h q ?_)
    exact List.mem_cons_of_mem _ (mem_nodesOfList.mpr ⟨p, hp, hq⟩)
  | record i fs hasRest ih =>
    refine error?_eq_none rfl (firstFieldError?_ofTypedFields fun f hf => ih f hf fun q hq => ?_)
    refine h q ?_
    exact List.mem_cons_of_mem _ (mem_nodesOfFields.mpr ⟨f, hf, hq⟩)
  | construct i n ps ih =>
    have hname : isIdentifier n = true := h _ (self_mem_nodes _)
    refine error?_eq_none (if_neg (ne_empty_of_isIdentifier hname))
      (firstError?_ofTypedList fun p hp => ih p hp fun q hq => h q ?_)
    exact List.mem_cons_of_mem _ (mem_nodesOfList.mpr ⟨p, hp, hq⟩)
  | binding i n viaAt p ih =>
    have hname : isIdentifier n = true := h _ (self_mem_nodes _)
    refine error?_eq_none (if_neg ?_) (ih fun q hq => h q (List.mem_cons_of_mem _ hq))
    show ¬(decide (n = "") || false) = true
    simpa using ne_empty_of_isIdentifier hname
  | or i ps ih =>
    have hps : ps ≠ [] := h _ (self_mem_nodes _)
    refine error?_eq_none ?_ (firstError?_ofTypedList fun p hp => ih p hp fun q hq => h q ?_)
    · cases ps with
      | nil => exact absurd rfl hps
      | cons p ps => rfl
    · exact List.mem_cons_of_mem _ (mem_nodesOfList.mpr ⟨p, hp, hq⟩)
  | slice i items ih =>
    have helement : ∀ p, .element p ∈ ofTypedItems items → error? p = none := by
      intro p hp
      obtain ⟨r, hr, rfl⟩ := mem_ofTypedItems hp
      refine ih r hr fun q hq => h q ?_
      exact List.mem_cons_of_mem _ (mem_nodesOfItems.mpr ⟨r, hr, hq⟩)
    refine error?_eq_none (if_neg ?_) ?_
    · show ¬((lastRest? (ofTypedItems items)).isNone
        && !((afterRest (ofTypedItems items)).map some).isEmpty) = true
      cases hrest : lastRest? (ofTypedItems items) with
      | none => simp [afterRest_eq_nil hrest]
      | some n => simp
    · have hhead := firstError?_map_some fun p hp => helement p (element_of_mem_beforeRest hp)
      have htail := firstError?_map_some fun p hp => helement p (element_of_mem_afterRest hp)
      exact Option.or_eq_none_iff.mpr ⟨hhead, htail⟩
  | range i start stop inclusive =>
    have hbounds : (start.isNone && stop.isNone) = false := h _ (self_mem_nodes _)
    refine error?_eq_none ?_ rfl
    cases start <;> cases stop
    · cases hbounds
    · rfl
    · rfl
    · rfl
  | regex i s => exact error?_eq_none rfl rfl
  | call i n kind u =>
    have hname : isIdentifier n = true := h _ (self_mem_nodes _)
    refine error?_eq_none ((if_neg (ne_empty_of_isIdentifier hname)).trans ?_) rfl
    cases kind <;> rfl
  | callWith i n kind u p ih =>
    have hname : isIdentifier n = true := h _ (self_mem_nodes _)
    refine error?_eq_none ((if_neg (ne_empty_of_isIdentifier hname)).trans ?_)
      (ih fun q hq => h q (List.mem_cons_of_mem _ hq))
    cases kind <;> rfl

end Pattern

/-! ### Tables -/

theorem rowsError?_append (start : Nat) (xs ys : List Expr) :
    rowsError? start (xs ++ ys)
      = (rowsError? start xs).or (rowsError? (start + xs.length) ys) := by
  induction xs generalizing start with
  | nil => rfl
  | cons x xs ih =>
    have hnext : start + 1 + xs.length = start + (x :: xs).length := by
      rw [List.length_cons]
      omega
    rw [List.cons_append, rowsError?, rowsError?, ih, hnext, Option.or_assoc]

/-- What a row needs besides its number: references to rows below `bound`, patterns that keep the
contract, and a plan that fits. -/
structure Expr.Fits (bound : Nat) (e : Expr) : Prop where
  references : ∀ r ∈ e.references, r < bound
  patterns : ∀ a ∈ e.arms, Pattern.neededError? a.pattern = none
  plan : e.form = .select → ∃ p, e.plan = some p ∧ p.armCount = e.arms.length

theorem rowError?_of_fits {n : Nat} {e : Expr} (h : e.Fits n) :
    rowError? n { e with id := n } = none := by
  have hrefs : e.references.find? (fun r => n ≤ r) = none := by
    refine List.find?_eq_none.mpr fun r hr => ?_
    have hlt : r < n := h.references r hr
    simpa using hlt
  have harms : e.arms.findSome? (fun a => Pattern.neededError? a.pattern) = none :=
    List.findSome?_eq_none_iff.mpr h.patterns
  have hplan : planError? { e with id := n } = none := by
    rw [planError?]
    split
    · rename_i hform
      obtain ⟨p, hp, hcount⟩ := h.plan hform
      dsimp only
      rw [hp]
      exact if_pos hcount
    · rfl
  rw [rowError?, if_neg (not_not_intro rfl), hplan]
  show ((e.references.find? fun r => n ≤ r).map (TableError.reference n)).or
    (((e.arms.findSome? fun a => Pattern.neededError? a.pattern).map (TableError.pattern n)).or
      none) = none
  rw [hrefs, harms]
  rfl

/-- Rows from number `start` on that keep the contract, and numbers of some rows up to them. -/
structure Table (start : Nat) (rows : List Expr) (refs : List Nat) : Prop where
  sound : rowsError? start rows = none
  below : ∀ r ∈ refs, r < start + rows.length

namespace Table

variable {start : Nat} {xs ys : List Expr} {rs ss : List Nat}

theorem nil : Table start [] [] := ⟨rfl, List.forall_mem_nil _⟩

theorem append {next : Nat} (hx : Table start xs rs) (hnext : next = start + xs.length)
    (hy : Table next ys ss) : Table start (xs ++ ys) (rs ++ ss) := by
  subst hnext
  refine ⟨?_, List.forall_mem_append.mpr ⟨fun r hr => ?_, fun r hr => ?_⟩⟩
  · rw [rowsError?_append, hx.sound, hy.sound]
    rfl
  · have hlt := hx.below r hr
    rw [List.length_append]
    omega
  · have hlt := hy.below r hr
    rw [List.length_append]
    omega

theorem mono (h : Table start xs rs) (hsub : ss ⊆ rs) : Table start xs ss :=
  ⟨h.sound, fun r hr => h.below r (hsub hr)⟩

/-- The row that closes a table refers to rows of the table. -/
theorem close {row : Expr} (h : Table start xs rs) (hrefs : row.references ⊆ rs)
    (hpatterns : ∀ a ∈ row.arms, Pattern.neededError? a.pattern = none)
    (hplan : row.form = .select → ∃ p, row.plan = some p ∧ p.armCount = row.arms.length) :
    Table start (close start xs row).1 [(close start xs row).2] := by
  have hfits : row.Fits (start + xs.length) :=
    ⟨fun r hr => h.below r (hrefs hr), hpatterns, hplan⟩
  refine ⟨?_, List.forall_mem_singleton.mpr ?_⟩
  · rw [Lowered.close, rowsError?_append, h.sound, rowsError?, rowError?_of_fits hfits]
    rfl
  · rw [Lowered.close, List.length_append]
    exact Nat.lt_succ_self _

/-- A row that is no match. -/
theorem plain {row : Expr} (h : Table start xs rs) (hrefs : row.references ⊆ rs)
    (harms : row.arms = []) (hform : row.form ≠ .select) :
    Table start (Lowered.close start xs row).1 [(Lowered.close start xs row).2] := by
  refine h.close hrefs ?_ fun h => absurd h hform
  rw [harms]
  exact List.forall_mem_nil _

end Table

/-- The table of the arms of a match, with as many arms as the match has. -/
structure ArmTable (start : Nat) (rows : List Expr) (arms : List MatchArm) (count : Nat) :
    Prop where
  table : Table start rows (arms.flatMap fun a => a.body :: a.guard.toList)
  patterns : ∀ a ∈ arms, Pattern.neededError? a.pattern = none
  length : arms.length = count

section Flatten

variable (s : Setting)

mutual

/-- **The rows of an expression keep the contract**, if its matches are named. -/
theorem table_flatten (start : Nat) (e : Typed.Expr) (h : ∀ m ∈ e.allMatches, m.Named) :
    Table start (flatten s start e).1 [(flatten s start e).2] := by
  cases e with
  | ident i n => exact Table.nil.plain (by simp [Expr.references, Setting.row]) rfl nofun
  | literal i v => exact Table.nil.plain (by simp [Expr.references, Setting.row]) rfl nofun
  | construct i n es =>
    have hes := table_flattenList start es h
    exact hes.plain (by simp [Expr.references, Setting.row]) rfl nofun
  | call i f es =>
    have hf := table_flatten start f fun m hm => h m (List.mem_append_left _ hm)
    have hes := hf.append rfl
      (table_flattenList _ es fun m hm => h m (List.mem_append_right _ hm))
    exact hes.plain (by simp [Expr.references, Setting.row]) rfl nofun
  | unary i op e =>
    have he := table_flatten start e h
    exact he.plain (by simp [Expr.references, Setting.row]) rfl nofun
  | binary i op l r =>
    have hl := table_flatten start l fun m hm => h m (List.mem_append_left _ hm)
    have hr := hl.append rfl
      (table_flatten _ r fun m hm => h m (List.mem_append_right _ hm))
    exact hr.plain (by simp [Expr.references, Setting.row]) rfl nofun
  | cond i c y n =>
    have hc := table_flatten start c
      fun m hm => h m (List.mem_append_left _ (List.mem_append_left _ hm))
    have hy := hc.append rfl (table_flatten _ y
      fun m hm => h m (List.mem_append_left _ (List.mem_append_right _ hm)))
    have hn := hy.append (by rw [List.length_append, Nat.add_assoc])
      (table_flattenOption (start + _ + _) n fun m hm => h m (List.mem_append_right _ hm))
    exact hn.plain (by simp [Expr.references, Setting.row]) rfl nofun
  | select i t arms =>
    have hself : Typed.Match.Named ⟨i.span, t, arms⟩ := h _ List.mem_cons_self
    have ht := table_flatten start t
      fun m hm => h m (List.mem_cons_of_mem _ (List.mem_append_left _ hm))
    have harms := table_flattenArms (start + (flatten s start t).1.length) arms hself.patterns
      fun m hm => h m (List.mem_cons_of_mem _ (List.mem_append_right _ hm))
    refine (ht.append rfl harms.table).close (by simp [Expr.references, Setting.row])
      harms.patterns fun _ => ⟨_, rfl, ?_⟩
    exact congrArg Int.ofNat harms.length.symm
  | block i lets r =>
    have hlets := table_flattenFields start lets fun m hm => h m (List.mem_append_left _ hm)
    have hr := hlets.append rfl
      (table_flattenOption _ r fun m hm => h m (List.mem_append_right _ hm))
    exact hr.plain (by simp [Expr.references, Setting.row]) rfl nofun
  | perform i n es =>
    have hes := table_flattenList start es h
    exact hes.plain (by simp [Expr.references, Setting.row]) rfl nofun
  | tuple i es =>
    have hes := table_flattenList start es h
    exact hes.plain (by simp [Expr.references, Setting.row]) rfl nofun
  | array i es =>
    have hes := table_flattenList start es h
    exact hes.plain (by simp [Expr.references, Setting.row]) rfl nofun
  | record i fs =>
    have hfs := table_flattenFields start fs h
    exact hfs.plain (by simp [Expr.references, Setting.row]) rfl nofun
  | field i e n =>
    have he := table_flatten start e h
    exact he.plain (by simp [Expr.references, Setting.row]) rfl nofun

theorem table_flattenList (start : Nat) (es : List Typed.Expr)
    (h : ∀ m ∈ Typed.Expr.allMatchesOfList es, m.Named) :
    Table start (flattenList s start es).1 (flattenList s start es).2 := by
  cases es with
  | nil => exact Table.nil
  | cons e es =>
    have he := table_flatten start e fun m hm => h m (List.mem_append_left _ hm)
    exact he.append rfl
      (table_flattenList _ es fun m hm => h m (List.mem_append_right _ hm))

theorem table_flattenOption (start : Nat) (o : Option Typed.Expr)
    (h : ∀ m ∈ Typed.Expr.allMatchesOfOption o, m.Named) :
    Table start (flattenOption s start o).1 (flattenOption s start o).2.toList := by
  cases o with
  | none => exact Table.nil
  | some e => exact table_flatten start e h

theorem table_flattenFields (start : Nat) (fs : List (String × Typed.Expr))
    (h : ∀ m ∈ Typed.Expr.allMatchesOfFields fs, m.Named) :
    Table start (flattenFields s start fs).1 ((flattenFields s start fs).2.map (·.2)) := by
  cases fs with
  | nil => exact Table.nil
  | cons f fs =>
    obtain ⟨n, e⟩ := f
    have he := table_flatten start e fun m hm => h m (List.mem_append_left _ hm)
    exact he.append rfl
      (table_flattenFields _ fs fun m hm => h m (List.mem_append_right _ hm))

theorem table_flattenArms (start : Nat) (arms : List (Arm Typed.Pattern Typed.Expr))
    (hp : ∀ a ∈ arms, ∀ q ∈ a.pattern.nodes, q.NodeNamed)
    (h : ∀ m ∈ Typed.Expr.allMatchesOfArms arms, m.Named) :
    ArmTable start (flattenArms s start arms).1 (flattenArms s start arms).2 arms.length := by
  cases arms with
  | nil => exact ⟨Table.nil, List.forall_mem_nil _, rfl⟩
  | cons a arms =>
    obtain ⟨span, p, guard, usedIf, asName, body⟩ := a
    have hguard := table_flattenOption start guard
      fun m hm => h m (List.mem_append_left _ (List.mem_append_left _ hm))
    have hbody := hguard.append rfl (table_flatten _ body
      fun m hm => h m (List.mem_append_left _ (List.mem_append_right _ hm)))
    have hrest := table_flattenArms
      (start + (flattenOption s start guard).1.length
        + (flatten s (start + (flattenOption s start guard).1.length) body).1.length)
      arms (fun a ha => hp a (List.mem_cons_of_mem _ ha))
      fun m hm => h m (List.mem_append_right _ hm)
    have hall := hbody.append (by rw [List.length_append, Nat.add_assoc]) hrest.table
    refine ⟨hall.mono ?_, ?_, ?_⟩
    · -- the body of an arm is listed before its guard, which is lowered first
      rw [flattenArms, List.flatMap_cons]
      refine List.append_subset.mpr ⟨?_, List.subset_append_right _ _⟩
      simp
    · exact List.forall_mem_cons.mpr
        ⟨Pattern.error?_ofTyped (hp _ List.mem_cons_self), hrest.patterns⟩
    · exact congrArg Nat.succ hrest.length

end

end Flatten

theorem tableError?_flatten (s : Setting) {e : Typed.Expr} (h : e.Named) :
    tableError? (flatten s 0 e).1 (flatten s 0 e).2 = none := by
  have htable := table_flatten s 0 e h.inside
  have hbody : (flatten s 0 e).2 < (flatten s 0 e).1.length := by
    have hlt := htable.below _ List.mem_cons_self
    rwa [Nat.zero_add] at hlt
  rw [tableError?, if_neg (Nat.not_le.mpr hbody)]
  exact htable.sound

/-! ### Declarations and plans -/

variable {o : Placeholders}

theorem Function.errors_ofTyped {f : Typed.Function} (h : f.body.Named) :
    (Function.ofTyped o f).errors = [] := by
  show (Option.map _ (tableError? (flatten ⟨o, Plan.functionOwner f.name⟩ 0 f.body).1
    (flatten ⟨o, Plan.functionOwner f.name⟩ 0 f.body).2)).toList = []
  rw [tableError?_flatten _ h]
  rfl

theorem Recognizer.errors_ofTyped {r : Typed.Recognizer} (h : r.body.Named) :
    (Recognizer.ofTyped o r).errors = [] := by
  show (if r.kind.mayMiss = r.kind.mayMiss then _ else _)
    ++ (if r.kind.carrier = r.kind.carrier then _ else _)
    ++ (Option.map _ (tableError? (flatten ⟨o, Plan.recognizerOwner r.name⟩ 0 r.body).1
      (flatten ⟨o, Plan.recognizerOwner r.name⟩ 0 r.body).2)).toList = []
  rw [if_pos rfl, if_pos rfl, tableError?_flatten _ h]
  rfl

theorem planErrors_eq_nil {ps : List Plan} (h : ∀ p ∈ ps, p.errors = []) (n : Nat) :
    planErrors n ps = [] := by
  induction ps generalizing n with
  | nil => rfl
  | cons p ps ih =>
    rw [planErrors, h p List.mem_cons_self, ih fun q hq => h q (List.mem_cons_of_mem _ hq)]
    rfl

end PatternPlan.Lowered

namespace PatternPlan

/-- Placeholders that say something. -/
structure Placeholders.Present (o : Placeholders) : Prop where
  inlineOwner : o.inlineOwner ≠ ""
  unknownType : o.unknownType ≠ ""

theorem Placeholders.Present.typeLabel_ne_empty {o : Placeholders} (h : o.Present) {t : Ty}
    (ht : t.isNamed = true) : o.typeLabel t ≠ "" := by
  rw [typeLabel]
  split
  · exact h.unknownType
  · exact Ty.text_ne_empty ht

theorem Typed.Pattern.NodeNamed.callsByName {p : Typed.Pattern} (h : p.NodeNamed) :
    p.CallsByName := by
  cases p with
  | active i n k u arg => exact h
  | _ => trivial

namespace Plan

variable {o : Placeholders}

theorem errors_of_named (ho : o.Present) {owner : String} (howner : owner ≠ "")
    {e : Typed.Expr} (he : e.Named) : ∀ p ∈ e.allMatches.map (ofMatch o owner), p.errors = [] := by
  intro p hp
  obtain ⟨m, hm, rfl⟩ := List.mem_map.mp hp
  have hnamed := he.inside m hm
  exact errors_ofMatch howner (ho.typeLabel_ne_empty hnamed.target)
    fun a ha q hq => (hnamed.patterns a ha q hq).callsByName

/-- The plans of a named module keep the contract of plans. -/
theorem errors_ofModule (ho : o.Present) {m : Typed.Module} (h : m.Named) :
    ∀ p ∈ ofModule o m, p.errors = [] := by
  refine List.forall_mem_append.mpr ⟨List.forall_mem_append.mpr ⟨?_, ?_⟩, ?_⟩
  · intro p hp
    obtain ⟨f, hf, hp⟩ := List.mem_flatMap.mp hp
    exact errors_of_named ho (append_ne_empty_left (by decide)) (h.functions f hf) p hp
  · intro p hp
    obtain ⟨r, hr, hp⟩ := List.mem_flatMap.mp hp
    exact errors_of_named ho (append_ne_empty_left (by decide)) (h.recognizers r hr) p hp
  · intro p hp
    obtain ⟨e, he, hp⟩ := List.mem_flatMap.mp hp
    exact errors_of_named ho ho.inlineOwner (h.inline e he) p hp

/-- Plans that keep the contract are all traced, one after the other. -/
theorem traces_of_errors {ps : List Plan} (h : ∀ p ∈ ps, p.errors = []) {σ : Type} (o : Oracle σ)
    (n : Nat) (s : σ) : ∃ ts s', traces o n ps s = ((ts, none), s') ∧
      List.Forall₂ (fun p t => ∃ s₁ s₂, trace o p s₁ = (.ok t, s₂)) ps ts := by
  induction ps generalizing n s with
  | nil => exact ⟨[], s, rfl, .nil⟩
  | cons p ps ih =>
    obtain ⟨t, s₁, ht⟩ : ∃ t s₁, p.trace o s = (.ok t, s₁) := by
      rw [trace, h p List.mem_cons_self]
      exact ⟨_, _, rfl⟩
    obtain ⟨ts, s', htraces, hall⟩ := ih (fun q hq => h q (List.mem_cons_of_mem _ hq)) (n + 1) s₁
    refine ⟨t :: ts, s', ?_, .cons ⟨s, s₁, ht⟩ hall⟩
    rw [traces, ht]
    dsimp only
    rw [htraces]

end Plan

namespace Lowered

/-- **A module lowered from a named one keeps the contract.** -/
theorem Module.errors_ofTyped {o : Placeholders} (ho : o.Present) {m : Typed.Module}
    (h : m.Named) : (Module.ofTyped o m).errors = [] := by
  have hfunctions : (m.functions.map (Function.ofTyped o)).flatMap Function.errors = [] := by
    refine List.flatMap_eq_nil_iff.mpr fun f hf => ?_
    obtain ⟨g, hg, rfl⟩ := List.mem_map.mp hf
    exact Function.errors_ofTyped (h.functions g hg)
  have hrecognizers :
      (m.recognizers.map (Recognizer.ofTyped o)).flatMap Recognizer.errors = [] := by
    refine List.flatMap_eq_nil_iff.mpr fun r hr => ?_
    obtain ⟨q, hq, rfl⟩ := List.mem_map.mp hr
    exact Recognizer.errors_ofTyped (h.recognizers q hq)
  have hplans : planErrors 0 (Plan.ofModule o m) = [] :=
    planErrors_eq_nil (Plan.errors_ofModule ho h) 0
  show (if schemaVersion = schemaVersion then [] else _)
    ++ (m.functions.map (Function.ofTyped o)).flatMap Function.errors
    ++ (m.recognizers.map (Recognizer.ofTyped o)).flatMap Recognizer.errors
    ++ planErrors 0 (Plan.ofModule o m) = []
  rw [if_pos rfl, hfunctions, hrecognizers, hplans]
  rfl

end Lowered

end PatternPlan
