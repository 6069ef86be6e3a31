import PatternPlan.Proofs.Surface.Limits
import PatternPlan.Proofs.Typed.Expr
import PatternPlan.Proofs.Typed.Pattern
import PatternPlan.Typed.Typing

/-!
# The numbers of a typed tree

Typing moves no place and changes no constant, and so what is within limits before is so afterwards.

* `Pattern.Meets`, `Match.Meets`, `Expr.Meets`, `Module.Meets` — typed trees within limits;
* `meets_typePattern`, `meets_typeExpr` — patterns and expressions stay within them;
* `meets_typeProgram` — **a file whose tree is within limits is typed to a module within them**, and
  so are the places where it clashes with itself.
-/

namespace PatternPlan

variable {L : Limits}

namespace Typed

/-! ### Typed trees within limits -/

/-- A bound within the limits. -/
structure Bound.Meets (L : Limits) (b : Bound) : Prop where
  span : L.place b.span
  value : b.value.Storable

namespace Pattern

/-- The constants of a pattern itself. -/
def bounds : Pattern → List Bound
  | literal i v => [⟨i.span, v⟩]
  | range _ start stop _ => start.toList ++ stop.toList
  | _ => []

/-- The places of a pattern itself: its own one, and those of its rest markers. -/
def places : Pattern → List Span
  | slice i items => i.span :: items.filterMap SliceItem.place?
  | p => [p.span]

/-- A node within the limits. -/
structure NodeMeets (L : Limits) (p : Pattern) : Prop where
  places : ∀ s ∈ p.places, L.place s
  bounds : ∀ b ∈ p.bounds, b.Meets L

theorem span_mem_places (p : Pattern) : p.span ∈ p.places := by
  cases p with
  | slice i items => exact List.mem_cons_self
  | _ => exact List.mem_singleton_self _

theorem NodeMeets.span {p : Pattern} (h : p.NodeMeets L) : L.place p.span :=
  h.places _ p.span_mem_places

/-- A pattern within the limits. -/
def Meets (L : Limits) (p : Pattern) : Prop := ∀ q ∈ p.nodes, q.NodeMeets L

theorem Meets.own {p : Pattern} (h : p.Meets L) : p.NodeMeets L := h p (self_mem_nodes p)

end Pattern

/-- An arm within the limits, what it evaluates apart. -/
structure HeadMeets (L : Limits) (a : Arm Pattern Expr) : Prop where
  span : L.place a.span
  asName : ∀ n ∈ a.asName, L.place n.span
  pattern : a.pattern.Meets L
  guard : ∀ g ∈ a.guard, L.place g.span

/-- A match within the limits, what it evaluates apart. -/
structure Match.Meets (L : Limits) (m : Match) : Prop where
  span : L.place m.span
  arms : ∀ a ∈ m.arms, HeadMeets L a
  count : m.arms.length ≤ L.count

namespace Expr

/-- The constant that an expression is. -/
def constant? : Expr → Option Literal
  | literal _ v => some v
  | _ => none

/-- An expression within the limits. -/
inductive Meets (L : Limits) : Expr → Prop
  | mk {e : Expr} (span : L.place e.span) (constant : ∀ v ∈ e.constant?, v.Storable)
      (ownMatch : ∀ m ∈ e.ownMatch, m.Meets L) (children : ∀ c ∈ e.children, Meets L c) :
      Meets L e

/-- An expression that is neither a constant nor a match. -/
theorem Meets.node {e : Expr} (hconstant : e.constant? = none) (hmatch : e.ownMatch = [])
    (span : L.place e.span) (children : ∀ c ∈ e.children, c.Meets L) : e.Meets L :=
  .mk span (by rw [hconstant]; simp) (by rw [hmatch]; simp) children

theorem Meets.span {e : Expr} (h : e.Meets L) : L.place e.span := by
  cases h with
  | mk span _ _ _ => exact span

/-- All matches of an expression within the limits are within them. -/
theorem Meets.allMatches {e : Expr} (h : e.Meets L) : ∀ m ∈ e.allMatches, m.Meets L := by
  induction h with
  | mk _ _ ownMatch _ ih =>
    rw [allMatches_eq]
    refine List.forall_mem_append.mpr ⟨ownMatch, fun m hm => ?_⟩
    obtain ⟨c, hc, hm⟩ := List.mem_flatMap.mp hm
    exact ih c hc m hm

end Expr

/-- A module within the limits. -/
structure Module.Meets (L : Limits) (m : Module) : Prop where
  functions : ∀ f ∈ m.functions, L.place f.span ∧ f.body.Meets L
  recognizers : ∀ r ∈ m.recognizers, L.place r.span ∧ r.body.Meets L
  inline : ∀ e ∈ m.inline, e.Meets L

end Typed

variable {env : Env}

/-! ### Patterns -/

theorem meets_typeBound {b : Surface.Bound} (h : b.Meets L) : (typeBound b).Meets L :=
  ⟨h.span, h.value⟩

/-- A pattern that is typed to one within the limits, whatever is expected of it. -/
abbrev TypedMeets (L : Limits) (env : Env) (p : Surface.Pattern) : Prop :=
  ∀ t scope, (typePattern env p t scope).1.Meets L

theorem meets_typePatterns {ps : List Surface.Pattern} (h : ∀ p ∈ ps, TypedMeets L env p)
    (ts : List Ty) (scope : Scope) :
    ∀ q ∈ Typed.Pattern.nodesOfList (typePatterns env ps ts scope).1, q.NodeMeets L := by
  induction ps generalizing ts scope with
  | nil => exact List.forall_mem_nil _
  | cons p ps ih =>
    rw [List.forall_mem_cons] at h
    exact List.forall_mem_append.mpr ⟨h.1 _ _, ih h.2 _ _⟩

theorem meets_typeFields {fs : List (String × Surface.Pattern)}
    (h : ∀ f ∈ fs, TypedMeets L env f.2) (known : List (String × Ty)) (scope : Scope) :
    ∀ q ∈ Typed.Pattern.nodesOfFields (typeFields env fs known scope).1, q.NodeMeets L := by
  induction fs generalizing scope with
  | nil => exact List.forall_mem_nil _
  | cons f fs ih =>
    rw [List.forall_mem_cons] at h
    exact List.forall_mem_append.mpr ⟨h.1 _ _, ih h.2 _⟩

theorem meets_typeItems {items : List (SliceItem Surface.Pattern)}
    (h : ∀ p ∈ items.filterMap SliceItem.element?, TypedMeets L env p) (t : Ty) (scope : Scope) :
    ∀ q ∈ Typed.Pattern.nodesOfItems (typeItems env items t scope).1, q.NodeMeets L := by
  induction items generalizing scope with
  | nil => exact List.forall_mem_nil _
  | cons item items ih =>
    cases item with
    | element p =>
      have hcons : ∀ q ∈ p :: items.filterMap SliceItem.element?, TypedMeets L env q := h
      rw [List.forall_mem_cons] at hcons
      exact List.forall_mem_append.mpr ⟨hcons.1 _ _, ih hcons.2 _⟩
    | rest n s => exact ih h _

/-- Rest markers stay where they are. -/
theorem rests_typeItems (items : List (SliceItem Surface.Pattern)) (t : Ty) (scope : Scope) :
    (typeItems env items t scope).1.filterMap SliceItem.place?
      = items.filterMap SliceItem.place? := by
  induction items generalizing scope with
  | nil => rfl
  | cons item items ih =>
    cases item with
    | element p => exact ih _
    | rest n s => exact congrArg (s :: ·) (ih _)

/-- **A pattern within the limits is typed to one within them.** -/
theorem meets_typePattern {p : Surface.Pattern} (h : p.Meets L) : TypedMeets L env p := by
  induction h with
  | @mk p hplaces hbounds _ ih =>
    intro t scope
    cases p with
    | wildcard | var | regex => exact List.forall_mem_singleton.mpr ⟨hplaces, List.forall_mem_nil _⟩
    | literal m v =>
      have hbound := hbounds ⟨m, v⟩ (List.mem_singleton_self _)
      refine List.forall_mem_singleton.mpr ⟨hplaces, ?_⟩
      exact List.forall_mem_singleton.mpr ⟨hbound.span, hbound.value⟩
    | range m a b inclusive =>
      refine List.forall_mem_singleton.mpr ⟨hplaces, fun c hc => ?_⟩
      have hmap : c ∈ (a.toList ++ b.toList).map typeBound := by
        rw [List.map_append, ← Option.toList_map, ← Option.toList_map]
        exact hc
      obtain ⟨d, hd, rfl⟩ := List.mem_map.mp hmap
      exact meets_typeBound (hbounds d hd)
    | tuple | construct | or =>
      refine List.forall_mem_cons.mpr ⟨⟨hplaces, List.forall_mem_nil _⟩, ?_⟩
      exact meets_typePatterns ih _ _
    | record m fs r =>
      refine List.forall_mem_cons.mpr ⟨⟨hplaces, List.forall_mem_nil _⟩, ?_⟩
      exact meets_typeFields (List.forall_mem_map.mp ih) _ _
    | binding m n viaAt p =>
      refine List.forall_mem_cons.mpr ⟨⟨hplaces, List.forall_mem_nil _⟩, ?_⟩
      exact ih p (List.mem_singleton_self _) _ _
    | slice m items =>
      refine List.forall_mem_cons.mpr ⟨⟨?_, List.forall_mem_nil _⟩, meets_typeItems ih _ _⟩
      show ∀ s ∈ m.span :: (typeItems env items _ _).1.filterMap SliceItem.place?, L.place s
      rw [rests_typeItems]
      exact hplaces
    | active m n kind arg =>
      cases arg with
      | none => exact List.forall_mem_singleton.mpr ⟨hplaces, List.forall_mem_nil _⟩
      | some p =>
        refine List.forall_mem_cons.mpr ⟨⟨hplaces, List.forall_mem_nil _⟩, ?_⟩
        exact ih p (List.mem_singleton_self _) _ _

/-! ### Expressions -/

section Lists

variable {es : List Surface.Expr} {fs : List (String × Surface.Expr)}

theorem meets_typeExprs (h : ∀ e ∈ es, ∀ scope, (typeExpr env scope e).Meets L) (scope : Scope) :
    ∀ x ∈ typeExprs env scope es, x.Meets L := by
  induction es with
  | nil => exact List.forall_mem_nil _
  | cons e es ih =>
    rw [List.forall_mem_cons] at h
    exact List.forall_mem_cons.mpr ⟨h.1 _, ih h.2⟩

theorem meets_typeLets (h : ∀ f ∈ fs, ∀ scope, (typeExpr env scope f.2).Meets L) (scope : Scope) :
    ∀ f ∈ (typeLets env scope fs).1, f.2.Meets L := by
  induction fs generalizing scope with
  | nil => exact List.forall_mem_nil _
  | cons f fs ih =>
    rw [List.forall_mem_cons] at h
    exact List.forall_mem_cons.mpr ⟨h.1 _, ih h.2 _⟩

theorem meets_typeRecord (h : ∀ f ∈ fs, ∀ scope, (typeExpr env scope f.2).Meets L)
    (scope : Scope) : ∀ f ∈ typeRecord env scope fs, f.2.Meets L := by
  induction fs with
  | nil => exact List.forall_mem_nil _
  | cons f fs ih =>
    rw [List.forall_mem_cons] at h
    exact List.forall_mem_cons.mpr ⟨h.1 _, ih h.2⟩

theorem meets_typeArms {arms : List (Arm Surface.Pattern Surface.Expr)}
    (hheads : ∀ a ∈ arms, Surface.HeadMeets L a)
    (h : ∀ a ∈ arms, ∀ e ∈ a.guard.toList ++ [a.body], ∀ scope, (typeExpr env scope e).Meets L)
    (scope : Scope) (target : Ty) :
    (∀ a ∈ typeArms env scope target arms, Typed.HeadMeets L a) ∧
      ∀ e ∈ Typed.Expr.armChildren (typeArms env scope target arms), e.Meets L := by
  induction arms with
  | nil => exact ⟨List.forall_mem_nil _, List.forall_mem_nil _⟩
  | cons a arms ih =>
    obtain ⟨span, p, guard, usedIf, asName, body⟩ := a
    rw [List.forall_mem_cons] at hheads h
    obtain ⟨hspan, hname, hpattern⟩ := hheads.1
    have hrest := ih hheads.2 h.2
    have hbody := h.1 body (List.mem_append_right _ (List.mem_singleton_self _))
    rw [typeArms.eq_def]
    cases guard with
    | none =>
      refine ⟨List.forall_mem_cons.mpr ⟨⟨hspan, hname, meets_typePattern hpattern _ _, nofun⟩,
        hrest.1⟩, ?_⟩
      exact List.forall_mem_cons.mpr ⟨hbody _, hrest.2⟩
    | some g =>
      have hguard := h.1 g (List.mem_append_left _ (List.mem_singleton_self _))
      refine ⟨List.forall_mem_cons.mpr ⟨⟨hspan, hname, meets_typePattern hpattern _ _, ?_⟩,
        hrest.1⟩, ?_⟩
      · intro e he
        cases he
        exact (hguard _).span
      · refine List.forall_mem_cons.mpr ⟨hguard _, ?_⟩
        exact List.forall_mem_cons.mpr ⟨hbody _, hrest.2⟩

end Lists

/-- **An expression within the limits is typed to one within them.** -/
theorem meets_typeExpr {e : Surface.Expr} (h : e.Meets L) (scope : Scope) :
    (typeExpr env scope e).Meets L := by
  induction h generalizing scope with
  | @mk e hspan hconstant hheads hcount _ ih =>
    cases e with
    | ident m n => exact .node rfl rfl hspan (List.forall_mem_nil _)
    | literal m v => exact .mk hspan hconstant (List.forall_mem_nil _) (List.forall_mem_nil _)
    | construct | perform | tuple | array => exact .node rfl rfl hspan (meets_typeExprs ih _)
    | call m f es =>
      rw [Surface.Expr.children, List.forall_mem_cons] at ih
      exact .node rfl rfl hspan (List.forall_mem_cons.mpr ⟨ih.1 _, meets_typeExprs ih.2 _⟩)
    | unary m op e =>
      have he := ih e (List.mem_singleton_self _)
      exact .node rfl rfl hspan (List.forall_mem_singleton.mpr (he _))
    | binary m op l r =>
      rw [Surface.Expr.children, List.forall_mem_cons, List.forall_mem_singleton] at ih
      refine .node rfl rfl hspan (List.forall_mem_cons.mpr ⟨ih.1 _, ?_⟩)
      exact List.forall_mem_singleton.mpr (ih.2 _)
    | cond m c y n =>
      rw [Surface.Expr.children, List.forall_mem_cons, List.forall_mem_cons] at ih
      obtain ⟨htest, hyes, hno⟩ := ih
      cases n with
      | none =>
        refine .node rfl rfl hspan (List.forall_mem_cons.mpr ⟨htest _, ?_⟩)
        exact List.forall_mem_singleton.mpr (hyes _)
      | some n =>
        refine .node rfl rfl hspan (List.forall_mem_cons.mpr ⟨htest _, ?_⟩)
        refine List.forall_mem_cons.mpr ⟨hyes _, List.forall_mem_singleton.mpr ?_⟩
        exact hno n (List.mem_singleton_self _) _
    | select m t arms =>
      rw [Surface.Expr.children, List.forall_mem_cons, List.forall_mem_flatMap] at ih
      have harms := meets_typeArms hheads ih.2 scope (typeExpr env scope t).ty
      refine .mk hspan (by simp [Typed.Expr.constant?, typeExpr]) ?_
        (List.forall_mem_cons.mpr ⟨ih.1 _, harms.2⟩)
      refine List.forall_mem_singleton.mpr ⟨hspan, harms.1, ?_⟩
      exact Nat.le_trans (Nat.le_of_eq (length_typeArms _ _ _ _)) hcount
    | block m lets r =>
      rw [Surface.Expr.children, List.forall_mem_append, List.forall_mem_map] at ih
      have hlets := List.forall_mem_map.mpr (meets_typeLets ih.1 scope)
      cases r with
      | none =>
        exact .node rfl rfl hspan (List.forall_mem_append.mpr ⟨hlets, List.forall_mem_nil _⟩)
      | some e =>
        refine .node rfl rfl hspan (List.forall_mem_append.mpr ⟨hlets, ?_⟩)
        exact List.forall_mem_singleton.mpr (ih.2 e (List.mem_singleton_self _) _)
    | record m fs =>
      rw [Surface.Expr.children, List.forall_mem_map] at ih
      exact .node rfl rfl hspan (List.forall_mem_map.mpr (meets_typeRecord ih _))
    | field m e n =>
      have he := ih e (List.mem_singleton_self _)
      exact .node rfl rfl hspan (List.forall_mem_singleton.mpr (he _))

/-! ### Files -/

theorem meets_typeRecognizers {types : TypeTable} {functions : List Signature}
    {rs : List Surface.Recognizer} (h : ∀ r ∈ rs, Surface.Decl.Meets L (.recognizer r))
    {done : List Typed.Recognizer} (hdone : ∀ r ∈ done, L.place r.span ∧ r.body.Meets L) :
    ∀ r ∈ typeRecognizers types functions done rs, L.place r.span ∧ r.body.Meets L := by
  induction rs generalizing done with
  | nil => exact hdone
  | cons r rs ih =>
    rw [List.forall_mem_cons] at h
    refine ih h.2 (List.forall_mem_append.mpr ⟨hdone, List.forall_mem_singleton.mpr ⟨h.1.span, ?_⟩⟩)
    exact meets_typeExpr (h.1.body _ rfl) _

theorem meets_typeFunctions {types : TypeTable} {payloads : List (String × Ty)}
    {fs : List Surface.Function} (h : ∀ f ∈ fs, Surface.Decl.Meets L (.function f))
    {done : List Typed.Function} (hdone : ∀ f ∈ done, L.place f.span ∧ f.body.Meets L) :
    ∀ f ∈ typeFunctions types payloads done fs, L.place f.span ∧ f.body.Meets L := by
  induction fs generalizing done with
  | nil => exact hdone
  | cons f fs ih =>
    rw [List.forall_mem_cons] at h
    refine ih h.2 (List.forall_mem_append.mpr ⟨hdone, List.forall_mem_singleton.mpr ⟨h.1.span, ?_⟩⟩)
    exact meets_typeExpr (h.1.body _ rfl) _

/-- Types that clash are reported where they are declared. -/
theorem checked_declareType {ds : List Surface.TypeDecl}
    (h : ∀ d ∈ ds, Surface.Decl.Meets L (.type d)) {r : TypeTable × List Diagnostic}
    (hr : ∀ d ∈ r.2, d.Checked L.place) :
    ∀ d ∈ (ds.foldl declareType r).2, d.Checked L.place := by
  induction ds generalizing r with
  | nil => exact hr
  | cons d ds ih =>
    rw [List.forall_mem_cons] at h
    refine ih h.2 ?_
    rw [declareType]
    split
    · exact hr
    · refine List.forall_mem_append.mpr ⟨hr, List.forall_mem_singleton.mpr ?_⟩
      exact Diagnostic.checked_new h.1.span _ rfl

/-- **A file whose tree is within the limits is typed to a module within them**, and so are the places
where it clashes with itself. -/
theorem meets_typeProgram {p : Surface.Program} (h : ∀ d ∈ p.decls, d.Meets L) (file : String) :
    (typeProgram file p).1.Meets L ∧ ∀ d ∈ (typeProgram file p).2, d.Checked L.place := by
  refine ⟨⟨meets_typeFunctions (fun f hf => ?_) (List.forall_mem_nil _),
    meets_typeRecognizers (fun r hr => ?_) (List.forall_mem_nil _), fun e he => ?_⟩,
    checked_declareType (fun t ht => ?_) (List.forall_mem_nil _)⟩
  · obtain ⟨d, hd, hsome⟩ := List.mem_filterMap.mp hf
    cases d with
    | function g =>
      cases hsome
      exact h _ hd
    | recognizer | type | expr => cases hsome
  · obtain ⟨d, hd, hsome⟩ := List.mem_filterMap.mp hr
    cases d with
    | recognizer q =>
      cases hsome
      exact h _ hd
    | function | type | expr => cases hsome
  · obtain ⟨x, hx, rfl⟩ := List.mem_map.mp he
    obtain ⟨d, hd, hsome⟩ := List.mem_filterMap.mp hx
    cases d with
    | expr m y =>
      cases hsome
      exact meets_typeExpr ((h _ hd).body _ rfl) _
    | function | recognizer | type => cases hsome
  · obtain ⟨d, hd, hsome⟩ := List.mem_filterMap.mp ht
    cases d with
    | type q =>
      cases hsome
      exact h _ hd
    | function | recognizer | expr => cases hsome

end PatternPlan
