import PatternPlan.Proofs.Typed.Pattern
import PatternPlan.Proofs.Types.Named
import PatternPlan.Typed.Typing

/-!
# What typing gives

Typing never fails, whatever is wrong with a file.  What the tree of the file keeps, the typed tree
keeps: names where names have to be, alternatives, and ranges with a bound.  The types it finds have
no empty names.

* `Pattern.NodeNamed`, `Expr.Named`, `Module.Named` — the invariants of typed trees;
* `named_typePattern`, `named_scope_typePattern` — patterns, and the names they bring into scope;
* `named_typeExpr` — expressions;
* `named_typeProgram` — **every file is typed to a named module**.
-/

namespace PatternPlan

/-! ### Named typed trees -/

namespace Typed

/-- What a node of a pattern keeps. -/
def Pattern.NodeNamed : Pattern → Prop
  | .var _ n | .construct _ n _ | .binding _ n _ _ | .active _ n _ _ _ => isIdentifier n = true
  | .or _ ps => ps ≠ []
  | .range _ start stop _ => (start.isNone && stop.isNone) = false
  | _ => True

/-- The target of a match has a named type, and all nodes of its patterns are named. -/
structure Match.Named (m : Match) : Prop where
  target : m.target.ty.isNamed = true
  patterns : ∀ a ∈ m.arms, ∀ q ∈ a.pattern.nodes, q.NodeNamed

namespace Expr

/-- The type of an expression is named, and so are its matches. -/
structure Named (e : Expr) : Prop where
  ty : e.ty.isNamed = true
  inside : ∀ m ∈ e.allMatches, m.Named

theorem mem_allMatchesOfList {m : Match} {es : List Expr} :
    m ∈ allMatchesOfList es ↔ ∃ e ∈ es, m ∈ e.allMatches := by
  induction es with
  | nil => simp [allMatchesOfList]
  | cons e es ih => simp [allMatchesOfList, ih]

theorem mem_allMatchesOfOption {m : Match} {o : Option Expr} :
    m ∈ allMatchesOfOption o ↔ ∃ e, o = some e ∧ m ∈ e.allMatches := by
  cases o <;> simp [allMatchesOfOption]

theorem mem_allMatchesOfFields {m : Match} {fs : List (String × Expr)} :
    m ∈ allMatchesOfFields fs ↔ ∃ f ∈ fs, m ∈ f.2.allMatches := by
  induction fs with
  | nil => simp [allMatchesOfFields]
  | cons f fs ih => simp [allMatchesOfFields, ih]

theorem mem_allMatchesOfArms {m : Match} {arms : List (Arm Pattern Expr)} :
    m ∈ allMatchesOfArms arms ↔ ∃ a ∈ arms,
      (∃ g, a.guard = some g ∧ m ∈ g.allMatches) ∨ m ∈ a.body.allMatches := by
  induction arms with
  | nil => simp [allMatchesOfArms]
  | cons a arms ih => simp [allMatchesOfArms, mem_allMatchesOfOption, ih, or_assoc]

theorem inside_list {es : List Expr} (h : ∀ e ∈ es, e.Named) :
    ∀ m ∈ allMatchesOfList es, m.Named := by
  intro m hm
  obtain ⟨e, he, hm⟩ := mem_allMatchesOfList.mp hm
  exact (h e he).inside m hm

theorem inside_fields {fs : List (String × Expr)} (h : ∀ f ∈ fs, f.2.Named) :
    ∀ m ∈ allMatchesOfFields fs, m.Named := by
  intro m hm
  obtain ⟨f, hf, hm⟩ := mem_allMatchesOfFields.mp hm
  exact (h f hf).inside m hm

/-- An arm whose parts are named. -/
structure ArmNamed (a : Arm Pattern Expr) : Prop where
  pattern : ∀ q ∈ a.pattern.nodes, q.NodeNamed
  guard : ∀ g, a.guard = some g → g.Named
  body : a.body.Named

theorem inside_arms {arms : List (Arm Pattern Expr)} (h : ∀ a ∈ arms, ArmNamed a) :
    ∀ m ∈ allMatchesOfArms arms, m.Named := by
  intro m hm
  obtain ⟨a, ha, ⟨g, hg, hm⟩ | hm⟩ := mem_allMatchesOfArms.mp hm
  · exact ((h a ha).guard g hg).inside m hm
  · exact (h a ha).body.inside m hm

end Expr

/-- All bodies of a module are named. -/
structure Module.Named (m : Module) : Prop where
  functions : ∀ f ∈ m.functions, f.body.Named
  recognizers : ∀ r ∈ m.recognizers, r.body.Named
  inline : ∀ e ∈ m.inline, e.Named

end Typed

/-- The types in a signature are named. -/
structure Signature.Named (f : Signature) : Prop where
  params : ∀ t ∈ f.params, t.isNamed = true
  result : f.result.isNamed = true

/-- What is known of the file around an expression has no empty names. -/
structure Env.Named (env : Env) : Prop where
  types : env.types.Named
  functions : ∀ f ∈ env.functions, f.Named
  payloads : ∀ e ∈ env.payloads, e.2.isNamed = true

/-- The types in a scope are named. -/
def Scope.Named (scope : Scope) : Prop := ∀ e ∈ scope, e.2.isNamed = true

theorem Scope.Named.cons {scope : Scope} (h : scope.Named) (n : String) {t : Ty}
    (ht : t.isNamed = true) : Scope.Named ((n, t) :: scope) :=
  List.forall_mem_cons.mpr ⟨ht, h⟩

open Typed (Info)
open Typed.Pattern (NodeNamed mem_nodesOfList mem_nodesOfFields mem_nodesOfItems)

variable {env : Env}

/-! ### Patterns -/

theorem typePatterns_ne_nil {ps : List Surface.Pattern} (h : ps ≠ []) (ts : List Ty)
    (scope : Scope) : (typePatterns env ps ts scope).1 ≠ [] := by
  cases ps with
  | nil => exact absurd rfl h
  | cons p ps =>
    rw [typePatterns]
    exact List.cons_ne_nil _ _

mutual

/-- A pattern that is named and has lost no bound is typed to a named one. -/
theorem named_typePattern {p : Surface.Pattern} (h : p.isNamed = true)
    (hb : p.hasMissingBound = false) (t : Ty) (scope : Scope) :
    ∀ q ∈ (typePattern env p t scope).1.nodes, q.NodeNamed := by
  cases p with
  | wildcard m => exact List.forall_mem_singleton.mpr trivial
  | var m n => exact List.forall_mem_singleton.mpr h
  | literal m v => exact List.forall_mem_singleton.mpr trivial
  | range m a b inclusive =>
    refine List.forall_mem_singleton.mpr ?_
    show ((a.map typeBound).isNone && (b.map typeBound).isNone) = false
    rw [Option.isNone_map, Option.isNone_map]
    exact hb
  | regex m s => exact List.forall_mem_singleton.mpr trivial
  | tuple m ps => exact List.forall_mem_cons.mpr ⟨trivial, named_typePatterns h hb _ _⟩
  | record m fs r => exact List.forall_mem_cons.mpr ⟨trivial, named_typeFields h hb _ _⟩
  | construct m n ps =>
    rw [Surface.Pattern.isNamed, Bool.and_eq_true] at h
    exact List.forall_mem_cons.mpr ⟨h.1, named_typePatterns h.2 hb _ _⟩
  | binding m n viaAt p =>
    rw [Surface.Pattern.isNamed, Bool.and_eq_true] at h
    exact List.forall_mem_cons.mpr ⟨h.1, named_typePattern h.2 hb _ _⟩
  | or m ps =>
    rw [Surface.Pattern.isNamed, Bool.and_eq_true, Bool.not_eq_true',
      List.isEmpty_eq_false_iff] at h
    refine List.forall_mem_cons.mpr ⟨?_, named_typePatterns h.2 hb _ _⟩
    exact typePatterns_ne_nil h.1 _ _
  | slice m items => exact List.forall_mem_cons.mpr ⟨trivial, named_typeItems h hb _ _⟩
  | active m n kind arg =>
    cases arg with
    | none =>
      rw [Surface.Pattern.isNamed, Bool.and_eq_true] at h
      exact List.forall_mem_singleton.mpr h.1
    | some p =>
      rw [Surface.Pattern.isNamed, Bool.and_eq_true] at h
      exact List.forall_mem_cons.mpr ⟨h.1, named_typePattern h.2 hb _ _⟩

theorem named_typePatterns {ps : List Surface.Pattern} (h : Surface.Pattern.allNamed ps = true)
    (hb : Surface.Pattern.anyMissingBound ps = false) (ts : List Ty) (scope : Scope) :
    ∀ q ∈ Typed.Pattern.nodesOfList (typePatterns env ps ts scope).1, q.NodeNamed := by
  cases ps with
  | nil => exact List.forall_mem_nil _
  | cons p ps =>
    rw [Surface.Pattern.allNamed, Bool.and_eq_true] at h
    rw [Surface.Pattern.anyMissingBound, Bool.or_eq_false_iff] at hb
    exact List.forall_mem_append.mpr
      ⟨named_typePattern h.1 hb.1 _ _, named_typePatterns h.2 hb.2 _ _⟩

theorem named_typeFields {fs : List (String × Surface.Pattern)}
    (h : Surface.Pattern.fieldsNamed fs = true)
    (hb : Surface.Pattern.anyFieldMissingBound fs = false) (known : List (String × Ty))
    (scope : Scope) :
    ∀ q ∈ Typed.Pattern.nodesOfFields (typeFields env fs known scope).1, q.NodeNamed := by
  cases fs with
  | nil => exact List.forall_mem_nil _
  | cons f fs =>
    obtain ⟨n, p⟩ := f
    rw [Surface.Pattern.fieldsNamed, Bool.and_eq_true] at h
    rw [Surface.Pattern.anyFieldMissingBound, Bool.or_eq_false_iff] at hb
    exact List.forall_mem_append.mpr
      ⟨named_typePattern h.1 hb.1 _ _, named_typeFields h.2 hb.2 _ _⟩

theorem named_typeItems {items : List (SliceItem Surface.Pattern)}
    (h : Surface.Pattern.itemsNamed items = true)
    (hb : Surface.Pattern.anyItemMissingBound items = false) (t : Ty) (scope : Scope) :
    ∀ q ∈ Typed.Pattern.nodesOfItems (typeItems env items t scope).1, q.NodeNamed := by
  cases items with
  | nil => exact List.forall_mem_nil _
  | cons item items =>
    cases item with
    | element p =>
      rw [Surface.Pattern.itemsNamed, Bool.and_eq_true] at h
      rw [Surface.Pattern.anyItemMissingBound, Bool.or_eq_false_iff] at hb
      exact List.forall_mem_append.mpr
        ⟨named_typePattern h.1 hb.1 _ _, named_typeItems h.2 hb.2 _ _⟩
    | rest n s =>
      have hrest : Surface.Pattern.itemsNamed items = true := h
      have hbound : Surface.Pattern.anyItemMissingBound items = false := hb
      exact named_typeItems hrest hbound _ _

end

/-! Expected types inside a pattern. -/

theorem named_tupleElements {t : Ty} (h : t.isNamed = true) (n : Nat) :
    ∀ u ∈ (tupleElements n t).getD [], u.isNamed = true := by
  cases t with
  | tuple ts =>
    rw [tupleElements]
    split
    · exact Ty.allNamed_iff.mp h
    · exact List.forall_mem_nil _
  | _ => exact List.forall_mem_nil _

theorem named_elementType {t : Ty} (h : t.isNamed = true) : (elementType t).isNamed = true := by
  cases t with
  | array t => exact h
  | _ => rfl

theorem named_constructorInfo (henv : env.Named) {t : Ty} (h : t.isNamed = true) (n : String) :
    ∀ u ∈ (constructorInfo env.types n t).1, u.isNamed = true := by
  rw [constructorInfo]
  split
  · rename_i v hv
    exact TypeTable.named_fieldTypes (henv.types.of_constructor? hv).2 h
  · exact List.forall_mem_nil _

theorem named_headD {ts : List Ty} (h : ∀ t ∈ ts, t.isNamed = true) :
    (ts.headD .unknown).isNamed = true := by
  cases ts with
  | nil => rfl
  | cons t ts => exact h t List.mem_cons_self

theorem named_bindRest {scope : Scope} (hs : scope.Named) (n : String) {t : Ty}
    (h : t.isNamed = true) : (bindRest n t scope).Named := by
  rw [bindRest]
  split
  · exact hs
  · exact hs.cons n h

mutual

/-- The names that a pattern brings into scope have named types. -/
theorem named_scope_typePattern (henv : env.Named) {p : Surface.Pattern} {t : Ty}
    (ht : t.isNamed = true) {scope : Scope} (hs : scope.Named) :
    (typePattern env p t scope).2.Named := by
  cases p with
  | wildcard | literal | range | regex => exact hs
  | var m n => exact hs.cons n ht
  | tuple m ps => exact named_scope_typePatterns henv (named_tupleElements ht _) hs
  | record m fs r => exact named_scope_typeFields henv (henv.types.recordFields ht) hs
  | construct m n ps => exact named_scope_typePatterns henv (named_constructorInfo henv ht n) hs
  | binding m n viaAt p =>
    have hp : (typePattern env p t scope).2.Named := named_scope_typePattern henv ht hs
    exact hp.cons n ht
  | or m ps =>
    have hexpected : ∀ u ∈ ps.map fun _ => t, u.isNamed = true := by
      intro u hu
      obtain ⟨_, -, rfl⟩ := List.mem_map.mp hu
      exact ht
    exact named_scope_typePatterns henv hexpected hs
  | slice m items => exact named_scope_typeItems henv (named_elementType ht) hs
  | active m n kind arg =>
    cases arg with
    | none => exact hs
    | some p =>
      have hpayload : ((env.payload? n).getD .unknown).isNamed = true :=
        Ty.named_field? henv.payloads
      have hp : (typePattern env p ((env.payload? n).getD .unknown) scope).2.Named :=
        named_scope_typePattern henv hpayload hs
      exact hp

theorem named_scope_typePatterns (henv : env.Named) {ps : List Surface.Pattern} {ts : List Ty}
    (ht : ∀ t ∈ ts, t.isNamed = true) {scope : Scope} (hs : scope.Named) :
    (typePatterns env ps ts scope).2.Named := by
  cases ps with
  | nil => exact hs
  | cons p ps =>
    have hfirst : (typePattern env p (ts.headD .unknown) scope).2.Named :=
      named_scope_typePattern henv (named_headD ht) hs
    have htail : ∀ t ∈ ts.tail, t.isNamed = true := fun t h => ht t (List.mem_of_mem_tail h)
    rw [typePatterns]
    exact named_scope_typePatterns henv htail hfirst

theorem named_scope_typeFields (henv : env.Named) {fs : List (String × Surface.Pattern)}
    {known : List (String × Ty)} (hk : ∀ f ∈ known, f.2.isNamed = true) {scope : Scope}
    (hs : scope.Named) : (typeFields env fs known scope).2.Named := by
  cases fs with
  | nil => exact hs
  | cons f fs =>
    obtain ⟨n, p⟩ := f
    have hfirst : (typePattern env p ((Ty.field? n known).getD .unknown) scope).2.Named :=
      named_scope_typePattern henv (Ty.named_field? hk) hs
    rw [typeFields]
    exact named_scope_typeFields henv hk hfirst

theorem named_scope_typeItems (henv : env.Named) {items : List (SliceItem Surface.Pattern)}
    {t : Ty} (ht : t.isNamed = true) {scope : Scope} (hs : scope.Named) :
    (typeItems env items t scope).2.Named := by
  cases items with
  | nil => exact hs
  | cons item items =>
    cases item with
    | element p =>
      have hfirst : (typePattern env p t scope).2.Named := named_scope_typePattern henv ht hs
      rw [typeItems]
      exact named_scope_typeItems henv ht hfirst
    | rest n s =>
      rw [typeItems]
      exact named_scope_typeItems henv ht (named_bindRest hs n ht)

end

/-! ### Expressions -/

theorem named_identType (henv : env.Named) {scope : Scope} (hs : scope.Named) (n : String) :
    (identType env scope n).isNamed = true := by
  have hbound : ((Ty.field? n scope).getD .unknown).isNamed = true := Ty.named_field? hs
  rw [identType]
  cases hfield : Ty.field? n scope with
  | some t =>
    rw [hfield] at hbound
    exact hbound
  | none =>
    show ((env.function? n).getD .unknown).isNamed = true
    rw [Env.function?]
    cases hf : env.functions.find? fun f => f.name = n with
    | none => rfl
    | some f =>
      have hnamed := henv.functions f (List.mem_of_find?_eq_some hf)
      show (Ty.allNamed f.params && f.result.isNamed) = true
      rw [Ty.allNamed_iff.mpr hnamed.params, hnamed.result, Bool.and_self]

theorem named_constructorType (henv : env.Named) (n : String) {ts : List Ty}
    (h : ∀ t ∈ ts, t.isNamed = true) : (constructorType env.types n ts).isNamed = true := by
  have hhead : (ts.headD .unknown).isNamed = true := named_headD h
  rw [constructorType.eq_def]
  split
  · simpa [Ty.option, Ty.isNamed, Ty.allNamed] using hhead
  · rfl
  · simpa [Ty.result, Ty.isNamed, Ty.allNamed] using hhead
  · simpa [Ty.result, Ty.isNamed, Ty.allNamed] using hhead
  · split
    · rename_i v hv
      simpa [Ty.isNamed] using (henv.types.of_constructor? hv).1
    · rfl

theorem named_calledResult {t : Ty} (h : t.isNamed = true) : (calledResult t).isNamed = true := by
  cases t with
  | func ps r =>
    rw [Ty.isNamed, Bool.and_eq_true] at h
    exact h.2
  | _ => rfl

theorem named_binaryType (op : BinaryOp) {l r : Ty} (hl : l.isNamed = true)
    (hr : r.isNamed = true) : (binaryType op l r).isNamed = true := by
  have hjoin : (l.join r).isNamed = true := Ty.named_join hl hr
  cases op with
  | add =>
    show (if l.isTextual then l else l.join r).isNamed = true
    split
    · exact hl
    · exact hjoin
  | sub | mul | div | mod => exact hjoin
  | eq | notEq | less | lessEq | greater | greaterEq | and | or => rfl

theorem named_branchType {ts : List Ty} (h : ∀ t ∈ ts, t.isNamed = true) :
    (branchType ts).isNamed = true := by
  cases ts with
  | nil => rfl
  | cons t ts =>
    exact Ty.named_foldl_join (fun u hu => h u (List.mem_cons_of_mem _ hu)) (h t List.mem_cons_self)

theorem named_map_ty {es : List Typed.Expr} (h : ∀ e ∈ es, e.Named) :
    ∀ t ∈ es.map Typed.Expr.ty, t.isNamed = true := by
  intro t ht
  obtain ⟨e, he, rfl⟩ := List.mem_map.mp ht
  exact (h e he).ty

/-- A match whose patterns are named and have lost no bound. -/
def Surface.Match.Complete (m : Surface.Match) : Prop :=
  ∀ a ∈ m.arms, a.pattern.isNamed = true ∧ a.pattern.hasMissingBound = false

/-- The scope of an arm that may name the whole value. -/
theorem named_armScope {scope : Scope} (hs : scope.Named) {t : Ty} (ht : t.isNamed = true)
    (asName : Option Alias) : Scope.Named (match asName with
      | some a => (a.name, t) :: scope
      | none => scope) := by
  cases asName with
  | none => exact hs
  | some a => exact hs.cons a.name ht

mutual

/-- **An expression with complete matches is typed to a named one.** -/
theorem named_typeExpr (henv : env.Named) {e : Surface.Expr} (h : ∀ m ∈ e.allMatches, m.Complete)
    {scope : Scope} (hs : scope.Named) : (typeExpr env scope e).Named := by
  cases e with
  | ident m n => exact ⟨named_identType henv hs n, List.forall_mem_nil _⟩
  | literal m v => exact ⟨Ty.named_ofLiteral v, List.forall_mem_nil _⟩
  | construct m n es =>
    have hes : ∀ x ∈ typeExprs env scope es, x.Named := named_typeExprs henv h hs
    exact ⟨named_constructorType henv n (named_map_ty hes), Typed.Expr.inside_list hes⟩
  | call m f es =>
    have hf : (typeExpr env scope f).Named :=
      named_typeExpr henv (fun m hm => h m (List.mem_append_left _ hm)) hs
    have hes : ∀ x ∈ typeExprs env scope es, x.Named :=
      named_typeExprs henv (fun m hm => h m (List.mem_append_right _ hm)) hs
    exact ⟨named_calledResult hf.ty,
      List.forall_mem_append.mpr ⟨hf.inside, Typed.Expr.inside_list hes⟩⟩
  | unary m op e =>
    have he : (typeExpr env scope e).Named := named_typeExpr (e := e) henv h hs
    refine ⟨?_, he.inside⟩
    cases op with
    | not => rfl
    | negate => exact he.ty
  | binary m op l r =>
    have hl : (typeExpr env scope l).Named :=
      named_typeExpr henv (fun m hm => h m (List.mem_append_left _ hm)) hs
    have hr : (typeExpr env scope r).Named :=
      named_typeExpr henv (fun m hm => h m (List.mem_append_right _ hm)) hs
    exact ⟨named_binaryType op hl.ty hr.ty, List.forall_mem_append.mpr ⟨hl.inside, hr.inside⟩⟩
  | cond m c y n =>
    have hc : (typeExpr env scope c).Named := named_typeExpr henv
      (fun m hm => h m (List.mem_append_left _ (List.mem_append_left _ hm))) hs
    have hy : (typeExpr env scope y).Named := named_typeExpr henv
      (fun m hm => h m (List.mem_append_left _ (List.mem_append_right _ hm))) hs
    have hcy := List.forall_mem_append.mpr ⟨hc.inside, hy.inside⟩
    cases n with
    | none => exact ⟨rfl, List.forall_mem_append.mpr ⟨hcy, List.forall_mem_nil _⟩⟩
    | some n =>
      have hn : (typeExpr env scope n).Named :=
        named_typeExpr henv (fun m hm => h m (List.mem_append_right _ hm)) hs
      exact ⟨Ty.named_join hy.ty hn.ty, List.forall_mem_append.mpr ⟨hcy, hn.inside⟩⟩
  | select m t arms =>
    have ht : (typeExpr env scope t).Named := named_typeExpr henv
      (fun m hm => h m (List.mem_cons_of_mem _ (List.mem_append_left _ hm))) hs
    have hinside : ∀ m ∈ Surface.Expr.allMatchesOfArms arms, m.Complete :=
      fun m hm => h m (List.mem_cons_of_mem _ (List.mem_append_right _ hm))
    have hcomplete : ∀ a ∈ arms, a.pattern.isNamed = true ∧ a.pattern.hasMissingBound = false :=
      h ⟨m, t, arms⟩ List.mem_cons_self
    have harms : ∀ a ∈ typeArms env scope (typeExpr env scope t).ty arms, Typed.Expr.ArmNamed a :=
      named_typeArms henv ht.ty hcomplete hinside hs
    refine ⟨named_branchType ?_, List.forall_mem_cons.mpr ⟨⟨ht.ty, ?_⟩, ?_⟩⟩
    · intro u hu
      obtain ⟨a, ha, rfl⟩ := List.mem_map.mp hu
      exact (harms a ha).body.ty
    · exact fun a ha => (harms a ha).pattern
    · exact List.forall_mem_append.mpr ⟨ht.inside, Typed.Expr.inside_arms harms⟩
  | block m lets r =>
    have hlets : (∀ f ∈ (typeLets env scope lets).1, f.2.Named)
        ∧ (typeLets env scope lets).2.Named :=
      named_typeLets henv (fun m hm => h m (List.mem_append_left _ hm)) hs
    cases r with
    | none =>
      exact ⟨rfl,
        List.forall_mem_append.mpr ⟨Typed.Expr.inside_fields hlets.1, List.forall_mem_nil _⟩⟩
    | some e =>
      have he : (typeExpr env (typeLets env scope lets).2 e).Named :=
        named_typeExpr henv (fun m hm => h m (List.mem_append_right _ hm)) hlets.2
      exact ⟨he.ty, List.forall_mem_append.mpr ⟨Typed.Expr.inside_fields hlets.1, he.inside⟩⟩
  | perform m n es =>
    have hes : ∀ x ∈ typeExprs env scope es, x.Named := named_typeExprs henv h hs
    exact ⟨rfl, Typed.Expr.inside_list hes⟩
  | tuple m es =>
    have hes : ∀ x ∈ typeExprs env scope es, x.Named := named_typeExprs henv h hs
    exact ⟨Ty.allNamed_iff.mpr (named_map_ty hes), Typed.Expr.inside_list hes⟩
  | array m es =>
    have hes : ∀ x ∈ typeExprs env scope es, x.Named := named_typeExprs henv h hs
    exact ⟨Ty.named_foldl_join (named_map_ty hes) rfl, Typed.Expr.inside_list hes⟩
  | record m fs =>
    have hfs : ∀ f ∈ typeRecord env scope fs, f.2.Named := named_typeRecord henv h hs
    refine ⟨Ty.fieldsNamed_iff.mpr fun f hf => ?_, Typed.Expr.inside_fields hfs⟩
    obtain ⟨g, hg, rfl⟩ := List.mem_map.mp hf
    exact (hfs g hg).ty
  | field m e n =>
    have he : (typeExpr env scope e).Named := named_typeExpr (e := e) henv h hs
    exact ⟨Ty.named_field? (henv.types.recordFields he.ty), he.inside⟩

theorem named_typeExprs (henv : env.Named) {es : List Surface.Expr}
    (h : ∀ m ∈ Surface.Expr.allMatchesOfList es, m.Complete) {scope : Scope} (hs : scope.Named) :
    ∀ x ∈ typeExprs env scope es, x.Named := by
  cases es with
  | nil => exact List.forall_mem_nil _
  | cons e es =>
    rw [typeExprs]
    exact List.forall_mem_cons.mpr
      ⟨named_typeExpr henv (fun m hm => h m (List.mem_append_left _ hm)) hs,
        named_typeExprs henv (fun m hm => h m (List.mem_append_right _ hm)) hs⟩

theorem named_typeLets (henv : env.Named) {lets : List (String × Surface.Expr)}
    (h : ∀ m ∈ Surface.Expr.allMatchesOfFields lets, m.Complete) {scope : Scope}
    (hs : scope.Named) :
    (∀ f ∈ (typeLets env scope lets).1, f.2.Named) ∧ (typeLets env scope lets).2.Named := by
  cases lets with
  | nil => exact ⟨List.forall_mem_nil _, hs⟩
  | cons l lets =>
    obtain ⟨n, e⟩ := l
    have he : (typeExpr env scope e).Named :=
      named_typeExpr henv (fun m hm => h m (List.mem_append_left _ hm)) hs
    have hrest := named_typeLets henv (fun m hm => h m (List.mem_append_right _ hm))
      (hs.cons n he.ty)
    rw [typeLets]
    exact ⟨List.forall_mem_cons.mpr ⟨he, hrest.1⟩, hrest.2⟩

theorem named_typeRecord (henv : env.Named) {fs : List (String × Surface.Expr)}
    (h : ∀ m ∈ Surface.Expr.allMatchesOfFields fs, m.Complete) {scope : Scope}
    (hs : scope.Named) : ∀ f ∈ typeRecord env scope fs, f.2.Named := by
  cases fs with
  | nil => exact List.forall_mem_nil _
  | cons f fs =>
    obtain ⟨n, e⟩ := f
    rw [typeRecord]
    exact List.forall_mem_cons.mpr
      ⟨named_typeExpr henv (fun m hm => h m (List.mem_append_left _ hm)) hs,
        named_typeRecord henv (fun m hm => h m (List.mem_append_right _ hm)) hs⟩

theorem named_typeArms (henv : env.Named) {target : Ty} (ht : target.isNamed = true)
    {arms : List (Arm Surface.Pattern Surface.Expr)}
    (hp : ∀ a ∈ arms, a.pattern.isNamed = true ∧ a.pattern.hasMissingBound = false)
    (h : ∀ m ∈ Surface.Expr.allMatchesOfArms arms, m.Complete) {scope : Scope}
    (hs : scope.Named) : ∀ a ∈ typeArms env scope target arms, Typed.Expr.ArmNamed a := by
  cases arms with
  | nil => exact List.forall_mem_nil _
  | cons a arms =>
    obtain ⟨span, p, guard, usedIf, asName, body⟩ := a
    have hfirst := hp _ List.mem_cons_self
    have hscope : (typePattern env p target scope).2.Named := named_scope_typePattern henv ht hs
    have hinner := named_armScope hscope ht asName
    have hbody := named_typeExpr (e := body) henv
      (fun m hm => h m (List.mem_append_left _ (List.mem_append_right _ hm))) hinner
    rw [typeArms.eq_def]
    refine List.forall_mem_cons.mpr ⟨⟨named_typePattern hfirst.1 hfirst.2 _ _, ?_, hbody⟩, ?_⟩
    · intro g hg
      cases guard with
      | none => cases hg
      | some g' =>
        cases hg
        exact named_typeExpr (e := g') henv
          (fun m hm => h m (List.mem_append_left _ (List.mem_append_left _ hm))) hinner
    · exact named_typeArms henv ht (fun a ha => hp a (List.mem_cons_of_mem _ ha))
        (fun m hm => h m (List.mem_append_right _ hm)) hs

end

/-! ### Declarations -/

theorem named_declareType {r : TypeTable × List Diagnostic} (hr : r.1.Named)
    {d : Surface.TypeDecl} (hd : d.Named) : (declareType r d).1.Named := by
  rw [declareType]
  split
  · rename_i t ht
    split at ht
    · refine TypeTable.named_declareRecord hr (fun f hf => ?_) ht
      obtain ⟨g, hg, rfl⟩ := List.mem_map.mp hf
      exact Ty.named_ofTypeExpr (hd.fields g hg)
    · refine TypeTable.named_declareSum hr hd.name (fun v hv => ?_) ht
      obtain ⟨w, hw, rfl⟩ := List.mem_map.mp hv
      have hfields := Surface.TypeExpr.allNamed_iff.mpr (hd.variants w hw)
      exact Ty.allNamed_iff.mp (Ty.named_ofTypeExprs hfields)
  · exact hr

theorem named_declareTypes {ds : List Surface.TypeDecl} (h : ∀ d ∈ ds, d.Named)
    {r : TypeTable × List Diagnostic} (hr : r.1.Named) : (ds.foldl declareType r).1.Named := by
  induction ds generalizing r with
  | nil => exact hr
  | cons d ds ih =>
    have hfirst := named_declareType hr (h d List.mem_cons_self)
    exact ih (fun e he => h e (List.mem_cons_of_mem _ he)) hfirst

section Params

variable {ps : List Surface.Param} (h : ∀ p ∈ ps, Surface.Annotated p.ty)

include h

theorem named_typeParams : ∀ p ∈ typeParams ps, p.ty.isNamed = true := by
  intro p hp
  obtain ⟨q, hq, rfl⟩ := List.mem_map.mp hp
  exact Ty.named_ofTypeExpr? (h q hq)

theorem named_paramTypes : ∀ t ∈ (typeParams ps).map Typed.Param.ty, t.isNamed = true := by
  intro t ht
  obtain ⟨p, hp, rfl⟩ := List.mem_map.mp ht
  exact named_typeParams h p hp

theorem named_paramScope : (paramScope (typeParams ps)).Named := by
  intro e he
  obtain ⟨p, hp, rfl⟩ := List.mem_map.mp (List.mem_reverse.mp he)
  exact named_typeParams h p hp

end Params

theorem named_declaredSignature {f : Surface.Function} (h : f.Named) :
    (declaredSignature f).Named :=
  ⟨named_paramTypes h.params, Ty.named_ofTypeExpr? h.returns⟩

theorem named_declaredSignatures {fs : List Surface.Function} (h : ∀ f ∈ fs, f.Named) :
    ∀ g ∈ fs.map declaredSignature, g.Named := by
  intro g hg
  obtain ⟨f, hf, rfl⟩ := List.mem_map.mp hg
  exact named_declaredSignature (h f hf)

theorem named_declaredPayload {r : Surface.Recognizer} (h : r.Named) :
    (declaredPayload r).2.isNamed = true := by
  have hreturns := Ty.named_ofTypeExpr? h.returns
  rw [declaredPayload]
  cases r.kind with
  | optional => exact Ty.named_payload hreturns
  | total => exact hreturns

/-! Recognizers are typed one after another; the payloads found so far stay named. -/

/-- The body of a recognizer is named, and so is what a call of it binds. -/
structure Typed.Recognizer.Named (r : Typed.Recognizer) : Prop where
  body : r.body.Named
  payload : r.payload.isNamed = true

theorem named_typeRecognizer (henv : env.Named) {r : Surface.Recognizer} (h : r.Named)
    (hb : ∀ m ∈ r.body.allMatches, m.Complete) : (typeRecognizer env r).Named := by
  have hbody := named_typeExpr henv hb (named_paramScope h.params)
  refine ⟨hbody, ?_⟩
  have hreturns : (typeRecognizer env r).returns.isNamed = true := by
    rw [typeRecognizer]
    dsimp only
    split
    · exact Ty.named_ofTypeExpr? h.returns
    · exact hbody.ty
  rw [Typed.Recognizer.payload]
  split
  · exact Ty.named_payload hreturns
  · exact hreturns

theorem named_payloads {rs : List Typed.Recognizer} (h : ∀ r ∈ rs, r.Named) :
    ∀ e ∈ rs.map fun r => (r.name, r.payload), e.2.isNamed = true := by
  intro e he
  obtain ⟨r, hr, rfl⟩ := List.mem_map.mp he
  exact (h r hr).payload

theorem named_typeRecognizers {types : TypeTable} (ht : types.Named) {functions : List Signature}
    (hf : ∀ f ∈ functions, f.Named) {rs : List Surface.Recognizer}
    (h : ∀ r ∈ rs, r.Named ∧ ∀ m ∈ r.body.allMatches, m.Complete) {done : List Typed.Recognizer}
    (hdone : ∀ r ∈ done, r.Named) : ∀ r ∈ typeRecognizers types functions done rs, r.Named := by
  induction rs generalizing done with
  | nil => exact hdone
  | cons r rs ih =>
    rw [typeRecognizers]
    refine ih (fun q hq => h q (List.mem_cons_of_mem _ hq)) ?_
    have henv : Env.Named ⟨types, functions,
        done.map (fun d => (d.name, d.payload)) ++ (r :: rs).map declaredPayload⟩ := by
      refine ⟨ht, hf, List.forall_mem_append.mpr ⟨named_payloads hdone, ?_⟩⟩
      intro e he
      obtain ⟨q, hq, rfl⟩ := List.mem_map.mp he
      exact named_declaredPayload (h q hq).1
    have hr := h r List.mem_cons_self
    exact List.forall_mem_append.mpr
      ⟨hdone, List.forall_mem_singleton.mpr (named_typeRecognizer henv hr.1 hr.2)⟩

/-- The body of a function is named, and so is its signature. -/
structure Typed.Function.Named (f : Typed.Function) : Prop where
  body : f.body.Named
  signature : (inferredSignature f).Named

theorem named_typeFunction (henv : env.Named) {f : Surface.Function} (h : f.Named)
    (hb : ∀ m ∈ f.body.allMatches, m.Complete) : (typeFunction env f).Named := by
  have hbody := named_typeExpr henv hb (named_paramScope h.params)
  refine ⟨hbody, named_paramTypes h.params, ?_⟩
  show (if (Ty.ofTypeExpr? f.returns).isUnknown then _ else Ty.ofTypeExpr? f.returns).isNamed = true
  split
  · exact hbody.ty
  · exact Ty.named_ofTypeExpr? h.returns

theorem named_inferredSignatures {fs : List Typed.Function} (h : ∀ f ∈ fs, f.Named) :
    ∀ g ∈ fs.map inferredSignature, g.Named := by
  intro g hg
  obtain ⟨f, hf, rfl⟩ := List.mem_map.mp hg
  exact (h f hf).signature

theorem named_typeFunctions {types : TypeTable} (ht : types.Named) {payloads : List (String × Ty)}
    (hp : ∀ e ∈ payloads, e.2.isNamed = true) {fs : List Surface.Function}
    (h : ∀ f ∈ fs, f.Named ∧ ∀ m ∈ f.body.allMatches, m.Complete) {done : List Typed.Function}
    (hdone : ∀ f ∈ done, f.Named) : ∀ f ∈ typeFunctions types payloads done fs, f.Named := by
  induction fs generalizing done with
  | nil => exact hdone
  | cons f fs ih =>
    rw [typeFunctions]
    refine ih (fun g hg => h g (List.mem_cons_of_mem _ hg)) ?_
    have henv : Env.Named ⟨types,
        done.map inferredSignature ++ (f :: fs).map declaredSignature, payloads⟩ := by
      refine ⟨ht, List.forall_mem_append.mpr ⟨named_inferredSignatures hdone, ?_⟩, hp⟩
      exact named_declaredSignatures fun g hg => (h g hg).1
    have hf := h f List.mem_cons_self
    exact List.forall_mem_append.mpr
      ⟨hdone, List.forall_mem_singleton.mpr (named_typeFunction henv hf.1 hf.2)⟩

/-! ### Files -/

section Program

variable {p : Surface.Program} (hn : ∀ d ∈ p.decls, d.Named) (hb : p.hasMissingBound = false)

include hn hb

/-- The matches of a file are complete if no range of it has lost its end. -/
theorem complete_of_mem_decls {d : Surface.Decl} (hd : d ∈ p.decls) {e : Surface.Expr}
    (he : d.body? = some e) : ∀ m ∈ e.allMatches, m.Complete := by
  intro m hm
  have hnamed : e.Named := by
    have hdecl := hn d hd
    cases d with
    | function f =>
      cases he
      exact hdecl.body
    | recognizer r =>
      cases he
      exact hdecl.body
    | type t => cases he
    | expr s x =>
      cases he
      exact hdecl
  have hmem : m ∈ p.allMatches := by
    refine List.mem_flatMap.mpr ⟨d, hd, ?_⟩
    rw [he]
    exact hm
  have hbounds := List.any_eq_false.mp hb m hmem
  rw [Bool.not_eq_true] at hbounds
  intro a ha
  exact ⟨hnamed m hm a ha, Bool.not_eq_true _ ▸ List.any_eq_false.mp hbounds a ha⟩

theorem named_functions :
    ∀ f ∈ p.functions, f.Named ∧ ∀ m ∈ f.body.allMatches, m.Complete := by
  intro f hf
  obtain ⟨d, hd, hsome⟩ := List.mem_filterMap.mp hf
  cases d with
  | function g =>
    cases hsome
    exact ⟨hn _ hd, complete_of_mem_decls hn hb hd rfl⟩
  | recognizer | type | expr => cases hsome

theorem named_recognizers :
    ∀ r ∈ p.recognizers, r.Named ∧ ∀ m ∈ r.body.allMatches, m.Complete := by
  intro r hr
  obtain ⟨d, hd, hsome⟩ := List.mem_filterMap.mp hr
  cases d with
  | recognizer q =>
    cases hsome
    exact ⟨hn _ hd, complete_of_mem_decls hn hb hd rfl⟩
  | function | type | expr => cases hsome

theorem complete_expressions : ∀ e ∈ p.expressions, ∀ m ∈ e.allMatches, m.Complete := by
  intro e he
  obtain ⟨d, hd, hsome⟩ := List.mem_filterMap.mp he
  cases d with
  | expr s x =>
    cases hsome
    exact complete_of_mem_decls hn hb hd rfl
  | function | recognizer | type => cases hsome

/-- **A file in which no range has lost its end is typed to a named module.** -/
theorem named_typeProgram (file : String) : (typeProgram file p).1.Named := by
  have htypes : (p.types.foldl declareType (TypeTable.builtin, [])).1.Named := by
    refine named_declareTypes (fun t ht => ?_) TypeTable.named_builtin
    obtain ⟨d, hd, hsome⟩ := List.mem_filterMap.mp ht
    cases d with
    | type u =>
      cases hsome
      exact hn _ hd
    | function | recognizer | expr => cases hsome
  have hfunctions := named_functions hn hb
  have hdeclared := named_declaredSignatures fun f hf => (hfunctions f hf).1
  have hrecs := named_typeRecognizers htypes hdeclared (named_recognizers hn hb)
    (List.forall_mem_nil _)
  have hpayloads := named_payloads hrecs
  have hfuns := named_typeFunctions htypes hpayloads hfunctions (List.forall_mem_nil _)
  refine ⟨fun f hf => (hfuns f hf).body, fun r hr => (hrecs r hr).body, fun e he => ?_⟩
  obtain ⟨x, hx, rfl⟩ := List.mem_map.mp he
  exact named_typeExpr ⟨htypes, named_inferredSignatures hfuns, hpayloads⟩
    (complete_expressions hn hb x hx) (List.forall_mem_nil _)

end Program

end PatternPlan
