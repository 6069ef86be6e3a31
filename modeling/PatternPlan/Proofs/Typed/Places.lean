import PatternPlan.Plan.Basic
import PatternPlan.Proofs.Surface.Writable
import PatternPlan.Typed.Typing

/-!
# Typing does not depend on places

Two sources that differ in nothing but where things stand are typed alike.

* `Typed.Pattern.unplaced`, `Typed.Expr.unplaced`, `Typed.unplacedArm` — typed trees without the places of
  their nodes;
* `typePattern_erase`, `typeExpr_erase` — **a tree without places is typed to what it is typed to with them,
  without places**, and binds the same names;
* `typeArms_same`, `Plan.ofMatch_same` — so that arms which are the same up to places are typed alike, and
  their match has the same plan.
-/

namespace PatternPlan

namespace Typed

/-- The type of a node without its place. -/
def Info.unplaced (i : Info) : Info := ⟨default, i.ty⟩

/-- A bound without its place. -/
def Bound.unplaced (b : Bound) : Bound := ⟨default, b.value⟩

namespace Pattern

mutual

/-- A pattern without the places of its nodes. -/
def unplaced : Pattern → Pattern
  | wildcard i => wildcard i.unplaced
  | var i n => var i.unplaced n
  | literal i v => literal i.unplaced v
  | tuple i ps => tuple i.unplaced (unplacedAll ps)
  | record i fs hasRest => record i.unplaced (unplacedFields fs) hasRest
  | construct i n ps => construct i.unplaced n (unplacedAll ps)
  | binding i n viaAt p => binding i.unplaced n viaAt (unplaced p)
  | or i ps => or i.unplaced (unplacedAll ps)
  | slice i items => slice i.unplaced (unplacedItems items)
  | range i start stop inclusive =>
    range i.unplaced (start.map Bound.unplaced) (stop.map Bound.unplaced) inclusive
  | regex i s => regex i.unplaced s
  | active i n kind unresolved none => active i.unplaced n kind unresolved none
  | active i n kind unresolved (some p) => active i.unplaced n kind unresolved (some (unplaced p))

def unplacedAll : List Pattern → List Pattern
  | [] => []
  | p :: ps => unplaced p :: unplacedAll ps

def unplacedFields : List (String × Pattern) → List (String × Pattern)
  | [] => []
  | (n, p) :: fs => (n, unplaced p) :: unplacedFields fs

def unplacedItems : List (SliceItem Pattern) → List (SliceItem Pattern)
  | [] => []
  | .element p :: items => .element (unplaced p) :: unplacedItems items
  | .rest n _ :: items => .rest n default :: unplacedItems items

end

@[simp] theorem ty_unplaced (p : Pattern) : p.unplaced.ty = p.ty := by
  cases p with
  | active i n kind unresolved arg => cases arg <;> rfl
  | _ => rfl

@[simp] theorem map_ty_unplaced (ps : List Pattern) : (unplacedAll ps).map ty = ps.map ty := by
  induction ps with
  | nil => rfl
  | cons p ps ih => rw [unplacedAll, List.map_cons, List.map_cons, ty_unplaced, ih]

end Pattern

namespace Expr

mutual

/-- An expression without the places of its nodes. -/
def unplaced : Expr → Expr
  | ident i n => ident i.unplaced n
  | literal i v => literal i.unplaced v
  | construct i n es => construct i.unplaced n (unplacedAll es)
  | call i f es => call i.unplaced (unplaced f) (unplacedAll es)
  | unary i op e => unary i.unplaced op (unplaced e)
  | binary i op l r => binary i.unplaced op (unplaced l) (unplaced r)
  | cond i c y n => cond i.unplaced (unplaced c) (unplaced y) (unplacedOption n)
  | select i t arms => select i.unplaced (unplaced t) (unplacedArms arms)
  | block i lets r => block i.unplaced (unplacedFields lets) (unplacedOption r)
  | perform i n es => perform i.unplaced n (unplacedAll es)
  | tuple i es => tuple i.unplaced (unplacedAll es)
  | array i es => array i.unplaced (unplacedAll es)
  | record i fs => record i.unplaced (unplacedFields fs)
  | field i e n => field i.unplaced (unplaced e) n

def unplacedAll : List Expr → List Expr
  | [] => []
  | e :: es => unplaced e :: unplacedAll es

def unplacedOption : Option Expr → Option Expr
  | none => none
  | some e => some (unplaced e)

def unplacedFields : List (String × Expr) → List (String × Expr)
  | [] => []
  | (n, e) :: fs => (n, unplaced e) :: unplacedFields fs

def unplacedArms : List (Arm Pattern Expr) → List (Arm Pattern Expr)
  | [] => []
  | ⟨_, p, guard, usedIf, asName, body⟩ :: arms =>
    ⟨default, p.unplaced, unplacedOption guard, usedIf, asName.map Surface.eraseAlias, unplaced body⟩
      :: unplacedArms arms

end

@[simp] theorem ty_unplaced (e : Expr) : e.unplaced.ty = e.ty := by
  cases e <;> rfl

@[simp] theorem map_ty_unplaced (es : List Expr) : (unplacedAll es).map ty = es.map ty := by
  induction es with
  | nil => rfl
  | cons e es ih => rw [unplacedAll, List.map_cons, List.map_cons, ty_unplaced, ih]

@[simp] theorem map_fieldType_unplaced (fs : List (String × Expr)) :
    (unplacedFields fs).map (fun f => (f.1, f.2.ty)) = fs.map fun f => (f.1, f.2.ty) := by
  induction fs with
  | nil => rfl
  | cons f fs ih => rw [unplacedFields.eq_def, List.map_cons, List.map_cons, ih, ty_unplaced]

theorem unplacedOption_eq (o : Option Expr) : unplacedOption o = o.map unplaced := by
  cases o <;> rfl

end Expr

/-- An arm without its places. -/
def unplacedArm (a : Arm Pattern Expr) : Arm Pattern Expr :=
  ⟨default, a.pattern.unplaced, a.guard.map Expr.unplaced, a.usedIf, a.asName.map Surface.eraseAlias,
    a.body.unplaced⟩

theorem Expr.unplacedArms_eq (arms : List (Arm Pattern Expr)) : unplacedArms arms = arms.map unplacedArm := by
  induction arms with
  | nil => rfl
  | cons a arms ih =>
    rw [unplacedArms.eq_def, List.map_cons, ← ih]
    simp only [unplacedOption_eq, unplacedArm]

end Typed

/-! ### Patterns -/

section Patterns

variable (env : Env)

theorem typeBound_erase (b : Option Surface.Bound) :
    (b.map Surface.Bound.erase).map typeBound = (b.map typeBound).map Typed.Bound.unplaced := by
  cases b <;> rfl

mutual

/-- **A pattern without places is typed as it is with them**, and binds the same names. -/
theorem typePattern_erase (p : Surface.Pattern) (t : Ty) (scope : Scope) :
    typePattern env p.erase t scope
      = ((typePattern env p t scope).1.unplaced, (typePattern env p t scope).2) := by
  cases p with
  | wildcard m => rfl
  | var m n => rfl
  | literal m v => rfl
  | regex m s => rfl
  | range m a b inclusive =>
    show (Typed.Pattern.range _ _ _ _, scope) = (Typed.Pattern.range _ _ _ _, scope)
    rw [typeBound_erase, typeBound_erase]
    rfl
  | tuple m ps =>
    have hlength : (Surface.Pattern.eraseAll ps).length = ps.length := by
      rw [Surface.Pattern.eraseAll_eq, List.length_map]
    rw [Surface.Pattern.erase, typePattern, typePattern, hlength, typePatterns_erase ps,
      Typed.Pattern.map_ty_unplaced]
    rfl
  | record m fs r =>
    rw [Surface.Pattern.erase, typePattern, typePattern, typeFields_erase fs]
    rfl
  | construct m n ps =>
    rw [Surface.Pattern.erase, typePattern, typePattern, typePatterns_erase ps]
    rfl
  | binding m n viaAt p =>
    rw [Surface.Pattern.erase, typePattern, typePattern, typePattern_erase p]
    rfl
  | or m ps =>
    have hknown : (Surface.Pattern.eraseAll ps).map (fun _ => t) = ps.map fun _ => t := by
      rw [Surface.Pattern.eraseAll_eq, List.map_map]
      rfl
    rw [Surface.Pattern.erase, typePattern, typePattern, hknown, typePatterns_erase ps]
    rfl
  | slice m items =>
    rw [Surface.Pattern.erase, typePattern, typePattern, typeItems_erase items]
    rfl
  | active m n kind arg =>
    cases arg with
    | none => rfl
    | some p =>
      rw [Surface.Pattern.erase, typePattern, typePattern, typePattern_erase p]
      rfl

theorem typePatterns_erase (ps : List Surface.Pattern) (ts : List Ty) (scope : Scope) :
    typePatterns env (Surface.Pattern.eraseAll ps) ts scope
      = (Typed.Pattern.unplacedAll (typePatterns env ps ts scope).1, (typePatterns env ps ts scope).2) := by
  cases ps with
  | nil => rfl
  | cons p ps =>
    rw [Surface.Pattern.eraseAll, typePatterns, typePatterns, typePattern_erase, typePatterns_erase]
    rfl

theorem typeFields_erase (fs : List (String × Surface.Pattern)) (known : List (String × Ty)) (scope : Scope) :
    typeFields env (Surface.Pattern.eraseFields fs) known scope
      = (Typed.Pattern.unplacedFields (typeFields env fs known scope).1, (typeFields env fs known scope).2) := by
  cases fs with
  | nil => rfl
  | cons f fs =>
    obtain ⟨n, p⟩ := f
    rw [Surface.Pattern.eraseFields, typeFields, typeFields, typePattern_erase, typeFields_erase]
    rfl

theorem typeItems_erase (items : List (SliceItem Surface.Pattern)) (t : Ty) (scope : Scope) :
    typeItems env (Surface.Pattern.eraseItems items) t scope
      = (Typed.Pattern.unplacedItems (typeItems env items t scope).1, (typeItems env items t scope).2) := by
  cases items with
  | nil => rfl
  | cons item items =>
    cases item with
    | element p =>
      rw [Surface.Pattern.eraseItems, typeItems, typeItems, typePattern_erase, typeItems_erase]
      rfl
    | rest n s =>
      rw [Surface.Pattern.eraseItems, typeItems, typeItems, typeItems_erase]
      rfl

end

end Patterns

/-! ### Expressions -/

section Expressions

variable (env : Env)

/-- The alias of an arm is in scope in its guard and in its body, behind the names of the pattern. -/
def armScope (asName : Option Alias) (target : Ty) (scope : Scope) : Scope :=
  match asName with
  | some a => (a.name, target) :: scope
  | none => scope

theorem typeArms_cons (scope : Scope) (target : Ty) (a : Arm Surface.Pattern Surface.Expr)
    (arms : List (Arm Surface.Pattern Surface.Expr)) : typeArms env scope target (a :: arms)
      = ⟨a.span, (typePattern env a.pattern target scope).1,
          a.guard.map (typeExpr env (armScope a.asName target (typePattern env a.pattern target scope).2)),
          a.usedIf, a.asName,
          typeExpr env (armScope a.asName target (typePattern env a.pattern target scope).2) a.body⟩
        :: typeArms env scope target arms := by
  obtain ⟨span, p, guard, usedIf, asName, body⟩ := a
  rw [typeArms.eq_def]
  cases guard <;> rfl

theorem map_armType_unplaced (arms : List (Arm Typed.Pattern Typed.Expr)) :
    (arms.map Typed.unplacedArm).map armType = arms.map armType := by
  rw [List.map_map]
  exact List.map_congr_left fun a _ => Typed.Expr.ty_unplaced a.body

theorem armScope_erase (asName : Option Alias) (target : Ty) (scope : Scope) :
    armScope (asName.map Surface.eraseAlias) target scope = armScope asName target scope := by
  cases asName <;> rfl

mutual

/-- **An expression without places is typed as it is with them.** -/
theorem typeExpr_erase (e : Surface.Expr) (scope : Scope) :
    typeExpr env scope e.erase = (typeExpr env scope e).unplaced := by
  cases e with
  | ident m n => rfl
  | literal m v => rfl
  | construct m n es =>
    rw [Surface.Expr.erase, typeExpr, typeExpr, typeExprs_erase es, Typed.Expr.map_ty_unplaced]
    rfl
  | call m f es =>
    rw [Surface.Expr.erase, typeExpr, typeExpr, typeExpr_erase f, typeExprs_erase es, Typed.Expr.ty_unplaced]
    rfl
  | unary m op e =>
    cases op with
    | not =>
      show Typed.Expr.unary ⟨_, .bool⟩ .not (typeExpr env scope e.erase) = _
      rw [typeExpr_erase e]
      rfl
    | negate =>
      show Typed.Expr.unary ⟨_, (typeExpr env scope e.erase).ty⟩ .negate (typeExpr env scope e.erase) = _
      rw [typeExpr_erase e, Typed.Expr.ty_unplaced]
      rfl
  | binary m op l r =>
    rw [Surface.Expr.erase, typeExpr, typeExpr, typeExpr_erase l, typeExpr_erase r, Typed.Expr.ty_unplaced,
      Typed.Expr.ty_unplaced]
    rfl
  | cond m c y n =>
    cases n with
    | none =>
      show Typed.Expr.cond _ (typeExpr env scope c.erase) (typeExpr env scope y.erase) none = _
      rw [typeExpr_erase c, typeExpr_erase y]
      rfl
    | some n =>
      show Typed.Expr.cond ⟨_, Ty.join (typeExpr env scope y.erase).ty (typeExpr env scope n.erase).ty⟩
        (typeExpr env scope c.erase) (typeExpr env scope y.erase) (some (typeExpr env scope n.erase)) = _
      rw [typeExpr_erase c, typeExpr_erase y, typeExpr_erase n, Typed.Expr.ty_unplaced, Typed.Expr.ty_unplaced]
      rfl
  | select m t arms =>
    rw [Surface.Expr.erase, typeExpr, typeExpr, typeExpr_erase t, Typed.Expr.ty_unplaced, typeArms_erase arms,
      Typed.Expr.unplacedArms_eq, map_armType_unplaced, ← Typed.Expr.unplacedArms_eq]
    rfl
  | block m lets r =>
    cases r with
    | none =>
      show Typed.Expr.block _ (typeLets env scope (Surface.Expr.eraseFields lets)).1 none = _
      rw [typeLets_erase lets]
      rfl
    | some e =>
      show Typed.Expr.block ⟨_, (typeExpr env (typeLets env scope (Surface.Expr.eraseFields lets)).2 e.erase).ty⟩
        (typeLets env scope (Surface.Expr.eraseFields lets)).1
        (some (typeExpr env (typeLets env scope (Surface.Expr.eraseFields lets)).2 e.erase)) = _
      rw [typeLets_erase lets, typeExpr_erase e, Typed.Expr.ty_unplaced]
      rfl
  | perform m n es =>
    rw [Surface.Expr.erase, typeExpr, typeExpr, typeExprs_erase es]
    rfl
  | tuple m es =>
    rw [Surface.Expr.erase, typeExpr, typeExpr, typeExprs_erase es, Typed.Expr.map_ty_unplaced]
    rfl
  | array m es =>
    rw [Surface.Expr.erase, typeExpr, typeExpr, typeExprs_erase es, Typed.Expr.map_ty_unplaced]
    rfl
  | record m fs =>
    rw [Surface.Expr.erase, typeExpr, typeExpr, typeRecord_erase fs, Typed.Expr.map_fieldType_unplaced]
    rfl
  | field m e n =>
    rw [Surface.Expr.erase, typeExpr, typeExpr, typeExpr_erase e, Typed.Expr.ty_unplaced]
    rfl

theorem typeExprs_erase (es : List Surface.Expr) (scope : Scope) :
    typeExprs env scope (Surface.Expr.eraseAll es) = Typed.Expr.unplacedAll (typeExprs env scope es) := by
  cases es with
  | nil => rfl
  | cons e es =>
    rw [Surface.Expr.eraseAll, typeExprs, typeExprs, typeExpr_erase e, typeExprs_erase es]
    rfl

theorem typeLets_erase (lets : List (String × Surface.Expr)) (scope : Scope) :
    typeLets env scope (Surface.Expr.eraseFields lets)
      = (Typed.Expr.unplacedFields (typeLets env scope lets).1, (typeLets env scope lets).2) := by
  cases lets with
  | nil => rfl
  | cons l lets =>
    obtain ⟨n, e⟩ := l
    rw [Surface.Expr.eraseFields, typeLets, typeLets, typeExpr_erase e, Typed.Expr.ty_unplaced,
      typeLets_erase lets]
    rfl

theorem typeRecord_erase (fs : List (String × Surface.Expr)) (scope : Scope) :
    typeRecord env scope (Surface.Expr.eraseFields fs) = Typed.Expr.unplacedFields (typeRecord env scope fs) := by
  cases fs with
  | nil => rfl
  | cons f fs =>
    obtain ⟨n, e⟩ := f
    rw [Surface.Expr.eraseFields, typeRecord, typeRecord, typeExpr_erase e, typeRecord_erase fs]
    rfl

theorem typeArms_erase (arms : List (Arm Surface.Pattern Surface.Expr)) (scope : Scope) (target : Ty) :
    typeArms env scope target (Surface.Expr.eraseArms arms)
      = Typed.Expr.unplacedArms (typeArms env scope target arms) := by
  cases arms with
  | nil => rfl
  | cons a arms =>
    obtain ⟨span, p, guard, usedIf, asName, body⟩ := a
    show typeArms env scope target (⟨default, p.erase, Surface.Expr.eraseOption guard, usedIf,
      asName.map Surface.eraseAlias, body.erase⟩ :: Surface.Expr.eraseArms arms) = _
    rw [typeArms_cons, typeArms_cons, typeArms_erase arms, typePattern_erase env p, armScope_erase,
      typeExpr_erase body]
    cases guard with
    | none => rfl
    | some g =>
      rw [Surface.Expr.eraseOption, Option.map_some, typeExpr_erase g]
      rfl

end

/-- **Arms that are the same up to places are typed alike.** -/
theorem typeArms_same {arms arms' : List (Arm Surface.Pattern Surface.Expr)}
    (h : arms.map Surface.Expr.eraseArm = arms'.map Surface.Expr.eraseArm) (scope : Scope) (target : Ty) :
    (typeArms env scope target arms).map Typed.unplacedArm
      = (typeArms env scope target arms').map Typed.unplacedArm := by
  rw [← Typed.Expr.unplacedArms_eq, ← Typed.Expr.unplacedArms_eq, ← typeArms_erase, ← typeArms_erase,
    Surface.Expr.eraseArms_eq, Surface.Expr.eraseArms_eq, h]

end Expressions

/-! ### Plans -/

namespace PlanNode

mutual

/-- The node of a pattern does not tell where the pattern stands. -/
theorem ofPattern_unplaced (p : Typed.Pattern) : ofPattern p.unplaced = ofPattern p := by
  cases p with
  | tuple i ps | construct i n ps | or i ps =>
    rw [Typed.Pattern.unplaced, ofPattern, ofPattern, ofPatterns_unplaced ps]
  | record i fs hasRest => rw [Typed.Pattern.unplaced, ofPattern, ofPattern, ofFields_unplaced fs]
  | binding i n viaAt p => rw [Typed.Pattern.unplaced, ofPattern, ofPattern, ofPattern_unplaced p]
  | slice i items => rw [Typed.Pattern.unplaced, ofPattern, ofPattern, ofItems_unplaced items]
  | range i start stop inclusive =>
    rw [Typed.Pattern.unplaced, ofPattern, ofPattern]
    cases start <;> cases stop <;> rfl
  | active i n kind unresolved arg =>
    cases arg with
    | none => rfl
    | some p => rw [Typed.Pattern.unplaced, ofPattern, ofPattern, ofPattern_unplaced p]
  | _ => rfl

theorem ofPatterns_unplaced (ps : List Typed.Pattern) :
    ofPatterns (Typed.Pattern.unplacedAll ps) = ofPatterns ps := by
  cases ps with
  | nil => rfl
  | cons p ps =>
    rw [Typed.Pattern.unplacedAll, ofPatterns, ofPatterns, ofPattern_unplaced p, ofPatterns_unplaced ps]

theorem ofFields_unplaced (fs : List (String × Typed.Pattern)) :
    ofFields (Typed.Pattern.unplacedFields fs) = ofFields fs := by
  cases fs with
  | nil => rfl
  | cons f fs =>
    obtain ⟨n, p⟩ := f
    rw [Typed.Pattern.unplacedFields, ofFields, ofFields, ofPattern_unplaced p, ofFields_unplaced fs]

theorem ofItems_unplaced (items : List (SliceItem Typed.Pattern)) :
    ofItems (Typed.Pattern.unplacedItems items) = ofItems items := by
  cases items with
  | nil => rfl
  | cons item items =>
    cases item with
    | element p =>
      rw [Typed.Pattern.unplacedItems, ofItems, ofItems, ofPattern_unplaced p, ofItems_unplaced items]
    | rest n s => rw [Typed.Pattern.unplacedItems, ofItems, ofItems, ofItems_unplaced items]

end

end PlanNode

namespace Plan

theorem arm_unplaced (a : Arm Typed.Pattern Typed.Expr) : arm (Typed.unplacedArm a) = arm a := by
  obtain ⟨span, p, guard, usedIf, asName, body⟩ := a
  show PlanArm.mk (.ofPattern p.unplaced) (guard.map _).isSome _ = PlanArm.mk (.ofPattern p) guard.isSome _
  rw [PlanNode.ofPattern_unplaced, Option.isSome_map]
  cases asName <;> rfl

/-- **Matches whose arms are the same up to places have the same plan**, up to the place of the match. -/
theorem ofMatch_same {arms arms' : List (Arm Typed.Pattern Typed.Expr)}
    (h : arms.map Typed.unplacedArm = arms'.map Typed.unplacedArm) (o : Placeholders) (owner : String)
    (span span' : Span) (target : Typed.Expr) :
    ofMatch o owner ⟨span', target, arms'⟩ = { ofMatch o owner ⟨span, target, arms⟩ with span := span' } := by
  have hlength : arms'.length = arms.length := by
    rw [← List.length_map Typed.unplacedArm, ← h, List.length_map]
  have harms : ∀ as : List (Arm Typed.Pattern Typed.Expr), as.map arm = (as.map Typed.unplacedArm).map arm := by
    intro as
    rw [List.map_map]
    exact List.map_congr_left fun a _ => (arm_unplaced a).symm
  rw [ofMatch, ofMatch]
  show Plan.mk _ _ _ _ _ = Plan.mk _ _ _ _ _
  rw [hlength, harms arms', ← h, ← harms arms]

end Plan

end PatternPlan
