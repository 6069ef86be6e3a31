import PatternPlan.Typed.Typing

/-!
# The type of several branches

The type of a match is folded from the types of its bodies, and the type of the elements of an array
from theirs.

* `Ty.agrees_join_right` — **the type of two branches agrees with the second**;
* `Ty.Keeps` — a branch adds nothing to what is known;
* `Ty.keeps_join_right`, `Ty.Keeps.join` — as long as branches agree, nothing that one of them says is
  lost;
* `Ty.Keeps.agrees_join` — what a type keeps agrees with it also after a branch that contradicts it;
* `Ty.Settled` — after a branch that contradicts the ones before it no branch adds anything;
* `Ty.Settled.agrees` — **the type of settled branches agrees with each of them**;
* `branches_agree` — **the type of a match, and that of the elements of an array, contradicts no
  branch if the branches are settled**;
* `branches_contradict` — otherwise it may: what is left where two branches contradict each other is
  what is left where nothing was known.
-/

namespace PatternPlan

namespace Ty

/-! ### Agreement -/

@[simp] theorem agrees_unknown (t : Ty) : t.agrees unknown = true := by
  cases t <;> rw [agrees]

mutual

theorem agrees_self : ∀ t : Ty, t.agrees t = true
  | con a => by simp [agrees]
  | app a ts => by simp [agrees, agreesAll_self ts]
  | tuple ts => by simp [agrees, agreesAll_self ts]
  | array t => by simp [agrees, agrees_self t]
  | record a fs => by simp [agrees, agreesFields_self fs]
  | func ps r => by simp [agrees, agreesAll_self ps, agrees_self r]
  | unknown => by rw [agrees]

theorem agreesAll_self : ∀ ts : List Ty, agreesAll ts ts = true
  | [] => by rw [agreesAll]
  | t :: ts => by simp [agreesAll, agrees_self t, agreesAll_self ts]

theorem agreesFields_self : ∀ fs : List (String × Ty), agreesFields fs fs = true
  | [] => by rw [agreesFields]
  | (n, t) :: fs => by simp [agreesFields, agrees_self t, agreesFields_self fs]

end

theorem length_of_agreesAll : ∀ {ts us : List Ty}, agreesAll ts us = true → ts.length = us.length
  | [], [], _ => rfl
  | [], _ :: _, h | _ :: _, [], h => by simp [agreesAll] at h
  | _ :: _, _ :: _, h => by
    rw [agreesAll, Bool.and_eq_true] at h
    rw [List.length_cons, List.length_cons, length_of_agreesAll h.2]

/-! ### What two branches give -/

@[simp] theorem join_unknown (t : Ty) : t.join unknown = t := by
  cases t <;> simp [join, isUnknown]

/-- Whether the arguments of a type are joined one by one. -/
def isApp : Ty → Bool
  | app _ _ => true
  | _ => false

/-- Of a type that is not applied to arguments all is kept or nothing. -/
theorem join_whole {t : Ty} (hknown : t ≠ unknown) (happ : t.isApp = false) (u : Ty) :
    t.join u = if t.agrees u then t else unknown := by
  have hu : (u.isUnknown || t.agrees u) = t.agrees u := by
    cases u with
    | unknown => simp
    | _ => rfl
  cases t with
  | unknown => exact absurd rfl hknown
  | app => cases happ
  | _ => simp only [join, hu]

theorem join_app (a b : String) (ts us : List Ty) : (app a ts).join (app b us) =
    if a = b ∧ ts.length = us.length then app a (joinAll ts us) else unknown := by
  by_cases h : a = b ∧ ts.length = us.length
  · simp [join, h]
  · have hagrees : (app a ts).agrees (app b us) = false := by
      rw [agrees]
      refine Bool.eq_false_iff.mpr fun hall => h ?_
      rw [Bool.and_eq_true, decide_eq_true_eq] at hall
      exact ⟨hall.1, length_of_agreesAll hall.2⟩
    simp [join, h, hagrees]

/-- A type applied to arguments contradicts all that is known and not applied to arguments. -/
theorem join_app_whole (a : String) (ts : List Ty) {u : Ty} (hknown : u ≠ unknown)
    (happ : u.isApp = false) : (app a ts).agrees u = false ∧ (app a ts).join u = unknown := by
  cases u with
  | unknown => exact absurd rfl hknown
  | app => cases happ
  | _ => simp [join, agrees]

mutual

@[simp] theorem join_self : ∀ t : Ty, t.join t = t
  | unknown => join_unknown unknown
  | app a ts => by rw [join_app, if_pos ⟨rfl, rfl⟩, joinAll_self ts]
  | con _ | tuple _ | array _ | record _ _ | func _ _ => by
    rw [join_whole (by simp) rfl, if_pos (agrees_self _)]

theorem joinAll_self : ∀ ts : List Ty, joinAll ts ts = ts
  | [] => by rw [joinAll]; simp
  | t :: ts => by rw [joinAll, join_self t, joinAll_self ts]

end

mutual

/-- **The type of two branches agrees with the second.** -/
theorem agrees_join_right : ∀ t u : Ty, (t.join u).agrees u = true
  | unknown, u => by rw [join, agrees_self]
  | app a ts, unknown => agrees_unknown _
  | app a ts, app b us => by
    rw [join_app]
    split
    · rename_i h
      rw [agrees, h.1, agreesAll_joinAll_right ts us h.2]
      simp
    · rw [agrees]
  | app a ts, con _ | app a ts, tuple _ | app a ts, array _ | app a ts, record _ _
  | app a ts, func _ _ => by rw [(join_app_whole a ts (by simp) rfl).2, agrees]
  | con _, u | tuple _, u | array _, u | record _ _, u | func _ _, u => by
    rw [join_whole (by simp) rfl]
    split
    · assumption
    · rw [agrees]

theorem agreesAll_joinAll_right : ∀ ts us : List Ty, ts.length = us.length →
    agreesAll (joinAll ts us) us = true
  | [], [], _ => by simp [joinAll, agreesAll]
  | t :: ts, u :: us, h => by
    rw [joinAll, agreesAll, agrees_join_right t u, agreesAll_joinAll_right ts us (Nat.succ.inj h)]
    rfl

end

/-! ### What is kept -/

theorem length_joinAll : ∀ {ts us : List Ty}, ts.length = us.length →
    (joinAll ts us).length = ts.length
  | [], _, _ => by rw [joinAll]; simp
  | t :: ts, u :: us, h => by
    rw [joinAll, List.length_cons, List.length_cons, length_joinAll (Nat.succ.inj h)]

/-- A branch adds nothing to what is known. -/
def Keeps (t u : Ty) : Prop := t.join u = t

/-- What is known agrees with a branch that adds nothing to it. -/
theorem Keeps.agrees {t u : Ty} (h : t.Keeps u) : t.agrees u = true := by
  have hright := agrees_join_right t u
  rwa [show t.join u = t from h] at hright

theorem keeps_app {a b : String} {ts us : List Ty} :
    (app a ts).Keeps (app b us) ↔ a = b ∧ ts.length = us.length ∧ joinAll ts us = ts := by
  rw [Keeps, join_app]
  split
  · rename_i h
    simp [h]
  · rename_i h
    exact ⟨nofun, fun hsame => absurd ⟨hsame.1, hsame.2.1⟩ h⟩

theorem keeps_whole {t u : Ty} (hknown : t ≠ unknown) (happ : t.isApp = false)
    (h : t.agrees u = true) : t.Keeps u := by
  rw [Keeps, join_whole hknown happ, if_pos h]

mutual

/-- **Of two branches that agree, the type keeps the second.** -/
theorem keeps_join_right : ∀ {t u : Ty}, t.agrees u = true → (t.join u).Keeps u
  | unknown, u, _ => join_self u
  | app a ts, unknown, _ => join_unknown _
  | app a ts, app b us, h => by
    rw [agrees, Bool.and_eq_true, decide_eq_true_eq] at h
    have hlen := length_of_agreesAll h.2
    rw [join_app, if_pos ⟨h.1, hlen⟩]
    exact keeps_app.mpr ⟨h.1, (length_joinAll hlen).trans hlen, joinAll_joinAll_right h.2⟩
  | app a ts, con _, h | app a ts, tuple _, h | app a ts, array _, h | app a ts, record _ _, h
  | app a ts, func _ _, h => by
    rw [(join_app_whole a ts (by simp) rfl).1] at h
    cases h
  | con _, u, h | tuple _, u, h | array _, u, h | record _ _, u, h | func _ _, u, h => by
    have hkeeps := keeps_whole (by simp) rfl h
    rw [show Ty.join _ u = _ from hkeeps]
    exact hkeeps

theorem joinAll_joinAll_right : ∀ {ts us : List Ty}, agreesAll ts us = true →
    joinAll (joinAll ts us) us = joinAll ts us
  | [], _, _ => by simp [joinAll]
  | _ :: _, [], h => by simp [agreesAll] at h
  | t :: ts, u :: us, h => by
    rw [agreesAll, Bool.and_eq_true] at h
    rw [joinAll, joinAll, show (t.join u).join u = t.join u from keeps_join_right h.1,
      joinAll_joinAll_right h.2]

end

mutual

/-- **What a type keeps, it keeps when a branch is joined to it that agrees with it.** -/
theorem Keeps.join : ∀ {t u v : Ty}, t.Keeps v → t.agrees u = true → (t.join u).Keeps v
  | unknown, u, v, h, _ => by
    rw [Keeps, Ty.join] at h
    rw [h]
    exact join_unknown _
  | app a ts, unknown, v, h, _ => by rwa [join_unknown]
  | app a ts, app b us, unknown, _, _ => join_unknown _
  | app a ts, app b us, app c ws, h, hu => by
    rw [Ty.agrees, Bool.and_eq_true, decide_eq_true_eq] at hu
    obtain ⟨hname, hws, hargs⟩ := keeps_app.mp h
    have hlen := length_of_agreesAll hu.2
    rw [join_app, if_pos ⟨hu.1, hlen⟩]
    exact keeps_app.mpr ⟨hname, (length_joinAll hlen).trans hws, joinAll_joinAll hargs hu.2⟩
  | app a ts, app b us, con _, h, _ | app a ts, app b us, tuple _, h, _
  | app a ts, app b us, array _, h, _ | app a ts, app b us, record _ _, h, _
  | app a ts, app b us, func _ _, h, _ => by
    rw [Keeps, (join_app_whole a ts (by simp) rfl).2] at h
    cases h
  | app a ts, con _, _, _, hu | app a ts, tuple _, _, _, hu | app a ts, array _, _, _, hu
  | app a ts, record _ _, _, _, hu | app a ts, func _ _, _, _, hu => by
    rw [(join_app_whole a ts (by simp) rfl).1] at hu
    cases hu
  | con _, u, _, h, hu | tuple _, u, _, h, hu | array _, u, _, h, hu | record _ _, u, _, h, hu
  | func _ _, u, _, h, hu => by
    rwa [show Ty.join _ u = _ from keeps_whole (by simp) rfl hu]

theorem joinAll_joinAll : ∀ {ts us vs : List Ty}, joinAll ts vs = ts → agreesAll ts us = true →
    joinAll (joinAll ts us) vs = joinAll ts us
  | [], _, _, _, _ => by simp [joinAll]
  | _ :: _, [], _, _, h => by simp [agreesAll] at h
  | _ :: _, _ :: _, [], h, _ => by simp [joinAll] at h
  | t :: ts, u :: us, v :: vs, h, hu => by
    rw [joinAll, List.cons.injEq] at h
    rw [agreesAll, Bool.and_eq_true] at hu
    rw [joinAll, joinAll, show (t.join u).join v = t.join u from Keeps.join h.1 hu.1,
      joinAll_joinAll h.2 hu.2]

end

mutual

/-- **What a type keeps agrees with it when any branch is joined to it**: where the branch contradicts
the type, nothing stays that could contradict anything. -/
theorem Keeps.agrees_join : ∀ {t v : Ty}, t.Keeps v → ∀ u, (t.join u).agrees v = true
  | unknown, v, h, u => by
    rw [Keeps, Ty.join] at h
    rw [h, agrees_unknown]
  | app a ts, v, h, unknown => by
    rw [join_unknown]
    exact h.agrees
  | app a ts, unknown, _, app b us => agrees_unknown _
  | app a ts, app c ws, h, app b us => by
    obtain ⟨hname, hws, hargs⟩ := keeps_app.mp h
    rw [join_app]
    split
    · rename_i hb
      rw [Ty.agrees, hname, agreesAll_joinAll hargs hws hb.2]
      simp
    · rw [Ty.agrees]
  | app a ts, v, _, con _ | app a ts, v, _, tuple _ | app a ts, v, _, array _
  | app a ts, v, _, record _ _ | app a ts, v, _, func _ _ => by
    rw [(join_app_whole a ts (by simp) rfl).2, Ty.agrees]
  | app a ts, con _, h, app b us | app a ts, tuple _, h, app b us | app a ts, array _, h, app b us
  | app a ts, record _ _, h, app b us | app a ts, func _ _, h, app b us => by
    rw [Keeps, (join_app_whole a ts (by simp) rfl).2] at h
    cases h
  | con _, _, h, u | tuple _, _, h, u | array _, _, h, u | record _ _, _, h, u
  | func _ _, _, h, u => by
    rw [join_whole (by simp) rfl]
    split
    · exact h.agrees
    · rw [Ty.agrees]

theorem agreesAll_joinAll : ∀ {ts vs us : List Ty}, joinAll ts vs = ts → ts.length = vs.length →
    ts.length = us.length → agreesAll (joinAll ts us) vs = true
  | [], [], [], _, _, _ => by simp [joinAll, agreesAll]
  | t :: ts, v :: vs, u :: us, h, hv, hu => by
    rw [joinAll, List.cons.injEq] at h
    rw [joinAll, agreesAll, Keeps.agrees_join h.1 u,
      agreesAll_joinAll h.2 (Nat.succ.inj hv) (Nat.succ.inj hu)]
    rfl

end

mutual

/-- What agrees with two branches agrees with their type. -/
theorem agrees_join : ∀ {t u v : Ty}, t.agrees v = true → u.agrees v = true →
    (t.join u).agrees v = true
  | unknown, u, v, _, hu => by rwa [join]
  | app a ts, unknown, v, ht, _ => by rwa [join_unknown]
  | app a ts, app b us, unknown, _, _ => agrees_unknown _
  | app a ts, app b us, app c vs, ht, hu => by
    rw [agrees, Bool.and_eq_true] at ht hu
    rw [join_app]
    split
    · rw [agrees, ht.1, agreesAll_joinAll_of_agreesAll ht.2 hu.2]
      rfl
    · rw [agrees]
  | app a ts, app b us, con _, ht, _ | app a ts, app b us, tuple _, ht, _
  | app a ts, app b us, array _, ht, _ | app a ts, app b us, record _ _, ht, _
  | app a ts, app b us, func _ _, ht, _ => by
    rw [(join_app_whole a ts (by simp) rfl).1] at ht
    cases ht
  | app a ts, con _, v, _, _ | app a ts, tuple _, v, _, _ | app a ts, array _, v, _, _
  | app a ts, record _ _, v, _, _ | app a ts, func _ _, v, _, _ => by
    rw [(join_app_whole a ts (by simp) rfl).2, agrees]
  | con _, u, v, ht, _ | tuple _, u, v, ht, _ | array _, u, v, ht, _ | record _ _, u, v, ht, _
  | func _ _, u, v, ht, _ => by
    rw [join_whole (by simp) rfl]
    split
    · exact ht
    · rw [agrees]

theorem agreesAll_joinAll_of_agreesAll : ∀ {ts us vs : List Ty}, agreesAll ts vs = true →
    agreesAll us vs = true → agreesAll (joinAll ts us) vs = true
  | [], [], [], _, _ => by simp [joinAll, agreesAll]
  | [], _, _ :: _, h, _ | _, [], _ :: _, _, h | _ :: _, _, [], h, _ | _, _ :: _, [], _, h => by
    simp [agreesAll] at h
  | t :: ts, u :: us, v :: vs, ht, hu => by
    rw [agreesAll, Bool.and_eq_true] at ht hu
    rw [joinAll, agreesAll, agrees_join ht.1 hu.1, agreesAll_joinAll_of_agreesAll ht.2 hu.2]
    rfl

end

/-! ### Any number of branches -/

/-- What `t` says of the branches before `ts` is not disputed by one of `ts`, or only by one that no
branch follows that adds anything to what is left. -/
def Settled : Ty → List Ty → Prop
  | _, [] => True
  | t, u :: us => (t.agrees u = true ∧ Settled (t.join u) us) ∨ ∀ v ∈ us, (t.join u).Keeps v

/-- Branches that add nothing leave a type as it is. -/
theorem foldl_join_of_keeps {t : Ty} {us : List Ty} (h : ∀ u ∈ us, t.Keeps u) :
    us.foldl join t = t := by
  induction us with
  | nil => rfl
  | cons u us ih =>
    rw [List.foldl_cons, show t.join u = t from h u List.mem_cons_self]
    exact ih fun v hv => h v (List.mem_cons_of_mem u hv)

/-- **The type of settled branches agrees with each of them**, and with all that was kept before
them. -/
theorem Settled.agrees {t : Ty} {us : List Ty} (h : t.Settled us) :
    (∀ v, t.Keeps v → (us.foldl join t).agrees v = true) ∧
      ∀ u ∈ us, (us.foldl join t).agrees u = true := by
  induction us generalizing t with
  | nil => exact ⟨fun _ hv => hv.agrees, nofun⟩
  | cons u us ih =>
    rw [List.foldl_cons, List.forall_mem_cons]
    rcases h with ⟨hagrees, hrest⟩ | hlast
    · obtain ⟨hkept, hus⟩ := ih hrest
      exact ⟨fun v hv => hkept v (hv.join hagrees), hkept u (keeps_join_right hagrees), hus⟩
    · rw [foldl_join_of_keeps hlast]
      exact ⟨fun v hv => hv.agrees_join u, agrees_join_right t u, fun v hv => (hlast v hv).agrees⟩

end Ty

/-! ### Matches and arrays -/

theorem branchType_eq (ts : List Ty) : branchType ts = ts.foldl Ty.join .unknown := by
  cases ts with
  | nil => rfl
  | cons t ts => rw [branchType, List.foldl_cons, Ty.join]

/-- The types of the bodies of a match. -/
def bodyTypes (env : Env) (scope : Scope) (target : Surface.Expr)
    (arms : List (Arm Surface.Pattern Surface.Expr)) : List Ty :=
  (typeArms env scope (typeExpr env scope target).ty arms).map armType

/-- The types of the elements of an array. -/
def elementTypes (env : Env) (scope : Scope) (es : List Surface.Expr) : List Ty :=
  (typeExprs env scope es).map Typed.Expr.ty

theorem ty_select (env : Env) (scope : Scope) (m : Surface.Mark) (target : Surface.Expr)
    (arms : List (Arm Surface.Pattern Surface.Expr)) :
    (typeExpr env scope (.select m target arms)).ty =
      (bodyTypes env scope target arms).foldl Ty.join .unknown := by
  rw [typeExpr, ← branchType_eq]
  rfl

theorem ty_array (env : Env) (scope : Scope) (m : Surface.Mark) (es : List Surface.Expr) :
    (typeExpr env scope (.array m es)).ty =
      .array ((elementTypes env scope es).foldl Ty.join .unknown) := by
  rw [typeExpr]
  rfl

/-- **The type of a match, and that of the elements of an array, contradicts no branch if the branches
are settled**: they are if they agree with one another, or if nothing comes after the first that
contradicts those before it but branches that add nothing. -/
theorem branches_agree (env : Env) (scope : Scope) (m : Surface.Mark) :
    (∀ target arms, Ty.unknown.Settled (bodyTypes env scope target arms) →
      ∀ a ∈ typeArms env scope (typeExpr env scope target).ty arms,
        (typeExpr env scope (.select m target arms)).ty.agrees a.body.ty = true) ∧
    ∀ es, Ty.unknown.Settled (elementTypes env scope es) →
      ∃ t, (typeExpr env scope (.array m es)).ty = .array t ∧
        ∀ e ∈ typeExprs env scope es, t.agrees e.ty = true := by
  constructor
  · intro target arms h a ha
    rw [ty_select]
    exact h.agrees.2 (armType a) (List.mem_map_of_mem ha)
  · intro es h
    exact ⟨_, ty_array env scope m es, fun e he => h.agrees.2 e.ty (List.mem_map_of_mem he)⟩

/-- An arm without a guard and an alias. -/
def plainArm (p : Surface.Pattern) (body : Surface.Expr) : Arm Surface.Pattern Surface.Expr :=
  ⟨default, p, none, false, none, body⟩

/-- The bodies `Some(1)`, `None`, `"a"` and `x`, where nothing is known of `x`. -/
def optionalArms : List (Arm Surface.Pattern Surface.Expr) :=
  [plainArm (.literal default (.int 1)) (.construct default "Some" [.literal default (.int 1)]),
   plainArm (.literal default (.int 2)) (.construct default "None" []),
   plainArm (.literal default (.int 3)) (.literal default (.text "a")),
   plainArm (.wildcard default) (.ident default "x")]

/-- The third body contradicts the first two, and the last adds nothing. -/
theorem branches_agree_optional :
    Ty.unknown.Settled (bodyTypes ⟨.builtin, [], []⟩ [] (.ident default "x") optionalArms) ∧
    ∀ a ∈ typeArms ⟨.builtin, [], []⟩ [] .unknown optionalArms,
      (typeExpr ⟨.builtin, [], []⟩ [] (.select default (.ident default "x") optionalArms)).ty.agrees
        a.body.ty = true := by
  have hsettled : Ty.unknown.Settled
      (bodyTypes ⟨.builtin, [], []⟩ [] (.ident default "x") optionalArms) := by
    refine .inl ⟨rfl, .inl ⟨rfl, .inr fun v hv => ?_⟩⟩
    rw [List.mem_singleton.mp hv]
    rfl
  exact ⟨hsettled, (branches_agree ⟨.builtin, [], []⟩ [] default).1 _ _ hsettled⟩

/-- The constants `1`, `"a"` and `true`. -/
def mixedConstants : List Surface.Expr :=
  [.literal default (.int 1), .literal default (.text "a"), .literal default (.bool true)]

/-- Where two branches contradict each other nothing is known, and what a third says is taken for the
type of all: `1`, `"a"` and `true` give the type of `true`. -/
theorem branches_contradict :
    ¬ (∀ env scope m target arms,
      ∀ a ∈ typeArms env scope (typeExpr env scope target).ty arms,
        (typeExpr env scope (.select m target arms)).ty.agrees a.body.ty = true) ∧
    ¬ (∀ env scope m es, ∃ t, (typeExpr env scope (.array m es)).ty = .array t ∧
        ∀ e ∈ typeExprs env scope es, t.agrees e.ty = true) := by
  constructor
  · intro h
    have hfirst := h ⟨.builtin, [], []⟩ [] default (.literal default (.int 1))
      (mixedConstants.map (plainArm (.wildcard default))) _ List.mem_cons_self
    cases hfirst
  · intro h
    obtain ⟨t, ht, hall⟩ := h ⟨.builtin, [], []⟩ [] default mixedConstants
    cases ht
    cases hall _ List.mem_cons_self

end PatternPlan
