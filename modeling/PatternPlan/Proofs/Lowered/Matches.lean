import PatternPlan.Proofs.Lowered.Table
import PatternPlan.Typed.Typing

/-!
# No match is lost

A match is found by three traversals: in the tree as written, in the typed tree, and by flattening.
They agree on the matches there are and on what a plan says about each.

* `Summary` — what a plan keeps of a match: its owner, its place, and the guard and alias of each
  arm;
* `summaries_typeExpr` — typing keeps the matches of an expression, in order;
* `summaries_decls` — the matches of a file, sorted by the declarations they stand in;
* `plans_flatten` — the rows of an expression hold the plans of its matches;
* `matches_preserved` — **the matches of a file, of its typed module and of its plans are the same,
  and the plans of a declaration are those its rows hold**.
-/

namespace PatternPlan

/-- What a plan keeps of a match. -/
structure Summary where
  owner : String
  span : Span
  armCount : Int
  arms : List (Bool × String)
deriving DecidableEq

/-- Whether an arm has a guard, and the name it gives to the target; empty if it gives none. -/
def Arm.summary {π ε : Type} (a : Arm π ε) : Bool × String :=
  (a.guard.isSome, (a.asName.map Alias.name).getD "")

def Surface.Match.summary (owner : String) (m : Surface.Match) : Summary :=
  ⟨owner, m.mark.span, m.arms.length, m.arms.map Arm.summary⟩

def Typed.Match.summary (owner : String) (m : Typed.Match) : Summary :=
  ⟨owner, m.span, m.arms.length, m.arms.map Arm.summary⟩

def Plan.summary (p : Plan) : Summary :=
  ⟨p.owner, p.span, p.armCount, p.armList.map fun a => (a.hasGuard, a.asName)⟩

theorem Plan.summary_ofMatch (o : Placeholders) (owner : String) (m : Typed.Match) :
    (ofMatch o owner m).summary = m.summary owner := by
  have harm : ∀ a : Arm Typed.Pattern Typed.Expr,
      ((arm a).hasGuard, (arm a).asName) = a.summary := by
    rintro ⟨span, p, guard, usedIf, asName, body⟩
    cases asName with
    | none => rfl
    | some x => rfl
  show Summary.mk owner m.span m.arms.length ((m.arms.map arm).map _) = _
  rw [List.map_map]
  exact congrArg (Summary.mk owner m.span m.arms.length) (List.map_congr_left fun a _ => harm a)

/-! ### Typing -/

section Typing

variable (env : Env) (owner : String)

theorem summary_typeArms (scope : Scope) (target : Ty)
    (arms : List (Arm Surface.Pattern Surface.Expr)) :
    (typeArms env scope target arms).map Arm.summary = arms.map Arm.summary := by
  induction arms with
  | nil => rfl
  | cons a arms ih =>
    obtain ⟨span, p, guard, usedIf, asName, body⟩ := a
    rw [typeArms.eq_def, List.map_cons, List.map_cons, ih]
    cases guard with
    | none => rfl
    | some g => rfl

mutual

/-- **Typing keeps the matches of an expression**, in order. -/
theorem summaries_typeExpr (scope : Scope) (e : Surface.Expr) :
    (typeExpr env scope e).allMatches.map (Typed.Match.summary owner)
      = e.allMatches.map (Surface.Match.summary owner) := by
  cases e with
  | ident m n => rfl
  | literal m v => rfl
  | construct m n es => exact summaries_typeExprs scope es
  | call m f es =>
    rw [typeExpr, Typed.Expr.allMatches, Surface.Expr.allMatches, List.map_append, List.map_append,
      summaries_typeExpr scope f, summaries_typeExprs scope es]
  | unary m op e => exact summaries_typeExpr scope e
  | binary m op l r =>
    rw [typeExpr, Typed.Expr.allMatches, Surface.Expr.allMatches, List.map_append, List.map_append,
      summaries_typeExpr scope l, summaries_typeExpr scope r]
  | cond m c y n =>
    have hc := summaries_typeExpr scope c
    have hy := summaries_typeExpr scope y
    cases n with
    | none =>
      simp only [typeExpr, Typed.Expr.allMatches, Surface.Expr.allMatches, List.map_append, hc, hy,
        Typed.Expr.allMatchesOfOption, Surface.Expr.allMatchesOfOption]
      rfl
    | some n =>
      have hn := summaries_typeExpr scope n
      simp only [typeExpr, Typed.Expr.allMatches, Surface.Expr.allMatches, List.map_append, hc, hy,
        Typed.Expr.allMatchesOfOption, Surface.Expr.allMatchesOfOption, hn]
  | select m t arms =>
    have ht := summaries_typeExpr scope t
    have hinside := summaries_typeArms scope (typeExpr env scope t).ty arms
    have hself : Typed.Match.summary owner
        ⟨m.span, typeExpr env scope t, typeArms env scope (typeExpr env scope t).ty arms⟩
          = Surface.Match.summary owner ⟨m, t, arms⟩ := by
      rw [Typed.Match.summary, Surface.Match.summary, length_typeArms, summary_typeArms]
    simp only [typeExpr, Typed.Expr.allMatches, Surface.Expr.allMatches, List.map_cons,
      List.map_append, ht, hinside, hself]
  | block m lets r =>
    have hlets := summaries_typeLets scope lets
    cases r with
    | none =>
      simp only [typeExpr, Typed.Expr.allMatches, Surface.Expr.allMatches, List.map_append, hlets,
        Typed.Expr.allMatchesOfOption, Surface.Expr.allMatchesOfOption]
      rfl
    | some e =>
      have he := summaries_typeExpr (typeLets env scope lets).2 e
      simp only [typeExpr, Typed.Expr.allMatches, Surface.Expr.allMatches, List.map_append, hlets,
        Typed.Expr.allMatchesOfOption, Surface.Expr.allMatchesOfOption, he]
  | perform m n es => exact summaries_typeExprs scope es
  | tuple m es => exact summaries_typeExprs scope es
  | array m es => exact summaries_typeExprs scope es
  | record m fs => exact summaries_typeRecord scope fs
  | field m e n => exact summaries_typeExpr scope e

theorem summaries_typeExprs (scope : Scope) (es : List Surface.Expr) :
    (Typed.Expr.allMatchesOfList (typeExprs env scope es)).map (Typed.Match.summary owner)
      = (Surface.Expr.allMatchesOfList es).map (Surface.Match.summary owner) := by
  cases es with
  | nil => rfl
  | cons e es =>
    rw [typeExprs, Typed.Expr.allMatchesOfList, Surface.Expr.allMatchesOfList, List.map_append,
      List.map_append, summaries_typeExpr scope e, summaries_typeExprs scope es]

theorem summaries_typeLets (scope : Scope) (lets : List (String × Surface.Expr)) :
    (Typed.Expr.allMatchesOfFields (typeLets env scope lets).1).map (Typed.Match.summary owner)
      = (Surface.Expr.allMatchesOfFields lets).map (Surface.Match.summary owner) := by
  cases lets with
  | nil => rfl
  | cons l lets =>
    obtain ⟨n, e⟩ := l
    rw [typeLets, Typed.Expr.allMatchesOfFields, Surface.Expr.allMatchesOfFields, List.map_append,
      List.map_append, summaries_typeExpr scope e, summaries_typeLets _ lets]

theorem summaries_typeRecord (scope : Scope) (fs : List (String × Surface.Expr)) :
    (Typed.Expr.allMatchesOfFields (typeRecord env scope fs)).map (Typed.Match.summary owner)
      = (Surface.Expr.allMatchesOfFields fs).map (Surface.Match.summary owner) := by
  cases fs with
  | nil => rfl
  | cons f fs =>
    obtain ⟨n, e⟩ := f
    rw [typeRecord, Typed.Expr.allMatchesOfFields, Surface.Expr.allMatchesOfFields,
      List.map_append, List.map_append, summaries_typeExpr scope e, summaries_typeRecord scope fs]

theorem summaries_typeArms (scope : Scope) (target : Ty)
    (arms : List (Arm Surface.Pattern Surface.Expr)) :
    (Typed.Expr.allMatchesOfArms (typeArms env scope target arms)).map (Typed.Match.summary owner)
      = (Surface.Expr.allMatchesOfArms arms).map (Surface.Match.summary owner) := by
  cases arms with
  | nil => rfl
  | cons a arms =>
    obtain ⟨span, p, guard, usedIf, asName, body⟩ := a
    rw [typeArms.eq_def]
    simp only [Typed.Expr.allMatchesOfArms, Surface.Expr.allMatchesOfArms]
    simp only [List.map_append, summaries_typeArms scope target arms,
      summaries_typeExpr _ body]
    cases guard with
    | none => rfl
    | some g =>
      simp only [Typed.Expr.allMatchesOfOption, Surface.Expr.allMatchesOfOption,
        summaries_typeExpr _ g]

end

end Typing

/-- The owner of the matches in a declaration. -/
def Surface.Decl.owner (o : Placeholders) : Surface.Decl → String
  | .function f => Plan.functionOwner f.name
  | .recognizer r => Plan.recognizerOwner r.name
  | .type _ | .expr _ _ => o.inlineOwner

/-- The matches of a declaration, under its owner. -/
def Surface.Decl.summaries (o : Placeholders) (d : Surface.Decl) : List Summary :=
  (d.body?.toList.flatMap Surface.Expr.allMatches).map (Surface.Match.summary (d.owner o))

/-- The matches of a typed body, under an owner. -/
def Typed.Expr.summaries (owner : String) (e : Typed.Expr) : List Summary :=
  e.allMatches.map (Typed.Match.summary owner)

section Files

variable (o : Placeholders)

theorem summaries_typeFunctions (types : TypeTable) (payloads : List (String × Ty))
    (done : List Typed.Function) (fs : List Surface.Function) :
    (typeFunctions types payloads done fs).map (fun f =>
        f.body.summaries (Plan.functionOwner f.name))
      = done.map (fun f => f.body.summaries (Plan.functionOwner f.name))
        ++ fs.map fun f => Surface.Decl.summaries o (.function f) := by
  induction fs generalizing done with
  | nil => rw [typeFunctions, List.map_nil, List.append_nil]
  | cons f fs ih =>
    rw [typeFunctions, ih, List.map_append, List.append_assoc]
    refine congrArg (List.map _ done ++ ·) (congrArg (· :: _) ?_)
    refine (summaries_typeExpr _ _ _ f.body).trans ?_
    exact congrArg (List.map _) (List.append_nil _).symm

theorem summaries_typeRecognizers (types : TypeTable) (functions : List Signature)
    (done : List Typed.Recognizer) (rs : List Surface.Recognizer) :
    (typeRecognizers types functions done rs).map (fun r =>
        r.body.summaries (Plan.recognizerOwner r.name))
      = done.map (fun r => r.body.summaries (Plan.recognizerOwner r.name))
        ++ rs.map fun r => Surface.Decl.summaries o (.recognizer r) := by
  induction rs generalizing done with
  | nil => rw [typeRecognizers, List.map_nil, List.append_nil]
  | cons r rs ih =>
    rw [typeRecognizers, ih, List.map_append, List.append_assoc]
    refine congrArg (List.map _ done ++ ·) (congrArg (· :: _) ?_)
    refine (summaries_typeExpr _ _ _ r.body).trans ?_
    exact congrArg (List.map _) (List.append_nil _).symm

/-- The matches of the typed module of a file, by kinds of declarations. -/
theorem summaries_typeProgram (file : String) (p : Surface.Program) :
    (typeProgram file p).1.functions.flatMap (fun f =>
        f.body.summaries (Plan.functionOwner f.name))
      = p.functions.flatMap (fun f => Surface.Decl.summaries o (.function f)) ∧
    (typeProgram file p).1.recognizers.flatMap (fun r =>
        r.body.summaries (Plan.recognizerOwner r.name))
      = p.recognizers.flatMap (fun r => Surface.Decl.summaries o (.recognizer r)) ∧
    (typeProgram file p).1.inline.flatMap (Typed.Expr.summaries o.inlineOwner)
      = p.expressions.flatMap fun e => e.allMatches.map (Surface.Match.summary o.inlineOwner) := by
  refine ⟨?_, ?_, ?_⟩
  · rw [List.flatMap_def, List.flatMap_def]
    exact congrArg List.flatten (summaries_typeFunctions o _ _ [] p.functions)
  · rw [List.flatMap_def, List.flatMap_def]
    exact congrArg List.flatten (summaries_typeRecognizers o _ _ [] p.recognizers)
  · show (p.expressions.map _).flatMap _ = _
    rw [List.flatMap_map]
    exact List.flatMap_congr fun e _ => summaries_typeExpr _ _ [] e

/-- The matches of a file, sorted by the kind of the declaration they stand in. -/
theorem summaries_decls (p : Surface.Program) :
    (p.decls.flatMap (Surface.Decl.summaries o)).Perm
      (p.functions.flatMap (fun f => Surface.Decl.summaries o (.function f))
        ++ p.recognizers.flatMap (fun r => Surface.Decl.summaries o (.recognizer r))
        ++ p.expressions.flatMap fun e =>
          e.allMatches.map (Surface.Match.summary o.inlineOwner)) := by
  obtain ⟨header, uses, decls⟩ := p
  simp only [Surface.Program.functions, Surface.Program.recognizers, Surface.Program.expressions]
  induction decls with
  | nil => exact .nil
  | cons d ds ih =>
    rw [List.flatMap_cons]
    refine (ih.append_left _).trans ?_
    cases d with
    | function f => simp
    | recognizer r =>
      simp only [List.filterMap_cons, List.flatMap_cons, List.append_assoc]
      rw [← List.append_assoc, ← List.append_assoc (List.flatMap _ _)]
      exact List.perm_append_comm.append_right _
    | type t =>
      simp only [List.filterMap_cons]
      exact .refl _
    | expr m e =>
      simp only [List.filterMap_cons, List.flatMap_cons]
      rw [← List.append_assoc]
      have hself : Surface.Decl.summaries o (.expr m e)
          = e.allMatches.map (Surface.Match.summary o.inlineOwner) :=
        congrArg (List.map _) (List.append_nil _)
      rw [hself]
      exact (List.perm_append_comm.append_right _).trans (.of_eq (List.append_assoc _ _ _))

end Files

/-! ### Rows -/

namespace Lowered

/-- The plans that the rows of a table hold. -/
def plansOf (rows : List Expr) : List Plan := rows.filterMap Expr.plan

theorem plansOf_append (rows more : List Expr) :
    plansOf (rows ++ more) = plansOf rows ++ plansOf more := List.filterMap_append

theorem plan_rowOf (s : Setting) (e : Typed.Expr) (refs : List Nat) :
    (rowOf s e refs).plan.toList
      = e.ownMatch.map (Plan.ofMatch s.placeholders s.owner) := by
  cases e with
  | _ => rfl

theorem plans_flattenList {s : Setting} {es : List Typed.Expr}
    (h : ∀ e ∈ es, ∀ start, (plansOf (flatten s start e).1).Perm
      (e.allMatches.map (Plan.ofMatch s.placeholders s.owner))) (start : Nat) :
    (plansOf (flattenList s start es).1).Perm
      ((es.flatMap Typed.Expr.allMatches).map (Plan.ofMatch s.placeholders s.owner)) := by
  induction es generalizing start with
  | nil => exact .nil
  | cons e es ih =>
    rw [flattenList_cons, plansOf_append, List.flatMap_cons, List.map_append]
    exact (h e List.mem_cons_self start).append
      (ih (fun c hc => h c (List.mem_cons_of_mem _ hc)) _)

/-- **The rows of an expression hold the plans of its matches**, inner ones before outer ones. -/
theorem plans_flatten (s : Setting) (e : Typed.Expr) (start : Nat) :
    (plansOf (flatten s start e).1).Perm
      (e.allMatches.map (Plan.ofMatch s.placeholders s.owner)) := by
  induction e using Typed.Expr.childInduction generalizing start with
  | h e ih =>
    have hparts := plans_flattenList ih start
    have hown : plansOf [{ rowOf s e (flattenList s start e.children).2 with
        id := start + (flattenList s start e.children).1.length }]
          = e.ownMatch.map (Plan.ofMatch s.placeholders s.owner) := by
      rw [← plan_rowOf s e (flattenList s start e.children).2, plansOf, List.filterMap_cons]
      dsimp only
      cases (rowOf s e (flattenList s start e.children).2).plan with
      | none => rfl
      | some p => rfl
    rw [flatten_eq, close, plansOf_append, hown, Typed.Expr.allMatches_eq, List.map_append]
    exact List.perm_append_comm.trans (hparts.append_left _)

end Lowered

/-! ### Whole files -/

section Modules

variable (o : Placeholders)

theorem span_summaries (owner : String) (e : Typed.Expr) :
    (e.summaries owner).map Summary.span = e.allMatches.map (·.span) := List.map_map

/-- The places of the matches of a file are those of its summaries. -/
theorem span_decls (p : Surface.Program) :
    (p.decls.flatMap (Surface.Decl.summaries o)).map Summary.span
      = p.allMatches.map (·.mark.span) := by
  rw [Surface.Program.allMatches, List.map_flatMap, List.map_flatMap]
  refine List.flatMap_congr fun d _ => ?_
  rw [Surface.Decl.summaries, List.map_map]
  cases d.body? with
  | none => rfl
  | some e => exact congrArg (List.map _) (List.append_nil _)

/-- The summaries of the plans of a module. -/
theorem summary_ofModule (m : Typed.Module) :
    (Plan.ofModule o m).map Plan.summary
      = m.functions.flatMap (fun f => f.body.summaries (Plan.functionOwner f.name))
        ++ m.recognizers.flatMap (fun r => r.body.summaries (Plan.recognizerOwner r.name))
        ++ m.inline.flatMap (Typed.Expr.summaries o.inlineOwner) := by
  have hbody : ∀ (owner : String) (e : Typed.Expr),
      (e.allMatches.map (Plan.ofMatch o owner)).map Plan.summary = e.summaries owner := by
    intro owner e
    rw [List.map_map]
    exact List.map_congr_left fun m _ => Plan.summary_ofMatch o owner m
  simp only [Plan.ofModule, List.map_append, List.map_flatMap, hbody]

/-- The places of the matches of a module, in any order of its declarations. -/
theorem span_allMatches (m : Typed.Module) :
    (m.allMatches.map (·.span)).Perm
      ((m.functions.flatMap (fun f => f.body.summaries (Plan.functionOwner f.name))
        ++ m.recognizers.flatMap (fun r => r.body.summaries (Plan.recognizerOwner r.name))
        ++ m.inline.flatMap (Typed.Expr.summaries o.inlineOwner)).map Summary.span) := by
  simp only [Typed.Module.allMatches, List.map_append, List.map_flatMap, span_summaries]
  exact List.perm_append_comm.append_right _

/-- The plans of a body belong to its owner, and the rows of the body hold them. -/
theorem plans_body (owner : String) (e : Typed.Expr) :
    (Lowered.plansOf (Lowered.flatten ⟨o, owner⟩ 0 e).1).Perm
        (e.allMatches.map (Plan.ofMatch o owner)) ∧
      ∀ q ∈ e.allMatches.map (Plan.ofMatch o owner), q.owner = owner := by
  refine ⟨Lowered.plans_flatten ⟨o, owner⟩ e 0, fun q hq => ?_⟩
  obtain ⟨m, -, rfl⟩ := List.mem_map.mp hq
  rfl

/-- **No match is lost or duplicated between a file and its plans.**  The matches of the tree, of the
typed module and of the plans have the same places; each plan says of its match what the match says
of itself, under the declaration it stands in; and the plans of the module fall into one part for
each function, each recognizer and the rest, where the part of a function or recognizer consists of
the plans that its rows hold. -/
theorem matches_preserved (file : String) (p : Surface.Program) :
    ((typeProgram file p).1.allMatches.map (·.span)).Perm (p.allMatches.map (·.mark.span)) ∧
    ((Plan.ofModule o (typeProgram file p).1).map (·.span)).Perm
      (p.allMatches.map (·.mark.span)) ∧
    ((Plan.ofModule o (typeProgram file p).1).map Plan.summary).Perm
      (p.decls.flatMap (Surface.Decl.summaries o)) ∧
    ∃ fs rs inline,
      (Lowered.Module.ofTyped o (typeProgram file p).1).plans
        = some (List.flatten fs ++ List.flatten rs ++ inline) ∧
      List.Forall₂ (fun f plans => (Lowered.plansOf (f.exprs.getD [])).Perm plans ∧
          ∀ q ∈ plans, q.owner = Plan.functionOwner f.name)
        ((Lowered.Module.ofTyped o (typeProgram file p).1).functions.getD []) fs ∧
      List.Forall₂ (fun r plans => (Lowered.plansOf (r.exprs.getD [])).Perm plans ∧
          ∀ q ∈ plans, q.owner = Plan.recognizerOwner r.name)
        ((Lowered.Module.ofTyped o (typeProgram file p).1).recognizers.getD []) rs ∧
      ∀ q ∈ inline, q.owner = o.inlineOwner := by
  obtain ⟨hfunctions, hrecognizers, hinline⟩ := summaries_typeProgram o file p
  have hplans : ((Plan.ofModule o (typeProgram file p).1).map Plan.summary).Perm
      (p.decls.flatMap (Surface.Decl.summaries o)) := by
    rw [summary_ofModule, hfunctions, hrecognizers, hinline]
    exact (summaries_decls o p).symm
  refine ⟨?_, ?_, hplans, ?_⟩
  · refine (span_allMatches o _).trans ?_
    rw [hfunctions, hrecognizers, hinline, ← span_decls o p]
    exact (summaries_decls o p).symm.map _
  · have hspans := hplans.map Summary.span
    rwa [span_decls, List.map_map] at hspans
  · generalize (typeProgram file p).1 = m
    refine ⟨m.functions.map fun f => f.body.allMatches.map
        (Plan.ofMatch o (Plan.functionOwner f.name)),
      m.recognizers.map fun r => r.body.allMatches.map
        (Plan.ofMatch o (Plan.recognizerOwner r.name)),
      m.inline.flatMap fun e => e.allMatches.map (Plan.ofMatch o o.inlineOwner), ?_, ?_, ?_, ?_⟩
    · rw [← List.flatMap_def, ← List.flatMap_def]
      rfl
    · show List.Forall₂ _ (m.functions.map (Lowered.Function.ofTyped o)) _
      rw [List.forall₂_map_left_iff, List.forall₂_map_right_iff]
      exact List.forall₂_same.mpr fun f _ => plans_body o (Plan.functionOwner f.name) f.body
    · show List.Forall₂ _ (m.recognizers.map (Lowered.Recognizer.ofTyped o)) _
      rw [List.forall₂_map_left_iff, List.forall₂_map_right_iff]
      exact List.forall₂_same.mpr fun r _ => plans_body o (Plan.recognizerOwner r.name) r.body
    · intro q hq
      obtain ⟨e, -, hq⟩ := List.mem_flatMap.mp hq
      exact (plans_body o o.inlineOwner e).2 q hq

end Modules

end PatternPlan
