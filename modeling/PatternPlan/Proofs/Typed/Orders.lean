import PatternPlan.Proofs.Surface.ArmOrder
import PatternPlan.Proofs.Surface.Recovery
import PatternPlan.Proofs.Typed.Places

/-!
# An alias and a guard in either order

The arms `p as x when g -> b` and `p when g as x -> b` are the same arm.

* `Interchangeable` — arms that are typed alike, with an alias in scope in both guards, and have the same plan;
* `alias_guard_commute` — **one order is accepted if and only if the other is, and then the arms are the same
  up to places and interchangeable**.
-/

namespace PatternPlan.Surface

open PatternPlan.Surface.Parser

/-- Two arms with the alias `name` that are the same in whatever match they stand: they are typed alike, the
alias is in scope where their guards are typed, and the plan of the match is the same. -/
structure Interchangeable (name : String) (m n : Arm Pattern Expr) : Prop where
  typed : ∀ (env : Env) (scope : Scope) (target : Ty),
    (typeArms env scope target [n]).map Typed.unplacedArm = (typeArms env scope target [m]).map Typed.unplacedArm
  guards : ∀ a ∈ [m, n], ∀ (env : Env) (scope : Scope) (target : Ty),
    (typeArms env scope target [a]).map Arm.guard
      = [a.guard.map (typeExpr env ((name, target) :: (typePattern env a.pattern target scope).2))]
  plan : ∀ (env : Env) (scope : Scope) (o : Placeholders) (owner : String) (span span' : Span)
    (target : Typed.Expr) (before before' after after' : List (Arm Pattern Expr)),
    before.map Expr.eraseArm = before'.map Expr.eraseArm → after.map Expr.eraseArm = after'.map Expr.eraseArm →
    Plan.ofMatch o owner ⟨span', target, typeArms env scope target.ty (before' ++ n :: after')⟩
      = { Plan.ofMatch o owner ⟨span, target, typeArms env scope target.ty (before ++ m :: after)⟩ with
            span := span' }

/-- The alias is in scope where the guard is typed, in front of the names of the pattern. -/
theorem guard_typed {name : String} {m : Arm Pattern Expr} (h : m.asName.map Alias.name = some name) (env : Env)
    (scope : Scope) (target : Ty) : (typeArms env scope target [m]).map Arm.guard
      = [m.guard.map (typeExpr env ((name, target) :: (typePattern env m.pattern target scope).2))] := by
  obtain ⟨span, p, guard, usedIf, asName, body⟩ := m
  obtain ⟨x, rfl, rfl⟩ := Option.map_eq_some_iff.mp h
  rw [typeArms_cons]
  rfl

/-- Arms that are the same up to places are interchangeable. -/
theorem interchangeable_of_erase {name : String} {m n : Arm Pattern Expr} (h : Expr.eraseArm n = Expr.eraseArm m)
    (hname : m.asName.map Alias.name = some name) : Interchangeable name m n := by
  have hname' : n.asName.map Alias.name = some name := by
    have hsame : n.asName.map eraseAlias = m.asName.map eraseAlias := congrArg Arm.asName h
    have hnames := congrArg (Option.map Alias.name) hsame
    rw [Option.map_map, Option.map_map] at hnames
    exact hnames.trans hname
  refine ⟨fun env scope target => typeArms_same env ?_ scope target, ?_, ?_⟩
  · rw [List.map_singleton, List.map_singleton, h]
  · intro a ha env scope target
    rcases List.mem_pair.mp ha with rfl | rfl
    · exact guard_typed hname env scope target
    · exact guard_typed hname' env scope target
  · intro env scope o owner span span' target before before' after after' hbefore hafter
    refine Plan.ofMatch_same (typeArms_same env ?_ scope target.ty) o owner span span' target
    rw [List.map_append, List.map_append, List.map_cons, List.map_cons, h, hbefore, hafter]

/-- **An alias and a guard commute.**  Take the tokens of a pattern, of an expression and of anything behind an
arrow, each on lines of its own, where the pattern and the expression are accepted with the levels of nesting
that the arm has left.  The arm with the alias first is accepted if and only if the arm with the guard first is,
which is when its body is; the two have the same pattern, guard, alias, keyword and body, they are typed alike,
the alias being in scope where the guard is typed, and any match has the same plan with one as with the other. -/
theorem alias_guard_commute {room depth : Nat} {a b : ArmTokens} {p : Pattern} {g : Expr} {s t : State}
    (ha : a.Formed) (hlike : a.Like b) (hp : ReadsAll (orWithin room) depth a.pattern p)
    (hg : ReadsAll (exprWithin room Precedence.lowest) depth a.guard g)
    (hs : s.Holds a.aliasFirst a.eof depth) (ht : t.Holds b.guardFirst b.eof depth) :
    ((∃ m u, Accepts (arm (exprWithin room) (orWithin room)) s m u) ↔
      ∃ n v, Accepts (arm (exprWithin room) (orWithin room)) t n v) ∧
    ((∃ m u, Accepts (arm (exprWithin room) (orWithin room)) s m u) ↔
      ∃ e u, Accepts (exprWithin room Precedence.lowest) { s with tokens := a.rest } e u) ∧
    ∀ m u n v, Accepts (arm (exprWithin room) (orWithin room)) s m u →
      Accepts (arm (exprWithin room) (orWithin room)) t n v →
      Expr.eraseArm n = Expr.eraseArm m ∧ a.Says p g m ∧ Interchangeable a.name.text m n := by
  obtain ⟨hiff, hbody, hsame⟩ := arm_orders ha hlike hp hg hs ht
  refine ⟨hiff, hbody, fun m u n v hm hn => ?_⟩
  obtain ⟨herase, hsays⟩ := hsame m u n v hm hn
  exact ⟨herase, hsays, interchangeable_of_erase herase hsays.asName⟩

/-- An arm with its alias first. -/
def aliasSource : Text := .ofString "| Some(n) as x when n > 0\n  -> n"

/-- The same arm with its guard first, on more lines. -/
def guardSource : Text := .ofString "| Some(n)\n  when n > 0\n  as x -> n"

/-- The tokens of `aliasSource`. -/
def aliasTokens : ArmTokens :=
  let ts := (lex aliasSource).tokens
  { bar := ts[0]!, pattern := (ts.drop 1).take 4, asWord := ts[5]!, name := ts[6]!, keyword := ts[7]!,
    guard := (ts.drop 8).take 3, arrow := ts[11]!, rest := ts.drop 12, eof := (lex aliasSource).eof }

/-- The tokens of `guardSource`. -/
def guardTokens : ArmTokens :=
  let ts := (lex guardSource).tokens
  { bar := ts[0]!, pattern := (ts.drop 1).take 4, keyword := ts[5]!, guard := (ts.drop 6).take 3,
    asWord := ts[9]!, name := ts[10]!, arrow := ts[11]!, rest := ts.drop 12, eof := (lex guardSource).eof }

/-- The tokens of a source, one level down, as in a match. -/
def insideMatch (source : Text) : State := { State.of (lex source) with depth := 1 }

theorem alias_guard_commute_payload :
    aliasTokens.Formed ∧ aliasTokens.Like guardTokens ∧
    (insideMatch aliasSource).Holds aliasTokens.aliasFirst aliasTokens.eof 1 ∧
    (insideMatch guardSource).Holds guardTokens.guardFirst guardTokens.eof 1 ∧
    ∃ p g, ReadsAll (orWithin 255) 1 aliasTokens.pattern p ∧
      ReadsAll (exprWithin 255 Precedence.lowest) 1 aliasTokens.guard g ∧
      ∃ m u n v, Accepts (arm (exprWithin 255) (orWithin 255)) (insideMatch aliasSource) m u ∧
        Accepts (arm (exprWithin 255) (orWithin 255)) (insideMatch guardSource) n v ∧
        Expr.eraseArm n = Expr.eraseArm m ∧ aliasTokens.Says p g m ∧ Interchangeable "x" m n := by
  have hformed : aliasTokens.Formed := by decide +kernel
  have hlike : aliasTokens.Like guardTokens := by
    have h : List.Forall₂ (Token.Shifted 0) aliasTokens.pattern guardTokens.pattern ∧
        aliasTokens.asWord.Shifted 2 guardTokens.asWord ∧ aliasTokens.name.Shifted 2 guardTokens.name ∧
        aliasTokens.keyword.Shifted 1 guardTokens.keyword ∧
        List.Forall₂ (Token.Shifted 1) aliasTokens.guard guardTokens.guard ∧
        aliasTokens.arrow.Shifted 1 guardTokens.arrow ∧
        List.Forall₂ (Token.Shifted 1) aliasTokens.rest guardTokens.rest ∧
        aliasTokens.eof.Shifted 1 guardTokens.eof := by decide +kernel
    obtain ⟨hpattern, has, hname, hkeyword, hguard, harrow, hrest⟩ := h
    exact ⟨⟨0, hpattern⟩, ⟨2, has⟩, ⟨2, hname⟩, ⟨1, hkeyword⟩, ⟨1, hguard⟩, ⟨1, harrow⟩, ⟨1, hrest⟩⟩
  have hs : (insideMatch aliasSource).Holds aliasTokens.aliasFirst aliasTokens.eof 1 :=
    ⟨by decide +kernel, rfl, rfl, (whole_lex aliasSource).tokens, (whole_lex aliasSource).eof⟩
  have ht : (insideMatch guardSource).Holds guardTokens.guardFirst guardTokens.eof 1 :=
    ⟨by decide +kernel, rfl, rfl, (whole_lex guardSource).tokens, (whole_lex guardSource).eof⟩
  obtain ⟨p, hp⟩ : ∃ p, ReadsAll (orWithin 255) 1 aliasTokens.pattern p := by
    refine readsAll_of_run (s := { tokens := aliasTokens.pattern, eof := aliasTokens.eof, depth := 1 })
      ⟨⟨?_, ?_⟩, rfl⟩ ?_ <;> decide +kernel
  obtain ⟨g, hg⟩ : ∃ g, ReadsAll (exprWithin 255 Precedence.lowest) 1 aliasTokens.guard g := by
    refine readsAll_of_run (s := { tokens := aliasTokens.guard, eof := aliasTokens.eof, depth := 1 })
      ⟨⟨?_, ?_⟩, rfl⟩ ?_ <;> decide +kernel
  obtain ⟨e, he⟩ : ∃ e, Accepts (exprWithin 255 Precedence.lowest)
      { insideMatch aliasSource with tokens := aliasTokens.rest } e _ := accepts_of_run (by decide +kernel)
  have hname : aliasTokens.name.text = "x" := by decide +kernel
  obtain ⟨hiff, hbody, hsame⟩ := alias_guard_commute hformed hlike hp hg hs ht
  obtain ⟨m, u, hm⟩ := hbody.mpr ⟨e, _, he⟩
  obtain ⟨n, v, hn⟩ := hiff.mp ⟨m, u, hm⟩
  obtain ⟨herase, hsays, halike⟩ := hsame m u n v hm hn
  exact ⟨hformed, hlike, hs, ht, p, g, hp, hg, m, u, n, v, hm, hn, herase, hsays, hname ▸ halike⟩

end PatternPlan.Surface
