import PatternPlan.Proofs.Surface.Repeats
import PatternPlan.Proofs.Surface.Constructs
import PatternPlan.Proofs.Surface.Writable

/-!
# Every construct is read the same way elsewhere

The rules of `Repeats`, used on every parser: on the same tokens further down a parser returns the
same tree but for places, unless it meets the nesting limit.

* `repeats_type`, `repeats_pattern`, `repeats_exprWithin` — types, patterns and expressions;
* `repeats_declaration` — **declarations**.
-/

namespace PatternPlan.Surface.Parser

variable {F : Prop} {k : Int}

/-- Lists that are the same but for places have one item both, or neither. -/
theorem SameBy.single {α γ : Type} {f : α → γ} {xs ys : List α} (h : SameBy (List.map f) xs ys) :
    (∃ a b, xs = [a] ∧ ys = [b] ∧ SameBy f a b) ∨ (∀ a, xs ≠ [a]) ∧ ∀ b, ys ≠ [b] := by
  have hlength : xs.length = ys.length := by
    simpa using congrArg List.length (show xs.map f = ys.map f from h)
  by_cases hone : xs.length = 1
  · obtain ⟨a, rfl⟩ := List.length_eq_one_iff.mp hone
    obtain ⟨b, rfl⟩ := List.length_eq_one_iff.mp (hlength ▸ hone)
    exact .inl ⟨a, b, rfl, rfl, List.head_eq_of_cons_eq h⟩
  · refine .inr ⟨?_, ?_⟩
    · rintro a rfl
      exact hone rfl
    · rintro b rfl
      exact hone hlength

/-! ### Types -/

theorem repeats_typeBody {inner inner' : Parser TypeExpr}
    (h : Repeats F k (SameBy TypeExpr.erase) inner inner') :
    Repeats F k (SameBy TypeExpr.erase) (typeBody inner) (typeBody inner') := by
  refine .bind repeats_current fun x y hxy => ?_
  rw [hxy.kind]
  split
  · -- a name and its arguments
    have hnamed : ∀ ts us, SameBy (List.map TypeExpr.erase) ts us →
        Repeats F k (SameBy TypeExpr.erase) (markFrom x >>= fun m => pure (.named m x.text ts))
          (markFrom y >>= fun m => pure (.named m y.text us)) := by
      intro ts us hts
      refine .seq (repeats_markFrom x y) fun m n => .pure ?_
      show TypeExpr.erase _ = TypeExpr.erase _
      rw [TypeExpr.erase, TypeExpr.erase, TypeExpr.eraseAll_eq, TypeExpr.eraseAll_eq, hxy.text, hts]
    exact .skipIf ((h.commaList _ _).bind hnamed) (hnamed [] [] rfl)
  · refine .bind (h.commaListOrNone _ _) fun ts us hts => ?_
    rcases hts.single with ⟨a, b, rfl, rfl, hab⟩ | ⟨hts', hus'⟩
    · exact .pure hab
    · split
      · exact absurd rfl (hts' _)
      · refine .seq (repeats_markFrom x y) fun m n => .pure ?_
        show TypeExpr.erase _ = TypeExpr.erase _
        rw [TypeExpr.erase, TypeExpr.erase, TypeExpr.eraseAll_eq, TypeExpr.eraseAll_eq, hts]
  · refine .seq repeats_advance fun _ _ => .bind h fun t u htu => ?_
    refine .seq (repeats_expect _ _) fun _ _ => .seq (repeats_markFrom x y) fun m n => .pure ?_
    show TypeExpr.erase _ = TypeExpr.erase _
    rw [TypeExpr.erase, TypeExpr.erase, htu]
  · exact repeats_reject (by decide) _ _ _ _

theorem repeats_typeWithin (fuel : Nat) :
    Repeats F k (SameBy TypeExpr.erase) (typeWithin fuel) (typeWithin fuel) := by
  induction fuel with
  | zero => exact .fail
  | succ fuel ih => exact repeats_typeBody ih

theorem repeats_type : Repeats F k (SameBy TypeExpr.erase) type type := by
  intro s t hst
  show F ∧ Refused t (typeWithin (t.tokens.length + 1) t) ∨
    Matched k _ s t (typeWithin (s.tokens.length + 1) s) (typeWithin (t.tokens.length + 1) t)
  rw [hst.length]
  exact repeats_typeWithin _ s t hst

/-- The token behind the current one, which must be there. -/
theorem Repeats.expected {α β : Type} {R : α → β → Prop} {kind : TokenKind} {expected : String}
    {f : Token → Parser α} {g : Token → Parser β}
    (h : ∀ x y, x.Shifted k y → Repeats F k R (f x) (g y)) :
    Repeats F k R (expect kind expected >>= fun _ => current >>= f)
      (expect kind expected >>= fun _ => current >>= g) :=
  .seq (repeats_expect _ _) fun _ _ => .bind repeats_current h

theorem repeats_recordTypeFields : Repeats F k (SameBy (List.map fun f => (f.1, f.2.erase)))
    recordTypeFields recordTypeFields := by
  refine .iterate (S := SameBy (List.map fun f => (f.1, f.2.erase))) rfl fun fs gs hfs => ?_
  refine .decided (repeats_nextIs _) (.pure (.done hfs)) ?_
  refine .expected fun x y hxy => ?_
  rw [hxy.text]
  refine .seq (repeats_expect _ _) fun _ _ => .seq repeats_advance fun _ _ => ?_
  refine .bind repeats_type fun t u htu => ?_
  have hfield : SameBy (fun f : String × TypeExpr => (f.1, f.2.erase)) (x.text, t) (x.text, u) :=
    congrArg (Prod.mk x.text) htu
  exact .skipIf (.pure (.again (hfs.snoc hfield))) (.pure (.done (hfs.snoc hfield)))

theorem repeats_variants : Repeats F k (SameBy (List.map Variant.erase)) variants variants := by
  refine .iterate (S := SameBy (List.map Variant.erase)) rfl fun vs ws hvs => ?_
  refine .expected fun x y hxy => ?_
  rw [hxy.text]
  have hrest : ∀ ts us, SameBy (List.map TypeExpr.erase) ts us →
      Repeats F k (Round.Rel (SameBy (List.map Variant.erase)) (SameBy (List.map Variant.erase)))
        (do if ← skip .pipe then return .again (vs ++ [⟨x.text, ts⟩]) else return .done (vs ++ [⟨x.text, ts⟩]))
        (do if ← skip .pipe then return .again (ws ++ [⟨x.text, us⟩]) else return .done (ws ++ [⟨x.text, us⟩])) := by
    intro ts us hts
    have hvariant : SameBy Variant.erase ⟨x.text, ts⟩ ⟨x.text, us⟩ := congrArg (Variant.mk x.text) hts
    exact .skipIf (.pure (.again (hvs.snoc hvariant))) (.pure (.done (hvs.snoc hvariant)))
  exact .skipIf ((repeats_type.commaList _ _).bind hrest) (hrest [] [] rfl)

theorem repeats_typeDeclaration (x y : Token) (isPublic : Bool) :
    Repeats F k (SameBy TypeDecl.erase) (typeDeclaration x isPublic) (typeDeclaration y isPublic) := by
  refine .bind repeats_current fun _ _ _ => .expected fun n m hnm => ?_
  rw [hnm.text]
  refine .seq (repeats_expect _ _) fun _ _ => .skipIf ?_ ?_
  · refine .bind repeats_recordTypeFields fun fs gs hfs => .seq (repeats_expect _ _) fun _ _ => ?_
    refine .seq (repeats_spanFrom x y) fun _ _ => .pure ?_
    show TypeDecl.mk _ _ _ _ _ = TypeDecl.mk _ _ _ _ _
    rw [show fs.map _ = gs.map _ from hfs]
  · refine .bind (repeats_skip _) fun _ _ _ => .bind repeats_variants fun vs ws hvs => ?_
    refine .seq (repeats_spanFrom x y) fun _ _ => .pure ?_
    show TypeDecl.mk _ _ _ _ _ = TypeDecl.mk _ _ _ _ _
    rw [show vs.map _ = ws.map _ from hvs]

theorem repeats_param : Repeats F k (SameBy Param.erase) param param := by
  refine .expected fun x y hxy => ?_
  rw [hxy.text]
  refine .skipIf ?_ (.pure rfl)
  refine .seq repeats_advance fun _ _ => .bind repeats_type fun t u htu => .pure ?_
  exact congrArg (fun t => Param.mk x.text (some t)) htu

theorem repeats_params : Repeats F k (SameBy (List.map Param.erase)) params params := by
  refine .seq (repeats_expect _ _) fun _ _ => .skipIf (.pure rfl) ?_
  refine .iterate (S := SameBy (List.map Param.erase)) rfl fun ps qs hps => ?_
  refine .bind repeats_param fun p q hpq => .skipIf (.pure (.again (hps.snoc hpq))) ?_
  exact .seq (repeats_expect _ _) fun _ _ => .pure (.done (hps.snoc hpq))

theorem repeats_resultType :
    Repeats F k (SameBy (Option.map TypeExpr.erase)) resultType resultType := by
  refine .skipIf ?_ (.pure rfl)
  exact .seq repeats_advance fun _ _ => .bind repeats_type fun t u htu => .pure (congrArg some htu)

theorem repeats_recognizerName : Repeats F k Eq recognizerName recognizerName := by
  refine .seq (repeats_expect _ _) fun _ _ => .expected fun x y hxy => ?_
  rw [hxy.text]
  have hrest : ∀ kind : RecognizerKind, Repeats F k Eq
      (expect .rparen ")" >>= fun _ => pure (x.text, kind))
      (expect .rparen ")" >>= fun _ => pure (x.text, kind)) :=
    fun _ => .seq (repeats_expect _ _) fun _ _ => .pure rfl
  refine .seq (repeats_expect _ _) fun _ _ => .skipIf ?_ (hrest _)
  exact .seq (repeats_expect _ _) fun _ _ => hrest _

/-! ### Patterns -/

theorem repeats_nextStartsBound : Repeats F k Eq nextStartsBound nextStartsBound :=
  .observe fun _ _ hst => by rw [hst.next.kind]

theorem repeats_bound : Repeats F k (SameBy Bound.erase) bound bound := by
  refine .bind repeats_current fun x y hxy => ?_
  rw [hxy.kind]
  have hconstant : Repeats F k (SameBy Bound.erase) (pure ⟨⟨x, x.span⟩, x.value.getD .unit⟩)
      (pure ⟨⟨y, y.span⟩, y.value.getD .unit⟩) := by
    refine .pure ?_
    show Bound.erase _ = Bound.erase _
    rw [Bound.erase, Bound.erase, hxy.value]
  split
  iterate 5 exact hconstant
  · refine .bind repeats_next fun n m hnm => ?_
    rw [hnm.kind, hnm.value]
    refine .ite (fun _ => ?_) fun _ => repeats_rejectNext _
    exact .seq repeats_advance fun _ _ => .seq (repeats_markFrom x y) fun _ _ => .pure rfl
  · exact repeats_reject (by decide) _ _ _ _

theorem repeats_rangeAfter {b c : Bound} (h : SameBy Bound.erase b c) :
    Repeats F k (SameBy Pattern.erase) (rangeAfter b) (rangeAfter c) := by
  refine .bind repeats_current fun x y hxy => ?_
  rw [hxy.kind]
  refine .decided repeats_nextStartsBound ?_ (.ite (fun _ => repeats_rejectNext _) fun _ => .pure ?_)
  · refine .seq repeats_advance fun _ _ => .bind repeats_bound fun d e hde => ?_
    refine .bind repeats_current fun _ _ _ => .pure ?_
    show Pattern.erase _ = Pattern.erase _
    rw [Pattern.erase, Pattern.erase, Option.map_some, Option.map_some, Option.map_some,
      Option.map_some, h, hde]
  · show Pattern.erase _ = Pattern.erase _
    rw [Pattern.erase, Pattern.erase, Option.map_some, Option.map_some, h]

/-- A constant whose absence is a result, too.  It never meets the nesting limit, so that nothing is
hidden by going on. -/
theorem repeats_attempt {q : Parser (Option Bound)}
    (hrun : ∀ s, q s = (some (bound s).1, (bound s).2)) :
    Repeats F k (SameBy (Option.map Bound.erase)) q q := by
  intro s t hst
  rw [hrun, hrun]
  have hm := (repeats_bound (F := False) s t hst).resolve_left fun h => h.1
  refine .inr ⟨.some ?_, hm.moved, hm.depth, hm.tokens, hm.eof, hm.errors⟩
  have hresult := hm.result
  generalize (bound s).1 = o, (bound t).1 = o' at hresult ⊢
  cases hresult with
  | some h => exact congrArg some h
  | none => rfl

theorem repeats_rangeBefore : Repeats F k (SameBy Pattern.erase) rangeBefore rangeBefore := by
  refine .bind repeats_current fun x y hxy => ?_
  rw [hxy.kind]
  refine .decided repeats_nextStartsBound ?_ (repeats_rejectNext _)
  refine .seq repeats_advance fun _ _ => .bind (repeats_attempt fun s => ?_) fun b c hbc => ?_
  · rcases bound s with ⟨_ | b, u⟩ <;> rfl
  refine .seq (repeats_markFrom x y) fun _ _ => .pure ?_
  show Pattern.erase _ = Pattern.erase _
  rw [Pattern.erase, Pattern.erase, hbc]

theorem repeats_nextStartsArgument : Repeats F k Eq nextStartsArgument nextStartsArgument :=
  .observe fun _ _ hst => by rw [hst.next.kind]

theorem repeats_nestedPattern {alternatives alternatives' : Parser Pattern}
    (h : Repeats F k (SameBy Pattern.erase) alternatives alternatives') :
    Repeats F k (SameBy Pattern.erase) (nestedPattern alternatives) (nestedPattern alternatives') := by
  refine .bind h fun p q hpq => .iterate (S := SameBy Pattern.erase) hpq fun p q hpq => ?_
  refine .skipIf ?_ (.pure (.done hpq))
  refine .bind repeats_current fun _ _ _ => .expected fun x y hxy => .pure (.again ?_)
  show Pattern.erase _ = Pattern.erase _
  rw [Pattern.erase, Pattern.erase, hxy.text, hpq]

section Patterns

variable {alternatives alternatives' primary primary' inner inner' : Parser Pattern}

theorem repeats_slicePattern (h : Repeats F k (SameBy Pattern.erase) inner inner') :
    Repeats F k (SameBy Pattern.erase) (slicePattern inner) (slicePattern inner') := by
  refine .bind repeats_current fun x y hxy => ?_
  refine .skipIf (.seq (repeats_markFrom x y) fun _ _ => .pure rfl) ?_
  refine .bind (S := SameBy (List.map Pattern.eraseItem)) ?_ fun is js his => ?_
  · refine .iterate (S := SameBy (List.map Pattern.eraseItem)) rfl fun is js his => ?_
    have hend : ∀ i j, SameBy Pattern.eraseItem i j →
        Repeats F k (Round.Rel (SameBy (List.map Pattern.eraseItem)) (SameBy (List.map Pattern.eraseItem)))
          (do if ← skip .comma then return .again (is ++ [i])
              else
                expect .rbracket ", or ]"
                return .done (is ++ [i]))
          (do if ← skip .comma then return .again (js ++ [j])
              else
                expect .rbracket ", or ]"
                return .done (js ++ [j])) := by
      intro i j hij
      refine .skipIf (.pure (.again (his.snoc hij))) ?_
      exact .seq (repeats_expect _ _) fun _ _ => .pure (.done (his.snoc hij))
    refine .seq repeats_advance fun _ _ => .bind repeats_current fun n m hnm => ?_
    rw [hnm.kind]
    refine .bind repeats_nextStartsBound fun b _ hb => ?_
    subst hb
    refine .ite (fun _ => .skipIf ?_ (hend _ _ rfl)) fun _ => ?_
    · refine .bind repeats_current fun v w hvw => ?_
      rw [hvw.text]
      exact hend _ _ rfl
    · exact .bind h fun p q hpq => hend _ _ (congrArg SliceItem.element hpq)
  · refine .seq (repeats_markFrom x y) fun _ _ => .pure ?_
    show Pattern.erase _ = Pattern.erase _
    rw [Pattern.erase, Pattern.erase, Pattern.eraseItems_eq, Pattern.eraseItems_eq, his]

/-- The fields of a record pattern without their places. -/
def eraseRecord (r : List (String × Pattern) × Bool) : List (String × Pattern) × Bool :=
  (r.1.map Pattern.eraseField, r.2)

theorem repeats_recordFields (h : Repeats F k (SameBy Pattern.erase) inner inner') :
    Repeats F k (SameBy eraseRecord) (recordFields inner) (recordFields inner') := by
  refine .iterate (S := SameBy (List.map Pattern.eraseField)) rfl fun fs gs hfs => ?_
  refine .seq repeats_advance fun _ _ => .bind repeats_current fun x y hxy => ?_
  rw [hxy.kind, hxy.text]
  split
  · refine .seq (repeats_expect _ _) fun _ _ => .pure (.done ?_)
    exact congrArg (·, true) hfs
  · have hend : ∀ p q, SameBy Pattern.erase p q →
        Repeats F k (Round.Rel (SameBy (List.map Pattern.eraseField)) (SameBy eraseRecord))
          (do if ← skip .comma then return .again (fs ++ [(x.text, p)])
              else
                expect .rbrace ", or \x7d"
                return .done (fs ++ [(x.text, p)], false))
          (do if ← skip .comma then return .again (gs ++ [(x.text, q)])
              else
                expect .rbrace ", or \x7d"
                return .done (gs ++ [(x.text, q)], false)) := by
      intro p q hpq
      have hfield : SameBy Pattern.eraseField (x.text, p) (x.text, q) := congrArg (Prod.mk x.text) hpq
      refine .skipIf (.pure (.again (hfs.snoc hfield))) ?_
      exact .seq (repeats_expect _ _) fun _ _ => .pure (.done (congrArg (·, false) (hfs.snoc hfield)))
    refine .skipIf (.seq repeats_advance fun _ _ => .bind h hend) (hend _ _ ?_)
    show Pattern.erase _ = Pattern.erase _
    rw [Pattern.erase, Pattern.erase]
  · exact repeats_reject (by decide) _ _ _ _

theorem repeats_recordPattern (h : Repeats F k (SameBy Pattern.erase) inner inner') :
    Repeats F k (SameBy Pattern.erase) (recordPattern inner) (recordPattern inner') := by
  refine .bind repeats_current fun x y hxy => ?_
  refine .skipIf (.seq (repeats_markFrom x y) fun _ _ => .pure rfl) ?_
  refine .bind (repeats_recordFields h) fun r r' hr => .seq (repeats_markFrom x y) fun _ _ => .pure ?_
  obtain ⟨hfields, hrest⟩ := Prod.mk.inj hr
  show Pattern.erase _ = Pattern.erase _
  rw [Pattern.erase, Pattern.erase, Pattern.eraseFields_eq, Pattern.eraseFields_eq, hfields, hrest]

theorem repeats_groupPattern (h : Repeats F k (SameBy Pattern.erase) inner inner') :
    Repeats F k (SameBy Pattern.erase) (groupPattern inner) (groupPattern inner') := by
  refine .bind repeats_current fun x y hxy => ?_
  refine .skipIf (.seq (repeats_markFrom x y) fun _ _ => .pure rfl) ?_
  refine .bind (h.commaList _ _) fun ps qs hps => ?_
  rcases hps.single with ⟨p, q, rfl, rfl, hpq⟩ | ⟨hps', hqs'⟩
  · exact .pure hpq
  · split
    · exact absurd rfl (hps' _)
    · refine .seq (repeats_markFrom x y) fun _ _ => .pure ?_
      show Pattern.erase _ = Pattern.erase _
      rw [Pattern.erase, Pattern.erase, Pattern.eraseAll_eq, Pattern.eraseAll_eq, hps]

theorem repeats_activePattern (h : Repeats F k (SameBy Pattern.erase) primary primary') :
    Repeats F k (SameBy Pattern.erase) (activePattern primary) (activePattern primary') := by
  refine .bind repeats_current fun x y hxy => .bind repeats_recognizerName fun r _ hr => ?_
  subst hr
  have hend : ∀ a b : Option Pattern, SameBy (Option.map Pattern.erase) a b →
      Repeats F k (SameBy Pattern.erase) (markFrom x >>= fun m => pure (.active m r.1 r.2 a))
        (markFrom y >>= fun m => pure (.active m r.1 r.2 b)) := by
    intro a b hab
    refine .seq (repeats_markFrom x y) fun _ _ => .pure ?_
    show Pattern.erase _ = Pattern.erase _
    cases a with
    | none =>
      cases b with
      | none => rfl
      | some q => cases hab
    | some p =>
      cases b with
      | none => cases hab
      | some q => rw [Pattern.erase, Pattern.erase, Option.some.inj hab]
  refine .decided repeats_nextStartsArgument ?_ (hend _ _ rfl)
  exact .seq repeats_advance fun _ _ => .bind h fun p q hpq => hend _ _ (congrArg some hpq)

theorem repeats_primaryBody (ha : Repeats F k (SameBy Pattern.erase) alternatives alternatives')
    (hp : Repeats F k (SameBy Pattern.erase) primary primary') :
    Repeats F k (SameBy Pattern.erase) (primaryBody alternatives primary)
      (primaryBody alternatives' primary') := by
  have hinner := repeats_nestedPattern ha
  refine .bind repeats_current fun x y hxy => ?_
  rw [hxy.kind, hxy.text, hxy.value]
  have hconstant : Repeats F k (SameBy Pattern.erase) (do
      let b ← bound
      if ← skipEither .dotDot .dotDotEq then rangeAfter b else return .literal b.mark b.value) (do
      let b ← bound
      if ← skipEither .dotDot .dotDotEq then rangeAfter b else return .literal b.mark b.value) := by
    refine .bind repeats_bound fun b c hbc => .decided (repeats_skipEither _ _) (repeats_rangeAfter hbc) ?_
    have hvalue := congrArg Bound.value (show b.erase = c.erase from hbc)
    change b.value = c.value at hvalue
    refine .pure ?_
    show Pattern.erase _ = Pattern.erase _
    rw [Pattern.erase, Pattern.erase, hvalue]
  split
  · exact .pure rfl
  · refine .skipIf ?_ (.pure ?_)
    · refine .seq repeats_advance fun _ _ => .bind hp fun p q hpq => ?_
      refine .seq (repeats_markFrom x y) fun _ _ => .pure ?_
      show Pattern.erase _ = Pattern.erase _
      rw [Pattern.erase, Pattern.erase, hpq]
    · show Pattern.erase _ = Pattern.erase _
      rw [Pattern.erase, Pattern.erase]
  iterate 6 exact hconstant
  iterate 2 exact repeats_rangeBefore
  · have hend : ∀ ps qs, SameBy (List.map Pattern.erase) ps qs →
        Repeats F k (SameBy Pattern.erase) (markFrom x >>= fun m => pure (.construct m x.text ps))
          (markFrom y >>= fun m => pure (.construct m x.text qs)) := by
      intro ps qs hps
      refine .seq (repeats_markFrom x y) fun _ _ => .pure ?_
      show Pattern.erase _ = Pattern.erase _
      rw [Pattern.erase, Pattern.erase, Pattern.eraseAll_eq, Pattern.eraseAll_eq, hps]
    exact .skipIf ((hinner.commaListOrNone _ _).bind hend) (hend [] [] rfl)
  · exact .decided (repeats_nextIs _) (repeats_activePattern hp) (repeats_groupPattern hinner)
  · exact repeats_slicePattern hinner
  · exact repeats_recordPattern hinner
  · exact .pure rfl
  · exact repeats_rejectEnd _ _ _
  · exact repeats_reject (by decide) _ _ _ _

theorem repeats_alternativesBody (h : Repeats F k (SameBy Pattern.erase) primary primary') :
    Repeats F k (SameBy Pattern.erase) (alternativesBody primary) (alternativesBody primary') := by
  refine .bind h fun p q hpq => .bind repeats_next fun x y hxy => ?_
  rw [hxy.kind]
  refine .ite (fun _ => ?_) fun _ => .pure hpq
  refine .bind (S := SameBy (List.map Pattern.erase)) ?_ fun ps qs hps => ?_
  · refine .iterate (S := SameBy (List.map Pattern.erase)) (congrArg (fun p => [p]) hpq) fun ps qs hps => ?_
    refine .skipIf ?_ (.pure (.done hps))
    exact .seq repeats_advance fun _ _ => .bind h fun p q hpq => .pure (.again (hps.snoc hpq))
  · refine .bind repeats_current fun _ _ _ => .pure ?_
    show Pattern.erase _ = Pattern.erase _
    rw [Pattern.erase, Pattern.erase, Pattern.eraseAll_eq, Pattern.eraseAll_eq, hps]

end Patterns

/-- **Patterns are read the same way elsewhere**, with fewer levels left. -/
theorem repeats_pattern (room : Nat) : ∀ more, room ≤ more →
    Repeats True k (SameBy Pattern.erase) (primaryWithin more) (primaryWithin room) ∧
      Repeats True k (SameBy Pattern.erase) (orWithin more) (orWithin room) := by
  induction room with
  | zero => exact fun _ _ => ⟨repeats_tooDeep, repeats_tooDeep⟩
  | succ room ih =>
    intro more hmore
    obtain ⟨more, rfl⟩ : ∃ n, more = n + 1 := ⟨more - 1, by omega⟩
    obtain ⟨hprimary, halternatives⟩ := ih more (by omega)
    exact ⟨(repeats_primaryBody halternatives hprimary).nested, (repeats_alternativesBody hprimary).nested⟩

/-! ### Expressions -/

section Expressions

variable {expr expr' : Nat → Parser Expr} {pattern pattern' : Parser Pattern}

theorem repeats_exprList (h : ∀ n, Repeats F k (SameBy Expr.erase) (expr n) (expr' n))
    (close : TokenKind) :
    Repeats F k (SameBy (List.map Expr.erase)) (exprList expr close) (exprList expr' close) :=
  (h _).commaListOrNone _ _

theorem repeats_constructor (h : ∀ n, Repeats F k (SameBy Expr.erase) (expr n) (expr' n)) :
    Repeats F k (SameBy Expr.erase) (constructor expr) (constructor expr') := by
  refine .bind repeats_current fun x y hxy => .bind repeats_next fun n m hnm => ?_
  have hend : ∀ es fs, SameBy (List.map Expr.erase) es fs →
      Repeats F k (SameBy Expr.erase) (markFrom x >>= fun m => pure (.construct m x.text es))
        (markFrom y >>= fun m => pure (.construct m y.text fs)) := by
    intro es fs hes
    refine .seq (repeats_markFrom x y) fun _ _ => .pure ?_
    show Expr.erase _ = Expr.erase _
    rw [Expr.erase, Expr.erase, Expr.eraseAll_eq, Expr.eraseAll_eq, hxy.text, hes]
  simp only [hnm.kind, hxy.line_eq hnm]
  refine .ite (fun _ => ?_) fun _ => hend [] [] rfl
  exact .seq repeats_advance fun _ _ => .bind (repeats_exprList h _) hend

theorem repeats_group (h : ∀ n, Repeats F k (SameBy Expr.erase) (expr n) (expr' n)) :
    Repeats F k (SameBy Expr.erase) (group expr) (group expr') := by
  refine .bind repeats_current fun x y hxy => ?_
  refine .skipIf (.seq (repeats_markFrom x y) fun _ _ => .pure ?_) ?_
  · show Expr.erase _ = Expr.erase _
    rw [Expr.erase, Expr.erase]
  refine .bind (repeats_exprList h _) fun es fs hes => ?_
  rcases hes.single with ⟨e, f, rfl, rfl, hef⟩ | ⟨hes', hfs'⟩
  · exact .pure hef
  · split
    · exact absurd rfl (hes' _)
    · refine .seq (repeats_markFrom x y) fun _ _ => .pure ?_
      show Expr.erase _ = Expr.erase _
      rw [Expr.erase, Expr.erase, Expr.eraseAll_eq, Expr.eraseAll_eq, hes]

theorem repeats_recordLiteral (h : ∀ n, Repeats F k (SameBy Expr.erase) (expr n) (expr' n)) :
    Repeats F k (SameBy Expr.erase) (recordLiteral expr) (recordLiteral expr') := by
  refine .bind repeats_current fun x y hxy => ?_
  refine .bind (S := SameBy (List.map Expr.eraseField)) ?_ fun fs gs hfs => ?_
  · refine .iterate (S := SameBy (List.map Expr.eraseField)) rfl fun fs gs hfs => ?_
    refine .expected fun n m hnm => ?_
    rw [hnm.text]
    refine .seq (repeats_expect _ _) fun _ _ => .seq repeats_advance fun _ _ => ?_
    refine .bind (h _) fun e f hef => ?_
    have hfields : SameBy (List.map Expr.eraseField) (fs ++ [(n.text, e)]) (gs ++ [(n.text, f)]) :=
      hfs.snoc (congrArg (Prod.mk n.text) hef)
    refine .skipIf (.decided (repeats_nextIs _) (.pure (.done hfields)) (.pure (.again hfields))) ?_
    exact .pure (.done hfields)
  · refine .seq (repeats_expect _ _) fun _ _ => .seq (repeats_markFrom x y) fun _ _ => .pure ?_
    show Expr.erase _ = Expr.erase _
    rw [Expr.erase, Expr.erase, Expr.eraseFields_eq, Expr.eraseFields_eq, hfs]

/-- The bindings and the result of a block without their places. -/
def eraseBlock (b : List (String × Expr) × Option Expr) : List (String × Expr) × Option Expr :=
  (b.1.map Expr.eraseField, b.2.map Expr.erase)

theorem repeats_blockItem (h : ∀ n, Repeats F k (SameBy Expr.erase) (expr n) (expr' n))
    {lets lets' : List (String × Expr)} (hlets : SameBy (List.map Expr.eraseField) lets lets') :
    Repeats F k (Round.Rel (SameBy (List.map Expr.eraseField)) (SameBy eraseBlock))
      (blockItem expr lets) (blockItem expr' lets') := by
  refine .decided (repeats_currentIs _) ?_ ?_
  · refine .expected fun x y hxy => ?_
    rw [hxy.text]
    refine .seq (repeats_expect _ _) fun _ _ => .seq repeats_advance fun _ _ => ?_
    refine .bind (h _) fun e f hef => .bind (repeats_skip _) fun _ _ _ => .pure (.again ?_)
    exact hlets.snoc (congrArg (Prod.mk x.text) hef)
  · refine .bind (h _) fun e f hef => .bind (repeats_skip _) fun _ _ _ => ?_
    refine .seq (repeats_expect _ _) fun _ _ => .pure (.done ?_)
    show Prod.mk _ _ = Prod.mk _ _
    rw [show lets.map _ = lets'.map _ from hlets, Option.map_some, Option.map_some, hef]

theorem repeats_blockBody (h : ∀ n, Repeats F k (SameBy Expr.erase) (expr n) (expr' n)) :
    Repeats F k (SameBy eraseBlock) (blockBody expr) (blockBody expr') := by
  rw [blockBody_steps, blockBody_steps]
  refine .iterate (S := SameBy (List.map Expr.eraseField)) rfl fun lets lets' hlets => ?_
  refine .skipIf (.pure (.done (congrArg (·, none) hlets))) ?_
  exact .seq repeats_advance fun _ _ => repeats_blockItem h hlets

theorem repeats_recordOrBlock (h : ∀ n, Repeats F k (SameBy Expr.erase) (expr n) (expr' n)) :
    Repeats F k (SameBy Expr.erase) (recordOrBlock expr) (recordOrBlock expr') := by
  refine .bind repeats_current fun x y hxy => ?_
  refine .decided (.observe fun s t hst => ?_) (repeats_recordLiteral h) ?_
  · rw [hst.next.kind, hst.afterNext.kind]
  · refine .bind (repeats_blockBody h) fun b c hbc => .seq (repeats_markFrom x y) fun _ _ => .pure ?_
    obtain ⟨hlets, hresult⟩ := Prod.mk.inj hbc
    show Expr.erase _ = Expr.erase _
    rw [Expr.erase, Expr.erase, Expr.eraseFields_eq, Expr.eraseFields_eq, Expr.eraseOption_eq,
      Expr.eraseOption_eq, hlets, hresult]

theorem repeats_conditional (h : ∀ n, Repeats F k (SameBy Expr.erase) (expr n) (expr' n)) :
    Repeats F k (SameBy Expr.erase) (conditional expr) (conditional expr') := by
  refine .bind repeats_current fun x y hxy => .seq repeats_advance fun _ _ => ?_
  refine .bind (h _) fun c d hcd => .seq (repeats_expect _ _) fun _ _ => .seq repeats_advance fun _ _ => ?_
  refine .bind (h _) fun e f hef => ?_
  have hend : ∀ o p, SameBy (Option.map Expr.erase) o p →
      Repeats F k (SameBy Expr.erase) (markFrom x >>= fun m => pure (.cond m c e o))
        (markFrom y >>= fun m => pure (.cond m d f p)) := by
    intro o p hop
    refine .seq (repeats_markFrom x y) fun _ _ => .pure ?_
    show Expr.erase _ = Expr.erase _
    rw [Expr.erase, Expr.erase, Expr.eraseOption_eq, Expr.eraseOption_eq, hcd, hef, hop]
  refine .skipIf ?_ (hend _ _ rfl)
  exact .seq repeats_advance fun _ _ => .bind (h _) fun g g' hg => hend _ _ (congrArg some hg)

theorem repeats_performance (h : ∀ n, Repeats F k (SameBy Expr.erase) (expr n) (expr' n)) :
    Repeats F k (SameBy Expr.erase) (performance expr) (performance expr') := by
  refine .bind repeats_current fun x y hxy => .expected fun n m hnm => ?_
  rw [hnm.text]
  have hend : ∀ es fs, SameBy (List.map Expr.erase) es fs →
      Repeats F k (SameBy Expr.erase) (markFrom x >>= fun m => pure (.perform m n.text es))
        (markFrom y >>= fun m => pure (.perform m n.text fs)) := by
    intro es fs hes
    refine .seq (repeats_markFrom x y) fun _ _ => .pure ?_
    show Expr.erase _ = Expr.erase _
    rw [Expr.erase, Expr.erase, Expr.eraseAll_eq, Expr.eraseAll_eq, hes]
  exact .skipIf ((repeats_exprList h _).bind hend) (hend [] [] rfl)

/-- What stands between a pattern and its arrow, without its places. -/
def ArmHead.erase (a : ArmHead) : ArmHead :=
  ⟨a.asName.map eraseAlias, a.guard.map Expr.erase, a.usedIf⟩

theorem repeats_armHead (h : ∀ n, Repeats F k (SameBy Expr.erase) (expr n) (expr' n)) :
    Repeats F k (SameBy ArmHead.erase) (armHead expr) (armHead expr') := by
  refine .iterate (S := SameBy ArmHead.erase) rfl fun a b hab => ?_
  refine .bind repeats_next fun x y hxy => ?_
  rw [hxy.kind]
  obtain ⟨hname, hguard, hused⟩ := ArmHead.mk.inj hab
  have hnames : a.asName.isNone = b.asName.isNone := by
    simpa using congrArg Option.isNone hname
  have hguards : a.guard.isNone = b.guard.isNone := by
    simpa using congrArg Option.isNone hguard
  rw [hnames, hguards]
  refine .ite (fun _ => ?_) fun _ => .ite (fun _ => ?_) fun _ => .pure (.done hab)
  · refine .seq repeats_advance fun _ _ => .expected fun n m hnm => .pure (.again ?_)
    show ArmHead.mk _ _ _ = ArmHead.mk _ _ _
    rw [hguard, hused, Option.map_some, Option.map_some, eraseAlias, eraseAlias, hnm.text]
  · refine .seq repeats_advance fun _ _ => .seq repeats_advance fun _ _ => ?_
    refine .bind (h _) fun e f hef => .pure (.again ?_)
    show ArmHead.mk _ _ _ = ArmHead.mk _ _ _
    rw [hname, Option.map_some, Option.map_some, hef]

/-- The body of an arm, and the arm with it. -/
def armBody (expr : Nat → Parser Expr) (bar : Token) (p : Pattern) (h : ArmHead) :
    Parser (Arm Pattern Expr) := do
  let body ← expr Precedence.lowest
  return ⟨← spanFrom bar, p, h.guard, h.usedIf, h.asName, body⟩

theorem repeats_armBody (h : ∀ n, Repeats F k (SameBy Expr.erase) (expr n) (expr' n)) (x y : Token)
    {p q : Pattern} {a b : ArmHead} (hpq : SameBy Pattern.erase p q) (hab : SameBy ArmHead.erase a b) :
    Repeats F k (SameBy Expr.eraseArm) (armBody expr x p a) (armBody expr' y q b) := by
  refine .bind (h _) fun e f hef => .seq (repeats_spanFrom x y) fun _ _ => .pure ?_
  obtain ⟨hname, hguard, hused⟩ := ArmHead.mk.inj hab
  show Arm.mk _ _ _ _ _ _ = Arm.mk _ _ _ _ _ _
  rw [hname, hguard, hused, hpq, hef]

theorem repeats_arm (h : ∀ n, Repeats F k (SameBy Expr.erase) (expr n) (expr' n))
    (hp : Repeats F k (SameBy Pattern.erase) pattern pattern') :
    Repeats F k (SameBy Expr.eraseArm) (arm expr pattern) (arm expr' pattern') := by
  refine .bind repeats_current fun x y hxy => .seq repeats_advance fun _ _ => ?_
  refine .bind hp fun p q hpq => .bind (repeats_armHead h) fun a b hab => ?_
  exact .seq (repeats_expect _ _) fun _ _ => .seq repeats_advance fun _ _ => repeats_armBody h x y hpq hab

theorem repeats_selection (h : ∀ n, Repeats F k (SameBy Expr.erase) (expr n) (expr' n))
    (hp : Repeats F k (SameBy Pattern.erase) pattern pattern') :
    Repeats F k (SameBy Expr.erase) (selection expr pattern) (selection expr' pattern') := by
  refine .bind repeats_current fun x y hxy => .seq repeats_advance fun _ _ => ?_
  refine .bind (h _) fun e f hef => .seq (repeats_expect _ _) fun _ _ => ?_
  refine .decided (repeats_nextIs _) ?_ (repeats_rejectNext _)
  refine .bind (S := SameBy (List.map Expr.eraseArm)) ?_ fun as bs has => ?_
  · refine .iterate (S := SameBy (List.map Expr.eraseArm)) rfl fun as bs has => ?_
    refine .skipIf ?_ (.pure (.done has))
    exact .bind (repeats_arm h hp) fun a b hab => .pure (.again (has.snoc hab))
  · refine .seq (repeats_markFrom x y) fun _ _ => .pure ?_
    show Expr.erase _ = Expr.erase _
    rw [Expr.erase, Expr.erase, Expr.eraseArms_eq, Expr.eraseArms_eq, hef, has]

theorem repeats_unaryWith (h : ∀ n, Repeats F k (SameBy Expr.erase) (expr n) (expr' n)) (op : UnaryOp) :
    Repeats F k (SameBy Expr.erase) (unaryWith expr op) (unaryWith expr' op) := by
  refine .bind repeats_current fun x y hxy => .seq repeats_advance fun _ _ => ?_
  refine .bind (h _) fun e f hef => .seq (repeats_markFrom x y) fun _ _ => .pure ?_
  show Expr.erase _ = Expr.erase _
  rw [Expr.erase, Expr.erase, hef]

theorem repeats_atom (h : ∀ n, Repeats F k (SameBy Expr.erase) (expr n) (expr' n))
    (hp : Repeats F k (SameBy Pattern.erase) pattern pattern') :
    Repeats F k (SameBy Expr.erase) (atom expr pattern) (atom expr' pattern') := by
  refine .bind repeats_current fun x y hxy => ?_
  rw [hxy.kind, hxy.text, hxy.value]
  have hconstant : ∀ v : Literal, Repeats F k (SameBy Expr.erase)
      (pure (.literal ⟨x, x.span⟩ v)) (pure (.literal ⟨y, y.span⟩ v)) := by
    intro v
    refine .pure ?_
    show Expr.erase _ = Expr.erase _
    rw [Expr.erase, Expr.erase]
  split
  · refine .pure ?_
    show Expr.erase _ = Expr.erase _
    rw [Expr.erase, Expr.erase]
  · exact repeats_constructor h
  iterate 5 exact hconstant _
  · exact repeats_unaryWith h _
  · exact repeats_unaryWith h _
  · exact repeats_group h
  · refine .bind (repeats_exprList h _) fun es fs hes => .seq (repeats_markFrom x y) fun _ _ => .pure ?_
    show Expr.erase _ = Expr.erase _
    rw [Expr.erase, Expr.erase, Expr.eraseAll_eq, Expr.eraseAll_eq, hes]
  · exact repeats_recordOrBlock h
  · exact repeats_conditional h
  · exact repeats_selection h hp
  · exact repeats_performance h
  · exact repeats_rejectEnd _ _ _
  · exact repeats_reject (by decide) _ _ _ _

theorem repeats_nextPrecedence : Repeats F k Eq nextPrecedence nextPrecedence :=
  .observe fun _ _ hst => by rw [hst.next.kind]

theorem repeats_extended (h : ∀ n, Repeats F k (SameBy Expr.erase) (expr n) (expr' n)) {e f : Expr}
    (hef : SameBy Expr.erase e f) :
    Repeats F k (SameBy Expr.erase) (extended expr e) (extended expr' f) := by
  refine .bind repeats_current fun x y hxy => ?_
  rw [hxy.kind]
  split
  · refine .bind (repeats_exprList h _) fun es fs hes => .bind repeats_current fun _ _ _ => .pure ?_
    show Expr.erase _ = Expr.erase _
    rw [Expr.erase, Expr.erase, Expr.eraseAll_eq, Expr.eraseAll_eq, hef, hes]
  · refine .expected fun n m hnm => .pure ?_
    show Expr.erase _ = Expr.erase _
    rw [Expr.erase, Expr.erase, hef, hnm.text]
  · split
    · refine .seq repeats_advance fun _ _ => .bind (h _) fun d g hdg => .pure ?_
      show Expr.erase _ = Expr.erase _
      rw [Expr.erase, Expr.erase, hef, hdg]
    · exact .fail

theorem repeats_exprBody (h : ∀ n, Repeats F k (SameBy Expr.erase) (expr n) (expr' n))
    (hp : Repeats F k (SameBy Pattern.erase) pattern pattern') (precedence : Nat) :
    Repeats F k (SameBy Expr.erase) (exprBody expr pattern precedence)
      (exprBody expr' pattern' precedence) := by
  refine .bind (repeats_atom h hp) fun e f hef => .iterate (S := SameBy Expr.erase) hef fun e f hef => ?_
  refine .bind repeats_current fun x y hxy => .bind repeats_next fun n m hnm => ?_
  simp only [ne_eq, hnm.kind, hxy.line_eq hnm]
  refine .bind repeats_nextPrecedence fun b _ hb => ?_
  subst hb
  refine .ite (fun _ => ?_) fun _ => .pure (.done hef)
  exact .seq repeats_advance fun _ _ => .bind (repeats_extended h hef) fun d g hdg => .pure (.again hdg)

end Expressions

/-- **Expressions are read the same way elsewhere**, with fewer levels left. -/
theorem repeats_exprWithin (room : Nat) : ∀ more, room ≤ more → ∀ precedence,
    Repeats True k (SameBy Expr.erase) (exprWithin more precedence) (exprWithin room precedence) := by
  induction room with
  | zero => exact fun _ _ _ => repeats_tooDeep
  | succ room ih =>
    intro more hmore precedence
    obtain ⟨more, rfl⟩ : ∃ n, more = n + 1 := ⟨more - 1, by omega⟩
    have hle : room ≤ more := by omega
    exact (repeats_exprBody (ih more hle) (repeats_pattern room more hle).2 precedence).nested

theorem repeats_expression : Repeats True k (SameBy Expr.erase) expression expression :=
  .withRoom fun more room hle => repeats_exprWithin room more hle _

/-! ### Declarations -/

theorem repeats_definition : Repeats True k (SameBy Expr.erase) definition definition :=
  .seq (repeats_expect _ _) fun _ _ => .seq repeats_advance fun _ _ => repeats_expression

theorem repeats_function (x y : Token) (isPublic : Bool) (annotations : List String) :
    Repeats True k (SameBy Function.erase) (function x isPublic annotations)
      (function y isPublic annotations) := by
  refine .bind repeats_current fun _ _ _ => .decided (repeats_skipEither _ _) ?_ (repeats_rejectNext _)
  refine .bind repeats_current fun n m hnm => ?_
  rw [hnm.text]
  refine .bind repeats_params fun ps qs hps => .bind repeats_resultType fun t u htu => ?_
  refine .bind repeats_definition fun e f hef => .seq (repeats_spanFrom x y) fun _ _ => .pure ?_
  show Function.mk _ _ _ _ _ _ _ = Function.mk _ _ _ _ _ _ _
  rw [show ps.map _ = qs.map _ from hps, show t.map _ = u.map _ from htu, hef]

theorem repeats_checkAnnotations (x y : Token) (annotations : List String) :
    RepeatsAny F k (checkAnnotations x annotations) (checkAnnotations y annotations) := by
  induction annotations with
  | nil => exact .pure trivial
  | cons a as ih =>
    refine .ite (fun _ => ?_) fun _ => ih
    exact .seq (repeats_record (by decide) _ _ _ _) fun _ _ => ih

theorem repeats_recognizer (x y : Token) (isPublic : Bool) (annotations : List String) :
    Repeats True k (SameBy Recognizer.erase) (recognizer x isPublic annotations)
      (recognizer y isPublic annotations) := by
  refine .bind repeats_current fun _ _ _ => .seq (repeats_checkAnnotations x y annotations) fun _ _ => ?_
  refine .seq (repeats_expect _ _) fun _ _ => .bind repeats_recognizerName fun r _ hr => ?_
  subst hr
  refine .bind repeats_params fun ps qs hps => .bind repeats_resultType fun t u htu => ?_
  refine .bind repeats_definition fun e f hef => .seq (repeats_spanFrom x y) fun _ _ => .pure ?_
  show Recognizer.mk _ _ _ _ _ _ _ _ = Recognizer.mk _ _ _ _ _ _ _ _
  rw [show ps.map _ = qs.map _ from hps, show t.map _ = u.map _ from htu, hef]

theorem repeats_annotationNames : Repeats F k Eq annotationNames annotationNames := by
  refine .iterate (S := Eq) rfl fun names _ hnames => ?_
  subst hnames
  refine .decided (repeats_currentIs _) ?_ (.pure (.done rfl))
  refine .expected fun x y hxy => ?_
  rw [hxy.text]
  exact .seq repeats_advance fun _ _ => .pure (.again rfl)

theorem repeats_declarationBody (x y : Token) (isPublic : Bool) (annotations : List String) :
    Repeats True k (SameBy Decl.erase) (declarationBody x isPublic annotations)
      (declarationBody y isPublic annotations) := by
  refine .bind repeats_current fun n m hnm => ?_
  rw [hnm.kind]
  split
  · exact .bind (repeats_function x y isPublic annotations) fun f g hfg => .pure (congrArg Decl.function hfg)
  · refine .bind (repeats_recognizer x y isPublic annotations) fun f g hfg => .pure ?_
    exact congrArg Decl.recognizer hfg
  · exact .bind (repeats_typeDeclaration x y isPublic) fun f g hfg => .pure (congrArg Decl.type hfg)
  · refine .ite (fun _ => repeats_reject (by decide) _ _ _ _) fun _ => ?_
    refine .bind repeats_expression fun e f hef => .seq (repeats_markFrom x y) fun _ _ => .pure ?_
    exact congrArg (Decl.expr default) hef

/-- **Declarations are read the same way elsewhere**, unless they meet the nesting limit there. -/
theorem repeats_declaration : Repeats True k (SameBy Decl.erase) declaration declaration := by
  rw [declaration_eq]
  refine .bind repeats_current fun x y hxy => .bind repeats_annotationNames fun annotations _ h => ?_
  subst h
  refine .bind (repeats_currentIs _) fun isPublic _ h => ?_
  subst h
  refine .ite (fun _ => ?_) fun _ => repeats_declarationBody x y isPublic annotations
  exact .seq repeats_advance fun _ _ => repeats_declarationBody x y isPublic annotations

end PatternPlan.Surface.Parser
