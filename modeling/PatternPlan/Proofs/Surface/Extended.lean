import PatternPlan.Proofs.Surface.Extends
import PatternPlan.Proofs.Surface.Limits
import PatternPlan.Proofs.Surface.Tiling

/-!
# Every construct on an input that goes on

The parsers of expressions and declarations, one after the other.

* `Upheld` — an invariant that the parsers of patterns, expressions and declarations keep;
* `extends_expression`, `extends_declaration` — **what is read cleanly is read in the same way in front
  of more tokens, or the parser crosses over**.
-/

namespace PatternPlan.Surface.Parser

variable {α β : Type} {I : State → Prop} {T : Token → Prop} {more : List Token} {e : Token}

/-- What patterns, expressions and declarations keep. -/
structure Upheld (I : State → Prop) : Prop where
  pattern : ∀ room, Maintains I (orWithin room)
  expr : ∀ room precedence, Maintains I (exprWithin room precedence)
  declaration : Maintains I declaration

theorem Ensures.maintains {P : α → Prop} {p : Parser α} (h : Ensures I P p) : Maintains I p :=
  fun s hs => ⟨(h s hs).1, fun _ _ => trivial⟩

/-! ### Expressions -/

section Expressions

variable {expr : Nat → Parser Expr} {pattern : Parser Pattern} {left : Expr}

section Maintained

variable [Invariant I T] (hI : ∀ n, Maintains I (expr n)) (hpI : Maintains I pattern)

include T hI

theorem maintains_exprList (close : TokenKind) : Maintains I (exprList expr close) :=
  ((hI _).commaListOrNone close close.name).maintains

theorem maintains_blockStep (lets : List (String × Expr)) : Maintains I (blockStep expr lets) := by
  refine .seq (maintains_skip _) fun b => .ite (fun _ => .pure trivial) fun _ => ?_
  refine .seq maintains_advance fun _ => .seq (maintains_observe _) fun b => .ite (fun _ => ?_) fun _ => ?_
  · refine .seq (maintains_expect _ _) fun _ => .seq (maintains_observe _) fun name => ?_
    refine .seq (maintains_expect _ _) fun _ => .seq maintains_advance fun _ => .seq (hI _) fun e => ?_
    exact .seq (maintains_skip _) fun _ => .pure trivial
  · refine .seq (hI _) fun e => .seq (maintains_skip _) fun _ => ?_
    exact .seq (maintains_expect _ _) fun _ => .pure trivial

theorem maintains_armHead : Maintains I (armHead expr) := by
  refine .iterate (R := fun _ => True) trivial fun head _ => .seq (maintains_observe _) fun n => ?_
  refine .ite (fun _ => ?_) fun _ => .ite (fun _ => ?_) fun _ => .pure trivial
  · refine .seq maintains_advance fun _ => .seq (maintains_expect _ _) fun _ => ?_
    exact .seq (maintains_observe _) fun name => .pure trivial
  · refine .seq maintains_advance fun _ => .seq maintains_advance fun _ => ?_
    exact .seq (hI _) fun g => .pure trivial

include hpI in
theorem maintains_arm : Maintains I (arm expr pattern) := by
  refine .seq (maintains_observe _) fun bar => .seq maintains_advance fun _ => .seq hpI fun p => ?_
  refine .seq (maintains_armHead hI) fun head => .seq (maintains_expect _ _) fun _ => ?_
  refine .seq maintains_advance fun _ => .seq (hI _) fun body => ?_
  exact .seq (maintains_spanFrom _) fun _ => .pure trivial

theorem maintains_extendedBy (left : Expr) : Maintains I (extendedBy expr left) := by
  refine .bind ensures_current fun t ht => ?_
  split
  · refine .seq (maintains_exprList hI _) fun es => ?_
    exact .seq (maintains_observe _) fun last => .pure trivial
  · refine .seq (maintains_expect _ _) fun _ => ?_
    exact .seq (maintains_observe _) fun name => .pure trivial
  · split
    · exact .seq maintains_advance fun _ => .seq (hI _) fun right => .pure trivial
    · exact ensures_reject ht _ _ rfl

theorem maintains_exprRound (precedence : Nat) (left : Expr) :
    Maintains I (exprRound expr precedence left) := by
  refine .seq (maintains_observe _) fun t => .seq (maintains_observe _) fun n => ?_
  refine .ite (fun _ => ?_) fun _ => .pure trivial
  exact .seq maintains_advance fun _ => .seq (maintains_extendedBy hI left) fun e => .pure trivial

end Maintained

section Extended

variable (h : ∀ n, Extends I more e (expr n))

theorem maintains_mark {start : Token} {f : Mark → α} : Maintains I (do return f (← markFrom start)) :=
  .seq (maintains_markFrom start) fun _ => .pure trivial

include h

theorem beyond_exprList {close : TokenKind} (hclose : close ≠ .eof) :
    Beyond (fun _ => False) more e (exprList expr close) := .commaListOrNone (h _).steady hclose _

theorem beyond_group : Beyond I more e (group expr) := by
  refine .look fun start => .skip (by decide) (.mark fun _ => .pure) ?_
  refine .exactly (beyond_exprList h (by decide)) fun es => ?_
  split
  · exact .pure
  · exact .mark fun _ => .pure

theorem beyond_recordLiteral : Beyond I more e (recordLiteral expr) := by
  refine .look fun start => .steadily (.iterate (fun fields => ?_) []) fun fields => ?_
  · refine .expect fun _ => .look fun name => .expect fun _ => .advance fun _ => ?_
    refine (h _).steady.bind fun value => .skipIf (.ahead (fun s s' hkind => by rw [hkind]) fun _ => ?_) .pure
    exact .ite (fun _ => .pure) fun _ => .pure
  · exact .expect (by decide) fun _ => .mark fun _ => .pure

theorem steady_armHead : Steady more e (armHead expr) := by
  refine .iterate (fun head => .glance fun n => ?_) ({} : ArmHead)
  refine .ite (fun _ => ?_) fun _ => .ite (fun _ => ?_) fun _ => .pure
  · exact .advance fun _ => .expect fun _ => .look fun name => .pure
  · exact .advance fun _ => .advance fun _ => (h _).steady.bind fun g => .pure

theorem extends_unaryWith (op : UnaryOp) : Extends I more e (unaryWith expr op) :=
  .look fun _ => .advance fun _ => (h _).bind (fun _ => .mark fun _ => .pure) fun _ => maintains_mark

theorem extends_extendedBy (left : Expr) : Extends I more e (extendedBy expr left) := by
  refine .look fun t => ?_
  split
  · exact .exactly (beyond_exprList h (by decide)).toExtends fun es => .look fun last => .pure
  · exact .expect (by decide) fun _ => .look fun name => .pure
  · split
    · exact .advance fun _ => (h _).bind (fun right => .pure) fun right => .pure trivial
    · exact .refused (refuses_reject _ _ _)

theorem extends_arm (hp : Steady more e pattern) : Extends I more e (arm expr pattern) := by
  refine .look fun bar => .advance fun _ => .steadily hp fun p => .steadily (steady_armHead h) fun head => ?_
  refine .expect (by decide) fun _ => .advance fun _ => (h _).bind (fun body => .span fun _ => .pure) ?_
  exact fun body => .seq (maintains_spanFrom _) fun _ => .pure trivial

/-- A binding of a block or its result: both have something behind the token they start with. -/
theorem beyond_blockItem [Invariant I T] [Crossing I more e] (lets : List (String × Expr)) :
    Beyond I more e (blockItem expr lets) := by
  have hresult : Beyond I more e (blockResult expr lets) := by
    refine .steadily (h _).steady fun result => .steadily (steady_skip _) fun _ => ?_
    exact .expect (by decide) fun _ => .pure
  refine .observed (fun s hlength => by rw [State.current_extend (by omega)]) fun b => ?_
  refine .ite (fun _ => ?_) fun _ => hresult
  refine .expect (by decide) fun _ => .look fun name => .expect (by decide) fun _ => .advance fun _ => ?_
  refine (h _).bind (fun value => ?_) fun value => .seq (maintains_skip _) fun _ => .pure trivial
  exact .skip (by decide) .pure (.pure trivial) .pure

variable [Invariant I T] [Crossing I more e]

include T

theorem extends_blockStep (lets : List (String × Expr)) : Extends I more e (blockStep expr lets) := by
  refine .skipIf (by decide) .pure (.pure trivial) ?_
  exact .advance fun _ => (beyond_blockItem h lets).toExtends

/-- Behind its opening brace a block has its closing one, or at least two tokens. -/
theorem length_blockBody {s t : State} {r : List (String × Expr) × Option Expr}
    (hclean : Clean (blockBody expr) s r t) (hone : 1 ≤ t.tokens.length) :
    s.next.kind = .rbrace ∨ 3 ≤ s.tokens.length := by
  have hloop : Clean (loop (blockStep expr) (s.tokens.length + 1) []) s r t :=
    ⟨hclean.run, hclean.whole, hclean.before, hclean.after⟩
  rw [loop_eq] at hloop
  have hmoves : ∀ lets (s : State), s.Reaches (blockStep expr lets s).2 :=
    fun lets => (extends_blockStep h lets).moves
  obtain ⟨c, u, hround, -, hreach⟩ := hloop.bind (hmoves []) (reaches_rest hmoves _)
  have hleft := hreach.length_le
  by_cases hclosed : s.next.kind = .rbrace
  · exact .inl hclosed
  · right
    have hskip := skip_run .rbrace s
    rw [if_neg hclosed] at hskip
    have hrun : blockStep expr [] s = (advance >>= fun _ => blockItem expr []) s := by
      rw [blockStep, run_bind_some hskip]
      rfl
    have hitem : Clean (blockItem expr []) (advance s).2 c u := by
      refine ⟨?_, (reaches_advance s).whole hround.whole,
        hround.before, hround.after⟩
      rw [← hround.run, hrun]
      rfl
    have htwo := (beyond_blockItem h []).needs hitem (by omega)
    have htail := State.length_advance s
    omega

variable (hI : ∀ n, Maintains I (expr n))

include hI

theorem extends_blockBody : Extends I more e (blockBody expr) :=
  .iterate (extends_blockStep h) (maintains_blockStep hI) []

/-- **A record or a block.**  Where a field seems to follow because of what stands behind the input,
the block was not finished. -/
theorem extends_recordOrBlock : Extends I more e (recordOrBlock expr) := by
  refine .look fun start => ?_
  have hrecord : Extends I more e (recordLiteral expr) := (beyond_recordLiteral h).toExtends
  have hblock : Extends I more e (blockBody expr >>= fun r => markFrom start >>= fun m =>
      pure (Expr.block m r.1 r.2)) :=
    (extends_blockBody h hI).bind (fun r => .mark fun _ => .pure) fun r => maintains_mark
  show Extends I more e (observe fieldFollows >>= fun b => if b = true then recordLiteral expr
    else blockBody expr >>= fun r => markFrom start >>= fun m => pure (.block m r.1 r.2))
  have hrun : ∀ s : State, (observe fieldFollows >>= fun b => if b = true then recordLiteral expr
      else blockBody expr >>= fun r => markFrom start >>= fun m => pure (.block m r.1 r.2)) s
      = if fieldFollows s = true then recordLiteral expr s
        else (blockBody expr >>= fun r => markFrom start >>= fun m => pure (.block m r.1 r.2)) s := by
    intro s
    show (if fieldFollows s = true then _ else _ : Parser Expr) s = _
    split <;> rfl
  refine ⟨fun s => ?_, fun {s a t} hclean hone => ?_⟩
  · rw [hrun]
    split
    · exact hrecord.moves s
    · exact hblock.moves s
  · have hshort := hclean.run
    rw [hrun] at hshort
    have hsame : fieldFollows (s.extend more e) = fieldFollows s := by
      by_cases hthree : 3 ≤ s.tokens.length
      · rw [fieldFollows, fieldFollows, State.next_extend (by omega), State.afterNext_extend hthree]
      · have hfalse : fieldFollows s = false := by
          rw [fieldFollows, State.afterNext_eq_eof (by omega), hclean.whole.eof]
          simp
        rw [hfalse, if_neg Bool.false_ne_true] at hshort
        obtain ⟨r, u, hbody, -, hreach⟩ := Clean.bind ⟨hshort, hclean.whole, hclean.before, hclean.after⟩
          (extends_blockBody h hI).moves fun r u => .refl u
        have hleft := hreach.length_le
        have hclosed := (length_blockBody h hbody (by omega)).resolve_right hthree
        have htwo := length_of_next hclean.whole (by decide) hclosed
        rw [hfalse, fieldFollows, State.next_extend htwo, hclosed]
        rfl
    rw [Continues, hrun, hsame]
    split at hshort
    · rw [if_pos ‹_›]
      exact hrecord.same ⟨hshort, hclean.whole, hclean.before, hclean.after⟩ hone
    · rw [if_neg ‹_›]
      exact hblock.same ⟨hshort, hclean.whole, hclean.before, hclean.after⟩ hone

theorem extends_constructor : Extends I more e (constructor expr) := by
  refine .look fun t => ?_
  have hend : ∀ args : List Expr, Extends I more e (do return Expr.construct (← markFrom t) t.text args) :=
    fun args => .mark fun _ => .pure
  show Extends I more e (observe (fun s => decide (s.next.kind = .lparen) && decide (s.next.line = t.line))
    >>= fun b => if b = true then advance >>= fun _ => exprList expr .rparen >>= fun args =>
      markFrom t >>= fun m => pure (Expr.construct m t.text args)
      else pure [] >>= fun args => markFrom t >>= fun m => pure (Expr.construct m t.text args))
  refine .ahead (fun s s' _ hnext => by rw [hnext]) (fun s hs => ?_) ?_ ?_ ?_
  · rw [decide_eq_false (ne_of_mem_of_not_mem hs (by decide)), Bool.false_and]
  · exact .exactly (beyond_exprList h (by decide)).toExtends hend
  · exact .seq (maintains_exprList hI _) fun _ => maintains_mark
  · exact .exactly .pure hend

theorem extends_conditional : Extends I more e (conditional expr) := by
  refine .look fun start => .advance fun _ => .steadily (h _).steady fun test => .expect (by decide) fun _ => ?_
  have hend : ∀ yes no, Extends I more e (do return Expr.cond (← markFrom start) test yes no) :=
    fun yes no => .mark fun _ => .pure
  refine .advance fun _ => (h _).bind (fun yes => ?_) fun yes => ?_
  · refine .skipIf (by decide) (.advance fun _ => (h _).bind (fun no => .exactly .pure (hend yes)) ?_) ?_
      (.exactly .pure (hend yes))
    · exact fun no => .seq (.pure trivial) fun _ => maintains_mark
    · exact .seq maintains_advance fun _ => .seq (hI _) fun no => .seq (.pure trivial) fun _ => maintains_mark
  · refine .seq (maintains_skip _) fun b => .ite (fun _ => ?_) fun _ => .seq (.pure trivial) fun _ => maintains_mark
    exact .seq maintains_advance fun _ => .seq (hI _) fun no => .seq (.pure trivial) fun _ => maintains_mark

theorem extends_performance : Extends I more e (performance expr) := by
  refine .look fun start => .expect (by decide) fun _ => .look fun effect => ?_
  have hend : ∀ args : List Expr, Extends I more e
      (do return Expr.perform (← markFrom start) effect.text args) := fun args => .mark fun _ => .pure
  refine .skipIf (by decide) (.exactly (beyond_exprList h (by decide)).toExtends hend) ?_ (.exactly .pure hend)
  exact .seq (maintains_exprList hI _) fun _ => maintains_mark

/-- What binds tightly enough behind the input is put behind an expression, too. -/
theorem extends_exprRound (precedence : Nat) (left : Expr) :
    Extends I more e (exprRound expr precedence left) := by
  show Extends I more e (observe (fun s => decide (precedence < binding s.next.kind) &&
    !(decide (s.next.kind = .lparen) && decide (s.next.line ≠ s.current.line))) >>= fun b =>
      if b = true then advance >>= fun _ => extendedBy expr left >>= fun e => pure (Round.again e)
      else pure (Round.done left))
  have hinert : ∀ k ∈ inert, binding k = 0 := by decide
  refine .ahead (fun s s' hcurrent hnext => by rw [hcurrent, hnext]) (fun s hs => ?_) ?_ ?_ .pure
  · rw [hinert _ hs, decide_eq_false (Nat.not_lt_zero precedence), Bool.false_and]
  · exact (extends_extendedBy h left).bind (fun _ => .pure) fun _ => .pure trivial
  · exact .seq (maintains_extendedBy hI left) fun _ => .pure trivial

variable (hp : Steady more e pattern) (hpI : Maintains I pattern)

include hp hpI

theorem extends_selection : Extends I more e (selection expr pattern) := by
  refine .look fun start => .advance fun _ => .steadily (h _).steady fun target => .expect (by decide) fun _ => ?_
  refine (Beyond.nextIs (by decide) ?_ (refuses_rejectNext _)).toExtends
  refine .bind (.iterate (fun arms => ?_) (fun arms => ?_) []) (fun arms => .mark fun _ => .pure)
    fun arms => maintains_mark
  · have harm : Extends I more e (do
        let a ← arm expr pattern
        return (.again (arms ++ [a]) : Round (List (Arm Pattern Expr)) (List (Arm Pattern Expr)))) :=
      (extends_arm h hp).bind (fun a => .pure) fun a => .pure trivial
    exact .skipIf (by decide) harm (.seq (maintains_arm hI hpI) fun a => .pure trivial) .pure
  · refine .seq (maintains_skip _) fun b => .ite (fun _ => ?_) fun _ => .pure trivial
    exact .seq (maintains_arm hI hpI) fun a => .pure trivial

theorem extends_atom : Extends I more e (atom expr pattern) := by
  refine .look fun t => ?_
  split
  · exact .pure
  · exact extends_constructor h hI
  iterate 5 exact .pure
  · exact extends_unaryWith h _
  · exact extends_unaryWith h _
  · exact (beyond_group h).toExtends
  · exact .exactly (beyond_exprList h (by decide)).toExtends fun es => .mark fun _ => .pure
  · exact extends_recordOrBlock h hI
  · exact extends_conditional h hI
  · exact extends_selection h hI hp hpI
  · exact extends_performance h hI
  · exact .refused (refuses_rejectEnd _ _)
  · exact .refused (refuses_reject _ _ _)

theorem extends_exprBody (precedence : Nat) : Extends I more e (exprBody expr pattern precedence) := by
  rw [exprBody_rounds]
  refine (extends_atom h hI hp hpI).bind ?_ ?_
  · exact .iterate (extends_exprRound h hI precedence) (maintains_exprRound hI precedence)
  · exact maintains_iterate (maintains_exprRound hI precedence)

end Extended

end Expressions

/-! ### Declarations -/

/-- What stands behind an annotation is needed, so that annotations never cross over. -/
theorem exact_annotationNames : Exact more e annotationNames := by
  refine .iterate (fun names => .lookIs fun b => ?_) (fun _ => maintains_never _) []
  refine .ite (fun _ => .expect (by decide) fun _ => .look fun name => ?_) fun _ => .pure
  exact .advance fun _ => .pure

variable [Invariant I T] [Crossing I more e]

include T

/-- A sum type goes on where a bar follows. -/
theorem extends_variants : Extends I more e variants := by
  have hend : ∀ vs : List Variant, Extends I more e (do
      if ← skip .pipe then return .again vs
      else return (.done vs : Round (List Variant) (List Variant))) :=
    fun vs => .skipIf (by decide) .pure (.pure trivial) .pure
  have hend' : ∀ vs : List Variant, Maintains I (do
      if ← skip .pipe then return .again vs
      else return (.done vs : Round (List Variant) (List Variant))) :=
    fun vs => .seq (maintains_skip _) fun b => .ite (fun _ => .pure trivial) fun _ => .pure trivial
  refine .iterate (fun vs => ?_) (fun vs => ?_) []
  · refine .expect (by decide) fun _ => .look fun name => .skipIf (by decide) ?_ ?_ (.exactly .pure fun ts => hend _)
    · exact .exactly (Beyond.commaList steady_type (by decide) _).toExtends fun ts => hend _
    · exact .seq (maintains_type.commaList _ _).maintains fun ts => hend' _
  · refine .seq (maintains_expect _ _) fun _ => .seq (maintains_observe _) fun name => ?_
    refine .seq (maintains_skip _) fun b => .ite (fun _ => ?_) fun _ => .seq (.pure trivial) fun ts => hend' _
    exact .seq (maintains_type.commaList _ _).maintains fun ts => hend' _

theorem extends_typeDeclaration (start : Token) (isPublic : Bool) :
    Extends I more e (typeDeclaration start isPublic) := by
  have hend : ∀ {f : Span → TypeDecl}, Extends I more e (do return f (← spanFrom start)) :=
    .span fun _ => .pure
  have hend' : ∀ {f : Span → TypeDecl}, Maintains I (do return f (← spanFrom start)) :=
    .seq (maintains_spanFrom _) fun _ => .pure trivial
  refine .look fun keyword => .expect (by decide) fun _ => .look fun name => ?_
  refine .expect (by decide) fun _ => .skipIf (by decide) ?_ ?_ ?_
  · exact .steadily steady_recordTypeFields fun fields => .expect (by decide) fun _ => hend
  · refine .seq maintains_recordTypeFields fun fields => ?_
    exact .seq (maintains_expect _ _) fun _ => hend'
  · have hvariants : Extends I more e (do
        let vs ← variants
        return (⟨⟨keyword, ← spanFrom start⟩, name.text, vs, [], isPublic⟩ : TypeDecl)) :=
      extends_variants.bind (fun vs => hend) fun vs => hend'
    exact .skip (by decide) hvariants (.seq maintains_variants fun vs => hend') hvariants

variable (hI : Upheld I)

include hI

theorem extends_exprWithin (room precedence : Nat) : Extends I more e (exprWithin room precedence) := by
  induction room generalizing precedence with
  | zero => exact .refused refuses_tooDeep
  | succ room ih =>
    exact (extends_exprBody ih (hI.expr room) (steady_pattern room).2 (hI.pattern room) precedence).nested

/-- **Expressions** are read in the same way in front of more tokens, or the parser crosses over. -/
theorem extends_expression : Extends I more e expression :=
  .withRoom fun room => extends_exprWithin hI room _

theorem beyond_definition : Beyond I more e definition :=
  .expect (by decide) fun _ => .advance fun _ => extends_expression hI

theorem extends_function (start : Token) (isPublic : Bool) (annotations : List String) :
    Extends I more e (function start isPublic annotations) := by
  refine .look fun keyword => .steadily (steady_skipEither _ _) fun named => ?_
  refine .ite (fun _ => .look fun name => ?_) fun _ => .refused (refuses_rejectNext _)
  refine .steadily steady_params fun ps => .steadily steady_resultType fun returns => ?_
  refine (beyond_definition hI).bind (fun body => .span fun _ => .pure) fun body => ?_
  exact .seq (maintains_spanFrom _) fun _ => .pure trivial

/-- A recognizer has a clean run only if nothing is wrong with its annotations. -/
theorem extends_recognizer (start : Token) (isPublic : Bool) (annotations : List String) :
    Extends I more e (recognizer start isPublic annotations) := by
  refine .look fun keyword => ?_
  have hrest : Extends I more e (do
      expect .lparen "(|"
      let named ← recognizerName
      let ps ← params
      let returns ← resultType
      let body ← definition
      return (⟨⟨keyword, ← spanFrom start⟩, named.1, named.2, ps, returns, body, isPublic,
        annotations.contains "pure"⟩ : Recognizer)) := by
    refine .expect (by decide) fun _ => .steadily steady_recognizerName fun r => .steadily steady_params fun ps => ?_
    refine .steadily steady_resultType fun returns => ?_
    refine (beyond_definition hI).bind (fun body => .span fun _ => .pure) fun body => ?_
    exact .seq (maintains_spanFrom _) fun _ => .pure trivial
  rcases checkAnnotations_cases start annotations with hpure | hrecorded
  · rw [hpure]
    exact .exactly .pure fun _ => hrest
  · refine .exactly (Beyond.never (fun s => (hrecorded s).1) fun s a t h => ?_).toExtends fun _ => hrest
    have herrors := (hrecorded s).2
    rw [h.run] at herrors
    exact herrors (h.after.trans h.before.symm)

theorem extends_declarationBody (start : Token) (isPublic : Bool) (annotations : List String) :
    Extends I more e (declarationBody start isPublic annotations) := by
  refine .look fun t => ?_
  split
  · exact (extends_function hI start isPublic annotations).bind (fun f => .pure) fun f => .pure trivial
  · exact (extends_recognizer hI start isPublic annotations).bind (fun r => .pure) fun r => .pure trivial
  · exact (extends_typeDeclaration start isPublic).bind (fun d => .pure) fun d => .pure trivial
  · refine .ite (fun _ => .refused (refuses_reject _ _ _)) fun _ => ?_
    exact (extends_expression hI).bind (fun body => .mark fun _ => .pure) fun body => maintains_mark

/-- **Declarations** are read in the same way in front of more tokens, or the parser crosses over. -/
theorem extends_declaration : Extends I more e declaration := by
  rw [declaration_eq]
  refine .look fun start => .exactly exact_annotationNames fun annotations => .lookIs fun isPublic => ?_
  refine .ite (fun _ => .advance fun _ => ?_) fun _ => ?_
  · exact extends_declarationBody hI start isPublic annotations
  · exact extends_declarationBody hI start isPublic annotations

end PatternPlan.Surface.Parser
