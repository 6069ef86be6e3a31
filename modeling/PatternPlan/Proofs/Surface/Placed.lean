import PatternPlan.Proofs.Surface.Leads

/-!
# Where the matches of a file lie

Parentheses leave no trace in a tree, and a match is found wherever an expression may stand.  So each
construct is followed through its tokens: what has been read is laid out in front of what comes next.

* `Lays` — a parser whose matches are laid out between the token at which it begins and the one at
  which it ends;
* `lays_selection` — **a match covers the matches inside it**: it starts at its keyword, in front of
  them, and ends where its last arm does;
* `lays_exprWithin` — expressions, by induction on the levels of nesting that are left;
* `upto_step`, `laid_program` — declarations, also those that are dropped or left behind an error, and
  **whole files**.
-/

namespace PatternPlan.Surface

namespace Parser

open State

variable {lo : Int} {ms : List Match}

/-- A parser that lays out the matches of what it returns, from the token at which it begins. -/
def Lays (p : Parser Expr) : Prop :=
  ∀ lo ms, Leads (Upto lo ms) p fun e => Ended lo (ms ++ e.allMatches)

section Expressions

variable {expr : Nat → Parser Expr} {pattern : Parser Pattern}

theorem lays_exprList (h : ∀ n, Lays (expr n)) {close : TokenKind} (hclose : close ≠ .illegal) :
    Leads (Through lo ms) (exprList expr close)
      fun es => Ended lo (ms ++ Expr.allMatchesOfList es) := by
  simp only [Expr.allMatchesOfList_eq]
  exact .commaListOrNone hclose _ fun ms => h _ lo ms

theorem lays_constructor (h : ∀ n, Lays (expr n)) :
    Leads (Ended lo ms) (constructor expr) fun e => Ended lo (ms ++ e.allMatches) := by
  refine .current fun x => .observe fun n => ?_
  have hend : ∀ es, Leads (Ended lo (ms ++ Expr.allMatchesOfList es))
      (markFrom x >>= fun m => pure (Expr.construct m x.text es))
      fun e => Ended lo (ms ++ e.allMatches) :=
    fun es => .mark fun _ => .pure fun _ => id
  refine .ite (fun _ => ?_) fun _ => (hend []).of fun s hs => ?_
  · exact .advance (fun _ => Ended.through) fun _ =>
      ((lays_exprList h (by decide)).of fun _ => Upto.through).bind hend
  · rwa [Expr.allMatchesOfList, List.append_nil]

theorem lays_group (h : ∀ n, Lays (expr n)) :
    Leads (Ended lo ms) (group expr) fun e => Ended lo (ms ++ e.allMatches) := by
  refine .current fun x => .skipIf (by decide) (fun _ => Ended.through) ?_ ?_
  · refine .mark fun _ => .pure fun s hs => ?_
    rwa [Expr.allMatches, List.append_nil]
  · refine ((lays_exprList h (by decide)).of fun _ => Ended.through).bind fun es => ?_
    split
    · refine .pure fun s hs => ?_
      rwa [Expr.allMatchesOfList, Expr.allMatchesOfList, List.append_nil] at hs
    · exact .mark fun _ => .pure fun _ => id

theorem allMatchesOfFields_snoc (fs : List (String × Expr)) (n : String) (e : Expr) :
    Expr.allMatchesOfFields (fs ++ [(n, e)]) = Expr.allMatchesOfFields fs ++ e.allMatches := by
  simp [Expr.allMatchesOfFields_eq]

theorem lays_recordLiteral (h : ∀ n, Lays (expr n)) :
    Leads (Through lo ms) (recordLiteral expr) fun e => Ended lo (ms ++ e.allMatches) := by
  refine .current fun x => .bind
    (K := fun fs => Ended lo (ms ++ Expr.allMatchesOfFields fs)) ?_ fun fs => ?_
  · refine .iterate (R := fun fs => Through lo (ms ++ Expr.allMatchesOfFields fs)) (fun s hs => ?_)
      fun fs => ?_
    · rwa [Expr.allMatchesOfFields, List.append_nil]
    · refine .expect (by decide) (fun _ => id) fun _ => .current fun name => ?_
      refine .expect (by decide) (fun _ => Ended.through) fun _ => ?_
      refine .advance (fun _ => Ended.through) fun _ => (h _ _ _).bind fun value => ?_
      rw [List.append_assoc, ← allMatchesOfFields_snoc fs name.text]
      refine .skipIf (by decide) (fun _ => Ended.through) (.observe fun b => ?_) (.pure fun _ => id)
      exact .ite (fun _ => .pure fun _ => id) fun _ => .pure fun _ => Ended.through
  · refine .expect (by decide) (fun _ => Ended.through) fun _ => ?_
    exact .mark fun _ => .pure fun _ => id

theorem lays_blockItem (h : ∀ n, Lays (expr n)) (lets : List (String × Expr)) :
    Leads (Upto lo (ms ++ Expr.allMatchesOfFields lets)) (blockItem expr lets)
      (Leads.Behind (fun lets => Through lo (ms ++ Expr.allMatchesOfFields lets))
        fun r => Ended lo (ms ++ (Expr.allMatchesOfFields r.1 ++ Expr.allMatchesOfOption r.2))) := by
  refine .observe fun b => .ite (fun _ => ?_) fun _ => ?_
  · refine .expect (by decide) (fun _ => Upto.through) fun _ => .current fun name => ?_
    refine .expect (by decide) (fun _ => Ended.through) fun _ => ?_
    refine .advance (fun _ => Ended.through) fun _ => (h _ _ _).bind fun value => ?_
    refine .skip (by decide) fun _ => .pure fun s hs => ?_
    rw [List.append_assoc, ← allMatchesOfFields_snoc lets name.text] at hs
    exact hs.through
  · refine (h _ _ _).bind fun result => .skip (by decide) fun _ => ?_
    refine .expect (by decide) (fun _ => Ended.through) fun _ => .pure fun s hs => ?_
    rwa [List.append_assoc] at hs

theorem lays_blockBody (h : ∀ n, Lays (expr n)) :
    Leads (Through lo ms) (blockBody expr)
      fun r => Ended lo (ms ++ (Expr.allMatchesOfFields r.1 ++ Expr.allMatchesOfOption r.2)) := by
  rw [blockBody_steps]
  refine .iterate (R := fun lets => Through lo (ms ++ Expr.allMatchesOfFields lets)) (fun s hs => ?_)
    fun lets => ?_
  · rwa [Expr.allMatchesOfFields, List.append_nil]
  · refine .skipIf (by decide) (fun _ => id) (.pure fun s hs => ?_) ?_
    · show Ended lo (ms ++ (Expr.allMatchesOfFields lets ++ [])) s
      rwa [List.append_nil]
    · exact .advance (fun _ => id) fun _ => lays_blockItem h lets

theorem lays_recordOrBlock (h : ∀ n, Lays (expr n)) :
    Leads (Through lo ms) (recordOrBlock expr) fun e => Ended lo (ms ++ e.allMatches) := by
  refine .current fun x => .observe fun b => .ite (fun _ => lays_recordLiteral h) fun _ => ?_
  exact (lays_blockBody h).bind fun r => .mark fun _ => .pure fun _ => id

theorem lays_conditional (h : ∀ n, Lays (expr n)) :
    Leads (Through lo ms) (conditional expr) fun e => Ended lo (ms ++ e.allMatches) := by
  refine .current fun x => .advance (fun _ => id) fun _ => (h _ _ _).bind fun test => ?_
  refine .expect (by decide) (fun _ => Ended.through) fun _ => ?_
  refine .advance (fun _ => Ended.through) fun _ => (h _ _ _).bind fun yes => ?_
  have hend : ∀ no, Leads (Ended lo (ms ++ test.allMatches ++ yes.allMatches
      ++ Expr.allMatchesOfOption no)) (markFrom x >>= fun m => pure (Expr.cond m test yes no))
      fun e => Ended lo (ms ++ e.allMatches) :=
    fun no => .mark fun m => .pure fun s hs => by simpa [Expr.allMatches] using hs
  refine .skipIf (by decide) (fun _ => Ended.through) ?_ ((hend none).of fun s hs => ?_)
  · exact .advance (fun _ => Ended.through) fun _ => (h _ _ _).bind fun no => hend (some no)
  · rwa [Expr.allMatchesOfOption, List.append_nil]

theorem lays_performance (h : ∀ n, Lays (expr n)) :
    Leads (Through lo ms) (performance expr) fun e => Ended lo (ms ++ e.allMatches) := by
  refine .current fun x => .expect (by decide) (fun _ => id) fun _ => .current fun name => ?_
  have hend : ∀ es, Leads (Ended lo (ms ++ Expr.allMatchesOfList es))
      (markFrom x >>= fun m => pure (Expr.perform m name.text es))
      fun e => Ended lo (ms ++ e.allMatches) :=
    fun es => .mark fun _ => .pure fun _ => id
  refine .skipIf (by decide) (fun _ => Ended.through) ?_ ((hend []).of fun s hs => ?_)
  · exact ((lays_exprList h (by decide)).of fun _ => Ended.through).bind hend
  · rwa [Expr.allMatchesOfList, List.append_nil]

/-- An alias has no matches, and there is one guard at most. -/
theorem lays_armHead (h : ∀ n, Lays (expr n)) :
    Leads (Through lo ms) (armHead expr)
      fun head => Through lo (ms ++ Expr.allMatchesOfOption head.guard) := by
  refine .iterate (R := fun head => Through lo (ms ++ Expr.allMatchesOfOption head.guard))
    (fun s hs => ?_) fun (head : ArmHead) => .observe fun n => ?_
  · show Through lo (ms ++ []) s
    rwa [List.append_nil]
  · refine .ite (fun _ => ?_) fun _ => .ite (fun hguard => ?_) fun _ => .pure fun _ => id
    · refine .advance (fun _ => id) fun _ => .expect (by decide) (fun _ => Upto.through) fun _ => ?_
      exact .current fun name => .pure fun _ => Ended.through
    · refine .advance (fun _ => id) fun _ => .advance (fun _ => Upto.through) fun _ => ?_
      refine (h _ _ _).bind fun guard => .pure fun s hs => ?_
      have hnone : head.guard = none := by
        rw [Bool.and_eq_true] at hguard
        exact Option.isNone_iff_eq_none.mp hguard.2
      rw [hnone, Expr.allMatchesOfOption, List.append_nil] at hs
      exact hs.through

theorem lays_arm (h : ∀ n, Lays (expr n)) (hp : ∀ s : State, s.Reaches (pattern s).2) :
    Leads (Through lo ms) (arm expr pattern) fun a => Ended lo (ms ++ armMatches a) := by
  refine .current fun bar => .advance (fun _ => id) fun _ => .move lasting_upto hp fun p => ?_
  refine ((lays_armHead h).of fun _ => Upto.through).bind fun head => ?_
  refine .expect (by decide) (fun _ => id) fun _ => .advance (fun _ => Ended.through) fun _ => ?_
  refine (h _ _ _).bind fun body => .span fun b => .pure fun s hs => ?_
  rwa [armMatches, ← List.append_assoc]

/-- What is read of a match behind its keyword. -/
def afterMatch (expr : Nat → Parser Expr) (pattern : Parser Pattern) (start : Token) :
    Parser Expr := do
  advance
  let target ← expr Precedence.lowest
  expect .kwWith "with"
  if ← nextIs .pipe then
    let arms ← iterate (fun (arms : List (Arm Pattern Expr)) => do
      if ← skip .pipe then
        let a ← arm expr pattern
        return .again (arms ++ [a])
      else return .done arms) []
    return .select (← markFrom start) target arms
  else rejectNext "| to start a match arm"

theorem lays_afterMatch (h : ∀ n, Lays (expr n)) (hp : ∀ s : State, s.Reaches (pattern s).2)
    (start : Token) : Leads (Through lo []) (afterMatch expr pattern start)
    fun e s => ∃ m : Match, e.allMatches = m :: m.inner ∧
      m.span = start.span.join s.current.span ∧ Ended lo m.inner s := by
  have harms : ∀ (target : Expr) (arms : List (Arm Pattern Expr)) (a : Arm Pattern Expr),
      target.allMatches ++ Expr.allMatchesOfArms arms ++ armMatches a
        = target.allMatches ++ Expr.allMatchesOfArms (arms ++ [a]) := by
    intro target arms a
    simp [Expr.allMatchesOfArms_eq]
  refine .advance (fun _ => id) fun _ => (h _ _ _).bind fun target => ?_
  refine .expect (by decide) (fun _ => Ended.through) fun _ => .observe fun b => ?_
  refine .ite (fun _ => ?_) fun _ => leads_refused (refuses_rejectNext _)
  refine .bind (K := fun arms => Ended lo (target.allMatches ++ Expr.allMatchesOfArms arms)) ?_
    fun arms => ?_
  · refine .iterate (R := fun arms => Ended lo (target.allMatches ++ Expr.allMatchesOfArms arms))
      (fun s hs => ?_) fun arms => ?_
    · rwa [Expr.allMatchesOfArms, List.append_nil]
    · refine .skipIf (by decide) (fun _ => Ended.through) ?_ (.pure fun _ => id)
      refine ((lays_arm h hp).of fun _ => Ended.through).bind fun a => .pure fun s hs => ?_
      rwa [harms] at hs
  · intro s hs e t hrun
    cases hrun
    exact ⟨⟨_, target, arms⟩, rfl, rfl, hs⟩

theorem span_join {s t : Span} (hstart : s.start ≤ t.start) (hstop : s.stop ≤ t.stop)
    (hpos : 0 < t.stop) : (s.join t).start = s.start ∧ (s.join t).stop = t.stop := by
  have hplace : (decide (t.start = 0) && decide (t.stop = 0)) = false := by
    rw [Bool.and_eq_false_iff, decide_eq_false_iff_not, decide_eq_false_iff_not]
    exact .inr (by omega)
  rw [Span.join, hplace, if_neg Bool.false_ne_true, if_neg (Int.not_lt.mpr hstart)]
  dsimp only
  split
  · exact ⟨rfl, rfl⟩
  · exact ⟨rfl, by omega⟩

/-- **A match covers the matches inside it.** -/
theorem lays_selection (hreads : ∀ N n, Reads N 0 1 (expr n)) (h : ∀ n, Lays (expr n))
    (hpattern : ∀ N, Reads N 0 1 pattern) :
    Leads (fun s => s.Upto lo ms ∧ s.current.kind = .kwMatch) (selection expr pattern)
      fun e => Ended lo (ms ++ e.allMatches) := by
  rintro s ⟨⟨hordered, hlaid⟩, hkind⟩ e t hrun
  -- the keyword is a token of the source
  have hstart : s.current.offset < s.current.stop := by
    have hmem : s.current ∈ s.tokens := by
      cases htokens : s.tokens with
      | nil =>
        have heof : s.current = s.eof := by rw [State.current, htokens]; rfl
        rw [heof, hordered.eof_kind] at hkind
        cases hkind
      | cons x rest =>
        rw [State.current, htokens]
        exact List.mem_cons_self
    refine (hordered.filled _ hmem).2 ?_
    rw [hkind]
    decide
  have hreach := (reads_selection hreads hpattern (N := 0)).moves s
  rw [hrun] at hreach
  obtain ⟨hoffset, hstop⟩ := current_le_of_reaches hordered hreach
  rw [Token.reach_eq_stop (by rw [hkind]; decide)] at hstop
  have hinside : s.Through (s.current.offset + 1) [] := by
    refine ⟨hordered, .nil ?_⟩
    rw [Token.reach_eq_stop (by rw [hkind]; decide)]
    omega
  obtain ⟨m, hmatches, hspan, ⟨hordered', hinner⟩, hlegal⟩ :=
    lays_afterMatch h (fun s => (hpattern 0).moves s) s.current s hinside e t hrun
  rw [Token.reach_eq_stop hlegal] at hstop hinner
  obtain ⟨hfrom, hto⟩ := span_join (s := s.current.span) (t := t.current.span)
    (Int.ofNat_le.mpr hoffset) (Int.ofNat_le.mpr hstop)
    (Int.natCast_pos.mpr (Nat.lt_of_lt_of_le (Nat.zero_lt_of_lt hstart) hstop))
  rw [← hspan] at hfrom hto
  have hmatch : Laid lo m.span.stop (ms ++ m :: m.inner) := by
    refine Laid.snoc ?_ ?_
    · rw [hfrom]
      exact hlaid
    · rw [hfrom, hto]
      exact hinner
  refine ⟨⟨hordered', ?_⟩, hlegal⟩
  rw [Token.reach_eq_stop hlegal, hmatches]
  rw [hto] at hmatch
  exact hmatch

theorem lays_unaryWith (h : ∀ n, Lays (expr n)) (op : UnaryOp) :
    Leads (Through lo ms) (unaryWith expr op) fun e => Ended lo (ms ++ e.allMatches) :=
  .current fun _ => .advance (fun _ => id) fun _ => (h _ _ _).bind fun _ => .mark fun _ =>
    .pure fun _ => id

theorem lays_atom (hreads : ∀ N n, Reads N 0 1 (expr n)) (h : ∀ n, Lays (expr n))
    (hpattern : ∀ N, Reads N 0 1 pattern) : Lays (atom expr pattern) := by
  intro lo ms
  refine .start fun x => ?_
  have hended : ∀ {k : TokenKind} {p : Parser Expr}, x.kind = k → k ≠ .illegal →
      Leads (Ended lo ms) p (fun e => Ended lo (ms ++ e.allMatches)) →
      Leads (fun s => s.Upto lo ms ∧ s.current = x) p fun e => Ended lo (ms ++ e.allMatches) := by
    intro k p hkind hk hp
    refine hp.of fun s hs => ⟨hs.1.through, ?_⟩
    rw [hs.2, hkind]
    exact hk
  have hthrough : ∀ {p : Parser Expr},
      Leads (Through lo ms) p (fun e => Ended lo (ms ++ e.allMatches)) →
      Leads (fun s => s.Upto lo ms ∧ s.current = x) p fun e => Ended lo (ms ++ e.allMatches) :=
    fun hp => hp.of fun s hs => hs.1.through
  have hleaf : ∀ e : Expr, e.allMatches = [] →
      Leads (Ended lo ms) (pure e) fun e => Ended lo (ms ++ e.allMatches) := by
    intro e he
    refine .pure fun s hs => ?_
    rwa [he, List.append_nil]
  split
  · exact hended ‹_› (by decide) (hleaf _ rfl)
  · exact hended ‹_› (by decide) (lays_constructor h)
  iterate 5 exact hended ‹_› (by decide) (hleaf _ rfl)
  · exact hthrough (lays_unaryWith h _)
  · exact hthrough (lays_unaryWith h _)
  · exact hended ‹_› (by decide) (lays_group h)
  · exact hthrough ((lays_exprList h (by decide)).bind fun es => .mark fun _ => .pure fun _ => id)
  · exact hthrough (lays_recordOrBlock h)
  · exact hthrough (lays_conditional h)
  · rename_i hkind
    refine (lays_selection hreads h hpattern).of fun s hs => ⟨hs.1, ?_⟩
    rw [hs.2]
    exact hkind
  · exact hthrough (lays_performance h)
  · exact leads_refused (refuses_rejectEnd _ _)
  · exact leads_refused (refuses_reject _ _ _)

theorem lays_extendedBy (h : ∀ n, Lays (expr n)) (left : Expr) :
    Leads (Upto lo (ms ++ left.allMatches)) (extendedBy expr left)
      fun e => Ended lo (ms ++ e.allMatches) := by
  refine .current fun x => ?_
  split
  · refine ((lays_exprList h (by decide)).of fun _ => Upto.through).bind fun es => ?_
    refine .current fun last => .pure fun s hs => ?_
    rwa [Expr.allMatches, ← List.append_assoc]
  · refine .expect (by decide) (fun _ => Upto.through) fun _ => .current fun name => ?_
    exact .pure fun _ => id
  · split
    · refine .advance (fun _ => Upto.through) fun _ => (h _ _ _).bind fun right => ?_
      refine .pure fun s hs => ?_
      rwa [Expr.allMatches, ← List.append_assoc]
    · exact leads_refused (refuses_reject _ _ _)

theorem lays_exprBody (hreads : ∀ N n, Reads N 0 1 (expr n)) (h : ∀ n, Lays (expr n))
    (hpattern : ∀ N, Reads N 0 1 pattern) (precedence : Nat) :
    Lays (exprBody expr pattern precedence) := by
  intro lo ms
  rw [exprBody_rounds]
  refine (lays_atom hreads h hpattern lo ms).bind fun first => ?_
  refine .iterate (R := fun left => Ended lo (ms ++ left.allMatches)) (fun _ => id) fun left => ?_
  refine .current fun x => .observe fun n => .ite (fun _ => ?_) fun _ => .pure fun _ => id
  exact .advance (fun _ => Ended.through) fun _ =>
    (lays_extendedBy h left).bind fun e => .pure fun _ => id

end Expressions

/-- **Expressions lay out their matches**, by induction on the levels of nesting that are left. -/
theorem lays_exprWithin (room precedence : Nat) : Lays (exprWithin room precedence) := by
  induction room generalizing precedence with
  | zero =>
    intro lo ms s _ e t hrun
    cases hrun
  | succ room ih =>
    intro lo ms
    refine .nested still_upto (fun _ => still_ended) ?_
    exact lays_exprBody (reads_exprWithin room).1 ih (reads_pattern room).2 precedence lo ms

theorem lays_expression : Lays expression :=
  fun lo ms => .withRoom fun room => lays_exprWithin room _ lo ms

/-! ### Declarations -/

/-- The matches of a declaration. -/
def declMatches (d : Decl) : List Match :=
  match d.body? with
  | some e => e.allMatches
  | none => []

theorem lays_definition :
    Leads (Through lo ms) definition fun e => Ended lo (ms ++ e.allMatches) :=
  .expect (by decide) (fun _ => id) fun _ => .advance (fun _ => Ended.through) fun _ =>
    lays_expression lo _

theorem lays_function (start : Token) (isPublic : Bool) (annotations : List String) :
    Leads (Through lo ms) (function start isPublic annotations)
      fun f => Through lo (ms ++ f.body.allMatches) := by
  refine .current fun keyword => .move lasting_through
    (accounts_skipEither (N := 0) (by decide) (by decide)).moves fun named => ?_
  refine .ite (fun _ => .current fun name => ?_) fun _ => leads_refused (refuses_rejectNext _)
  refine .move lasting_through (reads_params (N := 0)).moves fun ps => ?_
  refine .move lasting_through (reads_resultType (N := 0)).moves fun returns => ?_
  exact lays_definition.bind fun body => .span fun _ => .pure fun _ => Ended.through

theorem lays_recognizer (start : Token) (isPublic : Bool) (annotations : List String) :
    Leads (Through lo ms) (recognizer start isPublic annotations)
      fun r => Through lo (ms ++ r.body.allMatches) := by
  have hcheck : ∀ s : State, s.Reaches (checkAnnotations start annotations s).2 := by
    intro s
    rcases checkAnnotations_cases start annotations with hpure | hrecorded
    · rw [hpure]
      exact .refl s
    · exact (hrecorded s).1
  refine .current fun keyword => .move lasting_through hcheck fun _ => ?_
  refine .move lasting_through (accounts_expect (N := 0) (by decide) _).moves fun _ => ?_
  refine .move lasting_through (reads_recognizerName (N := 0)).moves fun r => ?_
  refine .move lasting_through (reads_params (N := 0)).moves fun ps => ?_
  refine .move lasting_through (reads_resultType (N := 0)).moves fun returns => ?_
  exact lays_definition.bind fun body => .span fun _ => .pure fun _ => Ended.through

theorem lays_declarationBody (start : Token) (isPublic : Bool) (annotations : List String) :
    Leads (Upto lo ms) (declarationBody start isPublic annotations)
      fun d => Through lo (ms ++ declMatches d) := by
  refine .current fun x => ?_
  split
  · exact ((lays_function start isPublic annotations).of fun _ => Upto.through).bind fun f =>
      .pure fun _ => id
  · exact ((lays_recognizer start isPublic annotations).of fun _ => Upto.through).bind fun r =>
      .pure fun _ => id
  · refine .move lasting_upto (reads_typeDeclaration (N := 0) start isPublic).moves fun d => ?_
    refine .pure fun s hs => ?_
    show Through lo (ms ++ []) s
    rw [List.append_nil]
    exact hs.through
  · refine .ite (fun _ => leads_refused (refuses_reject _ _ _)) fun _ => ?_
    exact (lays_expression lo ms).bind fun e => .mark fun _ => .pure fun _ => Ended.through

theorem lays_declaration :
    Leads (Upto lo ms) declaration fun d => Through lo (ms ++ declMatches d) := by
  rw [declaration_eq]
  refine .current fun start => .move lasting_upto (reads_annotationNames (N := 0)).moves fun names => ?_
  refine .observe fun isPublic => .ite (fun _ => ?_) fun _ => lays_declarationBody start _ names
  exact .advance (fun _ => Upto.through) fun _ => lays_declarationBody start _ names

/-! ### Whole files -/

/-- Behind an error reading goes on further down. -/
theorem upto_synchronize {s : State} (hs : s.Through lo ms) : (synchronize s).2.Upto lo ms := by
  refine lasting_upto _ _ ?_ hs.advance
  exact ⟨List.dropWhile_suffix _, rfl, List.prefix_refl _, id⟩

/-- **One round of declarations**, whether or not something is wrong with it. -/
theorem upto_step {s : State} (hs : s.Upto lo ms) :
    (step s).2.Upto lo (ms ++ (step s).1.toList.flatMap declMatches) := by
  have hsome : ∀ d t, declaration s = (some d, t) → t.Through lo (ms ++ [d].flatMap declMatches) := by
    intro d t hrun
    have ht := lays_declaration s hs d t hrun
    rwa [List.flatMap_singleton]
  rcases step_cases s with ⟨d, t, hrun, -, hstep⟩ | ⟨-, hstep⟩
  · rw [hstep]
    exact (hsome d t hrun).advance
  · rw [hstep]
    refine upto_synchronize ?_
    have hreach := (reads_declaration (N := 0)).moves s
    cases hrun : declaration s with
    | mk r t =>
      rw [hrun] at hreach
      cases r with
      | some d => exact hsome d t hrun
      | none =>
        show t.Through lo (ms ++ [])
        rw [List.append_nil]
        exact (lasting_upto s t hreach hs).through

theorem upto_declarations (fuel : Nat) {s : State} (hs : s.Upto lo ms) :
    (declarations fuel s).2.Upto lo (ms ++ (declarations fuel s).1.flatMap declMatches) := by
  have hend : s.Upto lo (ms ++ ([] : List Decl).flatMap declMatches) := by
    rwa [List.flatMap_nil, List.append_nil]
  induction fuel generalizing s ms with
  | zero => exact hend
  | succ fuel ih =>
    rw [declarations]
    split
    · exact hend
    · have hstep := upto_step hs
      have hrest := ih hstep (by rwa [List.flatMap_nil, List.append_nil])
      rw [List.append_assoc, ← List.flatMap_append] at hrest
      exact hrest

/-- **The matches of a file are laid out**, if its tokens are in order. -/
theorem laid_program {s : State} (hs : Ordered s.tokens s.eof) :
    Laid 0 (program s).2.current.offset (program s).1.allMatches := by
  obtain ⟨header, uses, t, hopening, hprogram⟩ := program_opening s
  have hreach := (reads_opening (N := 0)).moves s
  rw [hopening] at hreach
  have hbegin : t.Upto 0 [] :=
    lasting_upto s t hreach ⟨hs, .nil (Int.natCast_nonneg _)⟩
  have hdecls := (upto_declarations (t.tokens.length + 1) hbegin).2
  rw [hprogram]
  exact hdecls

end Parser

/-- **The matches of a tree are laid out**, whatever is wrong with its source. -/
theorem laid_parse (source : Text) : ∃ hi, Laid 0 hi (parse (lex source)).program.allMatches :=
  ⟨_, Parser.laid_program (s := { tokens := (lex source).tokens, eof := (lex source).eof })
    (ordered_lex source)⟩

end PatternPlan.Surface
