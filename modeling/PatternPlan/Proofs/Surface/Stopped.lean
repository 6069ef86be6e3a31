import PatternPlan.Proofs.Surface.Constructs
import PatternPlan.Proofs.Surface.Edge

/-!
# Every construct stops in front of the next declaration

The rules of `Edge`, used on every parser that a function or an expression is read with.

* `stops_type`, `stops_pattern`, `stops_exprWithin` — types, patterns and expressions;
* `stops_annotated` — the one step that goes past an edge: `@` behind a name in a pattern;
* `stops_declaration` — **functions and expressions**.
-/

namespace PatternPlan.Surface.Parser

variable {e : Edge}

/-! ### Types -/

theorem stops_typeBody {inner : Parser TypeExpr} (h : StopsAt e e.Front inner e.Inside) :
    StopsAt e e.Front (typeBody inner) e.Inside := by
  have hitem : StopsAt e e.Front inner e.Loose := h.mono fun _ _ => Edge.Inside.loose
  refine .start fun x => ?_
  split
  · rename_i hkind
    have hnamed : ∀ ts, StopsAt e e.Inside (markFrom x >>= fun m => pure (TypeExpr.named m x.text ts)) e.Inside :=
      fun ts => .mark fun _ => .pure fun _ => id
    refine .of_kind (hkind ▸ rfl) (.skipIf (by decide) (fun _ => Edge.Inside.loose) ?_ (hnamed []))
    exact (hitem.commaList (by decide) _).bind hnamed
  · rename_i hkind
    refine .of_kind (hkind ▸ rfl) ((hitem.commaListOrNone (by decide) _).bind fun ts => ?_)
    split
    · exact .pure fun _ => id
    · exact .mark fun _ => .pure fun _ => id
  · rename_i hkind
    refine .of_kind (hkind ▸ rfl) (.advance fun _ => h.bind fun t => ?_)
    exact .expect (by decide) (fun _ => Edge.Inside.loose) fun _ => .mark fun _ => .pure fun _ => id
  · exact (stops_giveUp (by simp [givenUp])).of fun _ hs => ⟨hs.1.near, hs.2⟩

/-- A type that nests at most `fuel` deep; one that nests deeper is refused at its first token. -/
def typeUpTo : (fuel : Nat) → Parser TypeExpr
  | 0 => do
    let x ← current
    reject .unexpectedToken x [.str "type", .str x.described]
  | fuel + 1 => typeBody (typeUpTo fuel)

/-- No type nests deeper than there are tokens. -/
theorem agree_typeUpTo (fuel : Nat) : Agree fuel (typeWithin fuel) (typeUpTo fuel) := by
  induction fuel with
  | zero => exact fun _ _ hlength => absurd hlength (Nat.not_lt_zero _)
  | succ fuel ih => exact agree_typeBody ((reads_typeWithin fuel).mono (Nat.sub_le _ _) fun _ => id) ih

theorem stops_typeUpTo (fuel : Nat) : StopsAt e e.Front (typeUpTo fuel) e.Inside := by
  induction fuel with
  | zero =>
    refine .start fun x => (stops_giveUp (by simp [givenUp])).of ?_
    exact fun _ hs => ⟨hs.1.near, hs.2⟩
  | succ fuel ih => exact stops_typeBody ih

theorem stops_type : StopsAt e e.Front type e.Inside := by
  intro s hs
  rcases hs with heaten | hbefore
  · have hmoves := (reads_type (N := 0)).moves s
    constructor
    · intro a t hrun
      rw [hrun] at hmoves
      exact .inl (Edge.eaten_of_reaches hmoves heaten)
    · intro t hrun
      rw [hrun] at hmoves
      exact .inl (Edge.eaten_of_reaches hmoves heaten)
  · have hsame : type s = typeUpTo (s.tokens.length + 1) s :=
      agree_typeUpTo _ s hbefore.1 (Nat.lt_succ_self _)
    rw [hsame]
    exact stops_typeUpTo _ s (.inr hbefore)

theorem stops_param : StopsAt e e.Inside param e.Inside := by
  refine .expect (by decide) (fun _ => Edge.Inside.loose) fun _ => .current fun name => ?_
  refine .skipIf (by decide) (fun _ => Edge.Inside.loose) ?_ (.pure fun _ => id)
  exact .advance fun _ => stops_type.bind fun t => .pure fun _ => id

theorem stops_params : StopsAt e e.Inside params e.Inside := by
  refine .expect (by decide) (fun _ => Edge.Inside.loose) fun _ => ?_
  refine .skipIf (by decide) (fun _ => Edge.Inside.loose) (.pure fun _ => id) ?_
  refine .iterate (fun _ => id) (fun ps => stops_param.bind fun p => ?_) []
  refine .skipIf (by decide) (fun _ => Edge.Inside.loose) (.pure fun _ => id) ?_
  exact .expect (by decide) (fun _ => Edge.Inside.loose) fun _ => .pure fun _ => id

theorem stops_resultType : StopsAt e e.Inside resultType e.Inside := by
  refine .skipIf (by decide) (fun _ => Edge.Inside.loose) ?_ (.pure fun _ => id)
  exact .advance fun _ => stops_type.bind fun t => .pure fun _ => id

/-! ### Patterns -/

theorem stops_bound : StopsAt e e.Inside bound e.Inside := by
  have hnegative : ∀ t, StopsAt e e.Inside (do
      let n ← next
      if n.kind = .int || n.kind = .float then
        advance
        return (⟨← markFrom t, negated (n.value.getD .unit)⟩ : Bound)
      else rejectNext "number") e.Inside := by
    intro t
    refine .observed fun n => .ite (fun hkind => ?_) fun _ => ?_
    · refine .advanceNext (fun s hs => ⟨hs.1.loose, ?_⟩) fun _ => .mark fun _ => .pure fun _ => id
      rw [Bool.or_eq_true, decide_eq_true_eq, decide_eq_true_eq] at hkind
      rw [NextPlain, hs.2]
      rcases hkind with hkind | hkind <;> rw [hkind] <;> rfl
    · exact (stops_rejectNext _).of fun _ hs => hs.1.loose
  refine .current fun t => ?_
  split
  iterate 5 exact .pure fun _ => id
  · exact hnegative t
  · exact stops_reject _ _ _

/-- What may start a bound begins no declaration. -/
theorem nextPlain_of_bound {s : State} (h : (match s.next.kind with
    | .int | .float | .string | .minus => true
    | _ => false) = true) : NextPlain s := by
  rw [NextPlain]
  generalize s.next.kind = k at h
  cases k <;> first | rfl | cases h

/-- A choice by whether a bound comes next. -/
theorem Stops.boundNext {α : Type} {J : α → State → Prop} {p q : Parser α}
    (hp : Stops e (fun s => e.Inside s ∧ NextPlain s) p J) (hq : Stops e e.Inside q J) :
    Stops e e.Inside (nextStartsBound >>= fun b => if b = true then p else q) J := by
  refine .observed fun b => .ite (fun hb => hp.of fun s hs => ⟨hs.1, ?_⟩) fun _ => hq.of fun _ hs => hs.1
  exact nextPlain_of_bound (hs.2.trans hb)

theorem stops_rangeAfter (start : Bound) : StopsAt e e.Inside (rangeAfter start) e.Inside := by
  refine .current fun op => .boundNext ?_ (.ite (fun _ => ?_) fun _ => .pure fun _ => id)
  · refine .advanceNext (fun _ hs => ⟨hs.1.loose, hs.2⟩) fun _ => stops_bound.bind fun stop => ?_
    exact .current fun last => .pure fun _ => id
  · exact (stops_rejectNext _).of fun _ => Edge.Inside.loose

/-- A bound that need not be there. -/
theorem stops_attempt {q : Parser (Option Bound)} (hrun : ∀ s, q s = (some (bound s).1, (bound s).2)) :
    StopsAt e e.Inside q e.Inside := by
  intro s hs
  have hbound := stops_bound s hs
  rw [hrun]
  constructor
  · intro a t h
    cases h
    cases hfirst : (bound s).1 with
    | none => exact hbound.2 _ (Prod.ext hfirst rfl)
    | some b => exact hbound.1 b _ (Prod.ext hfirst rfl)
  · intro t h
    cases h

theorem stops_rangeBefore : StopsAt e e.Inside rangeBefore e.Inside := by
  refine .current fun op => .boundNext ?_ ((stops_rejectNext _).of fun _ => Edge.Inside.loose)
  refine .advanceNext (fun _ hs => ⟨hs.1.loose, hs.2⟩) fun _ => .bind (stops_attempt fun s => ?_) fun stop => ?_
  · rcases bound s with ⟨_ | b, u⟩ <;> rfl
  · exact .mark fun _ => .pure fun _ => id

theorem stops_recognizerName : StopsAt e e.Inside recognizerName e.Inside := by
  have hend : ∀ (name : String) (kind : RecognizerKind), StopsAt e e.Inside (do
      expect .rparen ")"
      return (name, kind)) e.Inside :=
    fun _ _ => .expect (by decide) (fun _ => Edge.Inside.loose) fun _ => .pure fun _ => id
  refine .expect (by decide) (fun _ => Edge.Inside.loose) fun _ => ?_
  refine .expect (by decide) (fun _ => Edge.Inside.loose) fun _ => .current fun name => ?_
  refine .expect (by decide) (fun _ => Edge.Inside.loose) fun _ => ?_
  refine .skipIf (by decide) (fun _ => Edge.Inside.loose) ?_ (hend _ _)
  exact .expect (by decide) (fun _ => Edge.Inside.loose) fun _ => hend _ _

section Patterns

variable {alternatives primary inner : Parser Pattern}

theorem stops_nestedPattern (h : StopsAt e e.Front alternatives e.Loose) :
    StopsAt e e.Front (nestedPattern alternatives) e.Loose := by
  refine h.bind fun p => .iterate (fun _ => Edge.Inside.loose) (fun p => ?_) p
  refine .skipIf (by decide) (fun _ => id) (.current fun _ => ?_) (.pure fun _ => id)
  exact .expect (by decide) (fun _ => Edge.Inside.loose) fun _ => .current fun _ => .pure fun _ => id

theorem stops_slicePattern (h : StopsAt e e.Front inner e.Loose) :
    StopsAt e e.Inside (slicePattern inner) e.Inside := by
  refine .current fun x => .skipIf (by decide) (fun _ => Edge.Inside.loose) ?_ ?_
  · exact .mark fun _ => .pure fun _ => id
  refine .bind (K := fun _ => e.Inside) (.iterate (fun _ => id) (fun items => ?_) []) fun items => ?_
  · have hend : ∀ item : SliceItem Pattern, Stops e e.Loose (do
        if ← skip .comma then return .again (items ++ [item])
        else
          expect .rbracket ", or ]"
          return .done (items ++ [item])) (Stops.Behind e.Inside fun _ => e.Inside) := by
      intro item
      refine .skipIf (by decide) (fun _ => id) (.pure fun _ => id) ?_
      exact .expect (by decide) (fun _ => id) fun _ => .pure fun _ => id
    refine .advance fun _ => .start fun y => .observe fun b => .ite (fun hrest => ?_) fun _ => ?_
    · have hkind : y.kind = .dotDot := by
        rw [Bool.and_eq_true, decide_eq_true_eq] at hrest
        exact hrest.1
      refine .of_kind (hkind ▸ rfl) (.skipIf (by decide) (fun _ => Edge.Inside.loose) ?_ ?_)
      · exact .current fun _ => (hend _).of fun _ => Edge.Inside.loose
      · exact (hend _).of fun _ => Edge.Inside.loose
    · exact (h.of fun _ hs => hs.1).bind fun p => hend _
  · exact .mark fun _ => .pure fun _ => id

theorem stops_recordFields (h : StopsAt e e.Front inner e.Loose) :
    StopsAt e e.Inside (recordFields inner) e.Inside := by
  refine .iterate (fun _ => id) (fun fields => .advance fun _ => .start fun x => ?_) []
  split
  · rename_i hkind
    refine .of_kind (hkind ▸ rfl) ?_
    exact .expect (by decide) (fun _ => Edge.Inside.loose) fun _ => .pure fun _ => id
  · rename_i hkind
    have hend : ∀ p : Pattern, Stops e e.Loose (do
        if ← skip .comma then return .again (fields ++ [(x.text, p)])
        else
          expect .rbrace ", or \x7d"
          return .done (fields ++ [(x.text, p)], false)) (Stops.Behind e.Inside fun _ => e.Inside) := by
      intro p
      refine .skipIf (by decide) (fun _ => id) (.pure fun _ => id) ?_
      exact .expect (by decide) (fun _ => id) fun _ => .pure fun _ => id
    refine .of_kind (hkind ▸ rfl) (.skipIf (by decide) (fun _ => Edge.Inside.loose) ?_ ?_)
    · exact .advance fun _ => h.bind fun p => hend p
    · exact (hend _).of fun _ => Edge.Inside.loose
  · exact (stops_giveUp (by simp [givenUp])).of fun _ hs => ⟨hs.1.near, hs.2⟩

theorem stops_recordPattern (h : StopsAt e e.Front inner e.Loose) :
    StopsAt e e.Inside (recordPattern inner) e.Inside := by
  refine .current fun x => .skipIf (by decide) (fun _ => Edge.Inside.loose) ?_ ?_
  · exact .mark fun _ => .pure fun _ => id
  · exact (stops_recordFields h).bind fun fields => .mark fun _ => .pure fun _ => id

theorem stops_groupPattern (h : StopsAt e e.Front inner e.Loose) :
    StopsAt e e.Inside (groupPattern inner) e.Inside := by
  refine .current fun x => .skipIf (by decide) (fun _ => Edge.Inside.loose) ?_ ?_
  · exact .mark fun _ => .pure fun _ => id
  · refine (h.commaList (by decide) _).bind fun ps => ?_
    split
    · exact .pure fun _ => id
    · exact .mark fun _ => .pure fun _ => id

theorem stops_activePattern (h : StopsAt e e.Near primary e.Loose) :
    StopsAt e e.Inside (activePattern primary) e.Loose := by
  refine .current fun x => stops_recognizerName.bind fun r => ?_
  have hend : ∀ arg, StopsAt e e.Loose (markFrom x >>= fun m => pure (Pattern.active m r.1 r.2 arg)) e.Loose :=
    fun arg => .mark fun _ => .pure fun _ => id
  refine .observe fun b => .ite (fun _ => ?_) fun _ => (hend none).of fun _ => Edge.Inside.loose
  exact .advance fun _ => (h.of fun _ => Edge.Front.near).bind fun p => hend (some p)

/-- **A name, and an `@` behind it.**  At the edge the `@` belongs to the next declaration: then the
pattern goes on behind the edge; and where it ends there, a token that begins a declaration comes
next. -/
theorem stops_annotated {α : Type} {J : α → State → Prop} {x : Token} {p q : Parser α}
    (hx : x.kind = .lower) (hp : Stops e e.Near p J) (hq : Stops e e.Loose q J) :
    Stops e (fun s => e.Near s ∧ s.current = x) (do if ← skip .atSign then advance; p else q) J := by
  intro s ⟨hs, hcurrent⟩
  have hkind : s.current.kind = .lower := hcurrent ▸ hx
  have hskip := skip_run .atSign s
  rcases hs with hfront | ⟨hmarked, hlater⟩
  · have hinside := hfront.inside (hkind ▸ rfl)
    by_cases hat : s.next.kind = .atSign
    · rw [if_pos hat] at hskip
      rw [run_bind_some hskip]
      refine hp (advance (advance s).2).2 ?_
      rcases hinside with heaten | ⟨-, ys, htokens, hlength, hys⟩
      · exact .inl (.inl heaten)
      · rw [State.next, htokens] at hat
        rcases ys with _ | ⟨y, _ | ⟨z, ys⟩⟩
        · exact absurd hlength (Nat.not_succ_le_zero 0)
        · have hrest : (advance (advance s).2).2.tokens = e.later := by
            show s.tokens.tail.tail = _
            rw [htokens]
            rfl
          exact .inr ⟨hrest ▸ e.marked hat, hrest ▸ List.Subset.refl _⟩
        · have hplain := hys z List.mem_cons_self
          rw [show z.kind = .atSign from hat] at hplain
          cases hplain
    · rw [if_neg hat] at hskip
      rw [run_bind_some hskip]
      exact hq s hinside.loose
  · obtain ⟨y, c, rest, htokens, hc, hrest⟩ : ∃ y c rest, s.tokens = y :: c :: rest ∧
        c.kind.startsDeclaration = true ∧ (c.kind = .atSign → Marked rest) := by
      generalize s.tokens = tokens at hmarked
      cases hmarked with
      | last _ hc hat => exact ⟨_, _, _, rfl, hc, fun h => absurd h hat⟩
      | more _ hc hrest => exact ⟨_, _, _, rfl, by rw [hc]; rfl, fun _ => hrest⟩
    have hnext : s.next = c := by
      rw [State.next, htokens]
      rfl
    rw [htokens] at hlater
    rw [hnext] at hskip
    by_cases hat : c.kind = .atSign
    · rw [if_pos hat] at hskip
      rw [run_bind_some hskip]
      refine hp (advance (advance s).2).2 (.inr ?_)
      have hbehind : (advance (advance s).2).2.tokens = rest := by
        show s.tokens.tail.tail = _
        rw [htokens]
        rfl
      refine ⟨hbehind ▸ hrest hat, ?_⟩
      rw [hbehind]
      exact fun z hz => hlater (List.mem_cons_of_mem _ (List.mem_cons_of_mem _ hz))
    · rw [if_neg hat] at hskip
      rw [run_bind_some hskip]
      exact hq s (.inr ⟨y, c, rest, htokens, hlater (List.mem_cons_of_mem _ List.mem_cons_self), hc⟩)

theorem stops_primaryBody (ha : StopsAt e e.Front alternatives e.Loose)
    (hp : StopsAt e e.Near primary e.Loose) :
    StopsAt e e.Near (primaryBody alternatives primary) e.Loose := by
  have hinner := stops_nestedPattern ha
  have hloose {α : Type} {p : Parser α} (h : StopsAt e e.Inside p e.Inside) : StopsAt e e.Inside p e.Loose :=
    h.mono fun _ _ => Edge.Inside.loose
  have hconstant : StopsAt e e.Inside (do
      let b ← bound
      if ← skipEither .dotDot .dotDotEq then rangeAfter b else return .literal b.mark b.value)
      e.Loose := by
    refine stops_bound.bind fun b => hloose ?_
    refine .bind (K := fun _ => e.Inside) ?_ fun _ => .ite (fun _ => stops_rangeAfter b) fun _ => .pure fun _ => id
    exact .skipIf (by decide) (fun _ => Edge.Inside.loose) (.pure fun _ => id) (stops_skip (by decide))
  refine .start fun x => ?_
  have hother {k : TokenKind} {p : Parser Pattern} (hkind : x.kind = k) (hname : k ≠ .lower)
      (hplain : k.startsDeclaration = false) (h : StopsAt e e.Inside p e.Loose) :
      StopsAt e (fun s => e.Near s ∧ s.current = x) p e.Loose :=
    .of_pattern (hkind ▸ hname) (hkind ▸ hplain) h
  split
  · exact hother ‹_› (by decide) rfl (.pure fun _ => Edge.Inside.loose)
  · refine stops_annotated ‹_› (hp.bind fun p => ?_) (.pure fun _ => id)
    exact .mark fun _ => .pure fun _ => id
  iterate 6 exact hother ‹_› (by decide) rfl hconstant
  iterate 2 exact hother ‹_› (by decide) rfl (hloose stops_rangeBefore)
  · have hend : ∀ ps, StopsAt e e.Inside (markFrom x >>= fun m => pure (Pattern.construct m x.text ps)) e.Inside :=
      fun ps => .mark fun _ => .pure fun _ => id
    refine hother ‹_› (by decide) rfl (hloose ?_)
    refine .skipIf (by decide) (fun _ => Edge.Inside.loose) ?_ (hend [])
    exact (hinner.commaListOrNone (by decide) _).bind hend
  · refine hother ‹_› (by decide) rfl (.observe fun b => .ite (fun _ => stops_activePattern hp) fun _ => ?_)
    exact hloose (stops_groupPattern hinner)
  · exact hother ‹_› (by decide) rfl (hloose (stops_slicePattern hinner))
  · exact hother ‹_› (by decide) rfl (hloose (stops_recordPattern hinner))
  · exact hother ‹_› (by decide) rfl (.pure fun _ => Edge.Inside.loose)
  · exact hother ‹_› (by decide) rfl (stops_rejectEnd _ _)
  · exact stops_giveUp (by simp [givenUp])

theorem stops_alternativesBody (hreads : ∀ N, Reads N 0 1 primary)
    (h : StopsAt e e.Near primary e.Loose) : StopsAt e e.Front (alternativesBody primary) e.Loose := by
  have hmore : ∀ ps : List Pattern, Reads 0 1 1 (do
      advance
      let p ← primary
      return (.again (ps ++ [p]) : Round (List Pattern) (List Pattern))) :=
    fun ps => .advance fun _ => (hreads _).seq fun p => .pure id
  refine (h.of fun _ => Edge.Front.near).bind fun p => .observe fun bar => .ite (fun _ => ?_) fun _ => ?_
  · refine .bind (K := fun _ => e.Loose) (.iterate_loose (fun ps => ?_) ?_ (fun ps => ?_) [p]) fun ps => ?_
    · exact (Accounts.skipIf (N := 1) (U := fun _ => False) (by decide) (hmore ps) (.pure id)).moves
    · -- another round has read the bar at least
      intro ps qs s t hne hrun
      have hskip := skip_run .pipe s
      by_cases hpipe : s.next.kind = .pipe
      · rw [if_pos hpipe] at hskip
        rw [run_bind_some hskip] at hrun
        have hmoves := (hmore ps).moves (advance s).2
        have hrest : _ = (some (Round.again qs), t) := hrun
        rw [if_pos rfl] at hrest
        rw [hrest] at hmoves
        have hle : t.tokens.length ≤ _ := hmoves.length_le
        have hbar := State.length_advance s
        have hpos := List.length_pos_iff.mpr hne
        omega
      · rw [if_neg hpipe] at hskip
        rw [run_bind_some hskip] at hrun
        cases hrun
    · refine .skipIf (by decide) (fun _ => id) ?_ (.pure fun _ => id)
      exact .advance fun _ => (h.of fun _ => Edge.Front.near).bind fun p => .pure fun _ => id
    · exact .current fun _ => .pure fun _ => id
  · exact .pure fun _ => id

end Patterns

/-- **Patterns stop in front of the next declaration**, unless an `@` at the edge is taken for theirs. -/
theorem stops_pattern (room : Nat) :
    StopsAt e e.Near (primaryWithin room) e.Loose ∧ StopsAt e e.Front (orWithin room) e.Loose := by
  induction room with
  | zero => exact ⟨stops_tooDeep, stops_tooDeep.of fun _ => Edge.Front.near⟩
  | succ room ih =>
    obtain ⟨hprimary, halternatives⟩ := ih
    constructor
    · exact (stops_primaryBody halternatives hprimary).nested Edge.stable_near fun _ => Edge.stable_loose
    · have hbody := stops_alternativesBody (reads_pattern room).1 hprimary
      exact hbody.nested Edge.stable_front fun _ => Edge.stable_loose

/-! ### Expressions -/

section Expressions

variable {expr : Nat → Parser Expr} {pattern : Parser Pattern}

theorem stops_exprList (h : ∀ n, StopsAt e e.Front (expr n) e.Inside) {close : TokenKind}
    (hclose : close.startsDeclaration = false) : StopsAt e e.Inside (exprList expr close) e.Inside :=
  .commaListOrNone hclose ((h _).mono fun _ _ => Edge.Inside.loose) _

theorem stops_constructor (h : ∀ n, StopsAt e e.Front (expr n) e.Inside) :
    StopsAt e e.Inside (constructor expr) e.Inside := by
  refine .current fun x => .observed fun n => ?_
  have hend : ∀ es, StopsAt e e.Inside (markFrom x >>= fun m => pure (Expr.construct m x.text es)) e.Inside :=
    fun es => .mark fun _ => .pure fun _ => id
  refine .ite (fun hopen => ?_) fun _ => (hend []).of fun _ hs => hs.1
  refine .advanceNext (fun s hs => ⟨hs.1.loose, ?_⟩) fun _ => (stops_exprList h rfl).bind hend
  rw [Bool.and_eq_true, decide_eq_true_eq] at hopen
  rw [NextPlain, hs.2, hopen.1]
  rfl

theorem stops_group (h : ∀ n, StopsAt e e.Front (expr n) e.Inside) :
    StopsAt e e.Inside (group expr) e.Inside := by
  refine .current fun x => .skipIf (by decide) (fun _ => Edge.Inside.loose) ?_ ?_
  · exact .mark fun _ => .pure fun _ => id
  · refine (stops_exprList h rfl).bind fun es => ?_
    split
    · exact .pure fun _ => id
    · exact .mark fun _ => .pure fun _ => id

theorem stops_recordLiteral (h : ∀ n, StopsAt e e.Front (expr n) e.Inside) :
    StopsAt e e.Inside (recordLiteral expr) e.Inside := by
  refine .current fun x => .bind (K := fun _ => e.Inside) (.iterate (fun _ => id) (fun fields => ?_) []) fun fs => ?_
  · refine .expect (by decide) (fun _ => Edge.Inside.loose) fun _ => .current fun name => ?_
    refine .expect (by decide) (fun _ => Edge.Inside.loose) fun _ => .advance fun _ => (h _).bind fun value => ?_
    refine .skipIf (by decide) (fun _ => Edge.Inside.loose) (.observe fun b => ?_) (.pure fun _ => id)
    exact .ite (fun _ => .pure fun _ => id) fun _ => .pure fun _ => id
  · refine .expect (by decide) (fun _ => Edge.Inside.loose) fun _ => ?_
    exact .mark fun _ => .pure fun _ => id

theorem stops_blockItem (h : ∀ n, StopsAt e e.Front (expr n) e.Inside) (lets : List (String × Expr)) :
    Stops e e.Front (blockItem expr lets) (Stops.Behind e.Inside fun _ => e.Inside) := by
  refine .observed fun b => .ite (fun hlet => .of (I := e.Inside) ?_ ?_) fun _ => .of (I := e.Front) ?_ ?_
  · refine .expect (by decide) (fun _ => Edge.Inside.loose) fun _ => .current fun name => ?_
    refine .expect (by decide) (fun _ => Edge.Inside.loose) fun _ => .advance fun _ => (h _).bind fun value => ?_
    exact (stops_skip (by decide)).bind fun _ => .pure fun _ => id
  · intro s hs
    have hkind : s.current.kind = .kwLet := of_decide_eq_true (hs.2.trans hlet)
    exact hs.1.inside (hkind ▸ rfl)
  · refine (h _).bind fun result => (stops_skip (by decide)).bind fun _ => ?_
    exact .expect (by decide) (fun _ => Edge.Inside.loose) fun _ => .pure fun _ => id
  · exact fun _ hs => hs.1

theorem stops_blockBody (h : ∀ n, StopsAt e e.Front (expr n) e.Inside) :
    StopsAt e e.Inside (blockBody expr) e.Inside := by
  rw [blockBody_steps]
  refine .iterate (fun _ => id) (fun lets => ?_) []
  refine .skipIf (by decide) (fun _ => Edge.Inside.loose) (.pure fun _ => id) ?_
  exact .advance fun _ => stops_blockItem h lets

theorem stops_recordOrBlock (h : ∀ n, StopsAt e e.Front (expr n) e.Inside) :
    StopsAt e e.Inside (recordOrBlock expr) e.Inside := by
  refine .current fun x => .observe fun b => .ite (fun _ => stops_recordLiteral h) fun _ => ?_
  exact (stops_blockBody h).bind fun block => .mark fun _ => .pure fun _ => id

theorem stops_conditional (h : ∀ n, StopsAt e e.Front (expr n) e.Inside) :
    StopsAt e e.Inside (conditional expr) e.Inside := by
  refine .current fun x => .advance fun _ => (h _).bind fun test => ?_
  refine .expect (by decide) (fun _ => Edge.Inside.loose) fun _ => .advance fun _ => (h _).bind fun yes => ?_
  have hend : ∀ no, StopsAt e e.Inside (markFrom x >>= fun m => pure (Expr.cond m test yes no)) e.Inside :=
    fun no => .mark fun _ => .pure fun _ => id
  refine .skipIf (by decide) (fun _ => Edge.Inside.loose) ?_ (hend none)
  exact .advance fun _ => (h _).bind fun no => hend (some no)

theorem stops_performance (h : ∀ n, StopsAt e e.Front (expr n) e.Inside) :
    StopsAt e e.Inside (performance expr) e.Inside := by
  refine .current fun x => .expect (by decide) (fun _ => Edge.Inside.loose) fun _ => .current fun name => ?_
  have hend : ∀ es, StopsAt e e.Inside (markFrom x >>= fun m => pure (Expr.perform m name.text es)) e.Inside :=
    fun es => .mark fun _ => .pure fun _ => id
  refine .skipIf (by decide) (fun _ => Edge.Inside.loose) ?_ (hend [])
  exact (stops_exprList h rfl).bind hend

/-- What stands between a pattern and its arrow is not there behind the edge. -/
theorem stops_armHead (h : ∀ n, StopsAt e e.Front (expr n) e.Inside) :
    StopsAt e e.Loose (armHead expr) e.Loose := by
  refine .iterate (fun _ => Edge.Inside.loose) (fun (head : ArmHead) => .observed fun n => ?_) {}
  refine .ite (fun has => ?_) fun _ => .ite (fun hguard => ?_) fun _ => .pure fun _ hs => hs.1
  · refine .advanceNext (fun s hs => ⟨hs.1, ?_⟩) fun _ => ?_
    · rw [Bool.and_eq_true, decide_eq_true_eq] at has
      rw [NextPlain, hs.2, has.1]
      rfl
    · refine .expect (by decide) (fun _ => Edge.Inside.loose) fun _ => ?_
      exact .current fun name => .pure fun _ => id
  · refine .advanceNext (fun s hs => ⟨hs.1, ?_⟩) fun _ => .advance fun _ => (h _).bind fun guard => .pure fun _ => id
    rw [Bool.and_eq_true, Bool.or_eq_true, decide_eq_true_eq, decide_eq_true_eq] at hguard
    rw [NextPlain, hs.2]
    rcases hguard.1 with hkind | hkind <;> rw [hkind] <;> rfl

theorem stops_arm (h : ∀ n, StopsAt e e.Front (expr n) e.Inside)
    (hp : StopsAt e e.Front pattern e.Loose) : StopsAt e e.Inside (arm expr pattern) e.Inside := by
  refine .current fun bar => .advance fun _ => hp.bind fun p => (stops_armHead h).bind fun head => ?_
  refine .expect (by decide) (fun _ => id) fun _ => .advance fun _ => (h _).bind fun body => ?_
  exact .span fun _ => .pure fun _ => id

theorem stops_selection (h : ∀ n, StopsAt e e.Front (expr n) e.Inside)
    (hp : StopsAt e e.Front pattern e.Loose) : StopsAt e e.Inside (selection expr pattern) e.Inside := by
  refine .current fun x => .advance fun _ => (h _).bind fun target => ?_
  refine .expect (by decide) (fun _ => Edge.Inside.loose) fun _ => .observe fun b => .ite (fun _ => ?_) fun _ => ?_
  · refine .bind (K := fun _ => e.Inside) (.iterate (fun _ => id) (fun arms => ?_) []) fun arms => ?_
    · refine .skipIf (by decide) (fun _ => Edge.Inside.loose) ?_ (.pure fun _ => id)
      exact (stops_arm h hp).bind fun a => .pure fun _ => id
    · exact .mark fun _ => .pure fun _ => id
  · exact (stops_rejectNext _).of fun _ => Edge.Inside.loose

theorem stops_unaryWith (h : ∀ n, StopsAt e e.Front (expr n) e.Inside) (op : UnaryOp) :
    StopsAt e e.Inside (unaryWith expr op) e.Inside :=
  .current fun _ => .advance fun _ => (h _).bind fun _ => .mark fun _ => .pure fun _ => id

theorem stops_atom (h : ∀ n, StopsAt e e.Front (expr n) e.Inside)
    (hp : StopsAt e e.Front pattern e.Loose) : StopsAt e e.Front (atom expr pattern) e.Inside := by
  refine .start fun x => ?_
  have hplain {k : TokenKind} {p : Parser Expr} (hkind : x.kind = k) (hstarts : k.startsDeclaration = false)
      (h : StopsAt e e.Inside p e.Inside) : StopsAt e (fun s => e.Front s ∧ s.current = x) p e.Inside :=
    .of_kind (hkind ▸ hstarts) h
  split
  · exact hplain ‹_› rfl (.pure fun _ => id)
  · exact hplain ‹_› rfl (stops_constructor h)
  iterate 5 exact hplain ‹_› rfl (.pure fun _ => id)
  · exact hplain ‹_› rfl (stops_unaryWith h _)
  · exact hplain ‹_› rfl (stops_unaryWith h _)
  · exact hplain ‹_› rfl (stops_group h)
  · exact hplain ‹_› rfl ((stops_exprList h rfl).bind fun es => .mark fun _ => .pure fun _ => id)
  · exact hplain ‹_› rfl (stops_recordOrBlock h)
  · exact hplain ‹_› rfl (stops_conditional h)
  · exact hplain ‹_› rfl (stops_selection h hp)
  · exact hplain ‹_› rfl (stops_performance h)
  · exact hplain ‹_› rfl (stops_rejectEnd _ _)
  · exact (stops_giveUp (by simp [givenUp])).of fun _ hs => ⟨hs.1.near, hs.2⟩

theorem stops_extendedBy (h : ∀ n, StopsAt e e.Front (expr n) e.Inside) (left : Expr) :
    StopsAt e e.Inside (extendedBy expr left) e.Inside := by
  refine .current fun x => ?_
  split
  · exact (stops_exprList h rfl).bind fun es => .current fun _ => .pure fun _ => id
  · refine .expect (by decide) (fun _ => Edge.Inside.loose) fun _ => ?_
    exact .current fun name => .pure fun _ => id
  · split
    · exact .advance fun _ => (h _).bind fun right => .pure fun _ => id
    · exact stops_reject _ _ _

/-- What begins a declaration binds to nothing. -/
theorem plain_of_binding {k : TokenKind} (h : 0 < binding k) : k.startsDeclaration = false := by
  cases k <;> first | rfl | exact absurd h (by decide)

theorem stops_exprBody (h : ∀ n, StopsAt e e.Front (expr n) e.Inside)
    (hp : StopsAt e e.Front pattern e.Loose) (precedence : Nat) :
    StopsAt e e.Front (exprBody expr pattern precedence) e.Inside := by
  rw [exprBody_rounds]
  refine (stops_atom h hp).bind fun first => .iterate (fun _ => id) (fun left => ?_) first
  refine .current fun x => .observed fun n => .ite (fun htight => ?_) fun _ => .pure fun _ hs => hs.1
  refine .advanceNext (fun s hs => ⟨hs.1.loose, ?_⟩) fun _ => (stops_extendedBy h left).bind fun e => .pure fun _ => id
  rw [Bool.and_eq_true, decide_eq_true_eq] at htight
  rw [NextPlain, hs.2]
  exact plain_of_binding (Nat.lt_of_le_of_lt (Nat.zero_le _) htight.1)

end Expressions

/-- **Expressions stop in front of the next declaration.** -/
theorem stops_exprWithin (room : Nat) : ∀ precedence,
    StopsAt e e.Front (exprWithin room precedence) e.Inside := by
  induction room with
  | zero => exact fun _ => stops_tooDeep.of fun _ => Edge.Front.near
  | succ room ih =>
    intro precedence
    have hbody := stops_exprBody ih (stops_pattern room).2 precedence
    exact hbody.nested Edge.stable_front fun _ => Edge.stable_inside

theorem stops_expression : StopsAt e e.Front expression e.Inside :=
  .withRoom fun room => stops_exprWithin room _

/-! ### Declarations -/

theorem stops_definition : StopsAt e e.Inside definition e.Inside :=
  .expect (by decide) (fun _ => Edge.Inside.loose) fun _ => .advance fun _ => stops_expression

theorem stops_function (start : Token) (isPublic : Bool) (annotations : List String) :
    StopsAt e e.Inside (function start isPublic annotations) e.Inside := by
  refine .current fun keyword => .bind (K := fun _ => e.Inside) ?_ fun named => .ite (fun _ => ?_) fun _ => ?_
  · exact .skipIf (by decide) (fun _ => Edge.Inside.loose) (.pure fun _ => id) (stops_skip (by decide))
  · refine .current fun name => stops_params.bind fun ps => stops_resultType.bind fun returns => ?_
    exact stops_definition.bind fun body => .span fun _ => .pure fun _ => id
  · exact (stops_rejectNext _).of fun _ => Edge.Inside.loose

/-- A function, or a token that begins no declaration. -/
def BeginsItem (s : State) : Prop := s.current.kind = .kwFn ∨ s.current.kind.startsDeclaration = false

/-- Nothing stands in front of a function or an expression. -/
theorem declaration_item {s : State} (h : BeginsItem s) :
    declaration s = declarationBody s.current false [] s := by
  have hkind : s.current.kind ≠ .atSign ∧ s.current.kind ≠ .kwPub := by
    rw [BeginsItem] at h
    generalize s.current.kind = k at h ⊢
    cases k <;> simp_all [TokenKind.startsDeclaration]
  have hannotations : annotationNames s = (some [], s) := by
    rw [annotationNames, iterate]
    refine loop_done ?_
    show (if decide (s.current.kind = .atSign) = true then _ else pure (Round.done []) :
      Parser (Round (List String) (List String))) s = _
    rw [if_neg (by simpa using hkind.1)]
    rfl
  have hpublic : currentIs .kwPub s = (some false, s) := by
    show (some (decide (s.current.kind = .kwPub)), s) = _
    rw [decide_eq_false hkind.2]
  rw [declaration_eq, run_bind_some (show current s = (some s.current, s) from rfl),
    run_bind_some hannotations, run_bind_some hpublic]
  rfl

/-- **Functions and expressions stop in front of the next declaration.** -/
theorem stops_declaration : StopsAt e (fun s => e.Inside s ∧ BeginsItem s) declaration e.Inside := by
  have hbody : ∀ start, StopsAt e (fun s => e.Inside s ∧ BeginsItem s) (declarationBody start false [])
      e.Inside := by
    intro start
    refine .start fun x => ?_
    have hno {k : TokenKind} {s : State} (hs : (e.Inside s ∧ BeginsItem s) ∧ s.current = x)
        (hx : x.kind = k) (hk : k ≠ .kwFn ∧ k.startsDeclaration = true) : False := by
      rcases hs.1.2 with hfn | hplain
      · rw [hs.2, hx] at hfn
        exact hk.1 hfn
      · rw [hs.2, hx, hk.2] at hplain
        cases hplain
    split
    · refine .of (I := e.Inside) ?_ fun _ hs => hs.1.1
      exact (stops_function start false []).bind fun f => .pure fun _ => id
    · exact .never fun s hs => hno hs ‹_› (by decide)
    · exact .never fun s hs => hno hs ‹_› (by decide)
    · refine .ite (fun h => absurd h (by simp)) fun _ => .of (I := e.Front) ?_ fun _ hs => hs.1.1.front
      exact stops_expression.bind fun body => .mark fun _ => .pure fun _ => id
  intro s hs
  rw [declaration_item hs.2]
  exact hbody _ s hs

end PatternPlan.Surface.Parser
