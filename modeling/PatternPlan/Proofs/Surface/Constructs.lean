import Mathlib.Data.List.Basic
import PatternPlan.Proofs.Surface.Accounts
import PatternPlan.Surface.Parser.Program

/-!
# Every construct accounts for its tokens

The parsers of types, patterns, expressions and declarations, one after the other.

* `Agree` — parsers that do the same where few tokens are left; how much fuel a type is read with does
  not matter (`typeWithin_eq`);
* `reads_type`, `reads_pattern`, `reads_expression` — **types, patterns and expressions account for
  their tokens**;
* `reads_declaration` — **so do declarations**, from the first annotation to the last token of the
  body.
-/

namespace PatternPlan.Surface.Parser

variable {α β : Type} {N k j : Nat} {U : α → Prop}

/-! ### Types -/

/-- Parsers that do the same where less than `N` tokens are left. -/
def Agree (N : Nat) (p q : Parser α) : Prop :=
  ∀ s : State, s.Whole → s.tokens.length < N → p s = q s

namespace Agree

theorem refl (p : Parser α) : Agree N p p := fun _ _ _ => rfl

theorem bind {p q : Parser β} {f g : β → Parser α} (hmoves : ∀ s : State, s.Reaches (p s).2)
    (hp : Agree N p q) (hf : ∀ b, Agree N (f b) (g b)) : Agree N (p >>= f) (q >>= g) := by
  intro s hs hN
  have hreach := hmoves s
  have hsame := hp s hs hN
  cases hrun : p s with
  | mk r t =>
    rw [hrun] at hsame hreach
    have hlength := hreach.length_le
    cases r with
    | none => rw [run_bind_none hrun, run_bind_none hsame.symm]
    | some b =>
      rw [run_bind_some hrun, run_bind_some hsame.symm]
      exact hf b t (hreach.whole hs) (Nat.lt_of_le_of_lt hlength hN)

theorem loop {round round' : α → Parser (Round α β)}
    (hmoves : ∀ (a : α) (s : State), s.Reaches (round a s).2)
    (h : ∀ a, Agree N (round a) (round' a)) (fuel : Nat) (a : α) :
    Agree N (Parser.loop round fuel a) (Parser.loop round' fuel a) := by
  induction fuel generalizing a with
  | zero => exact refl _
  | succ fuel ih =>
    rw [loop_eq, loop_eq]
    refine bind (hmoves a) (h a) fun r => ?_
    cases r with
    | again b => exact ih b
    | done b => exact refl _

theorem iterate {round round' : α → Parser (Round α β)}
    (hmoves : ∀ (a : α) (s : State), s.Reaches (round a s).2)
    (h : ∀ a, Agree N (round a) (round' a)) (a : α) :
    Agree N (Parser.iterate round a) (Parser.iterate round' a) :=
  fun s => loop hmoves h _ a s

/-- Behind a token there is a token less. -/
theorem advance {p q : Parser α} (h : Agree N p q) (hN : 0 < N) :
    Agree (N + 1) (Parser.advance >>= fun _ => p) (Parser.advance >>= fun _ => q) := by
  intro s hs hlength
  have hreach := (accounts_advance (N := N) (k := 0)).moves s
  refine h (Parser.advance s).2 (hreach.whole hs) ?_
  rw [State.length_advance]
  omega

variable {inner inner' : Parser TypeExpr}

theorem commaList (hreads : Reads (N - 1) 0 1 inner) (h : Agree N inner inner') (hN : 0 < N)
    {close : TokenKind} (hclose : close ≠ .eof) (expected : String) :
    Agree (N + 1) (Parser.commaList inner close expected) (Parser.commaList inner' close expected) := by
  refine iterate (fun items => (hreads.commaRound hclose expected items).moves) (fun items => ?_) []
  exact advance (bind hreads.moves h fun a => refl _) hN

end Agree

/-- A type inside a type is read behind its first token. -/
theorem agree_typeBody {inner inner' : Parser TypeExpr} (hreads : Reads (N - 1) 0 1 inner)
    (h : Agree N inner inner') : Agree (N + 1) (typeBody inner) (typeBody inner') := by
  intro s hs hlength
  have hcurrent : current s = (some s.current, s) := rfl
  by_cases hempty : s.tokens.length = 0
  · have heof : s.current.kind = .eof := State.current_eq_eof hempty ▸ hs.eof
    rw [typeBody, typeBody, run_bind_some hcurrent, run_bind_some hcurrent, heof]
  · have hN : 0 < N := by omega
    have hlist : ∀ {close : TokenKind} (expected : String), close ≠ .eof →
        Agree (N + 1) (commaList inner close expected) (commaList inner' close expected) :=
      fun expected hclose => .commaList hreads h hN hclose expected
    have hmoves : ∀ {close : TokenKind} (expected : String), close ≠ .eof →
        ∀ s : State, s.Reaches (commaList inner close expected s).2 :=
      fun expected hclose => (hreads.commaList hclose expected).moves
    refine Agree.bind State.Reaches.refl (.refl _) (fun start => ?_) s hs hlength
    split
    · refine .bind (accounts_skip (N := N) (by decide)).moves (.refl _) fun b => ?_
      cases b with
      | true => exact .bind (hmoves _ (by decide)) (hlist _ (by decide)) fun ts => .refl _
      | false => exact .refl _
    · refine .bind (hreads.commaListOrNone (by decide) _).moves ?_ fun ts => .refl _
      refine .bind (accounts_skip (N := N) (by decide)).moves (.refl _) fun b => ?_
      cases b with
      | true => exact .refl _
      | false => exact hlist _ (by decide)
    · exact .advance (.bind hreads.moves h fun t => .refl _) hN
    · exact .refl _

/-- A type accounts for its tokens if the types inside it do. -/
theorem reads_typeBody {inner : Parser TypeExpr} (h : Reads (N - 1) 0 1 inner) :
    Reads N 0 1 (typeBody inner) := by
  have hless : Reads (N - 1 - 1) 0 1 inner := h.mono (Nat.sub_le _ _) fun _ => id
  refine .start (fun start _ => ?_) (fun start hstart => ?_) fun s hs hlength _ => ?_
  · split
    · refine Accounts.toTracks (.skipIf (by decide) ?_ ?_)
      · exact (hless.commaList (by decide) _).seq fun args => .mark fun _ => .pure id
      · exact .seq (.pure id) fun args => .mark fun _ => .pure id
    · refine Tracks.seq (h.commaListOrNone (by decide) _).toTracks fun ts => ?_
      split
      · exact .pure id
      · exact .mark fun _ => .pure id
    · refine .advance fun _ => h.toTracks.seq fun t => ?_
      exact .expect (by decide) fun _ => .mark fun _ => .pure id
    · exact (refuses_reject _ _ _).tracks
  · rw [hstart]
    exact (refuses_reject _ _ _).tracks
  · rw [hs.eof]
    refine .inr (.inl ⟨rfl, List.length_eq_zero_iff.mp hlength, _, ?_, rfl⟩)
    exact List.mem_append_left _ (List.mem_cons_self)

theorem reads_typeWithin (fuel : Nat) : Reads fuel 0 1 (typeWithin fuel) := by
  induction fuel with
  | zero =>
    refine ⟨⟨State.Reaches.refl, ?_, ?_⟩, ?_⟩
    · intro s _ _ hlength
      exact absurd hlength (Nat.not_lt_zero _)
    · intro s n e _ _ _ _ hlength
      exact absurd hlength (Nat.not_lt_zero _)
    · intro s _ _ hlength
      exact absurd hlength (Nat.not_lt_zero _)
  | succ fuel ih => exact reads_typeBody ih

/-- **More fuel than tokens makes no difference** to the reading of a type. -/
theorem typeWithin_eq (fuel : Nat) : Agree fuel (typeWithin fuel) type := by
  have hnext : ∀ n, Agree n (typeWithin n) (typeWithin (n + 1)) := by
    intro n
    induction n with
    | zero =>
      intro s _ hlength
      exact absurd hlength (Nat.not_lt_zero _)
    | succ n ih =>
      have hreads : Reads (n - 1) 0 1 (typeWithin n) :=
        (reads_typeWithin n).mono (Nat.sub_le _ _) fun _ => id
      exact agree_typeBody hreads ih
  induction fuel with
  | zero =>
    intro s _ hlength
    exact absurd hlength (Nat.not_lt_zero _)
  | succ fuel ih =>
    intro s hs hlength
    by_cases hless : s.tokens.length < fuel
    · rw [← hnext fuel s hs hless]
      exact ih s hs hless
    · have hfuel : s.tokens.length = fuel := by omega
      rw [type, hfuel]

/-- **Types account for their tokens.** -/
theorem reads_type : Reads N 0 1 type := by
  have hreads : ∀ s : State, Reads (s.tokens.length + 1) 0 1 (typeWithin (s.tokens.length + 1)) :=
    fun s => reads_typeWithin _
  refine ⟨⟨?_, ?_, ?_⟩, ?_⟩
  · intro s
    exact (hreads s).moves s
  · intro s hs hk _ herrors
    exact (hreads s).clean s hs hk (Nat.lt_succ_self _) herrors
  · intro s n e hs he hk hn _ a t hrun herrors
    have hcut := (hreads s).cuts s n e hs he hk hn (Nat.lt_succ_self _) a t hrun herrors
    have hlength : (s.cut n e).tokens.length = n := State.length_cut hn
    have hsame := typeWithin_eq (s.tokens.length + 1) (s.cut n e) (hs.cut he n) (by omega)
    unfold Echoes at hcut ⊢
    rw [hsame] at hcut
    exact hcut
  · intro s hs hk _
    exact (hreads s).closes s hs hk (Nat.lt_succ_self _)

theorem reads_recordTypeFields : Reads N 1 1 recordTypeFields := by
  refine .iterate (fun fields => .nextIs (by decide) (.pure id) ?_) []
  refine .expect (by decide) fun _ => .look fun name => .expect (by decide) fun _ => ?_
  refine .advance fun _ => reads_type.seq fun t => ?_
  exact .skipIf (by decide) (.pure id) (.pure id)

theorem reads_variants : Reads N 1 1 variants := by
  refine .iterate (fun vs => .expect (by decide) fun _ => .look fun name => ?_) []
  have hend : ∀ (M : Nat) (fields : List TypeExpr), Reads M 1 1
      (do if ← skip .pipe then return .again (vs ++ [⟨name.text, fields⟩])
          else return (.done (vs ++ [⟨name.text, fields⟩]) : Round (List Variant) (List Variant))) :=
    fun M fields => .skipIf (by decide) (.pure id) (.pure id)
  refine .skipIf (by decide) ?_ (.seq (.pure id) (hend _))
  exact (reads_type.commaList (by decide) _).seq (hend _)

theorem reads_typeDeclaration (start : Token) (isPublic : Bool) :
    Reads N 1 1 (typeDeclaration start isPublic) := by
  refine .look fun keyword => .expect (by decide) fun _ => .look fun name => ?_
  refine .expect (by decide) fun _ => .skipIf (by decide) ?_ ?_
  · refine reads_recordTypeFields.seq fun fields => .expect (by decide) fun _ => ?_
    exact .span fun _ => .pure id
  · have hvariants : ∀ M, Reads M 1 1 (do
        let vs ← variants
        return (⟨⟨keyword, ← spanFrom start⟩, name.text, vs, [], isPublic⟩ : TypeDecl)) :=
      fun M => reads_variants.seq fun vs => .span fun _ => .pure id
    exact .skip (by decide) (hvariants _) (hvariants _)

theorem reads_param : Reads N 1 1 param := by
  refine .expect (by decide) fun _ => .look fun name => .skipIf (by decide) ?_ (.pure id)
  exact .advance fun _ => reads_type.seq fun t => .pure id

theorem reads_params : Reads N 1 1 params := by
  refine .expect (by decide) fun _ => .skipIf (by decide) (.pure id) ?_
  refine .iterate (fun ps => reads_param.seq fun p => ?_) []
  exact .skipIf (by decide) (.pure id) (.expect (by decide) fun _ => .pure id)

theorem reads_resultType : Reads N 1 1 resultType := by
  refine .skipIf (by decide) ?_ (.pure id)
  exact .advance fun _ => reads_type.seq fun t => .pure id

theorem reads_recognizerName : Reads N 1 1 recognizerName := by
  refine .expect (by decide) fun _ => .expect (by decide) fun _ => .look fun name => ?_
  have hend : ∀ (M : Nat) (kind : RecognizerKind), Reads M 1 1
      (do expect .rparen ")"
          return (name.text, kind)) :=
    fun M kind => .expect (by decide) fun _ => .pure id
  refine .expect (by decide) fun _ => .skipIf (by decide) ?_ (.seq (.pure id) (hend _))
  exact .expect (by decide) fun _ => .seq (.pure id) (hend _)

/-! ### Patterns -/

/-- A constant that may be negative. -/
theorem tracks_bound : Tracks N 1 1 (fun _ => False) bound := by
  refine .look fun t => ?_
  have hone : Tracks N 1 1 (fun _ => False)
      (pure ⟨⟨t, t.span⟩, t.value.getD .unit⟩ : Parser Bound) := (Accounts.pure id).toTracks
  split
  iterate 5 exact hone
  · refine Accounts.toTracks (.peek (fun n _ => .ite (fun _ => ?_) fun _ => ?_) fun n hn => ?_)
    · exact .advance fun _ => Accounts.toTracks (.mark fun _ => .pure id)
    · exact (refuses_rejectNext _).tracks
    · rw [hn, if_neg (by decide)]
      exact accounts_rejectNext _
  · exact (refuses_reject _ _ _).tracks

/-- Parsers that use up nothing when they give up. -/
def Idle (p : Parser α) : Prop := ∀ s, (p s).1 = none → (p s).2.tokens = s.tokens

/-- A constant that cannot be read stays where it is. -/
theorem idle_bound : Idle bound := by
  have hobserve : ∀ {f : State → Token} {g : Token → Parser Bound}, (∀ t, Idle (g t)) →
      Idle (observe f >>= g) := fun hg s => hg _ s
  refine hobserve fun t => ?_
  split
  iterate 5 exact fun s hnone => nomatch hnone
  · refine hobserve fun n => ?_
    split
    · exact fun s hnone => nomatch hnone
    · intro s _
      rw [rejectNext_eq]
      split <;> rfl
  · exact fun s _ => rfl

/-- A constant whose absence is a result, too.  Where it is missing because the input ends, that is
marked, so it makes no difference that the parser goes on. -/
theorem tracks_attempt {q : Parser (Option Bound)} (hrun : ∀ s, q s = (some (bound s).1, (bound s).2)) :
    Tracks N 1 1 (fun _ => False) q := by
  have hbound : Tracks N 1 1 (fun _ => False) bound := tracks_bound
  refine ⟨?_, ?_, ?_⟩
  · intro s
    rw [hrun]
    exact hbound.moves s
  · intro s hs hk hN herrors
    rw [hrun] at herrors ⊢
    obtain ⟨b, -, hj, -⟩ := hbound.clean s hs hk hN herrors
    exact ⟨_, rfl, hj, False.elim⟩
  · intro s n e hs he hk hn hN o t hs' herrors
    rw [hrun] at hs'
    cases hs'
    obtain ⟨b, hb, -⟩ := hbound.clean s hs (by omega) hN herrors
    have hcuts := hbound.cuts s n e hs he hk hn hN b _ (Prod.ext hb rfl) herrors
    unfold Echoes
    rw [hrun, hb]
    rcases hcuts with ⟨m, hm, hjm, hlength⟩ | hmarked | ⟨hnone, hnil, -⟩ | ⟨hsome, hlength, hsame⟩
    · exact .inl ⟨m, by rw [hm], hjm, hlength⟩
    · exact .inr (.inl hmarked)
    · have hlength := congrArg List.length (idle_bound _ hnone)
      rw [hnil, State.length_cut hn, List.length_nil] at hlength
      omega
    · exact .inr (.inr (.inr ⟨rfl, hlength, hsame⟩))

/-- Whether the next token may start a bound depends on its kind only. -/
theorem Accounts.boundAhead {p q : Parser α} (hp : Tracks N 2 j U p) (hq : Accounts N 1 j U q) :
    Accounts N 1 j U (nextStartsBound >>= fun b => if b = true then p else q) := by
  refine .ahead ?_ ?_ hp hq
  · intro s s' hsame
    rw [hsame]
  · intro s hs
    rw [hs]

theorem reads_rangeAfter (start : Bound) : Reads N 1 1 (rangeAfter start) := by
  refine .look fun op => .boundAhead ?_ (.ite (fun _ => ?_) fun _ => .pure id)
  · refine .advance fun _ => tracks_bound.seq fun stop => ?_
    exact .look fun last => .pure id
  · exact accounts_rejectNext _

theorem reads_rangeBefore : Reads N 1 1 rangeBefore := by
  refine .look fun op => .boundAhead (.advance fun _ => ?_) (accounts_rejectNext _)
  refine (tracks_attempt fun s => ?_).seq fun stop => .mark fun _ => .pure id
  rcases bound s with ⟨_ | b, t⟩ <;> rfl

section Patterns

variable {alternatives primary inner : Parser Pattern}

theorem reads_nestedPattern (h : ∀ N, Reads N 0 1 alternatives) :
    Reads N 0 1 (nestedPattern alternatives) := by
  refine (h N).seq fun p => .iterate (fun p => .skipIf (by decide) ?_ (.pure id)) p
  exact .look fun asToken => .expect (by decide) fun _ => .look fun name => .pure id

/-- Two dots that no bound follows are a rest marker; anything else is an item. -/
theorem reads_restOr {marker : Token → Parser α} {item : Parser α}
    (hmarker : ∀ t, Reads N 1 j (marker t)) (hitem : Reads N 0 j item) :
    Reads N 0 j (do
      let t ← current
      let b ← nextStartsBound
      if (decide (t.kind = .dotDot) && !b) = true then marker t else item) := by
  have hplain : ∀ t : Token, t.kind ≠ .dotDot → (nextStartsBound >>= fun b =>
      if (decide (t.kind = .dotDot) && !b) = true then marker t else item) = item := by
    intro t ht
    funext s
    show (if (decide (t.kind = .dotDot) && _) = true then marker t else item) s = item s
    rw [decide_eq_false ht, Bool.false_and, if_neg Bool.false_ne_true]
  refine .start (fun t _ => ?_) (fun t ht => ?_) fun s hs hlength hN => ?_
  · by_cases ht : t.kind = .dotDot
    · have hswap : (fun b => if (decide (t.kind = .dotDot) && !b) = true then marker t else item)
          = fun b => if b = true then item else marker t := by
        funext b
        cases b <;> simp [ht]
      rw [hswap]
      exact (Accounts.boundAhead (hitem.toTracks.later (Nat.zero_le 2)) (hmarker t)).toTracks
    · rw [hplain t ht]
      exact hitem.toTracks.later (Nat.zero_le 1)
  · rw [hplain t (by rw [ht]; decide)]
    exact hitem.toTracks
  · rw [hplain s.eof (by rw [hs.eof]; decide)]
    exact hitem.closes s hs hlength hN

theorem reads_slicePattern (h : ∀ N, Reads N 0 1 inner) : Reads N 1 1 (slicePattern inner) := by
  refine .look fun start => .skipIf (by decide) (.mark fun _ => .pure id) ?_
  refine .seq (.iterate (fun items => .advance fun _ => ?_) []) fun items => .mark fun _ => .pure id
  have hend : ∀ (M : Nat) (item : SliceItem Pattern), Reads M 1 1
      (do if ← skip .comma then return .again (items ++ [item])
          else
            expect .rbracket ", or ]"
            return (.done (items ++ [item]) :
              Round (List (SliceItem Pattern)) (List (SliceItem Pattern)))) :=
    fun M item => .skipIf (by decide) (.pure id) (.expect (by decide) fun _ => .pure id)
  refine reads_restOr (fun t => .skipIf (by decide) ?_ (.seq (.pure id) (hend _))) ?_
  · exact .look fun name => .seq (.pure id) (hend _)
  · exact (h _).seq fun p => .seq (.pure id) (hend _)

theorem reads_recordFields (h : ∀ N, Reads N 0 1 inner) : Reads N 1 1 (recordFields inner) := by
  refine .iterate (fun fields => .advance fun _ => ?_) []
  refine .start (fun t _ => ?_) (fun t ht => ?_) fun s hs hlength _ => ?_
  · have hend : ∀ (M : Nat) (p : Pattern), Reads M 1 1
        (do if ← skip .comma then return .again (fields ++ [(t.text, p)])
            else
              expect .rbrace ", or \x7d"
              return (.done (fields ++ [(t.text, p)], false) :
                Round (List (String × Pattern)) (List (String × Pattern) × Bool))) :=
      fun M p => .skipIf (by decide) (.pure id) (.expect (by decide) fun _ => .pure id)
    split
    · exact Accounts.toTracks (.expect (by decide) fun _ => .pure id)
    · refine Accounts.toTracks (.skipIf (by decide) ?_ (.seq (.pure id) (hend _)))
      exact .advance fun _ => (h _).seq (hend _)
    · exact (refuses_reject _ _ _).tracks
  · rw [ht]
    exact (refuses_reject _ _ _).tracks
  · rw [hs.eof]
    refine .inr (.inl ⟨rfl, List.length_eq_zero_iff.mp hlength, _, ?_, rfl⟩)
    exact List.mem_append_left _ (List.mem_cons_of_mem _ List.mem_cons_self)

theorem reads_recordPattern (h : ∀ N, Reads N 0 1 inner) : Reads N 1 1 (recordPattern inner) := by
  refine .look fun start => .skipIf (by decide) (.mark fun _ => .pure id) ?_
  exact (reads_recordFields h).seq fun r => .mark fun _ => .pure id

theorem reads_groupPattern (h : ∀ N, Reads N 0 1 inner) : Reads N 1 1 (groupPattern inner) := by
  refine .look fun start => .skipIf (by decide) (.mark fun _ => .pure id) ?_
  refine ((h _).commaList (by decide) _).seq fun ps => ?_
  split
  · exact .pure id
  · exact .mark fun _ => .pure id

theorem reads_activePattern (h : ∀ N, Reads N 0 1 primary) : Reads N 1 1 (activePattern primary) := by
  refine .look fun start => reads_recognizerName.seq fun r => ?_
  have hend : ∀ (M : Nat) (arg : Option Pattern), Reads M 1 1
      (do return Pattern.active (← markFrom start) r.1 r.2 arg) :=
    fun M arg => .mark fun _ => .pure id
  refine .ahead ?_ ?_ ?_ (.seq (.pure id) (hend _))
  · intro s s' hsame
    rw [hsame]
  · intro s hs
    rw [hs]
  · refine .advance fun _ => ((h _).toTracks.later (Nat.zero_le 1)).seq fun p => ?_
    exact .seq (.pure id) (hend _)

/-- One pattern accounts for its tokens if the patterns inside it do. -/
theorem reads_primaryBody (ha : ∀ N, Reads N 0 1 alternatives) (hp : ∀ N, Reads N 0 1 primary) :
    Reads N 0 1 (primaryBody alternatives primary) := by
  have hinner : ∀ N, Reads N 0 1 (nestedPattern alternatives) := fun N => reads_nestedPattern ha
  have hconstant : Tracks N 1 1 (fun _ => False) (do
      let b ← bound
      if ← skipEither .dotDot .dotDotEq then rangeAfter b else return .literal b.mark b.value) := by
    refine tracks_bound.seq fun b => ?_
    refine (accounts_skipEither (by decide) (by decide)).bind (fun c _ => ?_) fun c _ => ?_
    · exact .ite (fun _ => reads_rangeAfter b) fun _ => .pure id
    · exact .ite (fun _ => reads_rangeAfter b) fun _ => .pure id
  refine .start (fun t _ => ?_) (fun t ht => ?_) fun s hs _ _ => ?_
  · split
    · exact (Accounts.pure id).toTracks
    · refine Accounts.toTracks (.skipIf (by decide) ?_ (.pure id))
      exact .advance fun _ => (hp _).seq fun p => .mark fun _ => .pure id
    iterate 6 exact hconstant
    · exact reads_rangeBefore.toTracks
    · exact reads_rangeBefore.toTracks
    · refine Accounts.toTracks (.skipIf (by decide) ?_ (.seq (.pure id) fun ps => .mark fun _ => .pure id))
      exact ((hinner _).commaListOrNone (by decide) _).seq fun ps => .mark fun _ => .pure id
    · exact (Accounts.nextIs (by decide) (reads_activePattern hp) (reads_groupPattern hinner)).toTracks
    · exact (reads_slicePattern hinner).toTracks
    · exact (reads_recordPattern hinner).toTracks
    · exact (Accounts.pure id).toTracks
    · exact (refuses_rejectEnd _ _).tracks
    · exact (refuses_reject _ _ _).tracks
  · rw [ht]
    exact (refuses_rejectEnd _ _).tracks
  · rw [hs.eof]
    exact .inl rfl

theorem reads_alternativesBody (hp : ∀ N, Reads N 0 1 primary) :
    Reads N 0 1 (alternativesBody primary) := by
  refine (hp _).seq fun first => .glance fun bar => .ite (fun _ => ?_) fun _ => .pure id
  refine .seq (.iterate (fun ps => .skipIf (by decide) ?_ (.pure id)) [first]) fun ps => ?_
  · exact .advance fun _ => (hp _).seq fun p => .pure id
  · exact .look fun last => .pure id

end Patterns

/-- **Patterns account for their tokens**, at any level of nesting. -/
theorem reads_pattern (room : Nat) :
    (∀ N, Reads N 0 1 (primaryWithin room)) ∧ ∀ N, Reads N 0 1 (orWithin room) := by
  induction room with
  | zero => exact ⟨fun _ => accounts_tooDeep, fun _ => accounts_tooDeep⟩
  | succ room ih =>
    exact ⟨fun _ => (reads_primaryBody ih.2 ih.1).nested, fun _ => (reads_alternativesBody ih.1).nested⟩

/-! ### Expressions -/

section Expressions

variable {expr : Nat → Parser Expr} {pattern : Parser Pattern}

theorem reads_exprList (h : ∀ N n, Reads N 0 1 (expr n)) {close : TokenKind} (hclose : close ≠ .eof) :
    Reads N 1 1 (exprList expr close) :=
  (h _ _).commaListOrNone hclose _

theorem reads_constructor (h : ∀ N n, Reads N 0 1 (expr n)) : Reads N 1 1 (constructor expr) := by
  refine .look fun t => ?_
  have hend : ∀ (M : Nat) (args : List Expr), Reads M 1 1
      (do return Expr.construct (← markFrom t) t.text args) :=
    fun M args => .mark fun _ => .pure id
  have hbare : Reads N 1 1 (do
      let args ← (pure [] : Parser (List Expr))
      return Expr.construct (← markFrom t) t.text args) := .seq (.pure id) (hend _)
  refine .peek (fun n _ => .ite (fun _ => ?_) fun _ => ?_) fun n hn => ?_
  · exact .advance fun _ => (reads_exprList h (by decide)).toTracks.seq (hend _)
  · exact hbare.toTracks.later (Nat.le_succ 1)
  · rw [hn, if_neg (by simp)]
    exact hbare

theorem reads_group (h : ∀ N n, Reads N 0 1 (expr n)) : Reads N 1 1 (group expr) := by
  refine .look fun start => .skipIf (by decide) (.mark fun _ => .pure id) ?_
  refine (reads_exprList h (by decide)).seq fun es => ?_
  split
  · exact .pure id
  · exact .mark fun _ => .pure id

theorem reads_recordLiteral (h : ∀ N n, Reads N 0 1 (expr n)) : Reads N 1 1 (recordLiteral expr) := by
  refine .look fun start => .seq (.iterate (fun fields => ?_) []) fun fields => ?_
  · refine .expect (by decide) fun _ => .look fun name => .expect (by decide) fun _ => ?_
    refine .advance fun _ => (h _ _).seq fun e => .skipIf (by decide) ?_ (.pure id)
    exact .nextIs (by decide) (.pure id) (.pure id)
  · exact .expect (by decide) fun _ => .mark fun _ => .pure id

/-- The result of a block, and its closing brace. -/
def blockResult (expr : Nat → Parser Expr) (lets : List (String × Expr)) :
    Parser (Round (List (String × Expr)) (List (String × Expr) × Option Expr)) := do
  let e ← expr Precedence.lowest
  let _ ← skip .semicolon
  expect .rbrace "\x7d"
  return .done (lets, some e)

/-- A binding of a block, or its result. -/
def blockItem (expr : Nat → Parser Expr) (lets : List (String × Expr)) :
    Parser (Round (List (String × Expr)) (List (String × Expr) × Option Expr)) := do
  if ← currentIs .kwLet then
    expect .lower "binding name"
    let name := (← current).text
    expect .assign "="
    advance
    let e ← expr Precedence.lowest
    let _ ← skip .semicolon
    return .again (lets ++ [(name, e)])
  else blockResult expr lets

/-- One round of a block. -/
def blockStep (expr : Nat → Parser Expr) (lets : List (String × Expr)) :
    Parser (Round (List (String × Expr)) (List (String × Expr) × Option Expr)) := do
  if ← skip .rbrace then return .done (lets, none)
  else
    advance
    blockItem expr lets

theorem blockBody_steps : blockBody expr = iterate (blockStep expr) [] := rfl

theorem reads_closing (lets : List (String × Expr)) (e : Expr) : Reads N 1 1 (do
    let _ ← skip .semicolon
    expect .rbrace "\x7d"
    return (.done (lets, some e) :
      Round (List (String × Expr)) (List (String × Expr) × Option Expr))) := by
  have hbrace : ∀ M, Reads M 1 1 (do
      expect .rbrace "\x7d"
      return (.done (lets, some e) :
        Round (List (String × Expr)) (List (String × Expr) × Option Expr))) :=
    fun M => .expect (by decide) fun _ => .pure id
  exact .skip (by decide) (hbrace _) (hbrace _)

theorem reads_blockItem (h : ∀ N n, Reads N 0 1 (expr n)) (lets : List (String × Expr)) :
    Reads N 0 1 (blockItem expr lets) := by
  have hresult : Reads N 0 1 (blockResult expr lets) := (h _ _).seq (reads_closing lets)
  refine .currentIf (by decide) (Accounts.toTracks ?_) hresult
  refine .expect (by decide) fun _ => .look fun name => .expect (by decide) fun _ => ?_
  refine .advance fun _ => (h _ _).seq fun e => ?_
  exact .skip (by decide) (.pure id) (.pure id)

theorem accounts_blockStep (h : ∀ N n, Reads N 0 1 (expr n)) (lets : List (String × Expr)) :
    Accounts N 1 1 Round.Continues (blockStep expr lets) :=
  .skipIf (by decide) (.pure id) (.advance fun _ => reads_blockItem h lets)

theorem reads_blockBody (h : ∀ N n, Reads N 0 1 (expr n)) : Reads N 1 1 (blockBody expr) :=
  .iterate (accounts_blockStep h) []

theorem reads_conditional (h : ∀ N n, Reads N 0 1 (expr n)) : Reads N 1 1 (conditional expr) := by
  refine .look fun start => .advance fun _ => (h _ _).seq fun test => .expect (by decide) fun _ => ?_
  refine .advance fun _ => (h _ _).seq fun yes => ?_
  have hend : ∀ (M : Nat) (no : Option Expr), Reads M 1 1
      (do return Expr.cond (← markFrom start) test yes no) :=
    fun M no => .mark fun _ => .pure id
  refine .skipIf (by decide) ?_ (.seq (.pure id) (hend _))
  exact .advance fun _ => (h _ _).seq fun no => .seq (.pure id) (hend _)

theorem reads_performance (h : ∀ N n, Reads N 0 1 (expr n)) : Reads N 1 1 (performance expr) := by
  refine .look fun start => .expect (by decide) fun _ => .look fun effect => ?_
  have hend : ∀ (M : Nat) (args : List Expr), Reads M 1 1
      (do return Expr.perform (← markFrom start) effect.text args) :=
    fun M args => .mark fun _ => .pure id
  refine .skipIf (by decide) ?_ (.seq (.pure id) (hend _))
  exact (reads_exprList h (by decide)).seq (hend _)

theorem reads_armHead (h : ∀ N n, Reads N 0 1 (expr n)) : Reads N 1 1 (armHead expr) := by
  refine .iterate (fun head => .peek (fun n _ => ?_) fun n hn => ?_) ({} : ArmHead)
  · refine .ite (fun _ => ?_) fun _ => .ite (fun _ => ?_) fun _ => ?_
    · refine .advance fun _ => Accounts.toTracks ?_
      exact .expect (by decide) fun _ => .look fun name => .pure id
    · refine .advance fun _ => .advance fun _ => ?_
      exact Accounts.toTracks ((h _ _).seq fun g => .pure id)
    · have hdone : Accounts N 1 1 Round.Continues (pure (.done head) : Parser (Round ArmHead ArmHead)) :=
        .pure id
      exact hdone.toTracks.later (Nat.le_succ 1)
  · rw [hn, if_neg (by simp), if_neg (by simp)]
    exact .pure id

theorem reads_arm (h : ∀ N n, Reads N 0 1 (expr n)) (hp : ∀ N, Reads N 0 1 pattern) :
    Reads N 1 1 (arm expr pattern) := by
  refine .look fun bar => .advance fun _ => (hp _).seq fun p => (reads_armHead h).seq fun head => ?_
  refine .expect (by decide) fun _ => .advance fun _ => (h _ _).seq fun body => ?_
  exact .span fun _ => .pure id

theorem reads_selection (h : ∀ N n, Reads N 0 1 (expr n)) (hp : ∀ N, Reads N 0 1 pattern) :
    Reads N 1 1 (selection expr pattern) := by
  refine .look fun start => .advance fun _ => (h _ _).seq fun target => .expect (by decide) fun _ => ?_
  refine .nextIs (by decide) ?_ (accounts_rejectNext _)
  refine .seq (.iterate (fun arms => .skipIf (by decide) ?_ (.pure id)) []) fun arms => ?_
  · exact (reads_arm h hp).seq fun a => .pure id
  · exact .mark fun _ => .pure id

theorem reads_unaryWith (h : ∀ N n, Reads N 0 1 (expr n)) (op : UnaryOp) :
    Reads N 1 1 (unaryWith expr op) :=
  .look fun _ => .advance fun _ => (h _ _).seq fun _ => .mark fun _ => .pure id

/-! A name behind an opening brace starts a field if a colon follows, and a block otherwise.  Where the
input is cut between the name and the colon, the field that was read becomes a block that was not
finished. -/

/-- Parsers that give up in any case. -/
def Fails (p : Parser α) : Prop := ∀ s, (p s).1 = none

theorem Fails.bind {p : Parser β} {f : β → Parser α} (h : ∀ b, Fails (f b)) : Fails (p >>= f) := by
  intro s
  cases hrun : p s with
  | mk r t =>
    cases r with
    | none => rw [run_bind_none hrun]
    | some b =>
      rw [run_bind_some hrun]
      exact h b t

theorem Fails.first {p : Parser β} {f : β → Parser α} (h : Fails p) : Fails (p >>= f) := by
  intro s
  have hnone := h s
  cases hrun : p s with
  | mk r t =>
    rw [hrun] at hnone
    obtain rfl : r = none := hnone
    rw [run_bind_none hrun]

/-- There is no record where there are no expressions. -/
theorem fails_recordLiteral (h : Fails (expr Precedence.lowest)) : Fails (recordLiteral expr) := by
  refine .bind fun start => .first fun s => ?_
  rw [iterate, loop_eq]
  exact (Fails.first (.bind fun _ => .bind fun _ => .bind fun _ => .bind fun _ => h.first)) s

/-- The parser of expressions gives up in any case, or it reads a name that stands at the end of
input. -/
def ReadsName (expr : Nat → Parser Expr) : Prop :=
  Fails (expr Precedence.lowest) ∨
    ∀ (s : State) (t : Token), s.Whole → s.tokens = [t] → t.kind = .lower →
      Ends 1 s (expr Precedence.lowest s)

/-- A block that ends behind a name has not been finished. -/
theorem ends_blockBody (h : ∀ N n, Reads N 0 1 (expr n))
    (hname : ∀ (s : State) (t : Token), s.Whole → s.tokens = [t] → t.kind = .lower →
      Ends 1 s (expr Precedence.lowest s)) {s : State} (hs : s.Whole) {b t : Token}
    (htokens : s.tokens = [b, t]) (ht : t.kind = .lower) : Ends 1 s (blockBody expr s) := by
  have hlength : s.tokens.length = 2 := congrArg List.length htokens
  have hnext : s.next = t := by rw [State.next, htokens]; rfl
  have hlast : (advance s).2.tokens = [t] := congrArg List.tail htokens
  have hwhole : (advance s).2.Whole := ((accounts_advance (N := 3) (k := 0)).moves s).whole hs
  have hresult : Ends 1 (advance s).2 (blockResult expr [] (advance s).2) := by
    refine (hname _ t hwhole hlast ht).bind ((h 3 _).moves _)
      (fun e => (reads_closing (N := 3) [] e).moves) fun e u hu _ hone => ?_
    have hreach := (h 3 Precedence.lowest).moves (advance s).2
    rw [hu] at hreach
    exact (reads_closing (N := 3) [] e).closes u (hreach.whole hwhole) hone (by omega)
  have hround : blockStep expr [] s = blockResult expr [] (advance s).2 := by
    have hskip : skip .rbrace s = (some false, s) := by
      show (if decide (s.next.kind = .rbrace) = true then _ else _ : Parser Bool) s = _
      rw [hnext, ht]
      rfl
    have hcurrent : (advance s).2.current = t := by rw [State.current, hlast]; rfl
    rw [blockStep, run_bind_some hskip, if_neg Bool.false_ne_true,
      run_bind_some (show advance s = (some (), (advance s).2) from rfl)]
    show (if decide ((advance s).2.current.kind = .kwLet) = true then _ else _ : Parser _) _ = _
    rw [hcurrent, ht]
    rfl
  rw [blockBody_steps]
  refine ends_loop (accounts_blockStep (N := 3) h) ?_ hs (by omega) (by omega) (Nat.lt_succ_self _)
  rw [hround]
  exact hresult.of_same rfl rfl

/-- Whether a name and a colon follow. -/
def fieldFollows (s : State) : Bool := s.next.kind = .lower && s.afterNext.kind = .colon

theorem fieldFollows_cut {s : State} (hs : s.Whole) {n : Nat} {e : Token} (he : e.kind = .eof)
    (hn : 2 ≤ n) (hle : n ≤ s.tokens.length) :
    fieldFollows (s.cut n e) = fieldFollows s ∨
      (n = 2 ∧ s.next.kind = .lower ∧ fieldFollows (s.cut n e) = false) := by
  by_cases hthree : 3 ≤ n
  · left
    rw [fieldFollows, fieldFollows, State.next_cut hn hle, State.afterNext_cut hthree hle]
  · have hlength : (s.cut n e).tokens.length = n := State.length_cut hle
    have hfalse : fieldFollows (s.cut n e) = false := by
      rw [fieldFollows, State.afterNext_eq_eof (by omega), (hs.cut he n).eof]
      simp
    by_cases hlower : s.next.kind = .lower
    · exact .inr ⟨by omega, hlower, hfalse⟩
    · left
      rw [hfalse, fieldFollows, decide_eq_false hlower, Bool.false_and]

theorem reads_recordOrBlock (h : ∀ N n, Reads N 0 1 (expr n)) (hname : ReadsName expr) :
    Reads N 1 1 (recordOrBlock expr) := by
  refine .look fun start => ?_
  have hrecord : Reads N 1 1 (recordLiteral expr) := reads_recordLiteral h
  have hend : ∀ (M : Nat) (r : List (String × Expr) × Option Expr), Reads M 1 1
      (do return Expr.block (← markFrom start) r.1 r.2) := fun M r => .mark fun _ => .pure id
  have hblock : Reads N 1 1 (do
      let r ← blockBody expr
      return Expr.block (← markFrom start) r.1 r.2) := (reads_blockBody h).seq (hend _)
  show Reads N 1 1 (observe fieldFollows >>= fun b => if b = true then recordLiteral expr
    else blockBody expr >>= fun r => markFrom start >>= fun m => pure (.block m r.1 r.2))
  have hrun : ∀ s : State, (observe fieldFollows >>= fun b => if b = true then recordLiteral expr
      else blockBody expr >>= fun r => markFrom start >>= fun m => pure (.block m r.1 r.2)) s
      = if fieldFollows s = true then recordLiteral expr s
        else (blockBody expr >>= fun r => markFrom start >>= fun m => pure (.block m r.1 r.2)) s := by
    intro s
    show (if fieldFollows s = true then _ else _ : Parser Expr) s = _
    split <;> rfl
  refine Tracks.of_closes ?_ ?_ ?_ ?_
  · intro s
    rw [hrun]
    split
    · exact hrecord.moves s
    · exact hblock.moves s
  · intro s hs hk hN
    rw [hrun]
    split
    · exact hrecord.clean s hs hk hN
    · exact hblock.clean s hs hk hN
  · intro s n e hs he hn hle hN a t hfull herrors
    unfold Echoes
    rw [hrun] at hfull ⊢
    rcases fieldFollows_cut hs he hn hle with hsame | ⟨rfl, hlower, hfalse⟩
    · rw [hsame]
      split at hfull
      · rw [if_pos ‹_›]
        exact hrecord.cuts s n e hs he (by omega) hle hN a t hfull herrors
      · rw [if_neg ‹_›]
        exact hblock.cuts s n e hs he (by omega) hle hN a t hfull herrors
    · rw [hfalse, if_neg Bool.false_ne_true]
      split at hfull
      · -- the record that was read is taken for a block here
        rcases hname with hfails | hname
        · have hnone := fails_recordLiteral hfails s
          rw [hfull] at hnone
          cases hnone
        · right
          have hlength : (s.cut 2 e).tokens.length = 2 := State.length_cut hle
          obtain ⟨b, u, htokens⟩ := List.length_eq_two.mp hlength
          have hu : u = s.next := by
            rw [← State.next_cut (e := e) (Nat.le_refl 2) hle, State.next, htokens]
            rfl
          have hbody := ends_blockBody h hname (hs.cut he 2) htokens (hu ▸ hlower)
          refine hbody.bind ((reads_blockBody (N := 3) h).moves _) (fun r => (hend 3 r).moves)
            fun r v hv _ hone => ?_
          have hreach := (reads_blockBody (N := 3) h).moves (s.cut 2 e)
          rw [hv] at hreach
          exact (hend 3 r).closes v (hreach.whole (hs.cut he 2)) hone (by omega)
      · exact hblock.cuts s 2 e hs he (by omega) hle hN a t hfull herrors
  · intro s hs hk hN
    have hfalse : fieldFollows s = false := by
      rw [fieldFollows, State.next_eq_eof (Nat.le_of_eq hk), hs.eof]
      simp
    rw [hrun, hfalse, if_neg Bool.false_ne_true]
    exact hblock.closes s hs hk hN

/-- The expression before any operator accounts for its tokens if the expressions and patterns inside
it do. -/
theorem reads_atom (h : ∀ N n, Reads N 0 1 (expr n)) (hname : ReadsName expr)
    (hp : ∀ N, Reads N 0 1 pattern) : Reads N 0 1 (atom expr pattern) := by
  refine .start (fun t _ => ?_) (fun t ht => ?_) fun s hs _ _ => ?_
  · have hconstant : Tracks N 1 1 (fun _ => False)
        (pure (.literal ⟨t, t.span⟩ (t.value.getD .unit)) : Parser Expr) :=
      (Accounts.pure id).toTracks
    split
    · exact (Accounts.pure id).toTracks
    · exact (reads_constructor h).toTracks
    iterate 5 exact hconstant
    · exact (reads_unaryWith h _).toTracks
    · exact (reads_unaryWith h _).toTracks
    · exact (reads_group h).toTracks
    · exact Accounts.toTracks ((reads_exprList h (by decide)).seq fun es => .mark fun _ => .pure id)
    · exact (reads_recordOrBlock h hname).toTracks
    · exact (reads_conditional h).toTracks
    · exact (reads_selection h hp).toTracks
    · exact (reads_performance h).toTracks
    · exact (refuses_rejectEnd _ _).tracks
    · exact (refuses_reject _ _ _).tracks
  · rw [ht]
    exact (refuses_rejectEnd _ _).tracks
  · rw [hs.eof]
    exact .inl rfl

/-- How tightly a token binds to what stands before it. -/
def binding : TokenKind → Nat
  | .lparen => Precedence.call
  | .dot => Precedence.field
  | k => match BinaryOp.ofKind? k with
    | some op => op.precedence
    | none => Precedence.lowest

/-- `extended`, where a token that binds to nothing is refused. -/
def extendedBy (expr : Nat → Parser Expr) (left : Expr) : Parser Expr := do
  let t ← current
  match t.kind with
  | .lparen =>
    let args ← exprList expr .rparen
    return .call ⟨t, left.span.join (← current).span⟩ left args
  | .dot =>
    expect .lower "field name"
    let name ← current
    return .field ⟨t, left.span.join name.span⟩ left name.text
  | k =>
    match BinaryOp.ofKind? k with
    | some op =>
      advance
      let right ← expr op.precedence
      return .binary ⟨t, left.span.join right.span⟩ op left right
    | none => reject .expectedExpression t []

/-- An operator, a call or a field is what an expression goes on with. -/
theorem extended_eq {s : State} (h : 0 < binding s.current.kind) (left : Expr) :
    extended expr left s = extendedBy expr left s := by
  have hcurrent : current s = (some s.current, s) := rfl
  rw [extended, extendedBy, run_bind_some hcurrent, run_bind_some hcurrent]
  generalize s.current.kind = k at h ⊢
  cases k <;> first | rfl | exact absurd h (by decide)

theorem tracks_extendedBy (h : ∀ N n, Reads N 0 1 (expr n)) (left : Expr) :
    Tracks N 1 1 (fun _ => False) (extendedBy expr left) := by
  refine .look fun t => ?_
  split
  · exact Accounts.toTracks ((reads_exprList h (by decide)).seq fun es => .look fun last => .pure id)
  · exact Accounts.toTracks (.expect (by decide) fun _ => .look fun name => .pure id)
  · split
    · exact .advance fun _ => (h _ _).toTracks.seq fun right => .pure id
    · exact (refuses_reject _ _ _).tracks

/-- One round behind an expression: what binds tightly enough is put behind it. -/
def exprRound (expr : Nat → Parser Expr) (precedence : Nat) (left : Expr) :
    Parser (Round Expr Expr) := do
  let t ← current
  let n ← next
  if precedence < binding n.kind && !(n.kind = .lparen && n.line ≠ t.line) then
    advance
    let e ← extendedBy expr left
    return .again e
  else return .done left

theorem exprBody_rounds (precedence : Nat) : exprBody expr pattern precedence
    = atom expr pattern >>= iterate (exprRound expr precedence) := by
  rw [exprBody]
  congr 1
  funext first
  congr 1
  funext left s
  show (if (decide (precedence < binding s.next.kind)
      && !(decide (s.next.kind = .lparen) && decide (s.next.line ≠ s.current.line))) = true
    then advance >>= fun _ => extended expr left >>= fun e => pure (.again e)
    else pure (.done left) : Parser (Round Expr Expr)) s
    = (if (decide (precedence < binding s.next.kind)
      && !(decide (s.next.kind = .lparen) && decide (s.next.line ≠ s.current.line))) = true
    then advance >>= fun _ => extendedBy expr left >>= fun e => pure (.again e)
    else pure (.done left)) s
  split
  · rename_i htight
    rw [Bool.and_eq_true, decide_eq_true_eq] at htight
    have hcurrent : (advance s).2.current = s.next := by
      rw [State.current, State.next, List.drop_one]
      rfl
    have hbinds : 0 < binding (advance s).2.current.kind := by
      rw [hcurrent]
      omega
    exact run_bind_congr (extended_eq hbinds left)
  · rfl

theorem accounts_exprRound (h : ∀ N n, Reads N 0 1 (expr n)) (precedence : Nat) (left : Expr) :
    Accounts N 1 1 Round.Continues (exprRound expr precedence left) := by
  have hdone : Accounts N 1 1 Round.Continues (pure (.done left) : Parser (Round Expr Expr)) := .pure id
  refine .look fun t => .peek (fun n _ => .ite (fun _ => ?_) fun _ => ?_) fun n hn => ?_
  · exact .advance fun _ => (tracks_extendedBy h left).seq fun e => .pure id
  · exact hdone.toTracks.later (Nat.le_succ 1)
  · rw [hn, if_neg (by simp [binding, BinaryOp.ofKind?, Precedence.lowest])]
    exact hdone

theorem reads_exprBody (h : ∀ N n, Reads N 0 1 (expr n)) (hname : ReadsName expr)
    (hp : ∀ N, Reads N 0 1 pattern) (precedence : Nat) :
    Reads N 0 1 (exprBody expr pattern precedence) := by
  rw [exprBody_rounds]
  exact (reads_atom h hname hp).seq fun first => .iterate (accounts_exprRound h precedence) first

/-- A name on its own is an expression. -/
theorem ends_exprBody (h : ∀ N n, Reads N 0 1 (expr n)) (precedence : Nat) {s : State} (hs : s.Whole)
    {t : Token} (htokens : s.tokens = [t]) (ht : t.kind = .lower) :
    Ends 1 s (exprBody expr pattern precedence s) := by
  have hcurrent : s.current = t := by rw [State.current, htokens]; rfl
  have hlength : s.tokens.length = 1 := congrArg List.length htokens
  have hatom : atom expr pattern s = (some (.ident ⟨t, t.span⟩ t.text), s) := by
    rw [atom, run_bind_some (show current s = (some s.current, s) from rfl), hcurrent, ht]
    rfl
  have hloop : ∀ first, Reads 2 1 1 (iterate (exprRound expr precedence) first) := fun first =>
    .iterate (accounts_exprRound h precedence) first
  rw [exprBody_rounds, run_bind_some hatom]
  exact (hloop _).closes s hs hlength (by omega)

end Expressions

/-- Expressions at one level of nesting account for their tokens, and read a name at the end of input
unless they read nothing. -/
theorem reads_exprWithin (room : Nat) :
    (∀ N precedence, Reads N 0 1 (exprWithin room precedence)) ∧ ReadsName (exprWithin room) := by
  induction room with
  | zero => exact ⟨fun _ _ => accounts_tooDeep, .inl fun _ => rfl⟩
  | succ room ih =>
    refine ⟨fun _ n => (reads_exprBody ih.1 ih.2 (reads_pattern room).2 n).nested, .inr ?_⟩
    intro s t hs htokens ht
    exact ends_exprBody (s := { s with depth := s.depth + 1 }) ih.1 _ ⟨hs.tokens, hs.eof⟩ htokens ht

/-- **Expressions account for their tokens.** -/
theorem reads_expression : Reads N 0 1 expression :=
  .withRoom fun room => (reads_exprWithin room).1 N _

/-! ### Declarations -/

theorem reads_definition : Reads N 1 1 definition :=
  .expect (by decide) fun _ => .advance fun _ => reads_expression

theorem reads_function (start : Token) (isPublic : Bool) (annotations : List String) :
    Reads N 1 1 (function start isPublic annotations) := by
  refine .look fun keyword => ?_
  have hrest : ∀ (M : Nat) (b : Bool), Reads M 1 1 (if b = true then do
      let name := (← current).text
      let ps ← params
      let returns ← resultType
      let body ← definition
      return (⟨⟨keyword, ← spanFrom start⟩, name, ps, returns, body, isPublic, annotations⟩ : Function)
      else rejectNext "function name") := by
    intro M b
    refine .ite (fun _ => .look fun name => ?_) fun _ => accounts_rejectNext _
    refine reads_params.seq fun ps => reads_resultType.seq fun returns => ?_
    exact reads_definition.seq fun body => .span fun _ => .pure id
  exact (accounts_skipEither (by decide) (by decide)).bind (fun b _ => hrest _ b) fun b _ => hrest _ b

/-- What a recognizer is read with when its annotations have been checked. -/
theorem reads_recognizerRest (start keyword : Token) (isPublic isPure : Bool) : Reads N 1 1 (do
    expect .lparen "(|"
    let (name, kind) ← recognizerName
    let ps ← params
    let returns ← resultType
    let body ← definition
    return (⟨⟨keyword, ← spanFrom start⟩, name, kind, ps, returns, body, isPublic, isPure⟩ :
      Recognizer)) := by
  refine .expect (by decide) fun _ => reads_recognizerName.seq fun r => reads_params.seq fun ps => ?_
  refine reads_resultType.seq fun returns => reads_definition.seq fun body => ?_
  exact .span fun _ => .pure id

/-- Annotations are passed over, unless one of them is recorded. -/
theorem checkAnnotations_cases (start : Token) (annotations : List String) :
    checkAnnotations start annotations = pure () ∨
      ∀ s : State, s.Reaches (checkAnnotations start annotations s).2 ∧
        (checkAnnotations start annotations s).2.errors ≠ s.errors := by
  induction annotations with
  | nil => exact .inl rfl
  | cons a as ih =>
    by_cases ha : a = "pure"
    · have hrest : checkAnnotations start (a :: as) = checkAnnotations start as := by
        rw [checkAnnotations, if_neg (not_not_intro ha)]
      rw [hrest]
      exact ih
    · right
      intro s
      have hrecord : ∀ u : State, u.Reaches (record .annotationUnknown start [.str a] u).2 :=
        fun u => ⟨List.suffix_refl _, rfl, List.prefix_append _ _, id⟩
      have hrest : ∀ u : State, u.Reaches (checkAnnotations start as u).2 := by
        intro u
        rcases ih with hpure | hrest
        · rw [hpure]
          exact .refl u
        · exact (hrest u).1
      have hrun : checkAnnotations start (a :: as) s
          = checkAnnotations start as (record .annotationUnknown start [.str a] s).2 := by
        rw [checkAnnotations, if_pos ha]
        rfl
      rw [hrun]
      refine ⟨(hrecord s).trans (hrest _), fun herrors => ?_⟩
      have hsame := (hrecord s).errors_eq (hrest _) herrors
      have hlength := congrArg List.length hsame
      rw [show (record .annotationUnknown start [.str a] s).2.errors = s.errors ++ [_] from rfl,
        List.length_append, List.length_singleton] at hlength
      omega

/-- Where an annotation is recorded the parser accounts for nothing. -/
theorem tracks_recognizer (start : Token) (isPublic : Bool) (annotations : List String) :
    Tracks N 1 1 (fun _ => False) (recognizer start isPublic annotations) := by
  refine .look fun keyword => ?_
  have hrest : Reads N 1 1 _ :=
    reads_recognizerRest start keyword isPublic (annotations.contains "pure")
  rcases checkAnnotations_cases start annotations with hpure | hrecorded
  · rw [hpure]
    exact hrest.toTracks
  · exact .recording hrecorded fun _ => hrest.moves

theorem reads_annotationNames : Reads N 0 0 annotationNames := by
  refine .iterate (fun names => .currentIf (by decide) (Accounts.toTracks ?_) (.pure id)) []
  exact .expect (by decide) fun _ => .look fun name => .advance fun _ => .pure id

/-- What is read behind the annotations and `pub`. -/
def declarationBody (start : Token) (isPublic : Bool) (annotations : List String) : Parser Decl := do
  let t ← current
  match t.kind with
  | .kwFn => return .function (← function start isPublic annotations)
  | .kwPattern => return .recognizer (← recognizer start isPublic annotations)
  | .kwType => return .type (← typeDeclaration start isPublic)
  | _ =>
    if !annotations.isEmpty || isPublic then
      reject .unexpectedToken t [.str "fn, pattern or type", .str t.described]
    else
      let e ← expression
      return .expr (← markFrom start) e

theorem declaration_eq : declaration = (do
    let start ← current
    let annotations ← annotationNames
    let isPublic ← currentIs .kwPub
    if isPublic then
      advance
      declarationBody start isPublic annotations
    else declarationBody start isPublic annotations) := rfl

theorem reads_declarationBody (start : Token) (isPublic : Bool) (annotations : List String) :
    Reads N 0 1 (declarationBody start isPublic annotations) := by
  have hexpr : Reads N 0 1 (do
      let e ← expression
      return Decl.expr (← markFrom start) e) :=
    reads_expression.seq fun e => .mark fun _ => .pure id
  refine .start (fun t _ => ?_) (fun t ht => ?_) fun s hs hlength hN => ?_
  · split
    · exact Accounts.toTracks ((reads_function start isPublic annotations).seq fun f => .pure id)
    · exact (tracks_recognizer start isPublic annotations).seq fun r => .pure id
    · exact Accounts.toTracks ((reads_typeDeclaration start isPublic).seq fun d => .pure id)
    · refine .ite (fun _ => (refuses_reject _ _ _).tracks) fun _ => ?_
      exact hexpr.toTracks.later (Nat.zero_le 1)
  · rw [ht]
    exact .ite (fun _ => (refuses_reject _ _ _).tracks) fun _ => hexpr.toTracks
  · rw [hs.eof]
    show Ends 1 s ((if _ then _ else _ : Parser Decl) s)
    split
    · refine .inr (.inl ⟨rfl, List.length_eq_zero_iff.mp hlength, _, ?_, rfl⟩)
      exact List.mem_append_left _ (List.mem_cons_of_mem _ (List.mem_cons_of_mem _ List.mem_cons_self))
    · exact hexpr.closes s hs hlength hN

/-- **Declarations account for their tokens**, from the first annotation to the last token. -/
theorem reads_declaration : Reads N 0 1 declaration := by
  rw [declaration_eq]
  have hrest : ∀ start : Token, Reads N 0 1 (do
      let annotations ← annotationNames
      let isPublic ← currentIs .kwPub
      if isPublic then
        advance
        declarationBody start isPublic annotations
      else declarationBody start isPublic annotations) := by
    intro start
    refine reads_annotationNames.seq fun annotations => .currentIs (by decide) ?_ ?_
    · exact .advance fun _ => (reads_declarationBody start true annotations).toTracks
    · exact reads_declarationBody start false annotations
  refine .start (fun t _ => (hrest t).toTracks.later (Nat.zero_le 1)) (fun t _ => (hrest t).toTracks) ?_
  intro s
  exact (hrest s.eof).closes s

end PatternPlan.Surface.Parser
