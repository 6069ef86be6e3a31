import PatternPlan.Proofs.Surface.Constructs

/-!
# Reading on an input that goes on

What a parser reads does not depend on what stands behind it, as long as there is a token behind the one
at which it stops.

* `State.extend` — the same state with more tokens behind those that are left;
* `Clean` — a run that returns something and records nothing;
* `Steady` — **a parser whose clean runs are the same on an input that goes on**, if they leave two
  tokens;
* one rule for each step, for sequences (`Steady.bind`), loops (`Steady.iterate`) and nesting;
* `steady_type`, `steady_pattern` — types and patterns, which have something behind them wherever they
  stand.
-/

namespace PatternPlan.Surface

namespace State

/-- The state whose input goes on with `more`, up to the end `e`. -/
def extend (s : State) (more : List Token) (e : Token) : State :=
  { s with tokens := s.tokens ++ more, eof := e }

variable {s : State} {more : List Token} {e : Token}

theorem drop_extend (n : Nat) (h : n < s.tokens.length) :
    ((s.extend more e).tokens.drop n).headD e = (s.tokens.drop n).headD s.eof := by
  show ((s.tokens ++ more).drop n).headD e = _
  rw [List.drop_append_of_le_length (Nat.le_of_lt h)]
  cases hrest : s.tokens.drop n with
  | nil =>
    have hlength := congrArg List.length hrest
    rw [List.length_drop, List.length_nil] at hlength
    omega
  | cons t ts => rfl

theorem current_extend (h : 1 ≤ s.tokens.length) : (s.extend more e).current = s.current :=
  drop_extend 0 h

theorem next_extend (h : 2 ≤ s.tokens.length) : (s.extend more e).next = s.next := drop_extend 1 h

theorem afterNext_extend (h : 3 ≤ s.tokens.length) : (s.extend more e).afterNext = s.afterNext :=
  drop_extend 2 h

theorem advance_extend (h : 1 ≤ s.tokens.length) :
    (Parser.advance (s.extend more e)).2 = (Parser.advance s).2.extend more e := by
  obtain ⟨ts, eof, errors, incomplete, depth⟩ := s
  cases ts with
  | nil => exact absurd h (Nat.not_succ_le_zero 0)
  | cons t ts => rfl

theorem length_extend : (s.extend more e).tokens.length = s.tokens.length + more.length :=
  List.length_append

theorem Whole.extend (h : s.Whole) (hmore : ∀ t ∈ more, t.kind ≠ .eof) (he : e.kind = .eof) :
    (s.extend more e).Whole :=
  ⟨List.forall_mem_append.mpr ⟨h.tokens, hmore⟩, he⟩

end State

namespace Parser

variable {α β : Type} {p : Parser β} {f : β → Parser α} {s t : State} {a : α}

/-! ### Clean runs -/

/-- A run that returns something and records nothing, with nothing recorded before. -/
structure Clean (p : Parser α) (s : State) (a : α) (t : State) : Prop where
  run : p s = (some a, t)
  whole : s.Whole
  before : s.errors = []
  after : t.errors = []

theorem reaches_of_run {p : Parser α} (hmoves : ∀ s : State, s.Reaches (p s).2) (h : p s = (some a, t)) :
    s.Reaches t := by
  have hreach := hmoves s
  rwa [h] at hreach

/-- The two runs of a sequence are clean if it is. -/
theorem Clean.bind (h : Clean (p >>= f) s a t) (hp : ∀ s : State, s.Reaches (p s).2)
    (hf : ∀ (b : β) (s : State), s.Reaches (f b s).2) :
    ∃ b u, Clean p s b u ∧ Clean (f b) u a t ∧ u.Reaches t := by
  have hrun := h.run
  cases hfirst : p s with
  | mk r u =>
    cases r with
    | none =>
      rw [run_bind_none hfirst] at hrun
      cases hrun
    | some b =>
      rw [run_bind_some hfirst] at hrun
      have hreach := reaches_of_run hp hfirst
      have hrest := reaches_of_run (hf b) hrun
      have herrors : u.errors = [] := List.prefix_nil.mp (h.after ▸ hrest.errors)
      exact ⟨b, u, ⟨hfirst, h.whole, h.before, herrors⟩,
        ⟨hrun, hreach.whole h.whole, herrors, h.after⟩, hrest⟩

/-- A parser that gives up has no clean run. -/
theorem Refuses.not_clean {p : Parser α} (h : Refuses p) : ¬ Clean p s a t := by
  intro hclean
  have hnone := (h.gives s).1
  rw [hclean.run] at hnone
  cases hnone

/-! ### Steady parsers -/

/-- **A parser whose clean runs are the same on an input that goes on** with `more`, if they leave a
token behind the one at which they stop. -/
structure Steady (more : List Token) (e : Token) (p : Parser α) : Prop where
  moves : ∀ s : State, s.Reaches (p s).2
  same : ∀ {s : State} {a : α} {t : State}, Clean p s a t → 2 ≤ t.tokens.length →
    p (s.extend more e) = (some a, t.extend more e)

variable {more : List Token} {e : Token}

namespace Steady

theorem pure {a : α} : Steady more e (Pure.pure a : Parser α) := by
  refine ⟨State.Reaches.refl, fun {s b t} h _ => ?_⟩
  cases h.run
  rfl

theorem refused {p : Parser α} (h : Refuses p) : Steady more e p :=
  ⟨h.moves, fun hclean _ => absurd hclean h.not_clean⟩

/-- **Sequences**: what the second parser leaves, the first one left. -/
theorem bind (hp : Steady more e p) (hf : ∀ b, Steady more e (f b)) : Steady more e (p >>= f) := by
  refine ⟨fun s => (reaches_bind hp.moves (fun b => (hf b).moves) s).2, fun {s a t} h hlength => ?_⟩
  obtain ⟨b, u, hfirst, hrest, hreach⟩ := h.bind hp.moves fun b => (hf b).moves
  have hleft := hreach.length_le
  rw [run_bind_some (hp.same hfirst (by omega)), (hf b).same hrest hlength]

/-- What is read off a state with two tokens is read off the one that goes on. -/
theorem observed {h : State → β} {g : β → Parser α}
    (hsame : ∀ s : State, 2 ≤ s.tokens.length → h (s.extend more e) = h s)
    (hg : ∀ b, Steady more e (g b)) : Steady more e (Parser.observe h >>= g) :=
  bind ⟨State.Reaches.refl, fun {s b t} hclean hlength => by
    cases hclean.run
    show (some (h (s.extend more e)), s.extend more e) = _
    rw [hsame s hlength]⟩ hg

theorem look {g : Token → Parser α} (h : ∀ t, Steady more e (g t)) : Steady more e (current >>= g) :=
  observed (fun _ hlength => State.current_extend (by omega)) h

theorem glance {g : Token → Parser α} (h : ∀ t, Steady more e (g t)) : Steady more e (next >>= g) :=
  observed (fun _ hlength => State.next_extend hlength) h

/-- A choice by the kind of the next token. -/
theorem ahead {h : State → β} {g : β → Parser α}
    (hsame : ∀ s s' : State, s.next.kind = s'.next.kind → h s = h s') (hg : ∀ b, Steady more e (g b)) :
    Steady more e (Parser.observe h >>= g) :=
  observed (fun s hlength => hsame _ s (congrArg Token.kind (State.next_extend hlength))) hg

theorem span {start : Token} {g : Span → Parser α} (h : ∀ b, Steady more e (g b)) :
    Steady more e (spanFrom start >>= g) :=
  observed (fun s hlength => by rw [State.current_extend (by omega)]) h

theorem mark {start : Token} {g : Mark → Parser α} (h : ∀ m, Steady more e (g m)) :
    Steady more e (markFrom start >>= g) := by
  show Steady more e (spanFrom start >>= fun b => g ⟨start, b⟩)
  exact span fun b => h _

theorem ite {c : Prop} [Decidable c] {p q : Parser α} (hp : c → Steady more e p)
    (hq : ¬ c → Steady more e q) : Steady more e (if c then p else q) := by
  split
  · exact hp ‹_›
  · exact hq ‹_›

end Steady

theorem steady_advance : Steady more e advance := by
  refine ⟨(accounts_advance (N := 0) (k := 0)).moves, fun {s a t} h hlength => ?_⟩
  have htail := State.length_advance s
  have ht : (advance s).2 = t := congrArg Prod.snd h.run
  rw [ht] at htail
  rw [← ht]
  exact Prod.ext rfl (State.advance_extend (by omega))

theorem steady_expect (kind : TokenKind) (expected : String) : Steady more e (expect kind expected) :=
  .ahead (fun s s' hkind => by rw [hkind]) fun _ =>
    .ite (fun _ => steady_advance) fun _ => .refused (refuses_rejectNext _)

theorem steady_skip (kind : TokenKind) : Steady more e (skip kind) :=
  .ahead (fun s s' hkind => by rw [hkind]) fun _ =>
    .ite (fun _ => .bind steady_advance fun _ => .pure) fun _ => .pure

theorem steady_skipEither (k l : TokenKind) : Steady more e (skipEither k l) :=
  .bind (steady_skip k) fun _ => .ite (fun _ => .pure) fun _ => steady_skip l

namespace Steady

theorem expect {kind : TokenKind} {expected : String} {q : Unit → Parser α} (h : ∀ u, Steady more e (q u)) :
    Steady more e (Parser.expect kind expected >>= q) := bind (steady_expect kind expected) h

theorem advance {q : Unit → Parser α} (h : ∀ u, Steady more e (q u)) :
    Steady more e (Parser.advance >>= q) := bind steady_advance h

theorem skipIf {kind : TokenKind} {p q : Parser α} (hp : Steady more e p) (hq : Steady more e q) :
    Steady more e (Parser.skip kind >>= fun b => if b = true then p else q) :=
  bind (steady_skip kind) fun _ => ite (fun _ => hp) fun _ => hq

/-! ### Loops and nesting -/

/-- With more fuel the same rounds are run. -/
theorem loop {round : β → Parser (Round β α)} (h : ∀ b, Steady more e (round b)) {fuel fuel' : Nat}
    (hfuel : fuel ≤ fuel') {b : β} (hclean : Clean (Parser.loop round fuel b) s a t)
    (hlength : 2 ≤ t.tokens.length) :
    Parser.loop round fuel' b (s.extend more e) = (some a, t.extend more e) := by
  induction fuel generalizing fuel' b s with
  | zero => cases hclean.run
  | succ fuel ih =>
    obtain ⟨fuel', rfl⟩ : ∃ n, fuel' = n + 1 := ⟨fuel' - 1, by omega⟩
    rw [loop_eq] at hclean
    obtain ⟨r, u, hround, hrest, hreach⟩ :=
      hclean.bind (h b).moves (reaches_rest (fun b => (h b).moves) fuel)
    have hleft := hreach.length_le
    rw [loop_eq, run_bind_some ((h b).same hround (by omega))]
    cases r with
    | again c => exact ih (by omega) hrest
    | done c =>
      cases hrest.run
      rfl

theorem iterate {round : β → Parser (Round β α)} (h : ∀ b, Steady more e (round b)) (b : β) :
    Steady more e (Parser.iterate round b) := by
  refine ⟨fun s => reaches_loop (fun b => (h b).moves) _ b s, fun {s a t} hclean hlength => ?_⟩
  refine loop h (Nat.succ_le_succ ?_) (s := s) ⟨hclean.run, hclean.whole, hclean.before, hclean.after⟩ hlength
  rw [State.length_extend]
  omega

theorem commaList {item : Parser α} (h : Steady more e item) (close : TokenKind) (expected : String) :
    Steady more e (Parser.commaList item close expected) := by
  refine iterate (fun items => advance fun _ => h.bind fun a => ?_) []
  exact skipIf pure (expect fun _ => pure)

theorem commaListOrNone {item : Parser α} (h : Steady more e item) (close : TokenKind)
    (expected : String) : Steady more e (Parser.commaListOrNone item close expected) :=
  skipIf pure (h.commaList close expected)

end Steady

/-- A run one level deeper. -/
theorem Clean.nested {p : Parser α} (h : Clean (Parser.nested p) s a t) :
    ∃ u, Clean p { s with depth := s.depth + 1 } a u ∧ t = { u with depth := u.depth - 1 } := by
  have hrun := h.run
  cases hinner : p { s with depth := s.depth + 1 } with
  | mk r u =>
    have hnested : Parser.nested p s = (r, { u with depth := u.depth - 1 }) := by
      show ((p _).1, _) = _
      rw [hinner]
    rw [hnested] at hrun
    cases hrun
    exact ⟨u, ⟨hinner, ⟨h.whole.tokens, h.whole.eof⟩, h.before, h.after⟩, rfl⟩

theorem moves_nested {p : Parser α} (h : ∀ s : State, s.Reaches (p s).2) (s : State) :
    s.Reaches (Parser.nested p s).2 :=
  have hreach := h { s with depth := s.depth + 1 }
  ⟨hreach.tokens, hreach.eof, hreach.errors, hreach.incomplete⟩

theorem Steady.nested {p : Parser α} (h : Steady more e p) : Steady more e (Parser.nested p) := by
  refine ⟨moves_nested h.moves, fun {s a t} hclean hlength => ?_⟩
  obtain ⟨u, hinner, rfl⟩ := hclean.nested
  have hrun : p { s.extend more e with depth := (s.extend more e).depth + 1 } = _ := h.same hinner hlength
  show ((p _).1, _) = _
  rw [hrun]
  rfl

/-! ### Types -/

theorem steady_typeBody {inner : Parser TypeExpr} (h : Steady more e inner) :
    Steady more e (typeBody inner) := by
  refine .look fun start => ?_
  split
  · refine .skipIf ?_ (.bind .pure fun ts => .mark fun _ => .pure)
    exact (h.commaList _ _).bind fun ts => .mark fun _ => .pure
  · refine (h.commaListOrNone _ _).bind fun ts => ?_
    split
    · exact .pure
    · exact .mark fun _ => .pure
  · exact .advance fun _ => h.bind fun t => .expect fun _ => .mark fun _ => .pure
  · exact .refused (refuses_reject _ _ _)

theorem steady_typeWithin (fuel : Nat) : Steady more e (typeWithin fuel) := by
  induction fuel with
  | zero => exact ⟨State.Reaches.refl, fun {s a t} h _ => nomatch h.run⟩
  | succ fuel ih => exact steady_typeBody ih

/-- **Types are steady.**  There is more fuel where there are more tokens, and that makes no
difference. -/
theorem steady_type : Steady more e type := by
  refine ⟨(reads_type (N := 0)).moves, fun {s a t} h hlength => ?_⟩
  have hless : s.tokens.length < (s.extend more e).tokens.length + 1 := by
    rw [State.length_extend]
    omega
  have hwithin : typeWithin ((s.extend more e).tokens.length + 1) s = (some a, t) :=
    (typeWithin_eq _ s h.whole hless).trans h.run
  exact (steady_typeWithin _).same ⟨hwithin, h.whole, h.before, h.after⟩ hlength

theorem steady_recordTypeFields : Steady more e recordTypeFields := by
  refine .iterate (fun fields => .ahead (fun s s' hkind => by rw [hkind]) fun _ => ?_) []
  refine .ite (fun _ => .pure) fun _ => .expect fun _ => .look fun name => .expect fun _ => ?_
  exact .advance fun _ => steady_type.bind fun t => .skipIf .pure .pure

theorem steady_param : Steady more e param := by
  refine .expect fun _ => .look fun name => .skipIf ?_ .pure
  exact .advance fun _ => steady_type.bind fun t => .pure

theorem steady_params : Steady more e params := by
  refine .expect fun _ => .skipIf .pure (.iterate (fun ps => steady_param.bind fun p => ?_) [])
  exact .skipIf .pure (.expect fun _ => .pure)

theorem steady_resultType : Steady more e resultType := by
  refine .skipIf ?_ .pure
  exact .advance fun _ => steady_type.bind fun t => .pure

theorem steady_recognizerName : Steady more e recognizerName := by
  refine .expect fun _ => .expect fun _ => .look fun name => .expect fun _ => .skipIf ?_ ?_
  · exact .expect fun _ => .bind .pure fun kind => .expect fun _ => .pure
  · exact .bind .pure fun kind => .expect fun _ => .pure

/-! ### Patterns -/

theorem steady_bound : Steady more e bound := by
  refine .look fun t => ?_
  split
  iterate 5 exact .pure
  · refine .glance fun n => .ite (fun _ => ?_) fun _ => .refused (refuses_rejectNext _)
    exact .advance fun _ => .mark fun _ => .pure
  · exact .refused (refuses_reject _ _ _)

theorem steady_startsBound {g : Bool → Parser α} (h : ∀ b, Steady more e (g b)) :
    Steady more e (nextStartsBound >>= g) := .ahead (fun s s' hkind => by rw [hkind]) h

theorem steady_rangeAfter (start : Bound) : Steady more e (rangeAfter start) := by
  refine .look fun op => steady_startsBound fun _ => .ite (fun _ => ?_) fun _ => ?_
  · exact .advance fun _ => steady_bound.bind fun stop => .look fun last => .pure
  · exact .ite (fun _ => .refused (refuses_rejectNext _)) fun _ => .pure

/-- Where a constant that may be missing is read without an error, there is one. -/
theorem steady_attempt {q : Parser (Option Bound)}
    (hrun : ∀ s, q s = (some (bound s).1, (bound s).2)) : Steady more e q := by
  have hmoves : ∀ s : State, s.Reaches (bound s).2 := (tracks_bound (N := 0)).moves
  refine ⟨fun s => by rw [hrun]; exact hmoves s, fun {s o t} h hlength => ?_⟩
  have hparts := h.run
  rw [hrun] at hparts
  cases hparts
  have hleft := (hmoves s).length_le
  have hsame : (bound s).2.errors = s.errors := h.after.trans h.before.symm
  obtain ⟨b, hb, -⟩ := tracks_bound.clean s h.whole (by omega) (Nat.lt_succ_self _) hsame
  have hbound : bound (s.extend more e) = _ :=
    steady_bound.same ⟨Prod.ext hb rfl, h.whole, h.before, h.after⟩ hlength
  rw [hrun, hbound, hb]

theorem steady_rangeBefore : Steady more e rangeBefore := by
  refine .look fun op => steady_startsBound fun _ => .ite (fun _ => ?_) fun _ => ?_
  · refine .advance fun _ => (steady_attempt fun s => ?_).bind fun stop => .mark fun _ => .pure
    rcases bound s with ⟨_ | b, t⟩ <;> rfl
  · exact .refused (refuses_rejectNext _)

section Patterns

variable {alternatives primary inner : Parser Pattern}

theorem steady_nestedPattern (h : Steady more e alternatives) : Steady more e (nestedPattern alternatives) := by
  refine h.bind fun p => .iterate (fun p => .skipIf ?_ .pure) p
  exact .look fun asToken => .expect fun _ => .look fun name => .pure

theorem steady_slicePattern (h : Steady more e inner) : Steady more e (slicePattern inner) := by
  refine .look fun start => .skipIf (.mark fun _ => .pure) ?_
  refine .bind (.iterate (fun items => .advance fun _ => .look fun t => ?_) []) fun items => .mark fun _ => .pure
  have hend : ∀ item : SliceItem Pattern, Steady more e
      (do if ← skip .comma then return .again (items ++ [item])
          else
            expect .rbracket ", or ]"
            return (.done (items ++ [item]) :
              Round (List (SliceItem Pattern)) (List (SliceItem Pattern)))) :=
    fun item => .skipIf .pure (.expect fun _ => .pure)
  refine steady_startsBound fun _ => .ite (fun _ => ?_) fun _ => h.bind fun p => .bind .pure hend
  exact .skipIf (.look fun name => .bind .pure hend) (.bind .pure hend)

theorem steady_recordFields (h : Steady more e inner) : Steady more e (recordFields inner) := by
  refine .iterate (fun fields => .advance fun _ => .look fun t => ?_) []
  split
  · exact .expect fun _ => .pure
  · have hend : ∀ p : Pattern, Steady more e
        (do if ← skip .comma then return .again (fields ++ [(t.text, p)])
            else
              expect .rbrace ", or \x7d"
              return (.done (fields ++ [(t.text, p)], false) :
                Round (List (String × Pattern)) (List (String × Pattern) × Bool))) :=
      fun p => .skipIf .pure (.expect fun _ => .pure)
    exact .skipIf (.advance fun _ => h.bind hend) (.bind .pure hend)
  · exact .refused (refuses_reject _ _ _)

theorem steady_recordPattern (h : Steady more e inner) : Steady more e (recordPattern inner) := by
  refine .look fun start => .skipIf (.mark fun _ => .pure) ?_
  exact (steady_recordFields h).bind fun r => .mark fun _ => .pure

theorem steady_groupPattern (h : Steady more e inner) : Steady more e (groupPattern inner) := by
  refine .look fun start => .skipIf (.mark fun _ => .pure) ((h.commaList _ _).bind fun ps => ?_)
  split
  · exact .pure
  · exact .mark fun _ => .pure

theorem steady_activePattern (h : Steady more e primary) : Steady more e (activePattern primary) := by
  refine .look fun start => steady_recognizerName.bind fun r => ?_
  have hend : ∀ arg : Option Pattern, Steady more e
      (do return Pattern.active (← markFrom start) r.1 r.2 arg) := fun arg => .mark fun _ => .pure
  refine .ahead (fun s s' hkind => by rw [hkind]) fun _ => .ite (fun _ => ?_) fun _ => .bind .pure hend
  exact .advance fun _ => h.bind fun p => .bind .pure hend

theorem steady_primaryBody (ha : Steady more e alternatives) (hp : Steady more e primary) :
    Steady more e (primaryBody alternatives primary) := by
  have hinner : Steady more e (nestedPattern alternatives) := steady_nestedPattern ha
  have hconstant : Steady more e (do
      let b ← bound
      if ← skipEither .dotDot .dotDotEq then rangeAfter b else return .literal b.mark b.value) := by
    refine steady_bound.bind fun b => (steady_skipEither _ _).bind fun c => ?_
    exact .ite (fun _ => steady_rangeAfter b) fun _ => .pure
  refine .look fun t => ?_
  split
  · exact .pure
  · exact .skipIf (.advance fun _ => hp.bind fun p => .mark fun _ => .pure) .pure
  iterate 6 exact hconstant
  · exact steady_rangeBefore
  · exact steady_rangeBefore
  · refine .skipIf ?_ (.bind .pure fun ps => .mark fun _ => .pure)
    exact (hinner.commaListOrNone _ _).bind fun ps => .mark fun _ => .pure
  · refine .ahead (fun s s' hkind => by rw [hkind]) fun _ => ?_
    exact .ite (fun _ => steady_activePattern hp) fun _ => steady_groupPattern hinner
  · exact steady_slicePattern hinner
  · exact steady_recordPattern hinner
  · exact .pure
  · exact .refused (refuses_rejectEnd _ _)
  · exact .refused (refuses_reject _ _ _)

theorem steady_alternativesBody (h : Steady more e primary) : Steady more e (alternativesBody primary) := by
  refine h.bind fun first => .glance fun bar => .ite (fun _ => ?_) fun _ => .pure
  refine .bind (.iterate (fun ps => .skipIf ?_ .pure) [first]) fun ps => .look fun last => .pure
  exact .advance fun _ => h.bind fun p => .pure

end Patterns

/-- **Patterns are steady**, at any level of nesting. -/
theorem steady_pattern (room : Nat) :
    Steady more e (primaryWithin room) ∧ Steady more e (orWithin room) := by
  induction room with
  | zero => exact ⟨.refused refuses_tooDeep, .refused refuses_tooDeep⟩
  | succ room ih =>
    exact ⟨(steady_primaryBody ih.2 ih.1).nested, (steady_alternativesBody ih.1).nested⟩

end Parser

end PatternPlan.Surface
