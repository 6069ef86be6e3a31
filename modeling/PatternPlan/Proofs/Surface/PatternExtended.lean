import PatternPlan.Proofs.Surface.Appended

/-!
# Patterns on an input that goes on

A pattern that is all there is of an input is read in the same way in front of tokens with which it does
not go on: an arrow, an alias or a guard.

* `Beyond.glance`, `Beyond.decided`, `Extends.either` — choices by the next token, in parsers that never
  cross over;
* `exact_pattern` — **patterns in front of what they do not go on with**, at any level of nesting.
-/

namespace PatternPlan.Surface.Parser

variable {α : Type} {more : List Token} {e : Token}

/-! ### Choices by the next token -/

/-- What is read by the next token, where the end of input is refused. -/
theorem Beyond.glance {g : Token → Parser α} (hend : ∀ n : Token, n.kind = .eof → Refuses (g n))
    (h : ∀ n, Exact more e (g n)) : Beyond (fun _ => False) more e (next >>= g) := by
  have hlong : ∀ {s : State} {a : α} {t : State}, Clean (next >>= g) s a t → 2 ≤ s.tokens.length := by
    intro s a t hclean
    refine Nat.not_lt.mp fun hless => (hend s.next ?_).not_clean
      ⟨hclean.run, hclean.whole, hclean.before, hclean.after⟩
    rw [State.next_eq_eof (Nat.le_of_lt_succ hless)]
    exact hclean.whole.eof
  refine ⟨⟨fun s => (h s.next).moves s, fun {s a t} hclean hone => ?_⟩, fun hclean _ => hlong hclean⟩
  have hrun : (next >>= g) (s.extend more e) = g s.next (s.extend more e) := by
    show g (s.extend more e).next (s.extend more e) = _
    rw [State.next_extend (hlong hclean)]
  rw [Continues, hrun]
  exact (h s.next).same ⟨hclean.run, hclean.whole, hclean.before, hclean.after⟩ hone

/-- A choice by the next token between parsers that both go on. -/
theorem Beyond.decided {kind : TokenKind} {p q : Parser α} (hp : Beyond (fun _ => False) more e p)
    (hq : Beyond (fun _ => False) more e q) : Beyond (fun _ => False) more e
      (Parser.nextIs kind >>= fun b => if b = true then p else q) := by
  refine .observed (fun s hlength => ?_) fun _ => .ite (fun _ => hp) fun _ => hq
  rw [State.next_extend hlength]

/-! ### Constants -/

theorem exact_bound : Exact more e bound := by
  refine .look fun t => ?_
  split
  iterate 5 exact .pure
  · refine (Beyond.glance (fun n hn => ?_) fun n => ?_).toExtends
    · rw [hn]
      exact refuses_rejectNext _
    · refine .ite (fun _ => ?_) fun _ => .refused (refuses_rejectNext _)
      exact .advance fun _ => .mark fun _ => .pure
  · exact .refused (refuses_reject _ _ _)

/-- Where a constant that may be missing is read without an error, there is one. -/
theorem exact_attempt {q : Parser (Option Bound)}
    (hrun : ∀ s, q s = (some (bound s).1, (bound s).2)) : Exact more e q := by
  have hmoves : ∀ s : State, s.Reaches (bound s).2 := (tracks_bound (N := 0)).moves
  refine ⟨fun s => by rw [hrun]; exact hmoves s, fun {s o t} h hone => .inl ?_⟩
  have hparts := h.run
  rw [hrun] at hparts
  cases hparts
  have hleft := (hmoves s).length_le
  have hsame : (bound s).2.errors = s.errors := h.after.trans h.before.symm
  obtain ⟨b, hb, -⟩ := tracks_bound.clean s h.whole (by omega) (Nat.lt_succ_self _) hsame
  have hexact : Exact more e bound := exact_bound
  have hbound := (hexact.same
    ⟨Prod.ext hb rfl, h.whole, h.before, h.after⟩ hone).resolve_right fun hcross => hcross.2
  rw [hrun, hbound, hb]

/-! ### Patterns that are closed -/

section Closed

variable {inner : Parser Pattern}

theorem beyond_slicePattern (h : Steady more e inner) :
    Beyond (fun _ => False) more e (slicePattern inner) := by
  refine .look fun start => .skip (by decide) (.mark fun _ => .pure) ?_
  refine .exactly (.iterate (fun items => .advance fun _ => .look fun t => ?_)
    (fun _ => maintains_never _) []) fun items => .mark fun _ => .pure
  have hend : ∀ item : SliceItem Pattern, Beyond (fun _ => False) more e
      (do if ← skip .comma then return .again (items ++ [item])
          else
            expect .rbracket ", or ]"
            return (.done (items ++ [item]) :
              Round (List (SliceItem Pattern)) (List (SliceItem Pattern)))) :=
    fun item => .skip (by decide) .pure (.expect (by decide) fun _ => .pure)
  refine (Beyond.observed (fun s hlength => by rw [State.next_extend hlength]) fun _ =>
    .ite (fun _ => ?_) fun _ => .steadily h fun p => .steadily .pure hend).toExtends
  exact .skip (by decide) (.look fun name => .exactly .pure fun item => (hend item).toExtends)
    (.steadily .pure hend)

theorem beyond_recordPattern (h : Steady more e inner) :
    Beyond (fun _ => False) more e (recordPattern inner) := by
  refine .look fun start => .skip (by decide) (.mark fun _ => .pure) ?_
  refine .exactly (.iterate (fun fields => .advance fun _ => .look fun t => ?_)
    (fun _ => maintains_never _) []) fun r => .mark fun _ => .pure
  split
  · exact .expect (by decide) fun _ => .pure
  · have hend : ∀ p : Pattern, Beyond (fun _ => False) more e
        (do if ← skip .comma then return .again (fields ++ [(t.text, p)])
            else
              expect .rbrace ", or \x7d"
              return (.done (fields ++ [(t.text, p)], false) :
                Round (List (String × Pattern)) (List (String × Pattern) × Bool))) :=
      fun p => .skip (by decide) .pure (.expect (by decide) fun _ => .pure)
    refine (Beyond.skip (by decide) ?_ (.steadily .pure hend)).toExtends
    exact .advance fun _ => (Beyond.steadily h hend).toExtends
  · exact .refused (refuses_reject _ _ _)

theorem beyond_groupPattern (h : Steady more e inner) :
    Beyond (fun _ => False) more e (groupPattern inner) := by
  refine .look fun start => .skip (by decide) (.mark fun _ => .pure) ?_
  refine .exactly (.commaList h (by decide) _) fun ps => ?_
  split
  · exact .pure
  · exact .mark fun _ => .pure

end Closed

/-! ### What follows the input -/

variable [Crossing (fun _ => False) more e]

theorem headD_inert : (more.headD e).kind ∈ inert := by
  by_contra hhead
  exact Crossing.enter (I := fun _ => False) (s := { tokens := more, eof := e }) rfl hhead rfl rfl

/-- A choice by the next token, where what follows the input is not chosen. -/
theorem Extends.either {kind : TokenKind} {p : Token → Parser α} {q : Parser α} (hinert : kind ∉ inert)
    (hp : ∀ n, Exact more e (p n)) (hq : Exact more e q) :
    Exact more e (next >>= fun n => if n.kind = kind then p n else q) := by
  have hg : ∀ n : Token, Exact more e (if n.kind = kind then p n else q) := fun n =>
    .ite (fun _ => hp n) fun _ => hq
  refine ⟨fun s => (hg s.next).moves s, fun {s a t} hclean hone => ?_⟩
  have hchoice : ∀ u : State, (next >>= fun n => if n.kind = kind then p n else q) u
      = (if u.next.kind = kind then p u.next else q) u := fun _ => rfl
  have hshort : Clean (if s.next.kind = kind then p s.next else q) s a t :=
    ⟨hclean.run, hclean.whole, hclean.before, hclean.after⟩
  have hsame := (hg s.next).same hshort hone
  rw [Continues, hchoice]
  by_cases htwo : 2 ≤ s.tokens.length
  · rw [State.next_extend htwo]
    exact hsame
  · -- both ends of input are passed over
    have hnone : s.next.kind ≠ kind := by
      rw [State.next_eq_eof (Nat.le_of_not_lt htwo), hclean.whole.eof]
      exact (ne_eof_of_not_inert hinert).symm
    have hnext : (s.extend more e).next.kind ≠ kind := by
      have hlength := (reaches_of_run (hg s.next).moves hshort.run).length_le
      obtain ⟨x, hx⟩ : ∃ x, s.tokens = [x] := List.length_eq_one_iff.mp (by omega)
      have hhead : (s.extend more e).next = more.headD e := by
        rw [State.next, State.extend, hx]
        rfl
      rw [hhead]
      exact ne_of_mem_of_not_mem headD_inert hinert
    rw [if_neg hnone] at hsame
    rw [if_neg hnext]
    exact hsame

/-- A token that may follow, or not. -/
theorem exact_skip {kind : TokenKind} (hinert : kind ∉ inert) : Exact more e (Parser.skip kind) := by
  have hskip : Exact more e (Parser.skip kind >>= Pure.pure) :=
    .skip hinert .pure (maintains_never _) .pure
  have heq : Parser.skip kind >>= Pure.pure = Parser.skip kind := by
    funext s
    cases hrun : Parser.skip kind s with
    | mk o t =>
      cases o with
      | none => exact run_bind_none hrun
      | some b => exact run_bind_some hrun
  rwa [heq] at hskip

/-! ### Ranges -/

/-- What a pattern does not go on with starts no bound. -/
theorem startsBound_inert : ∀ k ∈ inert, (match k with
    | .int | .float | .string | .minus => true
    | _ => false) = false := by decide

theorem exact_rangeAfter (start : Bound) : Exact more e (rangeAfter start) := by
  refine .look fun op => .ahead (fun s s' _ hnext => by rw [hnext]) (fun s hs => startsBound_inert _ hs)
    ?_ (maintains_never _) ?_
  · exact .exactly exact_bound fun stop => .look fun last => .pure
  · exact .ite (fun _ => .refused (refuses_rejectNext _)) fun _ => .pure

theorem exact_rangeBefore : Exact more e rangeBefore := by
  refine .look fun op => .ahead (fun s s' _ hnext => by rw [hnext]) (fun s hs => startsBound_inert _ hs)
    ?_ (maintains_never _) (.refused (refuses_rejectNext _))
  refine .exactly (exact_attempt fun s => ?_) fun stop => .mark fun _ => .pure
  rcases bound s with ⟨_ | b, t⟩ <;> rfl

/-! ### Patterns with parts -/

theorem beyond_recognizerName : Beyond (fun _ => False) more e recognizerName := by
  refine .expect (by decide) fun _ => .expect (by decide) fun _ => .look fun name => ?_
  refine .expect (by decide) fun _ => .skipIf (by decide) ?_ (maintains_never _) ?_
  · exact .expect (by decide) fun _ => .exactly .pure fun kind => .expect (by decide) fun _ => .pure
  · exact .exactly .pure fun kind => .expect (by decide) fun _ => .pure

section Patterns

variable {alternatives primary : Parser Pattern}

/-- What a pattern does not go on with starts no argument of a recognizer. -/
theorem startsArgument_inert : ∀ k ∈ inert, (match k with
    | .underscore | .lower | .upper | .int | .float | .string | .kwTrue | .kwFalse | .minus
    | .lparen | .lbracket | .lbrace | .regex => true
    | _ => false) = false := by decide

theorem beyond_activePattern (h : Exact more e primary) :
    Beyond (fun _ => False) more e (activePattern primary) := by
  refine .look fun start => .exactly beyond_recognizerName fun r => ?_
  have hend : ∀ arg : Option Pattern, Exact more e
      (do return Pattern.active (← markFrom start) r.1 r.2 arg) := fun arg => .mark fun _ => .pure
  refine .ahead (fun s s' _ hnext => by rw [hnext]) (fun s hs => startsArgument_inert _ hs) ?_
    (maintains_never _) (.exactly .pure hend)
  exact .exactly h fun p => .exactly .pure hend

theorem exact_primaryBody (ha : Steady more e alternatives) (hp : Exact more e primary) :
    Exact more e (primaryBody alternatives primary) := by
  have hinner : Steady more e (nestedPattern alternatives) := steady_nestedPattern ha
  have hconstant : Exact more e (do
      let b ← bound
      if ← skipEither .dotDot .dotDotEq then rangeAfter b else return .literal b.mark b.value) := by
    refine .exactly exact_bound fun b => .exactly ?_ fun c => ?_
    · exact .skipIf (by decide) .pure (maintains_never _) (exact_skip (by decide))
    · exact .ite (fun _ => exact_rangeAfter b) fun _ => .pure
  refine .look fun t => ?_
  split
  · exact .pure
  · refine .skipIf (by decide) ?_ (maintains_never _) .pure
    exact .advance fun _ => .exactly hp fun p => .mark fun _ => .pure
  iterate 6 exact hconstant
  · exact exact_rangeBefore
  · exact exact_rangeBefore
  · refine .skipIf (by decide) ?_ (maintains_never _) (.exactly .pure fun ps => .mark fun _ => .pure)
    exact .exactly (Beyond.commaListOrNone hinner (by decide) _).toExtends fun ps => .mark fun _ => .pure
  · exact (Beyond.decided (beyond_activePattern hp) (beyond_groupPattern hinner)).toExtends
  · exact (beyond_slicePattern hinner).toExtends
  · exact (beyond_recordPattern hinner).toExtends
  · exact .pure
  · exact .refused (refuses_rejectEnd _ _)
  · exact .refused (refuses_reject _ _ _)

theorem exact_alternativesBody (h : Exact more e primary) : Exact more e (alternativesBody primary) := by
  refine .exactly h fun first => .either (by decide) (fun bar => ?_) .pure
  refine .exactly (.iterate (fun ps => .skipIf (by decide) ?_ (maintains_never _) .pure)
    (fun _ => maintains_never _) [first]) fun ps => .look fun last => .pure
  exact .advance fun _ => .exactly h fun p => .pure

end Patterns

/-- **Patterns in front of what they do not go on with** are read as if nothing followed, at any level of
nesting. -/
theorem exact_pattern (room : Nat) :
    Exact more e (primaryWithin room) ∧ Exact more e (orWithin room) := by
  induction room with
  | zero => exact ⟨.refused refuses_tooDeep, .refused refuses_tooDeep⟩
  | succ room ih =>
    have hp := exact_primaryBody (steady_pattern room).2 ih.1
    have ha := exact_alternativesBody ih.1
    exact ⟨hp.nested, ha.nested⟩

end PatternPlan.Surface.Parser
