import PatternPlan.Proofs.Source.Sound
import PatternPlan.Proofs.Surface.Yields

/-!
# What a parser gives when nothing is wrong

A logic for parsers that record diagnostics, also ones that go on behind them.

* `State.Sound` — the invariant of states: all tokens are sound;
* `Gives` — the parser keeps the invariant and takes no diagnostic back, and **what it returns has a
  property if it recorded nothing**;
* one rule for each step, for sequences, for choices by the next token and for loops.

A property of what the first parser of a sequence returned is only known when it recorded nothing.
So it stands in front of what the second parser has to give, and not in front of the whole rule: the
second parser keeps the invariant in any case.
-/

namespace PatternPlan.Surface

/-- The tokens of a state are sound. -/
structure State.Sound (s : State) : Prop where
  tokens : ∀ t ∈ s.tokens, t.Sound
  eof : s.eof.kind = .eof

namespace State.Sound

variable {s : State}

theorem headD {ts : List Token} {eof : Token} (h : ∀ t ∈ ts, t.Sound) (heof : eof.kind = .eof) :
    (ts.headD eof).Sound := by
  cases ts with
  | nil => exact .inl heof
  | cons t ts => exact h t List.mem_cons_self

theorem current (h : s.Sound) : s.current.Sound := headD h.tokens h.eof

theorem next (h : s.Sound) : s.next.Sound :=
  headD (fun t ht => h.tokens t (List.mem_of_mem_drop ht)) h.eof

end State.Sound

namespace Parser

variable {α β : Type} {P : α → Prop} {Q : β → Prop} {s : State}

/-- What `p` does in the state `s`. -/
structure GivesOn (P : α → Prop) (p : Parser α) (s : State) : Prop where
  sound : (p s).2.Sound
  grows : s.errors <+: (p s).2.errors
  gives : (p s).2.errors = s.errors → ∀ a, (p s).1 = some a → P a

/-- Whatever `p` returns satisfies `P`, if it recorded nothing. -/
def Gives (P : α → Prop) (p : Parser α) : Prop := ∀ s : State, s.Sound → GivesOn P p s

/-- Nothing is said about what `p` returns. -/
abbrev Preserves (p : Parser α) : Prop := Gives (fun _ => True) p

namespace GivesOn

theorem pure {a : α} (hs : s.Sound) (h : P a) : GivesOn P (Pure.pure a : Parser α) s where
  sound := hs
  grows := List.prefix_refl _
  gives := by
    rintro - b ⟨⟩
    exact h

/-- **Sequences**: the second parser may rely on what the first gives where nothing was recorded. -/
theorem bind {p : Parser β} {f : β → Parser α} (hp : GivesOn Q p s)
    (hf : ∀ b s', p s = (some b, s') → s'.Sound → GivesOn (fun a => Q b → P a) (f b) s') :
    GivesOn P (p >>= f) s := by
  cases hrun : p s with
  | mk r s' =>
    have hsound := hp.sound
    have hgrows := hp.grows
    have hgives := hp.gives
    rw [hrun] at hsound hgrows hgives
    cases r with
    | none =>
      have hseq := run_bind_none (f := f) hrun
      exact ⟨by rw [hseq]; exact hsound, by rw [hseq]; exact hgrows, by rw [hseq]; nofun⟩
    | some b =>
      have hseq := run_bind_some (f := f) hrun
      have hrest := hf b s' hrun hsound
      refine ⟨by rw [hseq]; exact hrest.sound, ?_, ?_⟩
      · rw [hseq]
        exact hgrows.trans hrest.grows
      · rw [hseq]
        intro hsame a ha
        -- nothing was recorded by either parser
        have hlength := congrArg List.length hsame
        have hfirst : s'.errors = s.errors := by
          have hle : s.errors.length ≤ s'.errors.length := hgrows.length_le
          have hle' := hrest.grows.length_le
          exact (hgrows.eq_of_length (by show s.errors.length = s'.errors.length; omega)).symm
        exact hrest.gives (hsame.trans hfirst.symm) a ha (hgives hfirst b rfl)

theorem mono {p : Parser α} {P' : α → Prop} (h : GivesOn P p s) (hP : ∀ a, P a → P' a) :
    GivesOn P' p s :=
  ⟨h.sound, h.grows, fun hsame a ha => hP a (h.gives hsame a ha)⟩

/-- What a parser does is what another one does behind a step that records nothing. -/
theorem of_run {p q : Parser α} {s' : State} (h : GivesOn P q s') (hrun : p s = q s')
    (herrors : s'.errors = s.errors) : GivesOn P p s := by
  obtain ⟨hsound, hgrows, hgives⟩ := h
  rw [← hrun] at hsound hgrows hgives
  rw [herrors] at hgrows hgives
  exact ⟨hsound, hgrows, hgives⟩

theorem current {f : Token → Parser α} (h : GivesOn P (f s.current) s) :
    GivesOn P (Parser.current >>= f) s := h.of_run rfl rfl

end GivesOn

namespace Gives

theorem pure {a : α} (h : P a) : Gives P (Pure.pure a : Parser α) := fun _ hs => .pure hs h

theorem fail : Gives P (Parser.fail : Parser α) := fun _ hs =>
  ⟨hs, List.prefix_refl _, fun _ _ ha => nomatch ha⟩

theorem bind {p : Parser β} {f : β → Parser α} (hp : Gives Q p)
    (hf : ∀ b, Gives (fun a => Q b → P a) (f b)) : Gives P (p >>= f) := fun s hs =>
  (hp s hs).bind fun b s' _ hs' => hf b s' hs'

/-- A sequence whose first parser is run for its effect. -/
theorem seq {p : Parser β} {f : β → Parser α} (hp : Preserves p) (hf : ∀ b, Gives P (f b)) :
    Gives P (p >>= f) := fun s hs =>
  (hp s hs).bind fun b s' _ hs' => (hf b s' hs').mono fun _ ha _ => ha

/-- A value that is known before the rest of a sequence runs. -/
theorem given {b : β} {f : β → Parser α} (h : Gives P (f b)) : Gives P (Pure.pure b >>= f) := h

theorem mono {p : Parser α} {P' : α → Prop} (h : Gives P p) (hP : ∀ a, P a → P' a) :
    Gives P' p := fun s hs => (h s hs).mono hP

theorem ite {c : Prop} [Decidable c] {p q : Parser α} (hp : c → Gives P p) (hq : ¬ c → Gives P q) :
    Gives P (if c then p else q) := by
  split
  · exact hp ‹_›
  · exact hq ‹_›

/-- A step that is taken or not before the rest of a sequence. -/
theorem optionally {c : Prop} [Decidable c] {p : Parser β} {q : Parser α} (hp : Preserves p)
    (hq : Gives P q) : Gives P (if c then p >>= fun _ => q else q) :=
  ite (fun _ => hp.seq fun _ => hq) fun _ => hq

/-! ### Tokens -/

/-- Something is read off the state. -/
theorem observed {f : State → β} {g : β → Parser α}
    (h : ∀ s : State, s.Sound → GivesOn P (g (f s)) s) : Gives P (observe f >>= g) := fun s hs =>
  .of_run (h s hs) rfl rfl

theorem observe {f : State → β} {g : β → Parser α} (h : ∀ b, Gives P (g b)) :
    Gives P (Parser.observe f >>= g) := observed fun s hs => h (f s) s hs

theorem current {f : Token → Parser α} (h : ∀ t, t.Sound → Gives P (f t)) :
    Gives P (Parser.current >>= f) := observed fun s hs => h s.current hs.current s hs

theorem next {f : Token → Parser α} (h : ∀ t, t.Sound → Gives P (f t)) :
    Gives P (Parser.next >>= f) := observed fun s hs => h s.next hs.next s hs

end Gives

theorem sound_advance (hs : s.Sound) : (advance s).2.Sound :=
  ⟨fun t ht => hs.tokens t (List.mem_of_mem_tail ht), hs.eof⟩

theorem current_advance (s : State) : State.current (advance s).2 = s.next := by
  show s.tokens.tail.headD s.eof = (s.tokens.drop 1).headD s.eof
  rw [List.drop_one]

theorem preserves_advance : Preserves advance := fun _ hs =>
  ⟨sound_advance hs, List.prefix_refl _, fun _ _ _ => trivial⟩

theorem preserves_record (code : Code) (place : Token) (args : List Arg) :
    Preserves (record code place args) := fun _ hs =>
  ⟨⟨hs.tokens, hs.eof⟩, List.prefix_append _ _, fun _ _ _ => trivial⟩

theorem gives_reject (code : Code) (place : Token) (args : List Arg) :
    Gives P (reject code place args) :=
  .seq (preserves_record code place args) fun _ => .fail

theorem gives_rejectEnd (place : Token) (expected : String) : Gives P (rejectEnd place expected) := by
  intro s hs
  have hreject := gives_reject (P := P) .unexpectedEnd place [.str expected]
    { s with incomplete := true } ⟨hs.tokens, hs.eof⟩
  exact ⟨hreject.sound, hreject.grows, hreject.gives⟩

theorem gives_rejectNext (expected : String) : Gives P (rejectNext expected) :=
  .observe fun _ => .ite (fun _ => gives_rejectEnd _ _) fun _ => gives_reject _ _ _

/-- Nothing is returned where the next token is rejected. -/
theorem rejectNext_run (expected : String) (s : State) :
    ∃ s', ∀ α : Type, (rejectNext expected : Parser α) s = (none, s') := by
  refine ⟨((rejectNext expected : Parser Unit) s).2, fun α => ?_⟩
  show (if s.next.kind = .eof then rejectEnd s.next expected
    else reject .unexpectedToken s.next [.str expected, .str s.next.described] : Parser α) s
    = (none, ((if s.next.kind = .eof then rejectEnd s.next expected
      else reject .unexpectedToken s.next [.str expected, .str s.next.described] : Parser Unit) s).2)
  split <;> rfl

theorem preserves_expect (k : TokenKind) (expected : String) : Preserves (expect k expected) :=
  .observe fun _ => .ite (fun _ => preserves_advance) fun _ => gives_rejectNext _

theorem preserves_skip (k : TokenKind) : Preserves (skip k) :=
  .observe fun _ => .ite (fun _ => .seq preserves_advance fun _ => .pure trivial)
    fun _ => .pure trivial

theorem preserves_skipEither (k l : TokenKind) : Preserves (skipEither k l) :=
  .seq (preserves_skip k) fun _ => .ite (fun _ => .pure trivial) fun _ => preserves_skip l

theorem preserves_spanFrom (start : Token) : Preserves (spanFrom start) := fun _ hs =>
  ⟨hs, List.prefix_refl _, fun _ _ _ => trivial⟩

theorem preserves_markFrom (start : Token) : Preserves (markFrom start) :=
  .seq (preserves_spanFrom start) fun _ => .pure trivial

theorem skipEither_run (k l : TokenKind) (s : State) :
    skipEither k l s
      = if s.next.kind = k ∨ s.next.kind = l then (some true, (advance s).2) else (some false, s) := by
  have hskip := skip_run k s
  by_cases hk : s.next.kind = k
  · rw [if_pos hk] at hskip
    rw [skipEither, run_bind_some hskip, if_pos rfl, if_pos (Or.inl hk)]
    rfl
  · rw [if_neg hk] at hskip
    rw [skipEither, run_bind_some hskip, if_neg (by decide), skip_run]
    by_cases hl : s.next.kind = l
    · rw [if_pos hl, if_pos (Or.inr hl)]
    · rw [if_neg hl, if_neg (by tauto)]

namespace GivesOn

/-- The next token has the kind, and is skipped. -/
theorem skipped {k : TokenKind} {p q : Parser α} (hk : s.next.kind = k)
    (h : GivesOn P p (advance s).2) :
    GivesOn P (Parser.skip k >>= fun b => if b = true then p else q) s := by
  have hskip := skip_run k s
  rw [if_pos hk] at hskip
  exact h.of_run (run_bind_some hskip) rfl

/-- The next token has another kind, and stays. -/
theorem stayed {k : TokenKind} {p q : Parser α} (hk : s.next.kind ≠ k) (h : GivesOn P q s) :
    GivesOn P (Parser.skip k >>= fun b => if b = true then p else q) s := by
  have hskip := skip_run k s
  rw [if_neg hk] at hskip
  exact h.of_run (run_bind_some hskip) rfl

end GivesOn

namespace Gives

/-- **A choice by the next token**: it is the current one if it was skipped, and has another kind if
it was not. -/
theorem skip {k : TokenKind} {p q : Parser α}
    (hp : ∀ s : State, s.Sound → s.current.kind = k → GivesOn P p s)
    (hq : ∀ s : State, s.Sound → s.next.kind ≠ k → GivesOn P q s) :
    Gives P (Parser.skip k >>= fun b => if b = true then p else q) := by
  intro s hs
  by_cases hk : s.next.kind = k
  · exact .skipped hk (hp (advance s).2 (sound_advance hs) (by rw [current_advance]; exact hk))
  · exact .stayed hk (hq s hs hk)

/-- A choice by the next token, of which nothing else is needed. -/
theorem choose {k : TokenKind} {p q : Parser α} (hp : Gives P p) (hq : Gives P q) :
    Gives P (Parser.skip k >>= fun b => if b = true then p else q) :=
  skip (fun s hs _ => hp s hs) fun s hs _ => hq s hs

/-- A choice by two kinds of the next token. -/
theorem skipEither {k l : TokenKind} {f : Token → Parser α} {q : Parser α}
    (hf : ∀ t, t.Sound → t.kind = k ∨ t.kind = l → Gives P (f t)) (hq : Gives P q) :
    Gives P (Parser.skipEither k l >>= fun b => if b = true then Parser.current >>= f else q) := by
  intro s hs
  have hskip := skipEither_run k l s
  by_cases hk : s.next.kind = k ∨ s.next.kind = l
  · rw [if_pos hk] at hskip
    refine .of_run (hf s.next hs.next hk (advance s).2 (sound_advance hs)) ?_ rfl
    rw [run_bind_some hskip, ← current_advance]
    rfl
  · rw [if_neg hk] at hskip
    exact .of_run (hq s hs) (run_bind_some hskip) rfl

/-- After an expected token, that token is the current one. -/
theorem expect {k : TokenKind} {expected : String} {f : Token → Parser α}
    (h : ∀ t, t.Sound → t.kind = k → Gives P (f t)) :
    Gives P (Parser.expect k expected >>= fun _ => Parser.current >>= f) := by
  intro s hs
  have hexpect := expect_run k expected s
  by_cases hk : s.next.kind = k
  · rw [if_pos hk] at hexpect
    refine .of_run (h s.next hs.next hk (advance s).2 (sound_advance hs)) ?_ rfl
    rw [run_bind_congr hexpect, ← current_advance]
    rfl
  · rw [if_neg hk] at hexpect
    obtain ⟨s', hs'⟩ := rejectNext_run expected s
    have hgives : Gives P (rejectNext expected) := gives_rejectNext expected
    refine .of_run (hgives s hs) ?_ rfl
    rw [run_bind_congr hexpect, run_bind_none (hs' Unit), hs' α]

/-! ### Loops -/

theorem loop {I : β → Prop} {round : β → Parser (Round β α)}
    (h : ∀ b, Gives (fun r => I b → Round.Holds I P r) (round b)) (fuel : Nat) (b : β) :
    Gives (fun a => I b → P a) (Parser.loop round fuel b) := by
  induction fuel generalizing b with
  | zero => exact .fail
  | succ fuel ih =>
    refine .bind (h b) fun r => ?_
    cases r with
    | again c => exact (ih c).mono fun a ha hr hb => ha (hr hb)
    | done a => exact .pure fun hr hb => hr hb

end Gives

/-- **Loops**: the first round starts the invariant, and each round keeps it. -/
theorem GivesOn.iterate {I : β → Prop} {round : β → Parser (Round β α)} {b : β}
    (hfirst : GivesOn (Round.Holds I P) (round b) s)
    (h : ∀ b, Gives (fun r => I b → Round.Holds I P r) (round b)) :
    GivesOn P (Parser.iterate round b) s := by
  have hloop : GivesOn P (Parser.loop round (s.tokens.length + 1) b) s := by
    refine hfirst.bind fun r s' _ hs' => ?_
    cases r with
    | again c => exact Gives.loop h _ c s' hs'
    | done a => exact .pure hs' fun hr => hr
  exact hloop.of_run rfl rfl

namespace Gives

theorem iterate {I : β → Prop} {round : β → Parser (Round β α)} {b : β} (hb : I b)
    (h : ∀ b, Gives (fun r => I b → Round.Holds I P r) (round b)) : Gives P (Parser.iterate round b) :=
  fun s hs => .iterate ((h b s hs).mono fun _ hr => hr hb) h

/-- A loop whose start is what a parser before it gave. -/
theorem iterate_of {I : β → Prop} {round : β → Parser (Round β α)} {b : β}
    (h : ∀ b, Gives (fun r => I b → Round.Holds I P r) (round b)) :
    Gives (fun a => I b → P a) (Parser.iterate round b) := fun s hs =>
  (loop h (s.tokens.length + 1) b s hs).of_run rfl rfl

/-- Items of a list, of which there is one at least. -/
theorem commaList {item : Parser α} (h : Gives P item) (close : TokenKind) (expected : String) :
    Gives (fun xs => xs ≠ [] ∧ ∀ a ∈ xs, P a) (commaList item close expected) := by
  refine .iterate (I := fun xs => ∀ a ∈ xs, P a) (by simp) fun xs => ?_
  refine .seq preserves_advance fun _ => .bind h fun a => .choose (.pure ?_) ?_
  · exact fun ha hxs => forall_mem_snoc hxs ha
  · refine .seq (preserves_expect _ _) fun _ => .pure fun ha hxs => ?_
    exact ⟨by simp, forall_mem_snoc hxs ha⟩

theorem commaListOrNone {item : Parser α} (h : Gives P item) (close : TokenKind)
    (expected : String) : Gives (fun xs => ∀ a ∈ xs, P a) (commaListOrNone item close expected) :=
  .choose (.pure (by simp)) ((h.commaList close expected).mono fun _ hxs => hxs.2)

/-! ### Nesting -/

theorem nested {p : Parser α} (h : Gives P p) : Gives P (Parser.nested p) := by
  intro s hs
  have hp := h { s with depth := s.depth + 1 } ⟨hs.tokens, hs.eof⟩
  exact ⟨⟨hp.sound.tokens, hp.sound.eof⟩, hp.grows, hp.gives⟩

theorem withRoom {p : Nat → Parser α} (h : ∀ n, Gives P (p n)) : Gives P (Parser.withRoom p) :=
  fun s hs => (h (maxNesting - s.depth) s hs).of_run rfl rfl

end Gives

theorem gives_tooDeep : Gives P (tooDeep : Parser α) := by
  intro s hs
  have hreject : Gives P (Parser.current >>= fun t => reject .nestingTooDeep t [.number maxNesting]) :=
    .current fun t _ => gives_reject _ _ _
  have hdeeper := hreject { s with depth := s.depth + 1 } ⟨hs.tokens, hs.eof⟩
  exact ⟨hdeeper.sound, hdeeper.grows, hdeeper.gives⟩

end Parser

end PatternPlan.Surface
