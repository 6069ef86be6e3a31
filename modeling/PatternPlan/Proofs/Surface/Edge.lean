import PatternPlan.Proofs.Surface.Accounts
import PatternPlan.Proofs.Surface.Gives

/-!
# Where the next declaration begins

A logic for parsers that read what stands in front of a declaration, whether or not it is well formed.

* `Eats` — the diagnostics that tell of a parser that went too far: it gave up *at* the first token of
  the declaration, or it stood behind it;
* `Edge` — that token, and the tokens behind it;
* `Edge.Front`, `Edge.Inside` — so far a parser has stopped in front of the edge, or one diagnostic tells
  that it has not;
* `Edge.Past` — an `@` at the edge has been taken for the sign of a binding, and what is to come next
  cannot be there;
* `Edge.Stops` — **a parser that stops in front of the edge**, also when it gives up;
* one rule for each step, for sequences (`Stops.bind`), loops (`Stops.iterate`) and nesting.
-/

namespace PatternPlan.Surface

/-- What may stand behind an `@` in front of a declaration: a name, then the next annotation or the
declaration. -/
inductive Marked : List Token → Prop
  | last {x c : Token} {rest : List Token} : x.kind = .lower → c.kind.startsDeclaration = true →
    c.kind ≠ .atSign → Marked (x :: c :: rest)
  | more {x c : Token} {rest : List Token} : x.kind = .lower → c.kind = .atSign → Marked rest →
    Marked (x :: c :: rest)

/-- What is recorded by parsers that give up at the token they stand on. -/
def givenUp (x : Token) : List Diagnostic :=
  [.new .expectedExpression x.span [.str x.described], .new .expectedPattern x.span [.str x.described],
    .new .unexpectedToken x.span [.str "type", .str x.described],
    .new .unexpectedToken x.span [.str "field name or ..", .str x.described],
    .new .nestingTooDeep x.span [.number maxNesting]]

/-- What tells of a parser that went too far: it gave up at the token `x`, or it stood behind it. -/
def Eats (x : Token) (d : Diagnostic) : Prop := d ∈ givenUp x ∨ x.offset < d.span.start

instance (x : Token) (d : Diagnostic) : Decidable (Eats x d) :=
  inferInstanceAs (Decidable (d ∈ givenUp x ∨ x.offset < d.span.start))

/-- A token that may begin a declaration, and the tokens behind it. -/
structure Edge where
  first : Token
  later : List Token
  starts : first.kind.startsDeclaration = true
  marked : first.kind = .atSign → Marked later
  behind : ∀ x ∈ later, first.offset < x.offset

/-- A property of what is left and of what is recorded, which more diagnostics do not undo. -/
def Stable (I : State → Prop) : Prop :=
  ∀ s t : State, t.tokens = s.tokens → t.eof = s.eof → s.errors <+: t.errors → I s → I t

namespace Edge

variable (e : Edge)

/-- It is recorded that a parser went too far. -/
def Eaten (s : State) : Prop := ∃ d ∈ s.errors, Eats e.first d

/-- `n` tokens at least are left in front of the edge, and behind the first of them none begins a
declaration. -/
def Before (n : Nat) (s : State) : Prop :=
  s.Whole ∧ ∃ ys, s.tokens = ys ++ e.first :: e.later ∧ n ≤ ys.length ∧
    ∀ y ∈ ys.tail, y.kind.startsDeclaration = false

/-- In front of the edge, or at it. -/
def Front (s : State) : Prop := e.Eaten s ∨ e.Before 0 s

/-- In front of the edge. -/
def Inside (s : State) : Prop := e.Eaten s ∨ e.Before 1 s

/-- Behind an `@` at the edge or behind it. -/
def Beyond (s : State) : Prop := Marked s.tokens ∧ s.tokens ⊆ e.later

/-- Behind the edge, in front of a token that begins a declaration. -/
def Past (s : State) : Prop :=
  ∃ x c rest, s.tokens = x :: c :: rest ∧ c ∈ e.later ∧ c.kind.startsDeclaration = true

/-- Where a pattern may begin. -/
def Near (s : State) : Prop := e.Front s ∨ e.Beyond s

/-- Where a pattern may end. -/
def Loose (s : State) : Prop := e.Inside s ∨ e.Past s

variable {e} {s t : State} {I : State → Prop}

/-! ### States -/

theorem Front.near (h : e.Front s) : e.Near s := .inl h

theorem Inside.loose (h : e.Inside s) : e.Loose s := .inl h

theorem Inside.front (h : e.Inside s) : e.Front s := by
  rcases h with heaten | ⟨hs, ys, htokens, -, hys⟩
  · exact .inl heaten
  · exact .inr ⟨hs, ys, htokens, Nat.zero_le _, hys⟩

theorem stable_eaten : Stable e.Eaten := by
  intro s t _ _ herrors ⟨d, hd, heats⟩
  exact ⟨d, herrors.subset hd, heats⟩

theorem stable_before (n : Nat) : Stable (e.Before n) := by
  intro s t htokens heof _ ⟨hwhole, ys, hs, hys⟩
  exact ⟨⟨htokens ▸ hwhole.tokens, heof ▸ hwhole.eof⟩, ys, htokens.trans hs, hys⟩

theorem stable_front : Stable e.Front := fun s t htokens heof herrors =>
  Or.imp (stable_eaten s t htokens heof herrors) (stable_before 0 s t htokens heof herrors)

theorem stable_inside : Stable e.Inside := fun s t htokens heof herrors =>
  Or.imp (stable_eaten s t htokens heof herrors) (stable_before 1 s t htokens heof herrors)

theorem stable_near : Stable e.Near := by
  intro s t htokens heof herrors h
  rcases h with hfront | hbeyond
  · exact .inl (stable_front s t htokens heof herrors hfront)
  · unfold Beyond at hbeyond
    rw [← htokens] at hbeyond
    exact .inr hbeyond

theorem stable_loose : Stable e.Loose := by
  intro s t htokens heof herrors h
  rcases h with hinside | hpast
  · exact .inl (stable_inside s t htokens heof herrors hinside)
  · unfold Past at hpast
    rw [← htokens] at hpast
    exact .inr hpast

/-- A token that begins no declaration is not the one at the edge. -/
theorem Front.inside (h : e.Front s) (hkind : s.current.kind.startsDeclaration = false) :
    e.Inside s := by
  rcases h with heaten | ⟨hs, ys, htokens, -, hys⟩
  · exact .inl heaten
  · cases ys with
    | nil =>
      rw [State.current, htokens, List.nil_append, List.headD_cons, e.starts] at hkind
      cases hkind
    | cons y ys => exact .inr ⟨hs, y :: ys, htokens, Nat.succ_le_succ (Nat.zero_le _), hys⟩

/-- Behind the edge a pattern begins with a name. -/
theorem Near.front (h : e.Near s) (hkind : s.current.kind ≠ .lower) : e.Front s := by
  rcases h with hfront | ⟨hmarked, -⟩
  · exact hfront
  · refine absurd ?_ hkind
    rw [State.current]
    generalize s.tokens = tokens at hmarked
    cases hmarked with
    | last hlower _ _ => exact hlower
    | more hlower _ _ => exact hlower

theorem eaten_of_reaches (h : s.Reaches t) (heaten : e.Eaten s) : e.Eaten t := by
  obtain ⟨d, hd, heats⟩ := heaten
  exact ⟨d, h.errors.subset hd, heats⟩

/-- Where a pattern may end there is a token left. -/
theorem Loose.nonempty (h : e.Loose s) : e.Eaten s ∨ s.tokens ≠ [] := by
  rcases h with (heaten | ⟨-, ys, htokens, -, -⟩) | ⟨x, c, rest, htokens, -, -⟩
  · exact .inl heaten
  · exact .inr (by simp [htokens])
  · exact .inr (by simp [htokens])

/-- What is recorded behind the edge tells of it. -/
theorem eats_of_later {x : Token} (hx : x ∈ e.later) (code : Code) (args : List Arg) :
    Eats e.first (.new code x.span args) :=
  .inr (Int.ofNat_lt.mpr (e.behind x hx))

/-- Giving up at the token at which a pattern may begin. -/
theorem Near.given_up {code : Code} {args : List Arg} (h : e.Near s)
    (hgiven : .new code s.current.span args ∈ givenUp s.current) (htokens : t.tokens = s.tokens)
    (heof : t.eof = s.eof) (herrors : t.errors = s.errors ++ [.new code s.current.span args]) : e.Inside t := by
  have hinitial : s.errors <+: t.errors := ⟨_, herrors.symm⟩
  have hmem : .new code s.current.span args ∈ t.errors := by
    rw [herrors]
    exact List.mem_append_right _ (List.mem_singleton_self _)
  rcases h with hfront | ⟨hmarked, hsubset⟩
  · by_cases hkind : s.current.kind.startsDeclaration = false
    · exact stable_inside s t htokens heof hinitial (hfront.inside hkind)
    · rcases hfront with heaten | ⟨hs, ys, hys, -, hstarts⟩
      · exact .inl (stable_eaten s t htokens heof hinitial heaten)
      · cases ys with
        | nil =>
          have hcurrent : s.current = e.first := by
            rw [State.current, hys]
            rfl
          rw [hcurrent] at hgiven hmem
          exact .inl ⟨_, hmem, .inl hgiven⟩
        | cons y ys =>
          refine .inr ⟨⟨htokens ▸ hs.tokens, heof ▸ hs.eof⟩, y :: ys, htokens.trans hys, ?_, hstarts⟩
          exact Nat.succ_le_succ (Nat.zero_le _)
  · have hcurrent : s.current ∈ e.later := by
      apply hsubset
      rw [State.current]
      generalize s.tokens = tokens at hmarked
      cases hmarked with
      | last _ _ _ => exact List.mem_cons_self
      | more _ _ _ => exact List.mem_cons_self
    exact .inl ⟨_, hmem, eats_of_later hcurrent _ _⟩

end Edge

namespace Parser

variable {α β : Type} {e : Edge} {I : State → Prop} {J : α → State → Prop} {K : β → State → Prop}

/-- **A parser that stops in front of the edge**: begun with `I` it ends with `J`, or it gives up with
a token left in front of the edge at least. -/
def Stops (e : Edge) (I : State → Prop) (p : Parser α) (J : α → State → Prop) : Prop :=
  ∀ s, I s → (∀ a t, p s = (some a, t) → J a t) ∧ ∀ t, p s = (none, t) → e.Inside t

/-- A parser whose result does not matter. -/
abbrev StopsAt (e : Edge) (I : State → Prop) (p : Parser α) (J : State → Prop) : Prop :=
  Stops e I p fun _ => J

namespace Stops

theorem of {I' : State → Prop} {p : Parser α} (h : Stops e I p J) (hI : ∀ s, I' s → I s) :
    Stops e I' p J :=
  fun s hs => h s (hI s hs)

theorem mono {J' : α → State → Prop} {p : Parser α} (h : Stops e I p J) (hJ : ∀ a s, J a s → J' a s) :
    Stops e I p J' := by
  intro s hs
  exact ⟨fun a t hrun => hJ a t ((h s hs).1 a t hrun), (h s hs).2⟩

/-- Where a parser is never begun. -/
theorem never {p : Parser α} (h : ∀ s, ¬ I s) : Stops e I p J := fun s hs => (h s hs).elim

theorem pure {a : α} (h : ∀ s, I s → J a s) : Stops e I (Pure.pure a) J := by
  intro s hs
  constructor
  · intro b t hrun
    cases hrun
    exact h s hs
  · intro t hrun
    cases hrun

theorem fail (h : ∀ s, I s → e.Inside s) : Stops e I Parser.fail J := by
  intro s hs
  constructor
  · intro b t hrun
    cases hrun
  · intro t hrun
    cases hrun
    exact h s hs

/-- **Sequences.** -/
theorem bind {p : Parser β} {f : β → Parser α} (hp : Stops e I p K) (hf : ∀ b, Stops e (K b) (f b) J) :
    Stops e I (p >>= f) J := by
  intro s hs
  obtain ⟨hsome, hnone⟩ := hp s hs
  cases hrun : p s with
  | mk r u =>
    cases r with
    | none =>
      rw [run_bind_none hrun]
      constructor
      · intro a t h
        cases h
      · intro t h
        cases h
        exact hnone _ hrun
    | some b =>
      rw [run_bind_some hrun]
      exact hf b u (hsome b u hrun)

theorem ite {c : Prop} [Decidable c] {p q : Parser α} (hp : c → Stops e I p J)
    (hq : ¬ c → Stops e I q J) : Stops e I (if c then p else q) J := by
  split
  · exact hp ‹_›
  · exact hq ‹_›

/-- What is read off the state, and is what it is. -/
theorem observed {g : State → β} {f : β → Parser α}
    (h : ∀ b, Stops e (fun s => I s ∧ g s = b) (f b) J) : Stops e I (Parser.observe g >>= f) J :=
  fun s hs => h (g s) s ⟨hs, rfl⟩

/-- What is read off the state, whatever it is. -/
theorem observe {g : State → β} {f : β → Parser α} (h : ∀ b, Stops e I (f b) J) :
    Stops e I (Parser.observe g >>= f) J :=
  observed fun b => (h b).of fun _ hs => hs.1

theorem current {f : Token → Parser α} (h : ∀ x, Stops e I (f x) J) :
    Stops e I (Parser.current >>= f) J :=
  observe h

/-- The token that begins a construct. -/
theorem start {f : Token → Parser α} (h : ∀ x, Stops e (fun s => I s ∧ s.current = x) (f x) J) :
    Stops e I (Parser.current >>= f) J :=
  observed h

/-- A construct whose first token begins no declaration. -/
theorem of_kind {x : Token} {p : Parser α} (hkind : x.kind.startsDeclaration = false)
    (h : Stops e e.Inside p J) : Stops e (fun s => e.Front s ∧ s.current = x) p J :=
  h.of fun _ hs => hs.1.inside (hs.2 ▸ hkind)

/-- A pattern whose first token is no name and begins no declaration. -/
theorem of_pattern {x : Token} {p : Parser α} (hname : x.kind ≠ .lower)
    (hkind : x.kind.startsDeclaration = false) (h : Stops e e.Inside p J) :
    Stops e (fun s => e.Near s ∧ s.current = x) p J :=
  h.of fun _ hs => (hs.1.front (hs.2 ▸ hname)).inside (hs.2 ▸ hkind)

theorem span {f : Span → Parser α} {x : Token} (h : ∀ m, Stops e I (f m) J) :
    Stops e I (spanFrom x >>= f) J :=
  observe h

theorem mark {f : Mark → Parser α} {x : Token} (h : ∀ m, Stops e I (f m) J) :
    Stops e I (markFrom x >>= f) J :=
  observe fun _ => h _

end Stops

/-! ### Tokens -/

variable {s t : State}

theorem whole_advance (h : s.Whole) : (advance s).2.Whole :=
  ⟨fun x hx => h.tokens x (List.mem_of_mem_tail hx), h.eof⟩

theorem stops_advance : StopsAt e e.Inside advance e.Front := by
  intro s hs
  constructor
  · intro _ t hrun
    cases hrun
    rcases hs with heaten | ⟨hs, ys, htokens, hlength, hys⟩
    · exact .inl heaten
    · cases ys with
      | nil => exact absurd hlength (Nat.not_succ_le_zero 0)
      | cons y ys =>
        refine .inr ⟨whole_advance hs, ys, ?_, Nat.zero_le _, fun z hz => hys z (List.mem_of_mem_tail hz)⟩
        show s.tokens.tail = _
        rw [htokens]
        rfl
  · intro t hrun
    cases hrun

/-- What comes next begins no declaration. -/
def NextPlain (s : State) : Prop := s.next.kind.startsDeclaration = false

/-- A token that begins no declaration stands in front of the edge, and can be moved to. -/
theorem stops_advance_next : StopsAt e (fun s => e.Loose s ∧ NextPlain s) advance e.Inside := by
  intro s ⟨hs, hnext⟩
  constructor
  · intro _ t hrun
    cases hrun
    rw [NextPlain, State.next] at hnext
    rcases hs with (heaten | ⟨hs, ys, htokens, hlength, hys⟩) | ⟨x, c, rest, htokens, -, hc⟩
    · exact .inl heaten
    · rw [htokens] at hnext
      rcases ys with _ | ⟨y, _ | ⟨z, ys⟩⟩
      · exact absurd hlength (Nat.not_succ_le_zero 0)
      · have hstarts := e.starts
        rw [show e.first.kind.startsDeclaration = false from hnext] at hstarts
        cases hstarts
      · refine .inr ⟨whole_advance hs, z :: ys, ?_, Nat.succ_le_succ (Nat.zero_le _), ?_⟩
        · show s.tokens.tail = _
          rw [htokens]
          rfl
        · intro w hw
          exact hys w (List.mem_cons_of_mem _ hw)
    · rw [htokens] at hnext
      rw [show c.kind.startsDeclaration = false from hnext] at hc
      cases hc
  · intro t hrun
    cases hrun

theorem stops_reject (code : Code) (x : Token) (args : List Arg) :
    Stops e e.Inside (reject code x args) J := by
  intro s hs
  constructor
  · intro a t hrun
    cases hrun
  · intro t hrun
    cases hrun
    exact Edge.stable_inside s _ rfl rfl (List.prefix_append _ _) hs

theorem stops_rejectEnd (x : Token) (expected : String) :
    Stops e e.Inside (rejectEnd x expected) J := by
  intro s hs
  constructor
  · intro a t hrun
    cases hrun
  · intro t hrun
    cases hrun
    exact Edge.stable_inside s _ rfl rfl (List.prefix_append _ _) hs

/-- Giving up at the current token. -/
theorem stops_giveUp {code : Code} {x : Token} {args : List Arg} (h : .new code x.span args ∈ givenUp x) :
    Stops e (fun s => e.Near s ∧ s.current = x) (reject code x args) J := by
  intro s ⟨hs, hx⟩
  constructor
  · intro a t hrun
    cases hrun
  · intro t hrun
    cases hrun
    subst hx
    exact hs.given_up h rfl rfl rfl

theorem stops_tooDeep : Stops e e.Near tooDeep J := by
  intro s hs
  constructor
  · intro a t hrun
    cases hrun
  · intro t hrun
    cases hrun
    exact hs.given_up (by simp [givenUp]) rfl rfl rfl

theorem stops_rejectNext (expected : String) : Stops e e.Loose (rejectNext expected) J := by
  intro s hs
  rcases hs with hinside | ⟨x, c, rest, htokens, hlater, hc⟩
  · rw [rejectNext_eq]
    split
    · exact stops_rejectEnd _ _ s hinside
    · exact stops_reject _ _ _ s hinside
  · have hnext : s.next = c := by
      rw [State.next, htokens]
      rfl
    have hkind : c.kind ≠ .eof := by
      intro heof
      rw [heof] at hc
      cases hc
    rw [rejectNext_eq, hnext, if_neg hkind]
    constructor
    · intro a t hrun
      cases hrun
    · intro t hrun
      cases hrun
      exact .inl ⟨_, List.mem_append_right _ (List.mem_singleton_self _), Edge.eats_of_later hlater _ _⟩

theorem stops_expect {kind : TokenKind} (hkind : kind.startsDeclaration = false) (expected : String) :
    StopsAt e e.Loose (expect kind expected) e.Inside := by
  intro s hs
  rw [expect_run]
  split
  · rename_i hnext
    exact stops_advance_next s ⟨hs, by rw [NextPlain, hnext, hkind]⟩
  · exact stops_rejectNext expected s hs

theorem stops_skip {kind : TokenKind} (hkind : kind.startsDeclaration = false) :
    StopsAt e e.Inside (skip kind) e.Inside := by
  intro s hs
  rw [skip_run]
  split
  · rename_i hnext
    have hplain : NextPlain s := by rw [NextPlain, hnext, hkind]
    have hadvance := (stops_advance_next s ⟨hs.loose, hplain⟩).1 () _ rfl
    exact Stops.pure (a := true) (I := e.Inside) (fun _ => id) _ hadvance
  · exact Stops.pure (fun _ => id) s hs

namespace Stops

/-- A choice by the next token, which is read if it has the kind. -/
theorem skipIf {kind : TokenKind} {p q : Parser α} (hkind : kind.startsDeclaration = false)
    (hI : ∀ s, I s → e.Loose s) (hp : Stops e e.Inside p J) (hq : Stops e I q J) :
    Stops e I (skip kind >>= fun b => if b = true then p else q) J := by
  intro s hs
  have hskip := skip_run kind s
  by_cases hnext : s.next.kind = kind
  · rw [if_pos hnext] at hskip
    rw [run_bind_some hskip]
    have hplain : NextPlain s := by rw [NextPlain, hnext, hkind]
    exact hp _ ((stops_advance_next s ⟨hI s hs, hplain⟩).1 () _ rfl)
  · rw [if_neg hnext] at hskip
    rw [run_bind_some hskip]
    exact hq s hs

theorem expect {kind : TokenKind} {expected : String} {f : Unit → Parser α}
    (hkind : kind.startsDeclaration = false) (hI : ∀ s, I s → e.Loose s)
    (hf : ∀ u, Stops e e.Inside (f u) J) : Stops e I (Parser.expect kind expected >>= f) J :=
  ((stops_expect hkind expected).of hI).bind hf

theorem advance {f : Unit → Parser α} (hf : ∀ u, Stops e e.Front (f u) J) :
    Stops e e.Inside (Parser.advance >>= f) J :=
  stops_advance.bind hf

/-- Moving to a token that was seen to begin no declaration. -/
theorem advanceNext {f : Unit → Parser α} (hI : ∀ s, I s → e.Loose s ∧ NextPlain s)
    (hf : ∀ u, Stops e e.Inside (f u) J) : Stops e I (Parser.advance >>= f) J :=
  (stops_advance_next.of hI).bind hf

/-! ### Loops -/

/-- What holds behind a round: `A` if there is another one, `J` if it is the last. -/
def Behind (A : State → Prop) (J : α → State → Prop) : Round β α → State → Prop
  | .again _ => A
  | .done a => J a

theorem loop {round : β → Parser (Round β α)} (hI : ∀ s, e.Inside s → I s)
    (h : ∀ b, Stops e I (round b) (Behind e.Inside J)) (fuel : Nat) (b : β) :
    Stops e (fun s => e.Inside s ∨ 0 < fuel ∧ I s) (Parser.loop round fuel b) J := by
  induction fuel generalizing b with
  | zero =>
    refine fail fun s hs => ?_
    exact hs.resolve_right fun hpos => absurd hpos.1 (Nat.lt_irrefl 0)
  | succ fuel ih =>
    refine bind ((h b).of ?_) fun r => ?_
    · intro s hs
      rcases hs with hinside | ⟨-, hs⟩
      · exact hI s hinside
      · exact hs
    · cases r with
      | again b => exact (ih b).of fun _ hs => .inl hs
      | done a => exact pure fun _ hs => hs

/-- **Loops** whose rounds stop inside, if there is another one. -/
theorem iterate {round : β → Parser (Round β α)} (hI : ∀ s, e.Inside s → I s)
    (h : ∀ b, Stops e I (round b) (Behind e.Inside J)) (b : β) :
    Stops e I (Parser.iterate round b) J :=
  fun s hs => loop hI h _ b s (.inr ⟨Nat.succ_pos _, hs⟩)

/-- **Loops** whose rounds stop where a pattern may end.  That there are rounds for all tokens matters
here: a loop that ran out of them would give up behind the edge. -/
theorem iterate_loose {round : β → Parser (Round β α)}
    (hreach : ∀ b (s : State), s.Reaches (round b s).2)
    (hless : ∀ b c (s t : State), s.tokens ≠ [] → round b s = (some (.again c), t) →
      t.tokens.length < s.tokens.length)
    (h : ∀ b, Stops e e.Loose (round b) (Behind e.Loose J)) (b : β) :
    Stops e e.Loose (Parser.iterate round b) J := by
  have hloop : ∀ fuel b, Stops e (fun s => e.Eaten s ∨ e.Loose s ∧ s.tokens.length < fuel)
      (Parser.loop round fuel b) J := by
    intro fuel
    induction fuel with
    | zero =>
      intro b
      exact fail fun s hs => .inl (hs.resolve_right fun hpos => absurd hpos.2 (Nat.not_lt_zero _))
    | succ fuel ih =>
      intro b s hs
      have hround := h b s (hs.elim (fun heaten => .inl (.inl heaten)) And.left)
      have hmoves := hreach b s
      cases hrun : round b s with
      | mk r t =>
        rw [hrun] at hround hmoves
        match r with
        | none =>
          rw [loop_none hrun]
          constructor
          · intro a u hu
            cases hu
          · intro u hu
            cases hu
            exact hround.2 _ rfl
        | some (.done a) =>
          rw [loop_done hrun]
          exact pure (fun u hu => hu) t (hround.1 _ t rfl)
        | some (.again c) =>
          rw [loop_again hrun]
          refine ih c t ?_
          rcases hs with heaten | ⟨hloose, hlength⟩
          · exact .inl ((Edge.eaten_of_reaches hmoves) heaten)
          · rcases hloose.nonempty with heaten | hne
            · exact .inl ((Edge.eaten_of_reaches hmoves) heaten)
            · have hlt := hless b c s t hne hrun
              exact .inr ⟨hround.1 _ t rfl, by omega⟩
  intro s hs
  exact hloop _ b s (.inr ⟨hs, Nat.lt_succ_self _⟩)

/-! ### Lists and nesting -/

theorem commaList {item : Parser α} {close : TokenKind} (hclose : close.startsDeclaration = false)
    (h : StopsAt e e.Front item e.Loose) (expected : String) :
    StopsAt e e.Inside (Parser.commaList item close expected) e.Inside := by
  refine iterate (fun _ => id) (fun items => ?_) []
  refine advance fun _ => h.bind fun a => skipIf (by decide) (fun _ => id) (pure fun _ => id) ?_
  exact expect hclose (fun _ => id) fun _ => pure fun _ => id

theorem commaListOrNone {item : Parser α} {close : TokenKind} (hclose : close.startsDeclaration = false)
    (h : StopsAt e e.Front item e.Loose) (expected : String) :
    StopsAt e e.Inside (Parser.commaListOrNone item close expected) e.Inside :=
  skipIf hclose (fun _ => Edge.Inside.loose) (pure fun _ => id) (h.commaList hclose expected)

theorem nested {p : Parser α} (h : Stops e I p J) (hI : Stable I) (hJ : ∀ a, Stable (J a)) :
    Stops e I (Parser.nested p) J := by
  intro s hs
  have hinner := h { s with depth := s.depth + 1 } (hI s _ rfl rfl (List.prefix_refl _) hs)
  cases hp : p { s with depth := s.depth + 1 } with
  | mk r u =>
    rw [hp] at hinner
    have hrun : Parser.nested p s = (r, { u with depth := u.depth - 1 }) := by
      rw [Parser.nested, hp]
    rw [hrun]
    constructor
    · intro a t h
      cases h
      exact hJ a u _ rfl rfl (List.prefix_refl _) (hinner.1 a u rfl)
    · intro t h
      cases h
      exact Edge.stable_inside u _ rfl rfl (List.prefix_refl _) (hinner.2 u rfl)

theorem withRoom {p : Nat → Parser α} (h : ∀ room, Stops e I (p room) J) :
    Stops e I (Parser.withRoom p) J :=
  fun s hs => h _ s hs

end Stops

end Parser

end PatternPlan.Surface
