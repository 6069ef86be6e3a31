import PatternPlan.Proofs.Surface.Steady

/-!
# Reading to the end of an input that goes on

A parser that stops at the last token of an input may go on if more tokens follow: an operator makes an
expression longer, a bar makes room for another arm.

* `Crossed` — an invariant that holds of every state in which only the tokens that follow are left;
  `Crossing` — the same, but only if what follows may go on with an expression or a pattern;
* `Extends` — **a clean run is the same on an input that goes on, or the parser crosses over** into what
  follows, and then the invariant holds; `Exact` — it is the same in any case;
* `Beyond` — a parser that needs a token behind the one it stands on, so that what is read before it is
  steady;
* one rule for each step, for sequences (`Extends.bind`, where what comes second keeps the invariant),
  loops (`Extends.iterate`) and nesting.
-/

namespace PatternPlan.Surface

/-- What holds of the states in which nothing is left but `more`, up to its end `e`. -/
class Crossed (I : State → Prop) (more : List Token) (e : Token) : Prop where
  tokens : ∀ t ∈ more, t.kind ≠ .eof
  eof : e.kind = .eof
  enter : ∀ {s : State}, s.tokens = more → more ≠ [] → s.eof = e → s.errors = [] → I s

/-- The kinds of token that neither an expression nor a pattern goes on with, whatever follows them: the
end of input, and what stands between the parts of an arm. -/
def inert : List TokenKind := [.eof, .arrow, .kwAs, .kwWhen, .kwIf]

/-- What holds of the states in which nothing is left but `more`, if `more` starts with a token that may
go on with an expression or a pattern. -/
class Crossing (I : State → Prop) (more : List Token) (e : Token) : Prop where
  tokens : ∀ t ∈ more, t.kind ≠ .eof
  eof : e.kind = .eof
  enter : ∀ {s : State}, s.tokens = more → (more.headD e).kind ∉ inert → s.eof = e → s.errors = [] → I s

instance {I : State → Prop} {more : List Token} {e : Token} [Crossed I more e] : Crossing I more e where
  tokens := Crossed.tokens I e
  eof := Crossed.eof I more
  enter := by
    refine fun htokens hhead => Crossed.enter htokens ?_
    rintro rfl
    exact hhead (by rw [List.headD_nil, show e.kind = .eof from Crossed.eof I []]; decide)

theorem ne_eof_of_not_inert {kind : TokenKind} (h : kind ∉ inert) : kind ≠ .eof := by
  rintro rfl
  exact h (by decide)

namespace Parser

variable {α β : Type} {I : State → Prop} {T : Token → Prop} {more : List Token} {e : Token}
variable {p : Parser β} {f : β → Parser α} {s t : State} {a : α}

/-- On an input that goes on a run is the same, or it has crossed over. -/
def Continues (I : State → Prop) (more : List Token) (e : Token) (p : Parser α) (s : State) (a : α)
    (t : State) : Prop :=
  p (s.extend more e) = (some a, t.extend more e) ∨ (t.tokens.length = 1 ∧ I (p (s.extend more e)).2)

/-- **A parser each of whose clean runs**, if it leaves the token at which it stops, **is the same on an
input that goes on, or crosses over**. -/
structure Extends (I : State → Prop) (more : List Token) (e : Token) (p : Parser α) : Prop where
  moves : ∀ s : State, s.Reaches (p s).2
  same : ∀ {s : State} {a : α} {t : State}, Clean p s a t → 1 ≤ t.tokens.length →
    Continues I more e p s a t

/-- A parser that does not cross over. -/
abbrev Exact (more : List Token) (e : Token) (p : Parser α) : Prop := Extends (fun _ => False) more e p

/-- A parser that goes on behind the token it stands on. -/
structure Beyond (I : State → Prop) (more : List Token) (e : Token) (p : Parser α) : Prop
    extends Extends I more e p where
  needs : ∀ {s : State} {a : α} {t : State}, Clean p s a t → 1 ≤ t.tokens.length → 2 ≤ s.tokens.length

theorem maintains_never (p : Parser α) : Maintains (fun _ => False) p := fun _ h => h.elim

theorem Extends.steady {p : Parser α} (h : Extends I more e p) : Steady more e p := by
  refine ⟨h.moves, fun hclean hlength => ?_⟩
  rcases h.same hclean (by omega) with hsame | ⟨hone, -⟩
  · exact hsame
  · omega

/-! ### Sequences -/

namespace Extends

theorem pure {a : α} : Extends I more e (Pure.pure a : Parser α) := by
  refine ⟨State.Reaches.refl, fun {s b t} h _ => .inl ?_⟩
  cases h.run
  rfl

theorem ite {c : Prop} [Decidable c] {p q : Parser α} (hp : c → Extends I more e p)
    (hq : ¬ c → Extends I more e q) : Extends I more e (if c then p else q) := by
  split
  · exact hp ‹_›
  · exact hq ‹_›

/-- **Sequences**: once the first parser has crossed over, the second one keeps the invariant. -/
theorem bind (hp : Extends I more e p) (hf : ∀ b, Extends I more e (f b)) (hI : ∀ b, Maintains I (f b)) :
    Extends I more e (p >>= f) := by
  refine ⟨fun s => (reaches_bind hp.moves (fun b => (hf b).moves) s).2, fun {s a t} h hlength => ?_⟩
  obtain ⟨b, u, hfirst, hrest, hreach⟩ := h.bind hp.moves fun b => (hf b).moves
  have hleft := hreach.length_le
  rcases hp.same hfirst (by omega) with hsame | ⟨hone, hcrossed⟩
  · rw [Continues, run_bind_some hsame]
    exact (hf b).same hrest hlength
  · refine .inr ⟨by omega, ?_⟩
    cases hrun : p (s.extend more e) with
    | mk r v =>
      rw [hrun] at hcrossed
      cases r with
      | none =>
        rw [run_bind_none hrun]
        exact hcrossed
      | some c =>
        rw [run_bind_some hrun]
        exact (hI c v hcrossed).1

/-- A sequence whose first parser does not cross over. -/
theorem exactly (hp : Exact more e p) (hf : ∀ b, Extends I more e (f b)) : Extends I more e (p >>= f) := by
  refine ⟨fun s => (reaches_bind hp.moves (fun b => (hf b).moves) s).2, fun {s a t} h hlength => ?_⟩
  obtain ⟨b, u, hfirst, hrest, hreach⟩ := h.bind hp.moves fun b => (hf b).moves
  have hleft := hreach.length_le
  have hsame := (hp.same hfirst (by omega)).resolve_right fun hcross => hcross.2
  rw [Continues, run_bind_some hsame]
  exact (hf b).same hrest hlength

/-- What is read off a state with a token is read off the one that goes on. -/
theorem observed {h : State → β} {g : β → Parser α}
    (hsame : ∀ s : State, 1 ≤ s.tokens.length → h (s.extend more e) = h s)
    (hg : ∀ b, Extends I more e (g b)) : Extends I more e (Parser.observe h >>= g) :=
  exactly ⟨State.Reaches.refl, fun {s b t} hclean hlength => by
    cases hclean.run
    refine .inl ?_
    show (some (h (s.extend more e)), s.extend more e) = _
    rw [hsame s hlength]⟩ hg

theorem look {g : Token → Parser α} (h : ∀ t, Extends I more e (g t)) : Extends I more e (current >>= g) :=
  observed (fun _ hlength => State.current_extend hlength) h

theorem lookIs {kind : TokenKind} {g : Bool → Parser α} (h : ∀ b, Extends I more e (g b)) :
    Extends I more e (currentIs kind >>= g) :=
  observed (fun _ hlength => by rw [State.current_extend hlength]) h

theorem span {start : Token} {g : Span → Parser α} (h : ∀ b, Extends I more e (g b)) :
    Extends I more e (spanFrom start >>= g) :=
  observed (fun s hlength => by rw [State.current_extend hlength]) h

theorem mark {start : Token} {g : Mark → Parser α} (h : ∀ m, Extends I more e (g m)) :
    Extends I more e (markFrom start >>= g) := by
  show Extends I more e (spanFrom start >>= fun b => g ⟨start, b⟩)
  exact span fun b => h _

/-- What is steady is the same in front of what goes on behind it. -/
theorem steadily (hp : Steady more e p) (hf : ∀ b, Beyond I more e (f b)) : Extends I more e (p >>= f) := by
  refine ⟨fun s => (reaches_bind hp.moves (fun b => (hf b).moves) s).2, fun {s a t} h hlength => ?_⟩
  obtain ⟨b, u, hfirst, hrest, -⟩ := h.bind hp.moves fun b => (hf b).moves
  rw [Continues, run_bind_some (hp.same hfirst ((hf b).needs hrest hlength))]
  exact (hf b).same hrest hlength

end Extends

namespace Beyond

/-- A parser without a clean run. -/
theorem never {p : Parser α} (hmoves : ∀ s : State, s.Reaches (p s).2) (h : ∀ s a t, ¬ Clean p s a t) :
    Beyond I more e p :=
  ⟨⟨hmoves, fun hclean _ => absurd hclean (h _ _ _)⟩, fun hclean _ => absurd hclean (h _ _ _)⟩

theorem refused {p : Parser α} (h : Refuses p) : Beyond I more e p :=
  never h.moves fun _ _ _ => h.not_clean

theorem ite {c : Prop} [Decidable c] {p q : Parser α} (hp : c → Beyond I more e p)
    (hq : ¬ c → Beyond I more e q) : Beyond I more e (if c then p else q) := by
  split
  · exact hp ‹_›
  · exact hq ‹_›

/-- A sequence goes on if its first parser does. -/
theorem needs_bind (hp : Beyond I more e p) (hf : ∀ (b : β) (s : State), s.Reaches (f b s).2)
    (h : Clean (p >>= f) s a t) (hlength : 1 ≤ t.tokens.length) : 2 ≤ s.tokens.length := by
  obtain ⟨b, u, hfirst, -, hreach⟩ := h.bind hp.moves hf
  have hleft := hreach.length_le
  exact hp.needs hfirst (by omega)

theorem bind (hp : Beyond I more e p) (hf : ∀ b, Extends I more e (f b)) (hI : ∀ b, Maintains I (f b)) :
    Beyond I more e (p >>= f) :=
  ⟨hp.toExtends.bind hf hI, fun h => hp.needs_bind (fun b => (hf b).moves) h⟩

theorem exactly (hp : Beyond (fun _ => False) more e p) (hf : ∀ b, Extends I more e (f b)) :
    Beyond I more e (p >>= f) :=
  ⟨.exactly hp.toExtends hf, fun h => hp.needs_bind (fun b => (hf b).moves) h⟩

/-- A sequence goes on if its second parser does. -/
theorem steadily (hp : Steady more e p) (hf : ∀ b, Beyond I more e (f b)) : Beyond I more e (p >>= f) := by
  refine ⟨.steadily hp hf, fun {s a t} h hlength => ?_⟩
  obtain ⟨b, u, hfirst, hrest, -⟩ := h.bind hp.moves fun b => (hf b).moves
  have hleft := (reaches_of_run hp.moves hfirst.run).length_le
  have htwo := (hf b).needs hrest hlength
  omega

theorem observed {h : State → β} {g : β → Parser α}
    (hsame : ∀ s : State, 2 ≤ s.tokens.length → h (s.extend more e) = h s)
    (hg : ∀ b, Beyond I more e (g b)) : Beyond I more e (Parser.observe h >>= g) :=
  steadily ⟨State.Reaches.refl, fun {s b t} hclean hlength => by
    cases hclean.run
    show (some (h (s.extend more e)), s.extend more e) = _
    rw [hsame s hlength]⟩ hg

theorem look {g : Token → Parser α} (h : ∀ t, Beyond I more e (g t)) : Beyond I more e (current >>= g) :=
  observed (fun _ hlength => State.current_extend (by omega)) h

end Beyond

/-! ### Tokens -/

theorem beyond_advance : Beyond I more e advance := by
  have hlength : ∀ {s : State} {a : Unit} {t : State}, Clean advance s a t → 1 ≤ t.tokens.length →
      2 ≤ s.tokens.length := by
    intro s a t h hone
    have htail := State.length_advance s
    have ht : (advance s).2 = t := congrArg Prod.snd h.run
    rw [ht] at htail
    omega
  refine ⟨⟨(accounts_advance (N := 0) (k := 0)).moves, fun {s a t} h hone => .inl ?_⟩, hlength⟩
  have htwo := hlength h hone
  have hmoved : (advance (s.extend more e)).2 = (advance s).2.extend more e := State.advance_extend (by omega)
  have ht : (advance s).2 = t := congrArg Prod.snd h.run
  rw [← ht]
  exact Prod.ext rfl hmoved

/-- Where the next token has a kind that the end of input has not, there is a next token. -/
theorem length_of_next {kind : TokenKind} (hs : s.Whole) (hkind : kind ≠ .eof) (h : s.next.kind = kind) :
    2 ≤ s.tokens.length := by
  refine Nat.not_lt.mp fun hless => hkind ?_
  rw [← h, State.next_eq_eof (Nat.lt_succ_iff.mp hless)]
  exact hs.eof

theorem expect_clean {kind : TokenKind} {expected : String} {a : Unit} (h : Clean (expect kind expected) s a t) :
    s.next.kind = kind ∧ Clean advance s a t := by
  by_cases hk : s.next.kind = kind
  · refine ⟨hk, ?_, h.whole, h.before, h.after⟩
    rw [← h.run, expect_run, if_pos hk]
  · have hrun := h.run
    rw [expect_run, if_neg hk] at hrun
    exact absurd ⟨hrun, h.whole, h.before, h.after⟩ (refuses_rejectNext expected).not_clean

theorem beyond_expect {kind : TokenKind} (hkind : kind ≠ .eof) (expected : String) :
    Beyond I more e (expect kind expected) := by
  refine ⟨⟨(accounts_expect (N := 0) hkind expected).moves, fun {s a t} h hone => .inl ?_⟩, ?_⟩
  · obtain ⟨hk, hadvance⟩ := expect_clean h
    have htwo := length_of_next h.whole hkind hk
    rw [expect_run, if_pos (by rw [State.next_extend htwo]; exact hk)]
    exact (beyond_advance (I := fun _ => False).same hadvance hone).resolve_right fun hcross => hcross.2
  · intro s a t h _
    exact length_of_next h.whole hkind (expect_clean h).1

namespace Beyond

theorem expect {kind : TokenKind} {expected : String} {q : Unit → Parser α} (hkind : kind ≠ .eof)
    (h : ∀ u, Extends I more e (q u)) : Beyond I more e (Parser.expect kind expected >>= q) :=
  exactly (beyond_expect hkind expected) h

theorem advance {q : Unit → Parser α} (h : ∀ u, Extends I more e (q u)) :
    Beyond I more e (Parser.advance >>= q) := exactly beyond_advance h

/-- A token that may follow, in front of what goes on if it does not. -/
theorem skip {kind : TokenKind} {g : Bool → Parser α} (hkind : kind ≠ .eof)
    (htrue : Extends I more e (g true)) (hfalse : Beyond I more e (g false)) :
    Beyond I more e (Parser.skip kind >>= g) := by
  have hg : ∀ (b : Bool) (s : State), s.Reaches (g b s).2 := by
    intro b
    cases b with
    | true => exact htrue.moves
    | false => exact hfalse.moves
  have hmoves := (accounts_skip (N := 0) hkind).moves
  have hneeds : ∀ {s : State} {a : α} {t : State}, Clean (Parser.skip kind >>= g) s a t →
      1 ≤ t.tokens.length → 2 ≤ s.tokens.length := by
    intro s a t h hone
    obtain ⟨b, u, hfirst, hrest, -⟩ := h.bind hmoves hg
    by_cases hk : s.next.kind = kind
    · exact length_of_next h.whole hkind hk
    · have hrun := hfirst.run
      rw [skip_run, if_neg hk] at hrun
      cases hrun
      exact hfalse.needs hrest hone
  refine ⟨⟨fun s => (reaches_bind hmoves hg s).2, fun {s a t} h hone => ?_⟩, hneeds⟩
  have htwo := hneeds h hone
  obtain ⟨b, u, hfirst, hrest, -⟩ := h.bind hmoves hg
  have hrun := hfirst.run
  rw [skip_run] at hrun
  by_cases hk : s.next.kind = kind
  · rw [if_pos hk] at hrun
    cases hrun
    have hlong : Parser.skip kind (s.extend more e) = (some true, (Parser.advance s).2.extend more e) := by
      rw [skip_run, if_pos (by rw [State.next_extend htwo]; exact hk), State.advance_extend (by omega)]
    rw [Continues, run_bind_some hlong]
    exact htrue.same hrest hone
  · rw [if_neg hk] at hrun
    cases hrun
    have hlong : Parser.skip kind (s.extend more e) = (some false, s.extend more e) := by
      rw [skip_run, if_neg (by rw [State.next_extend htwo]; exact hk)]
    rw [Continues, run_bind_some hlong]
    exact hfalse.same hrest hone

end Beyond

namespace Extends

theorem expect {kind : TokenKind} {expected : String} {q : Unit → Parser α} (hkind : kind ≠ .eof)
    (h : ∀ u, Extends I more e (q u)) : Extends I more e (Parser.expect kind expected >>= q) :=
  (Beyond.expect hkind h).toExtends

theorem advance {q : Unit → Parser α} (h : ∀ u, Extends I more e (q u)) :
    Extends I more e (Parser.advance >>= q) := (Beyond.advance h).toExtends

theorem refused {p : Parser α} (h : Refuses p) : Extends I more e p := (Beyond.refused h).toExtends

end Extends

/-! ### Crossing over -/

section Crossing

variable [Crossing I more e]

include I

/-- Behind the last token the parser has crossed over, unless nothing goes on there. -/
theorem crossed_advance (hlast : s.tokens.length = 1) (hbefore : s.errors = [])
    (h : (s.extend more e).next.kind ∉ inert) : I (advance (s.extend more e)).2 := by
  obtain ⟨ts, eof, errors, incomplete, depth⟩ := s
  obtain ⟨x, rfl⟩ : ∃ x, ts = [x] := List.length_eq_one_iff.mp hlast
  exact Crossing.enter (e := e) (show _ = more from rfl) h rfl hbefore

namespace Extends

/-- **A token that may follow**: where it is the first behind the input, the parser crosses over. -/
theorem skip {kind : TokenKind} {g : Bool → Parser α} (hinert : kind ∉ inert)
    (htrue : Extends I more e (g true)) (hI : Maintains I (g true)) (hfalse : Extends I more e (g false)) :
    Extends I more e (Parser.skip kind >>= g) := by
  have hkind := ne_eof_of_not_inert hinert
  have hg : ∀ (b : Bool) (s : State), s.Reaches (g b s).2 := by
    intro b
    cases b with
    | true => exact htrue.moves
    | false => exact hfalse.moves
  have hmoves := (accounts_skip (N := 0) hkind).moves
  refine ⟨fun s => (reaches_bind hmoves hg s).2, fun {s a t} h hone => ?_⟩
  obtain ⟨b, u, hfirst, hrest, hreach⟩ := h.bind hmoves hg
  have hleft := hreach.length_le
  have hrun := hfirst.run
  rw [skip_run] at hrun
  have hlong := skip_run kind (s.extend more e)
  by_cases hk : s.next.kind = kind
  · have htwo := length_of_next h.whole hkind hk
    rw [if_pos hk] at hrun
    cases hrun
    rw [if_pos (by rw [State.next_extend htwo]; exact hk), State.advance_extend (by omega)] at hlong
    rw [Continues, run_bind_some hlong]
    exact htrue.same hrest hone
  · rw [if_neg hk] at hrun
    cases hrun
    by_cases hcross : (s.extend more e).next.kind = kind
    · have hlast : s.tokens.length = 1 := by
        refine Nat.le_antisymm (Nat.not_lt.mp fun htwo => hk ?_) (by omega)
        have hnext : (s.extend more e).next = s.next := State.next_extend htwo
        rw [← hnext]
        exact hcross
      rw [if_pos hcross] at hlong
      refine .inr ⟨by omega, ?_⟩
      rw [run_bind_some hlong]
      exact (hI _ (crossed_advance hlast h.before (by rw [hcross]; exact hinert))).1
    · rw [if_neg hcross] at hlong
      rw [Continues, run_bind_some hlong]
      exact hfalse.same hrest hone

theorem skipIf {kind : TokenKind} {p q : Parser α} (hinert : kind ∉ inert) (hp : Extends I more e p)
    (hI : Maintains I p) (hq : Extends I more e q) :
    Extends I more e (Parser.skip kind >>= fun b => if b = true then p else q) :=
  .skip hinert hp hI hq

/-- A choice by the current and the next token, where nothing is chosen that does not go on. -/
theorem ahead {h : State → Bool} {p : Unit → Parser α} {q : Parser α}
    (hsame : ∀ s s' : State, s.current = s'.current → s.next = s'.next → h s = h s')
    (hend : ∀ s : State, s.next.kind ∈ inert → h s = false) (hp : Extends I more e (p ()))
    (hI : Maintains I (p ())) (hq : Extends I more e q) :
    Extends I more e (Parser.observe h >>= fun b => if b = true then Parser.advance >>= p else q) := by
  have hrun : ∀ s : State, (Parser.observe h >>= fun b => if b = true then Parser.advance >>= p else q) s
      = if h s = true then p () (Parser.advance s).2 else q s := by
    intro s
    show (if h s = true then Parser.advance >>= p else q : Parser α) s = _
    split <;> rfl
  refine ⟨fun s => ?_, fun {s a t} hclean hone => ?_⟩
  · rw [hrun]
    split
    · exact ((accounts_advance (N := 0) (k := 0)).moves s).trans (hp.moves _)
    · exact hq.moves s
  · have hshort := hclean.run
    have hlong := hrun (s.extend more e)
    rw [hrun] at hshort
    by_cases htwo : 2 ≤ s.tokens.length
    · rw [hsame _ s (State.current_extend (by omega)) (State.next_extend htwo)] at hlong
      rw [Continues, hlong]
      by_cases hchosen : h s = true
      · rw [if_pos hchosen] at hshort ⊢
        rw [State.advance_extend (by omega)]
        have hwhole := ((accounts_advance (N := 0) (k := 0)).moves s).whole hclean.whole
        exact hp.same ⟨hshort, hwhole, hclean.before, hclean.after⟩ hone
      · rw [if_neg hchosen] at hshort ⊢
        exact hq.same ⟨hshort, hclean.whole, hclean.before, hclean.after⟩ hone
    · have hnot : h s = false :=
        hend s (by rw [State.next_eq_eof (by omega), hclean.whole.eof]; decide)
      rw [hnot, if_neg Bool.false_ne_true] at hshort
      have hq' := hq.same ⟨hshort, hclean.whole, hclean.before, hclean.after⟩ hone
      by_cases hchosen : h (s.extend more e) = true
      · have hleft := (reaches_of_run hq.moves hshort).length_le
        rw [if_pos hchosen] at hlong
        refine .inr ⟨by omega, ?_⟩
        rw [hlong]
        refine (hI _ (crossed_advance (by omega) hclean.before fun hk => ?_)).1
        rw [hend _ hk] at hchosen
        cases hchosen
      · rw [if_neg hchosen] at hlong
        rw [Continues, hlong]
        exact hq'

end Extends

end Crossing

namespace Beyond

/-- A choice by the next token, where what is read otherwise has no clean run. -/
theorem choice {h : State → Bool} {p q : Parser α} (hsame : ∀ s s' : State, s.next = s'.next → h s = h s')
    (hend : ∀ s : State, s.next.kind = .eof → h s = false) (hp : Extends I more e p)
    (hmoves : ∀ s : State, s.Reaches (q s).2) (hnever : ∀ s a t, ¬ Clean q s a t) :
    Beyond I more e (Parser.observe h >>= fun b => if b = true then p else q) := by
  have hrun : ∀ s : State, (Parser.observe h >>= fun b => if b = true then p else q) s
      = if h s = true then p s else q s := by
    intro s
    show (if h s = true then p else q : Parser α) s = _
    split <;> rfl
  have hchosen : ∀ {s : State} {a : α} {t : State},
      Clean (Parser.observe h >>= fun b => if b = true then p else q) s a t →
      h s = true ∧ Clean p s a t ∧ 2 ≤ s.tokens.length := by
    intro s a t hclean
    have hshort := hclean.run
    rw [hrun] at hshort
    by_cases hk : h s = true
    · rw [if_pos hk] at hshort
      refine ⟨hk, ⟨hshort, hclean.whole, hclean.before, hclean.after⟩, Nat.not_lt.mp fun hless => ?_⟩
      rw [hend s (by rw [State.next_eq_eof (by omega)]; exact hclean.whole.eof)] at hk
      cases hk
    · rw [if_neg hk] at hshort
      exact absurd ⟨hshort, hclean.whole, hclean.before, hclean.after⟩ (hnever _ _ _)
  refine ⟨⟨fun s => ?_, fun {s a t} hclean hone => ?_⟩, fun hclean _ => (hchosen hclean).2.2⟩
  · rw [hrun]
    split
    · exact hp.moves s
    · exact hmoves s
  · obtain ⟨hk, hshort, htwo⟩ := hchosen hclean
    rw [Continues, hrun, hsame _ s (State.next_extend htwo), if_pos hk]
    exact hp.same hshort hone

theorem nextIs {kind : TokenKind} {p q : Parser α} (hkind : kind ≠ .eof) (hp : Extends I more e p)
    (hq : Refuses q) :
    Beyond I more e (Parser.nextIs kind >>= fun b => if b = true then p else q) := by
  refine choice (fun s s' hnext => by rw [hnext]) (fun s hs => ?_) hp hq.moves fun _ _ _ => hq.not_clean
  rw [hs]
  exact decide_eq_false hkind.symm

end Beyond

/-! ### Loops and nesting -/

theorem maintains_loop {round : β → Parser (Round β α)} (hI : ∀ b, Maintains I (round b)) (fuel : Nat)
    (b : β) : Maintains I (Parser.loop round fuel b) := by
  refine Ensures.loop (R := fun _ _ => True) (fun _ b _ s hs => ⟨(hI b s hs).1, fun r _ => ?_⟩) fuel trivial
  cases r with
  | again _ => exact trivial
  | done _ => exact trivial

theorem maintains_iterate {round : β → Parser (Round β α)} (hI : ∀ b, Maintains I (round b)) (b : β) :
    Maintains I (Parser.iterate round b) := fun s hs => maintains_loop hI (s.tokens.length + 1) b s hs

theorem maintains_rest {round : β → Parser (Round β α)} (hI : ∀ b, Maintains I (round b)) (fuel : Nat)
    (r : Round β α) : Maintains I (Round.rest round fuel r) := by
  cases r with
  | again b => exact maintains_loop hI fuel b
  | done a => exact .pure trivial

namespace Extends

/-- Once a round has crossed over, the other rounds keep the invariant. -/
theorem loop {round : β → Parser (Round β α)} (h : ∀ b, Extends I more e (round b))
    (hI : ∀ b, Maintains I (round b)) {fuel fuel' : Nat} (hfuel : fuel ≤ fuel') {b : β}
    (hclean : Clean (Parser.loop round fuel b) s a t) (hone : 1 ≤ t.tokens.length) :
    Continues I more e (Parser.loop round fuel' b) s a t := by
  induction fuel generalizing fuel' b s with
  | zero => cases hclean.run
  | succ fuel ih =>
    obtain ⟨fuel', rfl⟩ : ∃ n, fuel' = n + 1 := ⟨fuel' - 1, by omega⟩
    rw [loop_eq] at hclean
    obtain ⟨r, u, hround, hrest, hreach⟩ :=
      hclean.bind (h b).moves (reaches_rest (fun b => (h b).moves) fuel)
    have hleft := hreach.length_le
    rw [Continues, loop_eq]
    rcases (h b).same hround (by omega) with hsame | ⟨hlast, hcrossed⟩
    · rw [run_bind_some hsame]
      cases r with
      | again c => exact ih (by omega) hrest
      | done c =>
        cases hrest.run
        exact .inl rfl
    · refine .inr ⟨by omega, ?_⟩
      cases hrun : round b (s.extend more e) with
      | mk r v =>
        rw [hrun] at hcrossed
        cases r with
        | none =>
          rw [run_bind_none hrun]
          exact hcrossed
        | some r =>
          rw [run_bind_some hrun]
          exact (maintains_rest hI fuel' r v hcrossed).1

/-- **Loops** whose rounds keep the invariant once they have crossed over. -/
theorem iterate {round : β → Parser (Round β α)} (h : ∀ b, Extends I more e (round b))
    (hI : ∀ b, Maintains I (round b)) (b : β) : Extends I more e (Parser.iterate round b) := by
  refine ⟨fun s => reaches_loop (fun b => (h b).moves) _ b s, fun {s a t} hclean hone => ?_⟩
  refine loop h hI (Nat.succ_le_succ ?_) (s := s) ⟨hclean.run, hclean.whole, hclean.before, hclean.after⟩ hone
  rw [State.length_extend]
  omega

theorem withRoom {p : Nat → Parser α} (h : ∀ room, Extends I more e (p room)) :
    Extends I more e (Parser.withRoom p) :=
  ⟨fun s => (h (maxNesting - s.depth)).moves s, fun {s _ _} hclean =>
    (h (maxNesting - s.depth)).same ⟨hclean.run, hclean.whole, hclean.before, hclean.after⟩⟩

theorem nested [Invariant I T] {p : Parser α} (h : Extends I more e p) :
    Extends I more e (Parser.nested p) := by
  refine ⟨moves_nested h.moves, fun {s a t} hclean hone => ?_⟩
  obtain ⟨u, hinner, rfl⟩ := hclean.nested
  have hlong : Parser.nested p (s.extend more e) =
      ((p (State.extend { s with depth := s.depth + 1 } more e)).1,
        { (p (State.extend { s with depth := s.depth + 1 } more e)).2 with
          depth := (p (State.extend { s with depth := s.depth + 1 } more e)).2.depth - 1 }) := rfl
  rcases h.same hinner hone with hsame | ⟨hlast, hcrossed⟩
  · rw [Continues, hlong, hsame]
    exact .inl rfl
  · refine .inr ⟨hlast, ?_⟩
    rw [hlong]
    exact Invariant.same hcrossed rfl rfl rfl

end Extends

namespace Beyond

theorem iterate {round : β → Parser (Round β α)} (h : ∀ b, Beyond I more e (round b))
    (hI : ∀ b, Maintains I (round b)) (b : β) : Beyond I more e (Parser.iterate round b) := by
  refine ⟨.iterate (fun b => (h b).toExtends) hI b, fun {s a t} hclean hone => ?_⟩
  have hloop : Clean (Parser.loop round (s.tokens.length + 1) b) s a t :=
    ⟨hclean.run, hclean.whole, hclean.before, hclean.after⟩
  rw [loop_eq] at hloop
  exact (h b).needs_bind (reaches_rest (fun b => (h b).moves) _) hloop hone

/-- A list with its closing token stays where it is. -/
theorem commaList {item : Parser α} (h : Steady more e item) {close : TokenKind} (hclose : close ≠ .eof)
    (expected : String) : Beyond (fun _ => False) more e (Parser.commaList item close expected) := by
  refine iterate (fun items => .advance fun _ => .steadily h fun a => ?_) (fun _ => maintains_never _) []
  exact .skip (by decide) .pure (.expect hclose fun _ => .pure)

theorem commaListOrNone {item : Parser α} (h : Steady more e item) {close : TokenKind}
    (hclose : close ≠ .eof) (expected : String) :
    Beyond (fun _ => False) more e (Parser.commaListOrNone item close expected) :=
  .skip hclose .pure (.commaList h hclose expected)

end Beyond

end Parser

end PatternPlan.Surface
