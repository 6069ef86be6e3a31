import PatternPlan.Proofs.Source.Order
import PatternPlan.Proofs.Surface.Laminar
import PatternPlan.Proofs.Surface.Tiling

/-!
# How far matches are laid out

A logic for parsers that says where the matches of what they return lie.

* `State.Upto`, `State.Through`, `State.Ended` — some matches are laid out in front of the token that a
  parser stands on, or up to its end; where an expression ends, that token is not illegal;
* `Leads` — **what a parser returns leads from one property of states to another**; nothing is said
  about a parser that gives up;
* one rule for each step, for sequences (`Leads.bind`), loops (`Leads.iterate`) and nesting.
-/

namespace PatternPlan.Surface

namespace State

variable {lo : Int} {ms : List Match} {s t : State}

/-- Matches laid out in front of the token that is being read. -/
def Upto (lo : Int) (ms : List Match) (s : State) : Prop :=
  Ordered s.tokens s.eof ∧ Laid lo s.current.offset ms

/-- Matches laid out in front of the end of the token that is being read. -/
def Through (lo : Int) (ms : List Match) (s : State) : Prop :=
  Ordered s.tokens s.eof ∧ Laid lo s.current.reach ms

/-- Matches laid out up to where a construct may end. -/
def Ended (lo : Int) (ms : List Match) (s : State) : Prop :=
  s.Through lo ms ∧ s.current.kind ≠ .illegal

theorem Upto.through (h : s.Upto lo ms) : s.Through lo ms :=
  ⟨h.1, h.2.mono (Int.ofNat_le.mpr s.current.offset_le_reach)⟩

theorem Ended.through (h : s.Ended lo ms) : s.Through lo ms := h.1

/-! What is left of tokens in order. -/

theorem ordered_of_reaches (h : Ordered s.tokens s.eof) (hreach : s.Reaches t) :
    Ordered t.tokens t.eof := by
  refine ⟨h.pairwise.sublist hreach.tokens.sublist, fun x hx => h.filled x (hreach.tokens.subset hx),
    fun x hx => ?_, ?_, ?_⟩
  · rw [hreach.eof]
    exact h.reach_le x (hreach.tokens.subset hx)
  · rw [hreach.eof]
    exact h.eof_kind
  · rw [hreach.eof]
    exact h.eof_stop

/-- The first token of some is not behind the one that a parser comes to when it has read others. -/
theorem reach_le_current {x : Token} {ys : List Token} (h : Ordered s.tokens s.eof)
    (htokens : s.tokens = x :: (ys ++ t.tokens)) (heof : t.eof = s.eof) :
    x.reach ≤ t.current.offset := by
  rw [current]
  cases hrest : t.tokens with
  | nil =>
    rw [heof]
    exact h.reach_le x (htokens ▸ List.mem_cons_self)
  | cons y more =>
    have hpairwise := h.pairwise
    rw [htokens, hrest] at hpairwise
    exact List.rel_of_pairwise_cons hpairwise (List.mem_append_right _ List.mem_cons_self)

/-- **Reading goes forward.** -/
theorem current_le_of_reaches (h : Ordered s.tokens s.eof) (hreach : s.Reaches t) :
    s.current.offset ≤ t.current.offset ∧ s.current.reach ≤ t.current.reach := by
  obtain ⟨before, hbefore⟩ := hreach.tokens
  cases before with
  | nil =>
    have hsame : t.current = s.current := by
      rw [current, current, hreach.eof, ← hbefore, List.nil_append]
    rw [hsame]
    exact ⟨Nat.le_refl _, Nat.le_refl _⟩
  | cons x ys =>
    have hcurrent : s.current = x := by
      rw [current, ← hbefore]
      rfl
    have hle := reach_le_current h hbefore.symm hreach.eof
    rw [hcurrent]
    exact ⟨x.offset_le_reach.trans hle, hle.trans t.current.offset_le_reach⟩

/-- What a parser that only reads tokens does not change. -/
def Lasting (I : State → Prop) : Prop := ∀ s t : State, s.Reaches t → I s → I t

theorem lasting_upto : Lasting (Upto lo ms) := fun _ _ hreach h =>
  ⟨ordered_of_reaches h.1 hreach,
    h.2.mono (Int.ofNat_le.mpr (current_le_of_reaches h.1 hreach).1)⟩

theorem lasting_through : Lasting (Through lo ms) := fun _ _ hreach h =>
  ⟨ordered_of_reaches h.1 hreach,
    h.2.mono (Int.ofNat_le.mpr (current_le_of_reaches h.1 hreach).2)⟩

theorem Through.advance (h : s.Through lo ms) : (Parser.advance s).2.Upto lo ms := by
  refine ⟨ordered_of_reaches h.1 (Parser.reaches_advance s), h.2.mono (Int.ofNat_le.mpr ?_)⟩
  cases htokens : s.tokens with
  | nil =>
    -- the end of input stays current
    have hsame : s.current = s.eof := by rw [current, htokens]; rfl
    have hnext : (Parser.advance s).2.current = s.eof := by
      show s.tokens.tail.headD s.eof = _
      rw [htokens]
      rfl
    have hkind : s.eof.kind ≠ .illegal := by
      rw [h.1.eof_kind]
      decide
    rw [hsame, hnext, Token.reach_eq_stop hkind, h.1.eof_stop]
  | cons x rest =>
    have hsame : s.current = x := by rw [current, htokens]; rfl
    rw [hsame]
    have hread : s.tokens = x :: ([] ++ (Parser.advance s).2.tokens) := by
      show s.tokens = x :: s.tokens.tail
      rw [htokens]
      rfl
    exact reach_le_current h.1 hread rfl

/-- A property that depends on the tokens that are left only. -/
def Still (I : State → Prop) : Prop :=
  ∀ s t : State, t.tokens = s.tokens → t.eof = s.eof → I s → I t

theorem still_upto : Still (Upto lo ms) := by
  rintro s t htokens heof h
  rw [Upto, current] at h ⊢
  rwa [htokens, heof]

theorem still_ended : Still (Ended lo ms) := by
  rintro s t htokens heof h
  rw [Ended, Through, current] at h ⊢
  rwa [htokens, heof]

theorem still_current (k : TokenKind) : Still fun s => s.current.kind = k := by
  rintro s t htokens heof hk
  rwa [current, htokens, heof]

theorem Still.and {I J : State → Prop} (hI : Still I) (hJ : Still J) : Still fun s => I s ∧ J s :=
  fun s t htokens heof hs => ⟨hI s t htokens heof hs.1, hJ s t htokens heof hs.2⟩

theorem Still.fact {I : State → Prop} (hI : Still I) (P : Prop) : Still fun s => I s ∧ P :=
  hI.and fun _ _ _ _ hP => hP

end State

namespace Parser

open State

variable {α β : Type} {lo : Int} {ms : List Match} {k : TokenKind}
variable {I I' : State → Prop} {J J' : α → State → Prop} {K : β → State → Prop}

/-- **A parser that leads from `I` to `J`**, if it returns something. -/
def Leads (I : State → Prop) (p : Parser α) (J : α → State → Prop) : Prop :=
  ∀ s, I s → ∀ a t, p s = (some a, t) → J a t

theorem leads_advance : Leads (Through lo ms) advance fun _ => Upto lo ms := by
  intro s hs a t hrun
  cases hrun
  exact hs.advance

/-- A parser that always gives up. -/
theorem leads_refused {p : Parser α} (h : Refuses p) : Leads I p J := by
  intro s _ a t hrun
  have hnone := (h.gives s).1
  rw [hrun] at hnone
  cases hnone

/-- A token that is read because of its kind. -/
theorem ended_advance (hk : k ≠ .illegal) {s : State} (hs : s.Through lo ms) (hnext : s.next.kind = k) :
    (advance s).2.Ended lo ms := by
  refine ⟨hs.advance.through, ?_⟩
  have hcurrent : (advance s).2.current = s.next := by
    show s.tokens.tail.headD s.eof = _
    rw [State.next, List.drop_one]
  rw [hcurrent, hnext]
  exact hk

theorem leads_expect (hk : k ≠ .illegal) (expected : String) :
    Leads (Through lo ms) (expect k expected) fun _ => Ended lo ms := by
  intro s hs a t hrun
  rw [expect_run] at hrun
  split at hrun
  · cases hrun
    exact ended_advance hk hs ‹_›
  · have hnever : Leads (Through lo ms) (rejectNext expected) fun _ : Unit => Ended lo ms :=
      leads_refused (refuses_rejectNext expected)
    exact hnever s hs a t hrun

theorem leads_skip (hk : k ≠ .illegal) : Leads (Ended lo ms) (skip k) fun _ => Ended lo ms := by
  intro s hs a t hrun
  rw [skip_run] at hrun
  split at hrun
  · cases hrun
    exact ended_advance hk hs.through ‹_›
  · cases hrun
    exact hs

namespace Leads

theorem of {p : Parser α} (h : Leads I p J) (hI : ∀ s, I' s → I s) : Leads I' p J :=
  fun s hs => h s (hI s hs)

theorem mono {p : Parser α} (h : Leads I p J) (hJ : ∀ a s, J a s → J' a s) : Leads I p J' :=
  fun s hs a t hrun => hJ a t (h s hs a t hrun)

theorem pure {a : α} (h : ∀ s, I s → J a s) : Leads I (Pure.pure a) J := by
  intro s hs b t hrun
  cases hrun
  exact h s hs

/-- **Sequences.** -/
theorem bind {p : Parser β} {f : β → Parser α} (hp : Leads I p K) (hf : ∀ b, Leads (K b) (f b) J) :
    Leads I (p >>= f) J := by
  intro s hs a t hrun
  cases hfirst : p s with
  | mk r u =>
    cases r with
    | none =>
      rw [run_bind_none hfirst] at hrun
      cases hrun
    | some b =>
      rw [run_bind_some hfirst] at hrun
      exact hf b u (hp s hs b u hfirst) a t hrun

/-- Something that is known besides the state. -/
theorem fact {P : Prop} {p : Parser α} (h : P → Leads I p J) : Leads (fun s => I s ∧ P) p J :=
  fun s hs => h hs.2 s hs.1

/-- A value that is known before the rest of a sequence runs. -/
theorem given {b : β} {f : β → Parser α} (h : Leads I (f b) J) : Leads I (Pure.pure b >>= f) J := h

theorem ite {c : Prop} [Decidable c] {p q : Parser α} (hp : c → Leads I p J)
    (hq : ¬ c → Leads I q J) : Leads I (if c then p else q) J := by
  split
  · exact hp ‹_›
  · exact hq ‹_›

theorem observe {g : State → β} {f : β → Parser α} (h : ∀ b, Leads I (f b) J) :
    Leads I (Parser.observe g >>= f) J :=
  fun s hs a t hrun => h (g s) s hs a t hrun

theorem current {f : Token → Parser α} (h : ∀ x, Leads I (f x) J) : Leads I (Parser.current >>= f) J :=
  observe h

/-- A parser that begins with a look at its first token. -/
theorem start {f : Token → Parser α} (h : ∀ x, Leads (fun s => I s ∧ s.current = x) (f x) J) :
    Leads I (Parser.current >>= f) J :=
  fun s hs a t hrun => h s.current s ⟨hs, rfl⟩ a t hrun

/-- A parser that begins with a look at the next token. -/
theorem peek {f : Token → Parser α} (h : ∀ y, Leads (fun s => I s ∧ s.next = y) (f y) J) :
    Leads I (Parser.next >>= f) J :=
  fun s hs a t hrun => h s.next s ⟨hs, rfl⟩ a t hrun

theorem span {x : Token} {f : Span → Parser α} (h : ∀ b, Leads I (f b) J) :
    Leads I (spanFrom x >>= f) J :=
  observe h

theorem mark {x : Token} {f : Mark → Parser α} (h : ∀ m, Leads I (f m) J) :
    Leads I (markFrom x >>= f) J :=
  observe fun _ => h _

/-- A parser that reads tokens and returns no matches, before the rest of a sequence. -/
theorem move {p : Parser β} {f : β → Parser α} (hI : Lasting I) (hp : ∀ s : State, s.Reaches (p s).2)
    (hf : ∀ b, Leads I (f b) J) : Leads I (p >>= f) J := by
  refine bind (K := fun _ => I) (fun s hs b t hrun => ?_) hf
  have hreach := hp s
  rw [hrun] at hreach
  exact hI s t hreach hs

theorem advance {f : Unit → Parser α} (hI : ∀ s, I s → s.Through lo ms)
    (hf : ∀ u, Leads (Upto lo ms) (f u) J) : Leads I (Parser.advance >>= f) J :=
  (leads_advance.of hI).bind hf

theorem expect {expected : String} {f : Unit → Parser α} (hk : k ≠ .illegal)
    (hI : ∀ s, I s → s.Through lo ms) (hf : ∀ u, Leads (Ended lo ms) (f u) J) :
    Leads I (Parser.expect k expected >>= f) J :=
  ((leads_expect hk expected).of hI).bind hf

theorem skip {f : Bool → Parser α} (hk : k ≠ .illegal) (hf : ∀ b, Leads (Ended lo ms) (f b) J) :
    Leads (Ended lo ms) (Parser.skip k >>= f) J :=
  (leads_skip hk).bind hf

/-- A choice by the next token, which is read if it has the kind. -/
theorem skipIf {p q : Parser α} (hk : k ≠ .illegal) (hI : ∀ s, I s → s.Through lo ms)
    (hp : Leads (Ended lo ms) p J) (hq : Leads I q J) :
    Leads I (Parser.skip k >>= fun b => if b = true then p else q) J := by
  intro s hs a t hrun
  have hskip := skip_run k s
  by_cases hnext : s.next.kind = k
  · rw [if_pos hnext] at hskip
    rw [run_bind_some hskip] at hrun
    exact hp _ (ended_advance hk (hI s hs) hnext) a t hrun
  · rw [if_neg hnext] at hskip
    rw [run_bind_some hskip] at hrun
    exact hq s hs a t hrun

/-! ### Loops -/

/-- What holds behind a round: `R` if there is another one, `J` if it is the last. -/
def Behind (R : β → State → Prop) (J : α → State → Prop) : Round β α → State → Prop
  | .again b => R b
  | .done a => J a

/-- **Loops**: each round keeps what holds at the start. -/
theorem iterate {round : β → Parser (Round β α)} {R : β → State → Prop} {b : β}
    (hI : ∀ s, I s → R b s) (h : ∀ b, Leads (R b) (round b) (Behind R J)) :
    Leads I (Parser.iterate round b) J := by
  have hloop : ∀ fuel b, Leads (R b) (Parser.loop round fuel b) J := by
    intro fuel
    induction fuel with
    | zero =>
      intro b s _ a t hrun
      cases hrun
    | succ fuel ih =>
      intro b
      refine (h b).bind fun r => ?_
      cases r with
      | again b => exact ih b
      | done a => exact pure fun _ hs => hs
  exact fun s hs => hloop _ b s (hI s hs)

/-! ### Lists and nesting -/

/-- Items whose matches are those that `f` gives. -/
theorem commaList {item : Parser α} {f : α → List Match} {close : TokenKind}
    (hclose : close ≠ .illegal) (expected : String)
    (h : ∀ ms, Leads (Upto lo ms) item fun a => Ended lo (ms ++ f a)) :
    Leads (Through lo ms) (Parser.commaList item close expected)
      fun as => Ended lo (ms ++ as.flatMap f) := by
  have hsnoc : ∀ (as : List α) (a : α), ms ++ as.flatMap f ++ f a = ms ++ (as ++ [a]).flatMap f := by
    intro as a
    simp
  refine iterate (R := fun as => Through lo (ms ++ as.flatMap f)) (fun s hs => by simpa using hs)
    fun as => advance (fun _ => id) fun _ => (h _).bind fun a => ?_
  rw [hsnoc]
  refine skipIf (by decide) (fun _ => Ended.through) (pure fun _ => Ended.through) ?_
  exact expect hclose (fun _ => Ended.through) fun _ => pure fun _ => id

theorem commaListOrNone {item : Parser α} {f : α → List Match} {close : TokenKind}
    (hclose : close ≠ .illegal) (expected : String)
    (h : ∀ ms, Leads (Upto lo ms) item fun a => Ended lo (ms ++ f a)) :
    Leads (Through lo ms) (Parser.commaListOrNone item close expected)
      fun as => Ended lo (ms ++ as.flatMap f) := by
  refine skipIf hclose (fun _ => id) (pure fun s hs => ?_) (commaList hclose expected h)
  rwa [List.flatMap_nil, List.append_nil]

theorem nested {p : Parser α} (hI : Still I) (hJ : ∀ a, Still (J a)) (h : Leads I p J) :
    Leads I (Parser.nested p) J := by
  intro s hs a t hrun
  cases hp : p { s with depth := s.depth + 1 } with
  | mk r u =>
    rw [Parser.nested, hp] at hrun
    cases hrun
    exact hJ a u _ rfl rfl (h { s with depth := s.depth + 1 } (hI s _ rfl rfl hs) a u hp)

theorem withRoom {p : Nat → Parser α} (h : ∀ room, Leads I (p room) J) :
    Leads I (Parser.withRoom p) J :=
  fun s hs => h _ s hs

end Leads

end Parser

end PatternPlan.Surface
