import PatternPlan.Surface.Parser.Basic

/-!
# Invariants of parsing

A small logic for parsers that may give up, over any invariant of states that stays when tokens are
read.

* `Invariant` — what holds of fewer tokens too, and stays when something is recorded at a token;
* `Ensures` — **whatever a parser returns has a property**, and it keeps the invariant, also when it
  gives up;
* one rule for each step, for sequences (`Ensures.bind`), and for loops (`Ensures.iterate`), where
  the property of the rounds is the invariant of the loop.
-/

namespace PatternPlan.Surface

/-- An invariant of the tokens left and the diagnostics recorded.  It stays when tokens are read, and
when a diagnostic of the parser is recorded at a token with the property `T`, which every token left
has. -/
class Invariant (I : State → Prop) (T : outParam (Token → Prop)) : Prop where
  suffix : ∀ {s s' : State}, I s → s'.tokens <:+ s.tokens → s'.eof = s.eof →
    s'.errors = s.errors → I s'
  tokens : ∀ {s : State}, I s → ∀ t ∈ s.tokens, T t
  eof : ∀ {s : State}, I s → T s.eof
  record : ∀ {s : State} {t : Token} {code : Code}, I s → T t → code.stage = .parser →
    ∀ args : List Arg, I { s with errors := s.errors ++ [Diagnostic.new code t.span args] }

namespace Invariant

variable {I : State → Prop} {T : Token → Prop} [Invariant I T] {s s' : State}

include T in
theorem same (h : I s) (htokens : s'.tokens = s.tokens) (heof : s'.eof = s.eof)
    (herrors : s'.errors = s.errors) : I s' :=
  suffix h (htokens ▸ List.suffix_refl _) heof herrors

/-- The token after some of those left, which is the end of input if there is none. -/
theorem drop (h : I s) (n : Nat) : T ((s.tokens.drop n).headD s.eof) := by
  cases hrest : s.tokens.drop n with
  | nil => exact eof h
  | cons t ts =>
    have hmem : t ∈ s.tokens.drop n := hrest ▸ List.mem_cons_self
    exact tokens h t (List.mem_of_mem_drop hmem)

end Invariant

namespace Parser

variable {α β : Type} {I : State → Prop} {T : Token → Prop} {P : α → Prop} {Q : β → Prop}

/-! How sequences run. -/

theorem run_bind_some {p : Parser β} {f : β → Parser α} {s s' : State} {b : β}
    (h : p s = (some b, s')) : (p >>= f) s = f b s' := by
  dsimp only [Bind.bind]
  rw [h]

theorem run_bind_none {p : Parser β} {f : β → Parser α} {s s' : State} (h : p s = (none, s')) :
    (p >>= f) s = (none, s') := by
  dsimp only [Bind.bind]
  rw [h]

theorem run_bind_congr {p q : Parser β} {f : β → Parser α} {s : State} (h : p s = q s) :
    (p >>= f) s = (q >>= f) s := by
  dsimp only [Bind.bind]
  rw [h]

/-- A reader that cannot give up, as a parser. -/
def reader (f : State → α × State) : Parser α := fun s => (some (f s).1, (f s).2)

theorem expect_run (k : TokenKind) (expected : String) (s : State) :
    expect k expected s = if s.next.kind = k then advance s else rejectNext expected s := by
  show (if decide (s.next.kind = k) = true then advance else rejectNext expected) s = _
  by_cases hk : s.next.kind = k
  · rw [if_pos (decide_eq_true hk), if_pos hk]
  · rw [if_neg (by simpa using hk), if_neg hk]

theorem skip_run (k : TokenKind) (s : State) :
    skip k s = if s.next.kind = k then (some true, (advance s).2) else (some false, s) := by
  show (if decide (s.next.kind = k) = true then (advance >>= fun _ => pure true) else pure false) s = _
  by_cases hk : s.next.kind = k
  · rw [if_pos (decide_eq_true hk), if_pos hk]
    rfl
  · rw [if_neg (by simpa using hk), if_neg hk]
    rfl

/-- Whatever `p` returns satisfies `P`; the states it leaves satisfy `I`. -/
def Ensures (I : State → Prop) (P : α → Prop) (p : Parser α) : Prop :=
  ∀ s : State, I s → I (p s).2 ∧ ∀ a, (p s).1 = some a → P a

/-- Nothing is said about what `p` returns. -/
abbrev Maintains (I : State → Prop) (p : Parser α) : Prop := Ensures I (fun _ => True) p

namespace Ensures

theorem pure {a : α} (h : P a) : Ensures I P (Pure.pure a : Parser α) := by
  intro s hs
  refine ⟨hs, fun b hb => ?_⟩
  cases hb
  exact h

theorem fail : Ensures I P (Parser.fail : Parser α) := by
  intro s hs
  exact ⟨hs, fun a ha => by cases ha⟩

/-- **Sequences**: what the first parser ensures is what the second may rely on. -/
theorem bind {p : Parser β} {f : β → Parser α} (hp : Ensures I Q p)
    (hf : ∀ b, Q b → Ensures I P (f b)) : Ensures I P (p >>= f) := by
  intro s hs
  have hfirst := hp s hs
  cases hrun : p s with
  | mk r s' =>
    rw [hrun] at hfirst
    cases r with
    | none =>
      rw [run_bind_none hrun]
      exact ⟨hfirst.1, fun a ha => by cases ha⟩
    | some b =>
      rw [run_bind_some hrun]
      exact hf b (hfirst.2 b rfl) s' hfirst.1

/-- A sequence whose first parser is run for its effect. -/
theorem seq {p : Parser β} {f : β → Parser α} (hp : Maintains I p) (hf : ∀ b, Ensures I P (f b)) :
    Ensures I P (p >>= f) :=
  bind hp fun b _ => hf b

theorem observe {f : State → α} (h : ∀ s : State, I s → P (f s)) : Ensures I P (observe f) := by
  intro s hs
  refine ⟨hs, fun a ha => ?_⟩
  cases ha
  exact h s hs

theorem ite {c : Prop} [Decidable c] {p q : Parser α} (hp : c → Ensures I P p)
    (hq : ¬ c → Ensures I P q) : Ensures I P (if c then p else q) := by
  split
  · exact hp ‹_›
  · exact hq ‹_›

/-- A choice in the middle of a sequence. -/
theorem branch {c : Prop} [Decidable c] {p q : Parser β} {f : β → Parser α}
    (hp : c → Ensures I Q p) (hq : ¬ c → Ensures I Q q) (hf : ∀ b, Q b → Ensures I P (f b)) :
    Ensures I P (if c then p >>= f else q >>= f) :=
  ite (fun h => (hp h).bind hf) fun h => (hq h).bind hf

/-- A step that is taken or not before the rest of a sequence. -/
theorem optionally {c : Prop} [Decidable c] {p : Parser β} {q : Parser α} (hp : Maintains I p)
    (hq : Ensures I P q) : Ensures I P (if c then p >>= fun _ => q else q) :=
  ite (fun _ => hp.seq fun _ => hq) fun _ => hq

end Ensures

/-! ### Loops -/

/-- A round that goes on with a value that satisfies `I`, or is done with one that satisfies `P`. -/
def Round.Holds (I : β → Prop) (P : α → Prop) : Round β α → Prop
  | .again b => I b
  | .done a => P a

/-- A loop whose rounds may rely on the fuel that is left. -/
theorem Ensures.loop {R : Nat → β → Prop} {round : β → Parser (Round β α)}
    (h : ∀ n b, R (n + 1) b → Ensures I (Round.Holds (R n) P) (round b)) (fuel : Nat) {b : β}
    (hb : R fuel b) : Ensures I P (Parser.loop round fuel b) := by
  induction fuel generalizing b with
  | zero => exact .fail
  | succ fuel ih =>
    refine .bind (h fuel b hb) fun r hr => ?_
    cases r with
    | again b => exact ih hr
    | done a => exact .pure hr

/-- **Loops**: `R` holds at the start and each round keeps it. -/
theorem Ensures.iterate {R : β → Prop} {round : β → Parser (Round β α)} {b : β} (hb : R b)
    (h : ∀ b, R b → Ensures I (Round.Holds R P) (round b)) : Ensures I P (Parser.iterate round b) :=
  fun s hs => Ensures.loop (R := fun _ => R) (fun _ => h) (s.tokens.length + 1) hb s hs

/-- All items of a list have a property, and one more item has it. -/
theorem forall_mem_snoc {xs : List α} {x : α} (h : ∀ a ∈ xs, P a) (hx : P x) :
    ∀ a ∈ xs ++ [x], P a :=
  List.forall_mem_append.mpr ⟨h, List.forall_mem_singleton.mpr hx⟩

theorem Ensures.withRoom {p : Nat → Parser α} (h : ∀ n, Ensures I P (p n)) :
    Ensures I P (Parser.withRoom p) :=
  fun s hs => h (maxNesting - s.depth) s hs

/-! ### Tokens -/

theorem maintains_observe (f : State → α) : Maintains I (observe f) := .observe fun _ _ => trivial

theorem maintains_spanFrom (start : Token) : Maintains I (spanFrom start) := maintains_observe _

theorem maintains_markFrom (start : Token) : Maintains I (markFrom start) :=
  .seq (maintains_spanFrom start) fun _ => .pure trivial

variable [Invariant I T]

include T

theorem ensures_current : Ensures I T current := .observe fun _ hs => Invariant.drop hs 0

theorem ensures_next : Ensures I T next := .observe fun _ hs => Invariant.drop hs 1

theorem maintains_advance : Maintains I advance := fun _ hs =>
  ⟨Invariant.suffix hs (List.tail_suffix _) rfl rfl, fun _ _ => trivial⟩

theorem maintains_record {place : Token} (h : T place) (code : Code) (args : List Arg)
    (hcode : code.stage = .parser) : Maintains I (record code place args) := fun _ hs =>
  ⟨Invariant.record hs h hcode args, fun _ _ => trivial⟩

theorem ensures_reject {place : Token} (h : T place) (code : Code) (args : List Arg)
    (hcode : code.stage = .parser) : Ensures I P (reject code place args) :=
  .seq (maintains_record h code args hcode) fun _ => .fail

theorem ensures_rejectEnd {place : Token} (h : T place) (expected : String) :
    Ensures I P (rejectEnd place expected) := fun _ hs =>
  ensures_reject h _ _ rfl _ (Invariant.same hs rfl rfl rfl)

theorem ensures_rejectNext (expected : String) : Ensures I P (rejectNext expected) := by
  refine .bind ensures_next fun t ht => ?_
  exact .ite (fun _ => ensures_rejectEnd ht _) fun _ => ensures_reject ht _ _ rfl

theorem maintains_expect (k : TokenKind) (expected : String) : Maintains I (expect k expected) := by
  refine .seq (maintains_observe _) fun b => ?_
  exact .ite (fun _ => maintains_advance) fun _ => ensures_rejectNext _

theorem maintains_skip (k : TokenKind) : Maintains I (skip k) := by
  refine .seq (maintains_observe _) fun b => ?_
  refine .ite (fun _ => ?_) fun _ => .pure trivial
  exact .seq maintains_advance fun _ => .pure trivial

theorem maintains_skipEither (k l : TokenKind) : Maintains I (skipEither k l) := by
  refine .seq (maintains_skip k) fun b => ?_
  exact .ite (fun _ => .pure trivial) fun _ => maintains_skip l

/-- After an expected token, that token is the current one. -/
theorem Ensures.expect {R : Token → Prop} (hR : ∀ s : State, I s → R s.next) {k : TokenKind}
    {expected : String} {f : Token → Parser α} (h : ∀ t, R t → t.kind = k → Ensures I P (f t)) :
    Ensures I P (Parser.expect k expected >>= fun _ => current >>= f) := by
  intro s hs
  have hexpect := expect_run k expected s
  by_cases hk : s.next.kind = k
  · rw [if_pos hk] at hexpect
    rw [run_bind_congr hexpect]
    have hcurrent : State.current (advance s).2 = s.next := by
      show s.tokens.tail.headD s.eof = (s.tokens.drop 1).headD s.eof
      rw [List.drop_one]
    have hrun := h s.next (hR s hs) hk _ (maintains_advance s hs).1
    rw [← hcurrent] at hrun
    exact hrun
  · rw [if_neg hk] at hexpect
    rw [run_bind_congr hexpect]
    have hnever : Ensures I (fun _ : Unit => False) (rejectNext expected) :=
      ensures_rejectNext expected
    exact hnever.bind (fun _ hfalse => hfalse.elim) s hs

/-! ### Lists and nesting -/

theorem Ensures.commaList {item : Parser α} (h : Ensures I P item) (close : TokenKind)
    (expected : String) : Ensures I (fun xs => ∀ a ∈ xs, P a) (commaList item close expected) := by
  refine .iterate (R := fun xs => ∀ a ∈ xs, P a) (by simp) fun xs hxs => ?_
  refine .seq maintains_advance fun _ => .bind h fun a ha => .seq (maintains_skip _) fun b => ?_
  refine .ite (fun _ => .pure (forall_mem_snoc hxs ha)) fun _ => ?_
  exact .seq (maintains_expect _ _) fun _ => .pure (forall_mem_snoc hxs ha)

theorem Ensures.commaListOrNone {item : Parser α} (h : Ensures I P item) (close : TokenKind)
    (expected : String) :
    Ensures I (fun xs => ∀ a ∈ xs, P a) (commaListOrNone item close expected) := by
  refine .seq (maintains_skip _) fun b => ?_
  exact .ite (fun _ => .pure (by simp)) fun _ => h.commaList close expected

theorem Ensures.nested {p : Parser α} (h : Ensures I P p) : Ensures I P (Parser.nested p) := by
  intro s hs
  have hp := h { s with depth := s.depth + 1 } (Invariant.same hs rfl rfl rfl)
  exact ⟨Invariant.same hp.1 rfl rfl rfl, hp.2⟩

theorem ensures_tooDeep : Ensures I P (tooDeep : Parser α) := by
  intro s hs
  refine Ensures.bind ensures_current (fun t ht => ?_) _ (Invariant.same hs rfl rfl rfl)
  exact ensures_reject ht _ _ rfl

end Parser

end PatternPlan.Surface
