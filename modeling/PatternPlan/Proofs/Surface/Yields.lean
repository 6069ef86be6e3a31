import PatternPlan.Proofs.Source.Name
import PatternPlan.Proofs.Surface.Ensures

/-!
# What a parser yields

The logic of parsers over the invariant that names are names.

* `State.Named` — the invariant of states: the tokens that are names have names for their texts;
* `Yields` — **whatever a parser returns has a property**, and it keeps the invariant, also when it
  gives up;
* one rule for each step, for sequences (`Yields.bind`), and for loops (`Yields.iterate`), where the
  property of the rounds is the invariant of the loop.
-/

namespace PatternPlan.Surface

/-- The tokens of a state that are names have names for their texts. -/
structure State.Named (s : State) : Prop where
  tokens : ∀ t ∈ s.tokens, t.HasName
  eof : s.eof.kind = .eof

instance : Invariant State.Named fun _ => True where
  suffix hs htokens heof _ := ⟨fun t ht => hs.tokens t (htokens.subset ht), heof.symm ▸ hs.eof⟩
  tokens _ _ _ := trivial
  eof _ := trivial
  record hs _ _ _ := ⟨hs.tokens, hs.eof⟩

namespace Parser

variable {α β : Type} {P : α → Prop} {Q : β → Prop}

/-- Whatever `p` returns satisfies `P`; the states it leaves are named. -/
def Yields (P : α → Prop) (p : Parser α) : Prop :=
  ∀ s : State, s.Named → (p s).2.Named ∧ ∀ a, (p s).1 = some a → P a

/-- Nothing is said about what `p` returns. -/
abbrev Keeps (p : Parser α) : Prop := Yields (fun _ => True) p

namespace Yields

theorem pure {a : α} (h : P a) : Yields P (Pure.pure a : Parser α) := Ensures.pure h

theorem fail : Yields P (Parser.fail : Parser α) := Ensures.fail

/-- **Sequences**: what the first parser yields is what the second may rely on. -/
theorem bind {p : Parser β} {f : β → Parser α} (hp : Yields Q p)
    (hf : ∀ b, Q b → Yields P (f b)) : Yields P (p >>= f) := Ensures.bind hp hf

/-- A sequence whose first parser is run for its effect. -/
theorem seq {p : Parser β} {f : β → Parser α} (hp : Keeps p) (hf : ∀ b, Yields P (f b)) :
    Yields P (p >>= f) :=
  bind hp fun b _ => hf b

theorem observe {f : State → α} (h : ∀ s : State, s.Named → P (f s)) : Yields P (observe f) :=
  Ensures.observe h

theorem ite {c : Prop} [Decidable c] {p q : Parser α} (hp : c → Yields P p)
    (hq : ¬ c → Yields P q) : Yields P (if c then p else q) := Ensures.ite hp hq

/-- A choice in the middle of a sequence. -/
theorem branch {c : Prop} [Decidable c] {p q : Parser β} {f : β → Parser α}
    (hp : c → Yields Q p) (hq : ¬ c → Yields Q q) (hf : ∀ b, Q b → Yields P (f b)) :
    Yields P (if c then p >>= f else q >>= f) :=
  ite (fun h => (hp h).bind hf) fun h => (hq h).bind hf

/-- A step that is taken or not before the rest of a sequence. -/
theorem optionally {c : Prop} [Decidable c] {p : Parser β} {q : Parser α} (hp : Keeps p)
    (hq : Yields P q) : Yields P (if c then p >>= fun _ => q else q) :=
  ite (fun _ => hp.seq fun _ => hq) fun _ => hq

end Yields

/-! ### Tokens -/

theorem hasName_headD {ts : List Token} {eof : Token} (h : ∀ t ∈ ts, t.HasName)
    (heof : eof.kind = .eof) : (ts.headD eof).HasName := by
  cases ts with
  | nil =>
    intro hk
    rw [show ([] : List Token).headD eof = eof from rfl, heof] at hk
    rcases hk with hk | hk <;> cases hk
  | cons t ts => exact h t List.mem_cons_self

theorem yields_current : Yields Token.HasName current :=
  .observe fun _ hs => hasName_headD hs.tokens hs.eof

theorem yields_next : Yields Token.HasName next :=
  .observe fun _ hs => hasName_headD (fun t ht => hs.tokens t (List.mem_of_mem_drop ht)) hs.eof

theorem keeps_observe (f : State → α) : Keeps (observe f) := maintains_observe f

theorem keeps_advance : Keeps advance := maintains_advance

theorem keeps_record (code : Code) (place : Token) (args : List Arg)
    (hcode : code.stage = .parser) : Keeps (record code place args) :=
  maintains_record (T := fun _ => True) trivial code args hcode

theorem yields_reject (code : Code) (place : Token) (args : List Arg)
    (hcode : code.stage = .parser) : Yields P (reject code place args) :=
  ensures_reject (T := fun _ => True) trivial code args hcode

theorem yields_rejectEnd (place : Token) (expected : String) :
    Yields P (rejectEnd place expected) := ensures_rejectEnd trivial expected

theorem yields_rejectNext (expected : String) : Yields P (rejectNext expected) :=
  ensures_rejectNext expected

theorem keeps_expect (k : TokenKind) (expected : String) : Keeps (expect k expected) :=
  maintains_expect k expected

theorem keeps_skip (k : TokenKind) : Keeps (skip k) := maintains_skip k

theorem keeps_skipEither (k l : TokenKind) : Keeps (skipEither k l) := maintains_skipEither k l

theorem keeps_spanFrom (start : Token) : Keeps (spanFrom start) := maintains_spanFrom start

theorem keeps_markFrom (start : Token) : Keeps (markFrom start) := maintains_markFrom start

/-- After an expected token, that token is the current one. -/
theorem Yields.expect {k : TokenKind} {expected : String} {f : Token → Parser α}
    (h : ∀ t, t.HasName → t.kind = k → Yields P (f t)) :
    Yields P (Parser.expect k expected >>= fun _ => current >>= f) :=
  Ensures.expect (fun s hs => (yields_next s hs).2 _ rfl) h

/-! ### Loops -/

/-- **Loops**: the invariant holds at the start and each round keeps it. -/
theorem Yields.iterate {I : β → Prop} {round : β → Parser (Round β α)} {b : β} (hb : I b)
    (h : ∀ b, I b → Yields (Round.Holds I P) (round b)) : Yields P (Parser.iterate round b) :=
  Ensures.iterate hb h

theorem Yields.commaList {item : Parser α} (h : Yields P item) (close : TokenKind)
    (expected : String) : Yields (fun xs => ∀ a ∈ xs, P a) (commaList item close expected) :=
  Ensures.commaList h close expected

theorem Yields.commaListOrNone {item : Parser α} (h : Yields P item) (close : TokenKind)
    (expected : String) :
    Yields (fun xs => ∀ a ∈ xs, P a) (commaListOrNone item close expected) :=
  Ensures.commaListOrNone h close expected

/-! ### Nesting -/

theorem Yields.nested {p : Parser α} (h : Yields P p) : Yields P (Parser.nested p) :=
  Ensures.nested h

theorem yields_tooDeep : Yields P (tooDeep : Parser α) := ensures_tooDeep

theorem Yields.withRoom {p : Nat → Parser α} (h : ∀ n, Yields P (p n)) :
    Yields P (Parser.withRoom p) := Ensures.withRoom h

end Parser

end PatternPlan.Surface
