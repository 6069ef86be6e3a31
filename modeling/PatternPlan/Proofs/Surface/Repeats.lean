import Mathlib.Data.List.Forall2
import PatternPlan.Proofs.Surface.Accounts

/-!
# The same tokens once more

Two runs of a parser over the same tokens: the second may stand some lines further down or up, with
other diagnostics behind it and with fewer levels of nesting left.

* `Token.Moved` — the same token, `k` lines further down; `Token.Shifted`, `State.Moved` — the same
  tokens, `k` lines further down, or up where `k` is negative;
* `Parser.Refused` — how a run ends that meets the nesting limit: it gives up, one diagnostic says
  so, and **one level stays open**;
* `Parser.Matched` — how two runs end that do the same: with results that correspond, diagnostics of
  the same codes, and **all levels closed**;
* `Parser.Repeats` — **the second run does the same as the first, unless it meets the nesting limit**;
* one rule for each step, for sequences (`Repeats.bind`), loops (`Repeats.iterate`) and nesting.
-/

namespace PatternPlan

/-- The token `y` is the token `x`, but `k` lines further down. -/
structure Token.Moved (k : Nat) (x y : Token) : Prop where
  kind : y.kind = x.kind
  lexeme : y.lexeme = x.lexeme
  value : y.value = x.value
  line : y.line = x.line + k

/-- The token `y` is the token `x`, but `k` lines further down, or up where `k` is negative. -/
structure Token.Shifted (k : Int) (x y : Token) : Prop where
  kind : y.kind = x.kind
  lexeme : y.lexeme = x.lexeme
  value : y.value = x.value
  line : (y.line : Int) = x.line + k

instance (k : Int) (x y : Token) : Decidable (x.Shifted k y) :=
  decidable_of_iff (y.kind = x.kind ∧ y.lexeme = x.lexeme ∧ y.value = x.value ∧ (y.line : Int) = x.line + k)
    ⟨fun ⟨hkind, hlexeme, hvalue, hline⟩ => ⟨hkind, hlexeme, hvalue, hline⟩,
      fun h => ⟨h.kind, h.lexeme, h.value, h.line⟩⟩

instance (k : Int) (xs ys : List Token) : Decidable (List.Forall₂ (Token.Shifted k) xs ys) :=
  decidable_of_iff (xs.length = ys.length ∧ ∀ z ∈ xs.zip ys, z.1.Shifted k z.2)
    ⟨fun h => List.forall₂_iff_zip.mpr ⟨h.1, fun hz => h.2 _ hz⟩,
      fun h => ⟨h.length_eq, fun _ hz => (List.forall₂_iff_zip.mp h).2 hz⟩⟩

theorem Token.Moved.shifted {k : Nat} {x y : Token} (h : x.Moved k y) : x.Shifted k y :=
  ⟨h.kind, h.lexeme, h.value, by rw [h.line, Int.natCast_add]⟩

namespace Token.Shifted

variable {k : Int} {x y : Token}

theorem refl (x : Token) : x.Shifted 0 x := ⟨rfl, rfl, rfl, (Int.add_zero _).symm⟩

theorem symm (h : x.Shifted k y) : y.Shifted (-k) x :=
  ⟨h.kind.symm, h.lexeme.symm, h.value.symm, by rw [h.line, Int.add_neg_cancel_right]⟩

theorem text (h : x.Shifted k y) : y.text = x.text := by rw [Token.text, h.lexeme]; rfl

/-- Tokens stand on one line if they did before. -/
theorem line_eq {n m : Token} (hxy : x.Shifted k y) (hnm : n.Shifted k m) :
    (m.line = y.line) = (n.line = x.line) := by
  have hy := hxy.line
  have hm := hnm.line
  exact propext (by omega)

end Token.Shifted

namespace Surface

/-- The same tokens `k` lines further down, with as many levels open at least. -/
structure State.Moved (k : Int) (s t : State) : Prop where
  tokens : List.Forall₂ (Token.Shifted k) s.tokens t.tokens
  eof : s.eof.Shifted k t.eof
  depth : s.depth ≤ t.depth

namespace State.Moved

variable {k : Int} {s t : State}

theorem refl (s : State) : s.Moved 0 s :=
  ⟨List.forall₂_same.mpr fun x _ => .refl x, .refl _, Nat.le_refl _⟩

theorem headD {xs ys : List Token} {x y : Token} (h : List.Forall₂ (Token.Shifted k) xs ys)
    (hxy : x.Shifted k y) : (xs.headD x).Shifted k (ys.headD y) := by
  cases h with
  | nil => exact hxy
  | cons hhead _ => exact hhead

theorem current (h : s.Moved k t) : s.current.Shifted k t.current := headD h.tokens h.eof

theorem next (h : s.Moved k t) : s.next.Shifted k t.next :=
  headD (List.forall₂_drop 1 h.tokens) h.eof

theorem afterNext (h : s.Moved k t) : s.afterNext.Shifted k t.afterNext :=
  headD (List.forall₂_drop 2 h.tokens) h.eof

theorem length (h : s.Moved k t) : s.tokens.length = t.tokens.length := h.tokens.length_eq

end State.Moved

namespace Parser

variable {α β γ δ : Type}

/-! ### Two runs -/

/-- The diagnostic at the token where the nesting limit is met. -/
def tooDeepAt (x : Token) : Diagnostic := Diagnostic.new .nestingTooDeep x.span [.number maxNesting]

/-- Diagnostics of which none tells of the nesting limit. -/
def Shallow (es : List Diagnostic) : Prop := ∀ d ∈ es, d.code ≠ .nestingTooDeep

theorem Shallow.nil : Shallow [] := fun _ h => absurd h List.not_mem_nil

theorem Shallow.append {es fs : List Diagnostic} (h : Shallow es) (h' : Shallow fs) :
    Shallow (es ++ fs) := by
  intro d hd
  rcases List.mem_append.mp hd with hd | hd
  · exact h d hd
  · exact h' d hd

/-- A run that met the nesting limit: it gave up at one of the tokens left, and one level is open. -/
structure Refused (t : State) (r : Option β × State) : Prop where
  gave : r.1 = none
  depth : r.2.depth = t.depth + 1
  errors : ∃ es x, r.2.errors = t.errors ++ es ++ [tooDeepAt x] ∧ x ∈ t.tokens ++ [t.eof] ∧ Shallow es

/-- Two runs that did the same, with results that correspond. -/
structure Matched (k : Int) (R : α → β → Prop) (s t : State) (r : Option α × State)
    (r' : Option β × State) : Prop where
  result : Option.Rel R r.1 r'.1
  moved : r.2.Moved k r'.2
  depth : r.2.depth = s.depth ∧ r'.2.depth = t.depth
  tokens : r'.2.tokens <:+ t.tokens
  eof : r'.2.eof = t.eof
  errors : ∃ es fs, r.2.errors = s.errors ++ es ∧ r'.2.errors = t.errors ++ fs ∧
    es.map (·.code) = fs.map (·.code) ∧ Shallow fs

/-- **The second parser does what the first does**, on the same tokens further down, unless it may
meet the nesting limit (`F`) and does. -/
def Repeats (F : Prop) (k : Int) (R : α → β → Prop) (p : Parser α) (q : Parser β) : Prop :=
  ∀ s t : State, s.Moved k t → F ∧ Refused t (q t) ∨ Matched k R s t (p s) (q t)

/-- Two results that are the same under `f`. -/
def SameBy (f : α → γ) (a b : α) : Prop := f a = f b

/-- Nothing is said about the results. -/
abbrev RepeatsAny (F : Prop) (k : Int) (p : Parser α) (q : Parser β) : Prop :=
  Repeats F k (fun _ _ => True) p q

variable {F : Prop} {k : Int} {R : α → β → Prop} {S : γ → δ → Prop} {s t : State}

/-- Two runs that leave their states as they are. -/
theorem Matched.stay {o : Option α} {o' : Option β} (h : s.Moved k t) (ho : Option.Rel R o o') :
    Matched k R s t (o, s) (o', t) :=
  ⟨ho, h, ⟨rfl, rfl⟩, List.suffix_refl _, rfl, [], [], (List.append_nil _).symm,
    (List.append_nil _).symm, rfl, .nil⟩

/-- A run that does the same, and then meets the nesting limit. -/
theorem Matched.refused {u u' : State} {o : Option γ} {o' : Option δ} {r : Option β × State}
    (h : Matched k S s t (o, u) (o', u')) (h' : Refused u' r) : Refused t r := by
  obtain ⟨es, fs, -, hfs, -, hshallow⟩ := h.errors
  obtain ⟨gs, x, hgs, hx, hshallow'⟩ := h'.errors
  refine ⟨h'.gave, h'.depth.trans (congrArg (· + 1) h.depth.2), fs ++ gs, x, ?_, ?_, ?_⟩
  · rw [hgs]
    show u'.errors ++ gs ++ _ = _
    rw [hfs, List.append_assoc t.errors]
  · rw [h.eof] at hx
    rcases List.mem_append.mp hx with hx | hx
    · exact List.mem_append_left _ (h.tokens.subset hx)
    · exact List.mem_append_right _ hx
  · exact hshallow.append hshallow'

theorem Matched.trans {u u' : State} {o : Option γ} {o' : Option δ} {r : Option α × State}
    {r' : Option β × State} (h : Matched k S s t (o, u) (o', u')) (h' : Matched k R u u' r r') :
    Matched k R s t r r' := by
  obtain ⟨es, fs, hes, hfs, hcodes, hshallow⟩ := h.errors
  obtain ⟨es', fs', hes', hfs', hcodes', hshallow'⟩ := h'.errors
  refine ⟨h'.result, h'.moved, ⟨h'.depth.1.trans h.depth.1, h'.depth.2.trans h.depth.2⟩,
    h'.tokens.trans h.tokens, h'.eof.trans h.eof, es ++ es', fs ++ fs', ?_, ?_, ?_, ?_⟩
  · rw [hes', ← List.append_assoc]
    exact congrArg (· ++ es') hes
  · rw [hfs', ← List.append_assoc]
    exact congrArg (· ++ fs') hfs
  · rw [List.map_append, List.map_append, hcodes, hcodes']
  · exact hshallow.append hshallow'

namespace Repeats

theorem pure {a : α} {b : β} (h : R a b) : Repeats F k R (Pure.pure a : Parser α) (Pure.pure b : Parser β) :=
  fun _ _ hst => .inr (.stay hst (.some h))

theorem fail : Repeats F k R (Parser.fail : Parser α) (Parser.fail : Parser β) :=
  fun _ _ hst => .inr (.stay hst .none)

theorem observe {f : State → α} {g : State → β} (h : ∀ s t : State, s.Moved k t → R (f s) (g t)) :
    Repeats F k R (Parser.observe f) (Parser.observe g) :=
  fun s t hst => .inr (.stay hst (.some (h s t hst)))

theorem mono {F' : Prop} {R' : α → β → Prop} {p : Parser α} {q : Parser β} (h : Repeats F k R p q)
    (hF : F → F') (hR : ∀ a b, R a b → R' a b) : Repeats F' k R' p q := by
  intro s t hst
  rcases h s t hst with ⟨hf, href⟩ | hm
  · exact .inl ⟨hF hf, href⟩
  · refine .inr ⟨?_, hm.moved, hm.depth, hm.tokens, hm.eof, hm.errors⟩
    have hresult := hm.result
    generalize (p s).1 = o, (q t).1 = o' at hresult
    cases hresult with
    | some h => exact .some (hR _ _ h)
    | none => exact .none

/-- **Sequences**: what the first parsers return corresponds. -/
theorem bind {p : Parser γ} {q : Parser δ} {f : γ → Parser α} {g : δ → Parser β}
    (hp : Repeats F k S p q) (hf : ∀ c d, S c d → Repeats F k R (f c) (g d)) :
    Repeats F k R (p >>= f) (q >>= g) := by
  intro s t hst
  have hfirst := hp s t hst
  cases hq : q t with
  | mk o' u' =>
    cases hpr : p s with
    | mk o u =>
      rw [hq, hpr] at hfirst
      rcases hfirst with ⟨hF, href⟩ | hm
      · obtain rfl : o' = none := href.gave
        rw [run_bind_none hq]
        exact .inl ⟨hF, rfl, href.depth, href.errors⟩
      · cases o with
        | none =>
          cases o' with
          | none =>
            rw [run_bind_none hq, run_bind_none hpr]
            exact .inr ⟨.none, hm.moved, hm.depth, hm.tokens, hm.eof, hm.errors⟩
          | some d => cases hm.result
        | some c =>
          cases o' with
          | none => cases hm.result
          | some d =>
            have hcd : S c d := by
              cases hm.result
              assumption
            rw [run_bind_some hq, run_bind_some hpr]
            rcases hf c d hcd u u' hm.moved with ⟨hF, href⟩ | hm'
            · exact .inl ⟨hF, hm.refused href⟩
            · exact .inr (hm.trans hm')

/-- A sequence whose first parsers are run for their effect. -/
theorem seq {p : Parser γ} {q : Parser δ} {f : γ → Parser α} {g : δ → Parser β}
    (hp : RepeatsAny F k p q) (hf : ∀ c d, Repeats F k R (f c) (g d)) :
    Repeats F k R (p >>= f) (q >>= g) :=
  hp.bind fun c d _ => hf c d

theorem ite {c : Prop} [Decidable c] {p p' : Parser α} {q q' : Parser β} (hp : c → Repeats F k R p q)
    (hq : ¬ c → Repeats F k R p' q') :
    Repeats F k R (if c then p else p') (if c then q else q') := by
  split
  · exact hp ‹_›
  · exact hq ‹_›

/-! ### Loops -/

end Repeats

/-- Rounds that go on with values that correspond, or are done with such. -/
inductive Round.Rel (S : γ → δ → Prop) (R : α → β → Prop) : Round γ α → Round δ β → Prop
  | again {c : γ} {d : δ} : S c d → Round.Rel S R (.again c) (.again d)
  | done {a : α} {b : β} : R a b → Round.Rel S R (.done a) (.done b)

theorem Repeats.loop {round : γ → Parser (Round γ α)} {round' : δ → Parser (Round δ β)}
    (h : ∀ c d, S c d → Repeats F k (Round.Rel S R) (round c) (round' d)) (fuel : Nat) {c : γ} {d : δ}
    (hcd : S c d) : Repeats F k R (Parser.loop round fuel c) (Parser.loop round' fuel d) := by
  induction fuel generalizing c d with
  | zero => exact .fail
  | succ fuel ih =>
    refine .bind (h c d hcd) fun r r' hr => ?_
    cases hr with
    | again hcd => exact ih hcd
    | done hab => exact .pure hab

/-- **Loops**: the two runs take as many rounds, because as many tokens are left. -/
theorem Repeats.iterate {round : γ → Parser (Round γ α)} {round' : δ → Parser (Round δ β)} {c : γ}
    {d : δ} (hcd : S c d) (h : ∀ c d, S c d → Repeats F k (Round.Rel S R) (round c) (round' d)) :
    Repeats F k R (Parser.iterate round c) (Parser.iterate round' d) := by
  intro s t hst
  rw [Parser.iterate, Parser.iterate, hst.length]
  exact Repeats.loop h _ hcd s t hst

/-! ### Tokens -/

theorem repeats_current : Repeats F k (Token.Shifted k) current current :=
  .observe fun _ _ hst => hst.current

theorem repeats_next : Repeats F k (Token.Shifted k) next next :=
  .observe fun _ _ hst => hst.next

theorem repeats_currentIs (kind : TokenKind) : Repeats F k Eq (currentIs kind) (currentIs kind) :=
  .observe fun _ _ hst => by rw [hst.current.kind]

theorem repeats_nextIs (kind : TokenKind) : Repeats F k Eq (nextIs kind) (nextIs kind) :=
  .observe fun _ _ hst => by rw [hst.next.kind]

theorem repeats_spanFrom (x y : Token) : RepeatsAny F k (spanFrom x) (spanFrom y) :=
  .observe fun _ _ _ => trivial

theorem repeats_markFrom (x y : Token) : RepeatsAny F k (markFrom x) (markFrom y) :=
  .seq (repeats_spanFrom x y) fun _ _ => .pure trivial

theorem repeats_advance : RepeatsAny F k advance advance := by
  intro s t hst
  have htokens : List.Forall₂ (Token.Shifted k) s.tokens.tail t.tokens.tail := by
    rw [← List.drop_one, ← List.drop_one]
    exact List.forall₂_drop 1 hst.tokens
  exact .inr ⟨.some trivial, ⟨htokens, hst.eof, hst.depth⟩, ⟨rfl, rfl⟩, List.tail_suffix _, rfl, [], [],
    (List.append_nil _).symm, (List.append_nil _).symm, rfl, .nil⟩

theorem repeats_record {code : Code} (hcode : code ≠ .nestingTooDeep) (x y : Token) (args args' : List Arg) :
    RepeatsAny F k (record code x args) (record code y args') := by
  intro s t hst
  refine .inr ⟨.some trivial, ⟨hst.tokens, hst.eof, hst.depth⟩, ⟨rfl, rfl⟩, List.suffix_refl _, rfl, _, _,
    rfl, rfl, rfl, ?_⟩
  intro d hd
  rw [List.mem_singleton.mp hd]
  exact hcode

theorem repeats_reject {code : Code} (hcode : code ≠ .nestingTooDeep) (x y : Token) (args args' : List Arg) :
    Repeats F k R (reject code x args) (reject code y args') :=
  .seq (repeats_record hcode x y args args') fun _ _ => .fail

theorem repeats_rejectEnd (x y : Token) (expected : String) :
    Repeats F k R (rejectEnd x expected) (rejectEnd y expected) := by
  intro s t hst
  have hend : State.Moved k { s with incomplete := true } { t with incomplete := true } :=
    ⟨hst.tokens, hst.eof, hst.depth⟩
  rcases repeats_reject (F := F) (R := R) (by decide : Code.unexpectedEnd ≠ .nestingTooDeep) x y
    [.str expected] [.str expected] _ _ hend with ⟨hF, href⟩ | hm
  · exact .inl ⟨hF, href.gave, href.depth, href.errors⟩
  · exact .inr ⟨hm.result, hm.moved, hm.depth, hm.tokens, hm.eof, hm.errors⟩

theorem repeats_rejectNext (expected : String) :
    Repeats F k R (rejectNext expected) (rejectNext expected) := by
  refine .bind repeats_next fun x y hxy => ?_
  rw [hxy.kind]
  exact .ite (fun _ => repeats_rejectEnd x y expected) fun _ => repeats_reject (by decide) _ _ _ _

theorem repeats_expect (kind : TokenKind) (expected : String) :
    RepeatsAny F k (expect kind expected) (expect kind expected) := by
  refine .bind (repeats_nextIs kind) fun b _ hb => ?_
  subst hb
  exact .ite (fun _ => repeats_advance) fun _ => repeats_rejectNext expected

theorem repeats_skip (kind : TokenKind) : Repeats F k Eq (skip kind) (skip kind) := by
  refine .bind (repeats_nextIs kind) fun b _ hb => ?_
  subst hb
  exact .ite (fun _ => .seq repeats_advance fun _ _ => .pure rfl) fun _ => .pure rfl

/-- A choice that both runs make alike. -/
theorem Repeats.decided {f : Parser Bool} (hf : Repeats F k Eq f f) {p q : Parser α} {p' q' : Parser β}
    (hp : Repeats F k R p p') (hq : Repeats F k R q q') :
    Repeats F k R (f >>= fun b => if b = true then p else q)
      (f >>= fun b => if b = true then p' else q') := by
  refine .bind hf fun b _ hb => ?_
  subst hb
  exact .ite (fun _ => hp) fun _ => hq

/-- A choice by the next token, which is read if it has the kind. -/
theorem Repeats.skipIf {kind : TokenKind} {p q : Parser α} {p' q' : Parser β}
    (hp : Repeats F k R p p') (hq : Repeats F k R q q') :
    Repeats F k R (skip kind >>= fun b => if b = true then p else q)
      (skip kind >>= fun b => if b = true then p' else q') :=
  .decided (repeats_skip kind) hp hq

theorem repeats_skipEither (kind kind' : TokenKind) :
    Repeats F k Eq (skipEither kind kind') (skipEither kind kind') :=
  .skipIf (.pure rfl) (repeats_skip kind')

/-! ### Lists and nesting -/

theorem SameBy.snoc {f : α → γ} {xs ys : List α} {a b : α} (h : SameBy (List.map f) xs ys)
    (hab : SameBy f a b) : SameBy (List.map f) (xs ++ [a]) (ys ++ [b]) := by
  show (xs ++ [a]).map f = (ys ++ [b]).map f
  rw [List.map_append, List.map_append, show xs.map f = ys.map f from h, List.map_singleton,
    List.map_singleton, show f a = f b from hab]

theorem Repeats.commaList {f : α → γ} {item item' : Parser α} (h : Repeats F k (SameBy f) item item')
    (close : TokenKind) (expected : String) :
    Repeats F k (SameBy (List.map f)) (commaList item close expected)
      (commaList item' close expected) := by
  refine .iterate (S := SameBy (List.map f)) rfl fun xs ys hxs => ?_
  refine .seq repeats_advance fun _ _ => .bind h fun a b hab => ?_
  refine .skipIf (.pure (.again (hxs.snoc hab))) ?_
  exact .seq (repeats_expect _ _) fun _ _ => .pure (.done (hxs.snoc hab))

theorem Repeats.commaListOrNone {f : α → γ} {item item' : Parser α}
    (h : Repeats F k (SameBy f) item item') (close : TokenKind) (expected : String) :
    Repeats F k (SameBy (List.map f)) (commaListOrNone item close expected)
      (commaListOrNone item' close expected) :=
  .skipIf (.pure rfl) (h.commaList close expected)

/-- A level that is opened is closed again, whether or not one further down stays open. -/
theorem Repeats.nested {p : Parser α} {q : Parser β} (h : Repeats F k R p q) :
    Repeats F k R (Parser.nested p) (Parser.nested q) := by
  intro s t hst
  have hdeeper : State.Moved k { s with depth := s.depth + 1 } { t with depth := t.depth + 1 } :=
    ⟨hst.tokens, hst.eof, Nat.succ_le_succ hst.depth⟩
  rcases h _ _ hdeeper with ⟨hF, href⟩ | hm
  · refine .inl ⟨hF, href.gave, ?_, href.errors⟩
    have hdepth : _ = t.depth + 1 + 1 := href.depth
    show _ - 1 = t.depth + 1
    rw [hdepth]
    rfl
  · have hdepth : _ = s.depth + 1 ∧ _ = t.depth + 1 := hm.depth
    have hs : (Parser.nested p s).2.depth = s.depth := congrArg (· - 1) hdepth.1
    have ht : (Parser.nested q t).2.depth = t.depth := congrArg (· - 1) hdepth.2
    refine .inr ⟨hm.result, ⟨hm.moved.tokens, hm.moved.eof, ?_⟩, ⟨hs, ht⟩, hm.tokens, hm.eof, hm.errors⟩
    show (Parser.nested p s).2.depth ≤ (Parser.nested q t).2.depth
    rw [hs, ht]
    exact hst.depth

/-- Where no level is left, the second run is refused. -/
theorem repeats_tooDeep {p : Parser α} : Repeats True k R p (tooDeep : Parser β) := by
  intro s t _
  refine .inl ⟨trivial, rfl, rfl, [], t.current, ?_, ?_, .nil⟩
  · rw [List.append_nil]
    rfl
  · rw [State.current]
    cases t.tokens with
    | nil => exact List.mem_singleton_self _
    | cons x xs => exact List.mem_cons_self

theorem Repeats.withRoom {p : Nat → Parser α} {q : Nat → Parser β}
    (h : ∀ room room', room' ≤ room → Repeats F k R (p room) (q room')) :
    Repeats F k R (Parser.withRoom p) (Parser.withRoom q) := by
  intro s t hst
  have hdepth := hst.depth
  exact h _ _ (by omega) s t hst

end Parser

end Surface

end PatternPlan
