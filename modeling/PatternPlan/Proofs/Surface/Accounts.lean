import PatternPlan.Proofs.Surface.Ensures

/-!
# Accounting for tokens

A logic for parsers that says which tokens they use up, and what they do where the input ends.

The token a parser stands on has been read or not, depending on the place in the grammar.  A parser
that accounts for tokens *from `k` to `j`* may rely on `k` tokens that are left (the one it stands on,
and those it has looked at), and leaves `j` of them.

* `State.Reaches` — what no parser undoes: tokens are used up from the left, diagnostics and the mark
  of an early end stay;
* `State.cut` — the same state with fewer tokens before the end of input;
* `Ends` — the three ways in which a parser may stop at the end of input;
* `Tracks` — **a parser that records no error returns something**, and on a cut input it does the same
  as long as the cut is behind what it reads;
* `Accounts` — the same of a parser that can also be run where the input ends;
* one rule for each step, for sequences (`Tracks.bind`), loops (`Accounts.iterate`) and nesting.
-/

namespace PatternPlan.Surface

namespace State

/-- A state in which only the end of input looks like it. -/
structure Whole (s : State) : Prop where
  tokens : ∀ t ∈ s.tokens, t.kind ≠ .eof
  eof : s.eof.kind = .eof

/-- What running a parser does not undo. -/
structure Reaches (s s' : State) : Prop where
  tokens : s'.tokens <:+ s.tokens
  eof : s'.eof = s.eof
  errors : s.errors <+: s'.errors
  incomplete : s.incomplete = true → s'.incomplete = true

/-- The state whose input ends, with the token `e`, after `n` more tokens. -/
def cut (s : State) (n : Nat) (e : Token) : State := { s with tokens := s.tokens.take n, eof := e }

variable {s s' s'' : State} {n : Nat} {e : Token}

theorem Reaches.refl (s : State) : s.Reaches s :=
  ⟨List.suffix_refl _, rfl, List.prefix_refl _, id⟩

theorem Reaches.trans (h : s.Reaches s') (h' : s'.Reaches s'') : s.Reaches s'' :=
  ⟨h'.tokens.trans h.tokens, h'.eof.trans h.eof, h.errors.trans h'.errors,
    fun hs => h'.incomplete (h.incomplete hs)⟩

theorem Reaches.whole (h : s.Reaches s') (hs : s.Whole) : s'.Whole :=
  ⟨fun t ht => hs.tokens t (h.tokens.subset ht), h.eof ▸ hs.eof⟩

theorem Reaches.length_le (h : s.Reaches s') : s'.tokens.length ≤ s.tokens.length :=
  h.tokens.length_le

/-- If no error is recorded in two steps, none is recorded in the first. -/
theorem Reaches.errors_eq (h : s.Reaches s') (h' : s'.Reaches s'') (heq : s''.errors = s.errors) :
    s'.errors = s.errors :=
  (h.errors.eq_of_length_le (heq ▸ h'.errors.length_le)).symm

theorem Whole.cut (h : s.Whole) (he : e.kind = .eof) (n : Nat) : (s.cut n e).Whole :=
  ⟨fun t ht => h.tokens t (List.mem_of_mem_take ht), he⟩

theorem length_cut (h : n ≤ s.tokens.length) : (s.cut n e).tokens.length = n :=
  List.length_take_of_le h

theorem current_cut (h : 1 ≤ n) (hle : n ≤ s.tokens.length) : (s.cut n e).current = s.current := by
  obtain ⟨ts, eof, errors, incomplete, depth⟩ := s
  cases ts with
  | nil =>
    have hzero : n = 0 := Nat.le_zero.mp hle
    omega
  | cons t ts =>
    cases n with
    | zero => exact absurd h (Nat.not_succ_le_zero 0)
    | succ n => rfl

theorem next_cut (h : 2 ≤ n) (hle : n ≤ s.tokens.length) : (s.cut n e).next = s.next := by
  show ((s.tokens.take n).drop 1).headD e = (s.tokens.drop 1).headD s.eof
  rw [List.drop_take]
  cases hrest : s.tokens.drop 1 with
  | nil =>
    have hlength := congrArg List.length hrest
    rw [List.length_drop, List.length_nil] at hlength
    omega
  | cons t ts =>
    obtain ⟨m, rfl⟩ : ∃ m, n = m + 2 := ⟨n - 2, by omega⟩
    rfl

theorem afterNext_cut (h : 3 ≤ n) (hle : n ≤ s.tokens.length) :
    (s.cut n e).afterNext = s.afterNext := by
  show ((s.tokens.take n).drop 2).headD e = (s.tokens.drop 2).headD s.eof
  rw [List.drop_take]
  cases hrest : s.tokens.drop 2 with
  | nil =>
    have hlength := congrArg List.length hrest
    rw [List.length_drop, List.length_nil] at hlength
    omega
  | cons t ts =>
    obtain ⟨m, rfl⟩ : ∃ m, n = m + 3 := ⟨n - 3, by omega⟩
    rfl

theorem afterNext_eq_eof (hlength : s.tokens.length ≤ 2) : s.afterNext = s.eof := by
  rw [afterNext, List.drop_eq_nil_of_le hlength]
  rfl

theorem Whole.current_kind (h : s.Whole) (hlength : 1 ≤ s.tokens.length) :
    s.current.kind ≠ .eof := by
  obtain ⟨ts, eof, errors, incomplete, depth⟩ := s
  cases ts with
  | nil => exact absurd hlength (Nat.not_succ_le_zero 0)
  | cons t ts => exact h.tokens t List.mem_cons_self

theorem Whole.next_kind (h : s.Whole) (hlength : 2 ≤ s.tokens.length) : s.next.kind ≠ .eof := by
  cases hrest : s.tokens.drop 1 with
  | nil =>
    have hempty := congrArg List.length hrest
    rw [List.length_drop, List.length_nil] at hempty
    omega
  | cons t ts =>
    have hnext : s.next = t := by rw [next, hrest, List.headD_cons]
    have hmem : t ∈ s.tokens := List.mem_of_mem_drop (hrest ▸ List.mem_cons_self)
    exact hnext ▸ h.tokens t hmem

theorem next_eq_eof (hlength : s.tokens.length ≤ 1) : s.next = s.eof := by
  rw [next, List.drop_eq_nil_of_le hlength]
  rfl

theorem current_eq_eof (hlength : s.tokens.length = 0) : s.current = s.eof := by
  rw [current, List.length_eq_zero_iff.mp hlength]
  rfl

theorem length_advance (s : State) : (Parser.advance s).2.tokens.length = s.tokens.length - 1 :=
  List.length_tail

theorem cut_advance (s : State) (n : Nat) (e : Token) :
    (Parser.advance (s.cut n e)).2 = (Parser.advance s).2.cut (n - 1) e := by
  show { s with tokens := (s.tokens.take n).tail, eof := e }
    = { s with tokens := s.tokens.tail.take (n - 1), eof := e }
  rw [← List.drop_one, ← List.drop_one, List.drop_take]

end State

namespace Parser

variable {α β γ : Type} {N k i j n : Nat} {U : α → Prop} {V : β → Prop}
variable {p : Parser β} {f : β → Parser α} {s t : State} {e : Token}

/-! ### Where the input ends -/

/-- What is recorded where the input ends in the same words as for any other token that was not
expected, and without marking the end. -/
def unmarked (e : Token) : List Diagnostic :=
  (["type", "field name or ..", "fn, pattern or type"].map fun expected =>
    Diagnostic.new .unexpectedToken e.span [.str expected, .str e.described])
    ++ [Diagnostic.new .nestingTooDeep e.span [.number maxNesting]]

/-- How a parser may stop at the end of input: it marks the early end, it gives up with a diagnostic
of its own, or it returns something with `j` tokens left. -/
def Ends (j : Nat) (s : State) (r : Option α × State) : Prop :=
  r.2.incomplete = true ∨
  (r.1 = none ∧ r.2.tokens = [] ∧ ∃ d ∈ unmarked s.eof, r.2.errors = s.errors ++ [d]) ∨
  (r.1.isSome = true ∧ r.2.tokens.length = j ∧ r.2.errors = s.errors)

theorem Ends.of_same {r : Option α × State} (h : Ends j t r) (herrors : t.errors = s.errors)
    (heof : t.eof = s.eof) : Ends j s r := by
  unfold Ends at h ⊢
  rw [herrors, heof] at h
  exact h

/-- A sequence whose first parser stops at the end of input. -/
theorem Ends.bind (h : Ends i s (p s)) (hreach : s.Reaches (p s).2)
    (hmoves : ∀ (b : β) (t : State), t.Reaches (f b t).2)
    (hclose : ∀ b t, p s = (some b, t) → t.errors = s.errors → t.tokens.length = i →
      Ends j t (f b t)) : Ends j s ((p >>= f) s) := by
  cases hrun : p s with
  | mk r t =>
    rw [hrun] at h hreach
    cases r with
    | none =>
      rw [run_bind_none hrun]
      rcases h with hmarked | hgiven | ⟨hsome, -⟩
      · exact .inl hmarked
      · exact .inr (.inl ⟨rfl, hgiven.2⟩)
      · cases hsome
    | some b =>
      rw [run_bind_some hrun]
      rcases h with hmarked | ⟨hnone, -⟩ | ⟨-, hlength, herrors⟩
      · exact .inl ((hmoves b t).incomplete hmarked)
      · cases hnone
      · exact (hclose b t hrun herrors hlength).of_same herrors hreach.eof

/-! ### Parsers that account for tokens -/

/-- On the input cut after `n` tokens the parser returns the same, and what it leaves is cut too. -/
def Echoes (j : Nat) (p : Parser α) (s : State) (n : Nat) (e : Token) (a : α) (t : State) : Prop :=
  ∃ m, p (s.cut n e) = (some a, t.cut m e) ∧ j ≤ m ∧ t.tokens.length + n = s.tokens.length + m

/-- **A parser that keeps track of tokens**, from `k` to `j` of them, where less than `N` are left.
What it returns with `U` has used up a token. -/
structure Tracks (N k j : Nat) (U : α → Prop) (p : Parser α) : Prop where
  moves : ∀ s : State, s.Reaches (p s).2
  clean : ∀ s : State, s.Whole → k ≤ s.tokens.length → s.tokens.length < N →
    (p s).2.errors = s.errors →
    ∃ a, (p s).1 = some a ∧ j ≤ (p s).2.tokens.length ∧
      (U a → (p s).2.tokens.length < s.tokens.length)
  cuts : ∀ (s : State) (n : Nat) (e : Token), s.Whole → e.kind = .eof → k ≤ n →
    n ≤ s.tokens.length → s.tokens.length < N → ∀ a t, p s = (some a, t) → t.errors = s.errors →
      Echoes j p s n e a t ∨ Ends j (s.cut n e) (p (s.cut n e))

/-- **A parser that accounts for tokens**: it can be run where the input ends, too. -/
structure Accounts (N k j : Nat) (U : α → Prop) (p : Parser α) : Prop extends Tracks N k j U p where
  closes : ∀ s : State, s.Whole → s.tokens.length = k → s.tokens.length < N → Ends j s (p s)

/-- Nothing is said about tokens that are used up. -/
abbrev Reads (N k j : Nat) (p : Parser α) : Prop := Accounts N k j (fun _ => False) p

namespace Tracks

/-- Behind a cut at the `k`-th token the input ends. -/
theorem of_closes {p : Parser α} (hmoves : ∀ s : State, s.Reaches (p s).2)
    (hclean : ∀ s : State, s.Whole → k ≤ s.tokens.length → s.tokens.length < N →
      (p s).2.errors = s.errors → ∃ a, (p s).1 = some a ∧ j ≤ (p s).2.tokens.length ∧
        (U a → (p s).2.tokens.length < s.tokens.length))
    (hcuts : ∀ (s : State) (n : Nat) (e : Token), s.Whole → e.kind = .eof → k < n →
      n ≤ s.tokens.length → s.tokens.length < N → ∀ a t, p s = (some a, t) → t.errors = s.errors →
        Echoes j p s n e a t ∨ Ends j (s.cut n e) (p (s.cut n e)))
    (hcloses : ∀ s : State, s.Whole → s.tokens.length = k → s.tokens.length < N → Ends j s (p s)) :
    Accounts N k j U p := by
  refine ⟨⟨hmoves, hclean, ?_⟩, hcloses⟩
  intro s n e hs he hk hn hN a t hrun herrors
  by_cases hlt : k < n
  · exact hcuts s n e hs he hlt hn hN a t hrun herrors
  · have hlength : (s.cut n e).tokens.length = n := State.length_cut hn
    exact .inr (hcloses _ (hs.cut he n) (by omega) (by omega))

theorem mono {p : Parser α} {M l : Nat} {W : α → Prop} (h : Tracks N k j U p) (hM : M ≤ N)
    (hl : k ≤ l) (hW : ∀ a, W a → U a) : Tracks M l j W p := by
  refine ⟨h.moves, ?_, ?_⟩
  · intro s hs hlength hlt herrors
    obtain ⟨a, ha, hj, hU⟩ := h.clean s hs (by omega) (by omega) herrors
    exact ⟨a, ha, hj, fun hw => hU (hW a hw)⟩
  · intro s n e hs he hln hn hlt
    exact h.cuts s n e hs he (by omega) hn (by omega)

end Tracks

theorem Accounts.mono {p : Parser α} {M : Nat} {W : α → Prop} (h : Accounts N k j U p) (hM : M ≤ N)
    (hW : ∀ a, W a → U a) : Accounts M k j W p :=
  ⟨h.toTracks.mono hM (Nat.le_refl _) hW, fun s hs hk hlt => h.closes s hs hk (by omega)⟩

/-- A parser of which something is said is one of which less is said. -/
theorem Tracks.later {p : Parser α} {l : Nat} (h : Tracks N k j U p) (hl : k ≤ l) :
    Tracks N l j U p :=
  h.mono (Nat.le_refl _) hl fun _ => id

/-! ### Sequences -/

theorem reaches_bind (hp : ∀ s : State, s.Reaches (p s).2)
    (hf : ∀ (b : β) (s : State), s.Reaches (f b s).2) (s : State) :
    (p s).2.Reaches ((p >>= f) s).2 ∧ s.Reaches ((p >>= f) s).2 := by
  have hfirst := hp s
  cases hrun : p s with
  | mk r t =>
    rw [hrun] at hfirst
    cases r with
    | none =>
      rw [run_bind_none hrun]
      exact ⟨.refl t, hfirst⟩
    | some b =>
      rw [run_bind_some hrun]
      exact ⟨hf b t, hfirst.trans (hf b t)⟩

theorem reaches_second (hmoved : ∀ b, V b → Reads (N - 1) i j (f b))
    (hstill : ∀ b, ¬ V b → Accounts N i j U (f b)) (b : β) (s : State) : s.Reaches (f b s).2 := by
  by_cases hb : V b
  · exact (hmoved b hb).moves s
  · exact (hstill b hb).moves s

/-- What is known of the second parser of a sequence and of the state in which it starts, whether or
not the first has used up a token. -/
theorem Tracks.second (hp : Tracks N k i V p) (hmoved : ∀ b, V b → Reads (N - 1) i j (f b))
    (hstill : ∀ b, ¬ V b → Accounts N i j U (f b)) (hs : s.Whole) (hk : k ≤ s.tokens.length)
    (hN : s.tokens.length < N) {b : β} (hrun : p s = (some b, t)) (herrors : t.errors = s.errors) :
    t.Whole ∧ i ≤ t.tokens.length ∧ t.tokens.length ≤ s.tokens.length ∧
      ∃ M W, Accounts M i j W (f b) ∧ t.tokens.length < M ∧
        ∀ a, U a → W a ∨ t.tokens.length < s.tokens.length := by
  have hreach := hp.moves s
  have hclean := hp.clean s hs hk hN
  rw [hrun] at hreach hclean
  obtain ⟨b', hb', hi, hless⟩ := hclean herrors
  cases hb'
  have hle : t.tokens.length ≤ s.tokens.length := hreach.length_le
  refine ⟨hreach.whole hs, hi, hle, ?_⟩
  by_cases hb : V b
  · have hlt : t.tokens.length < s.tokens.length := hless hb
    exact ⟨N - 1, _, hmoved b hb, by omega, fun _ _ => .inr hlt⟩
  · exact ⟨N, U, hstill b hb, by omega, fun _ hU => .inl hU⟩

/-- **Sequences.**  If what the first parser returns has used up a token, nothing more is asked of
the second one, and there is a token less before it. -/
theorem Tracks.bind (hp : Tracks N k i V p) (hmoved : ∀ b, V b → Reads (N - 1) i j (f b))
    (hstill : ∀ b, ¬ V b → Accounts N i j U (f b)) : Tracks N k j U (p >>= f) := by
  have hmoves := reaches_second hmoved hstill
  constructor
  · intro s
    exact (reaches_bind hp.moves hmoves s).2
  · intro s hs hk hN herrors
    have hreach := hp.moves s
    have hclean := hp.clean s hs hk hN
    cases hrun : p s with
    | mk r t =>
      rw [hrun] at hreach hclean
      cases r with
      | none =>
        rw [run_bind_none hrun] at herrors
        obtain ⟨b, hb, -⟩ := hclean herrors
        cases hb
      | some b =>
        rw [run_bind_some hrun] at herrors ⊢
        have hsame := hreach.errors_eq (hmoves b t) herrors
        obtain ⟨ht, hi, hle, M, W, hf, hM, hUW⟩ := hp.second hmoved hstill hs hk hN hrun hsame
        obtain ⟨a, ha, hj, hW⟩ := hf.clean t ht hi hM (herrors.trans hsame.symm)
        have hle' := (hmoves b t).length_le
        refine ⟨a, ha, hj, fun hU => ?_⟩
        rcases hUW a hU with hw | hlt
        · exact Nat.lt_of_lt_of_le (hW hw) hle
        · exact Nat.lt_of_le_of_lt hle' hlt
  · intro s n e hs he hk hn hN a t hrun herrors
    have hreach := hp.moves s
    cases hfirst : p s with
    | mk r u =>
      rw [hfirst] at hreach
      cases r with
      | none =>
        rw [run_bind_none hfirst] at hrun
        cases hrun
      | some b =>
        rw [run_bind_some hfirst] at hrun
        have hsecond := hmoves b u
        rw [hrun] at hsecond
        have hsame := hreach.errors_eq hsecond herrors
        obtain ⟨hu, -, -, M, W, hf, hM, -⟩ := hp.second hmoved hstill hs (by omega) hN hfirst hsame
        rcases hp.cuts s n e hs he hk hn hN b u hfirst hsame with ⟨m, hcut, him, hlength⟩ | hends
        · rcases hf.cuts u m e hu he him (by omega) hM a t hrun (herrors.trans hsame.symm) with
            ⟨l, hlast, hjl, hlengths⟩ | hends
          · refine .inl ⟨l, ?_, hjl, by omega⟩
            rw [run_bind_some hcut, hlast]
          · right
            rw [run_bind_some hcut]
            exact hends.of_same hsame rfl
        · right
          refine hends.bind (hp.moves _) hmoves fun c v hc hv hlength => ?_
          have hcutlength : (s.cut n e).tokens.length = n := State.length_cut hn
          obtain ⟨hv', -, -, M, W, hf, hM, -⟩ :=
            hp.second hmoved hstill (hs.cut he n) (by omega) (by omega) hc hv
          exact hf.closes v hv' hlength hM

theorem Accounts.bind (hp : Accounts N k i V p) (hmoved : ∀ b, V b → Reads (N - 1) i j (f b))
    (hstill : ∀ b, ¬ V b → Accounts N i j U (f b)) : Accounts N k j U (p >>= f) := by
  refine ⟨hp.toTracks.bind hmoved hstill, fun s hs hk hN => ?_⟩
  refine (hp.closes s hs hk hN).bind (hp.moves s) (reaches_second hmoved hstill)
    fun b t hrun herrors hlength => ?_
  obtain ⟨ht, -, -, M, W, hf, hM, -⟩ :=
    hp.toTracks.second hmoved hstill hs (Nat.le_of_eq hk.symm) hN hrun herrors
  exact hf.closes t ht hlength hM

/-- A sequence of parsers of which nothing is said about the tokens the first one uses up. -/
theorem Tracks.seq (hp : Tracks N k i (fun _ => False) p) (hf : ∀ b, Accounts N i j U (f b)) :
    Tracks N k j U (p >>= f) :=
  hp.bind (fun _ h => h.elim) fun b _ => hf b

theorem Accounts.seq (hp : Reads N k i p) (hf : ∀ b, Accounts N i j U (f b)) :
    Accounts N k j U (p >>= f) :=
  hp.bind (fun _ h => h.elim) fun b _ => hf b

/-- A sequence whose first parser uses up a token. -/
theorem Tracks.moved (hp : Tracks N k i (fun _ => True) p) (hf : ∀ b, Reads (N - 1) i j (f b)) :
    Tracks N k j U (p >>= f) :=
  hp.bind (fun b _ => hf b) fun _ h => absurd trivial h

theorem Accounts.moved (hp : Accounts N k i (fun _ => True) p)
    (hf : ∀ b, Reads (N - 1) i j (f b)) : Accounts N k j U (p >>= f) :=
  hp.bind (fun b _ => hf b) fun _ h => absurd trivial h

theorem Accounts.pure {a : α} (h : ¬ U a) : Accounts N k k U (Pure.pure a : Parser α) := by
  refine ⟨⟨State.Reaches.refl, ?_, ?_⟩, ?_⟩
  · intro s hs hk hN herrors
    exact ⟨a, rfl, hk, fun hU => absurd hU h⟩
  · intro s n e hs he hk hn hN b t hrun herrors
    cases hrun
    exact .inl ⟨n, rfl, hk, rfl⟩
  · intro s hs hk hN
    exact .inr (.inr ⟨rfl, hk, rfl⟩)

theorem Tracks.ite {c : Prop} [Decidable c] {p q : Parser α} (hp : c → Tracks N k j U p)
    (hq : ¬ c → Tracks N k j U q) : Tracks N k j U (if c then p else q) := by
  split
  · exact hp ‹_›
  · exact hq ‹_›

theorem Accounts.ite {c : Prop} [Decidable c] {p q : Parser α} (hp : c → Accounts N k j U p)
    (hq : ¬ c → Accounts N k j U q) : Accounts N k j U (if c then p else q) := by
  split
  · exact hp ‹_›
  · exact hq ‹_›

/-! ### Giving up -/

/-- A parser that always gives up, and records why. -/
structure Refuses (p : Parser α) : Prop where
  moves : ∀ s : State, s.Reaches (p s).2
  gives : ∀ s : State, (p s).1 = none ∧ (p s).2.errors ≠ s.errors

theorem Refuses.tracks {p : Parser α} (h : Refuses p) : Tracks N k j U p := by
  refine ⟨h.moves, ?_, ?_⟩
  · intro s hs hk hN herrors
    exact absurd herrors (h.gives s).2
  · intro s n e hs he hk hn hN a t hrun herrors
    have hnone := (h.gives s).1
    rw [hrun] at hnone
    cases hnone

/-- A sequence that records something in any case accounts for nothing. -/
theorem Tracks.recording (hp : ∀ s : State, s.Reaches (p s).2 ∧ (p s).2.errors ≠ s.errors)
    (hf : ∀ (b : β) (s : State), s.Reaches (f b s).2) : Tracks N k j U (p >>= f) := by
  have hreach := reaches_bind (fun s => (hp s).1) hf
  have hnever : ∀ s : State, ((p >>= f) s).2.errors ≠ s.errors := fun s herrors =>
    (hp s).2 ((hp s).1.errors_eq (hreach s).1 herrors)
  refine ⟨fun s => (hreach s).2, ?_, ?_⟩
  · intro s _ _ _ herrors
    exact absurd herrors (hnever s)
  · intro s n e _ _ _ _ _ a t hrun herrors
    have hsome := hnever s
    rw [hrun] at hsome
    exact absurd herrors hsome

theorem refuses_reject (code : Code) (place : Token) (args : List Arg) :
    Refuses (reject code place args : Parser α) := by
  constructor
  · intro s
    exact ⟨List.suffix_refl _, rfl, List.prefix_append _ _, id⟩
  · intro s
    refine ⟨rfl, ?_⟩
    show s.errors ++ [Diagnostic.new code place.span args] ≠ s.errors
    simp

theorem refuses_rejectEnd (place : Token) (expected : String) :
    Refuses (rejectEnd place expected : Parser α) := by
  constructor
  · intro s
    exact ⟨List.suffix_refl _, rfl, List.prefix_append _ _, fun _ => rfl⟩
  · intro s
    refine ⟨rfl, ?_⟩
    show s.errors ++ [Diagnostic.new .unexpectedEnd place.span [.str expected]] ≠ s.errors
    simp

theorem rejectNext_eq (expected : String) (s : State) :
    (rejectNext expected : Parser α) s = if s.next.kind = .eof then rejectEnd s.next expected s
      else reject .unexpectedToken s.next [.str expected, .str s.next.described] s := by
  show (if s.next.kind = .eof then rejectEnd s.next expected
    else reject .unexpectedToken s.next [.str expected, .str s.next.described] : Parser α) s = _
  split <;> rfl

theorem refuses_rejectNext (expected : String) : Refuses (rejectNext expected : Parser α) := by
  constructor
  · intro s
    rw [rejectNext_eq]
    split
    · exact (refuses_rejectEnd _ _).moves s
    · exact (refuses_reject _ _ _).moves s
  · intro s
    rw [rejectNext_eq]
    split
    · exact (refuses_rejectEnd _ _).gives s
    · exact (refuses_reject _ _ _).gives s

/-- Where the next token is missing, the early end is marked. -/
theorem accounts_rejectNext (expected : String) :
    Accounts N 1 j U (rejectNext expected : Parser α) := by
  refine ⟨(refuses_rejectNext expected).tracks, fun s hs hk hN => ?_⟩
  rw [rejectNext_eq, State.next_eq_eof (Nat.le_of_eq hk), if_pos hs.eof]
  exact .inl rfl

/-! ### Looking at tokens -/

/-- What is seen of the first `k` tokens is seen behind every cut. -/
theorem Tracks.observe {h : State → β} {g : β → Parser α}
    (hsame : ∀ (s : State) (n : Nat) (e : Token), k ≤ n → n ≤ s.tokens.length → h (s.cut n e) = h s)
    (hg : ∀ b, Tracks N k j U (g b)) : Tracks N k j U (Parser.observe h >>= g) := by
  refine ⟨fun s => (hg (h s)).moves s, fun s => (hg (h s)).clean s, ?_⟩
  intro s n e hs he hk hn hN a t hrun herrors
  have hcut := (hg (h s)).cuts s n e hs he hk hn hN a t hrun herrors
  have hrun' : (Parser.observe h >>= g) (s.cut n e) = g (h s) (s.cut n e) := by
    show g (h (s.cut n e)) (s.cut n e) = _
    rw [hsame s n e hk hn]
  unfold Echoes at hcut ⊢
  rw [hrun']
  exact hcut

theorem Accounts.observe {h : State → β} {g : β → Parser α}
    (hsame : ∀ (s : State) (n : Nat) (e : Token), k ≤ n → n ≤ s.tokens.length → h (s.cut n e) = h s)
    (hg : ∀ b, Accounts N k j U (g b)) : Accounts N k j U (Parser.observe h >>= g) :=
  ⟨.observe hsame fun b => (hg b).toTracks, fun s => (hg (h s)).closes s⟩

/-- The token a parser stands on is seen behind every cut. -/
theorem Tracks.look {g : Token → Parser α} (h : ∀ t, Tracks N (k + 1) j U (g t)) :
    Tracks N (k + 1) j U (current >>= g) :=
  .observe (fun _ _ _ hk hn => State.current_cut (by omega) hn) h

theorem Accounts.look {g : Token → Parser α} (h : ∀ t, Accounts N (k + 1) j U (g t)) :
    Accounts N (k + 1) j U (current >>= g) :=
  .observe (fun _ _ _ hk hn => State.current_cut (by omega) hn) h

theorem Accounts.span {start : Token} {g : Span → Parser α}
    (h : ∀ b, Accounts N (k + 1) j U (g b)) : Accounts N (k + 1) j U (spanFrom start >>= g) := by
  refine .observe (fun s n e hk hn => ?_) h
  show start.span.join (s.cut n e).current.span = start.span.join s.current.span
  rw [State.current_cut (by omega) hn]

/-- A node is built when its last token has been read. -/
theorem Accounts.mark {start : Token} {g : Mark → Parser α}
    (h : ∀ m, Accounts N (k + 1) j U (g m)) : Accounts N (k + 1) j U (markFrom start >>= g) := by
  show Accounts N (k + 1) j U (spanFrom start >>= fun b => g ⟨start, b⟩)
  exact .span fun b => h _

/-- **Where a construct starts**, the token is seen first.  If there is none, the input ends here. -/
theorem Accounts.start {g : Token → Parser α} (h : ∀ t, t.kind ≠ .eof → Tracks N 1 j U (g t))
    (hend : ∀ t, t.kind = .eof → Tracks N 0 j U (g t))
    (hcloses : ∀ s : State, s.Whole → s.tokens.length = 0 → s.tokens.length < N →
      Ends j s (g s.eof s)) : Accounts N 0 j U (current >>= g) := by
  refine Tracks.of_closes ?_ ?_ ?_ ?_
  · intro s
    by_cases hk : s.current.kind = .eof
    · exact (hend _ hk).moves s
    · exact (h _ hk).moves s
  · intro s hs _ hN herrors
    by_cases hlength : s.tokens.length = 0
    · have heof : s.current.kind = .eof := State.current_eq_eof hlength ▸ hs.eof
      exact (hend _ heof).clean s hs (Nat.zero_le _) hN herrors
    · have hpos : 1 ≤ s.tokens.length := by omega
      exact (h _ (hs.current_kind hpos)).clean s hs hpos hN herrors
  · intro s n e hs he hn hle hN a t hrun herrors
    have hcut := (h _ (hs.current_kind (by omega))).cuts s n e hs he hn hle hN a t hrun herrors
    have hrun' : (current >>= g) (s.cut n e) = g s.current (s.cut n e) := by
      show g (s.cut n e).current (s.cut n e) = _
      rw [State.current_cut hn hle]
    unfold Echoes at hcut ⊢
    rw [hrun']
    exact hcut
  · intro s hs hlength hN
    have hclose := hcloses s hs hlength hN
    rw [← State.current_eq_eof hlength] at hclose
    exact hclose

/-- A choice by the token a construct starts with. -/
theorem Accounts.currentIs {kind : TokenKind} {g : Bool → Parser α} (hkind : kind ≠ .eof)
    (htrue : Tracks N 1 j U (g true)) (hfalse : Accounts N 0 j U (g false)) :
    Accounts N 0 j U (Parser.currentIs kind >>= g) := by
  have hnot : ∀ t : Token, t.kind = .eof → decide (t.kind = kind) = false := by
    intro t ht
    rw [ht]
    exact decide_eq_false hkind.symm
  refine Accounts.start (g := fun t => g (decide (t.kind = kind))) (fun t _ => ?_) (fun t ht => ?_)
    fun s hs hlength hN => ?_
  · cases decide (t.kind = kind) with
    | true => exact htrue
    | false => exact hfalse.toTracks.later (Nat.zero_le 1)
  · rw [hnot t ht]
    exact hfalse.toTracks
  · rw [hnot s.eof hs.eof]
    exact hfalse.closes s hs hlength hN

theorem Accounts.currentIf {kind : TokenKind} {p q : Parser α} (hkind : kind ≠ .eof)
    (hp : Tracks N 1 j U p) (hq : Accounts N 0 j U q) :
    Accounts N 0 j U (Parser.currentIs kind >>= fun b => if b = true then p else q) :=
  .currentIs hkind hp hq

/-- **Looking ahead.**  A token that is seen is a token more to rely on; if there is none, the input
ends behind the token the parser stands on. -/
theorem Accounts.peek {g : Token → Parser α} (h : ∀ t, t.kind ≠ .eof → Tracks N 2 j U (g t))
    (hend : ∀ t, t.kind = .eof → Accounts N 1 j U (g t)) : Accounts N 1 j U (next >>= g) := by
  refine Tracks.of_closes ?_ ?_ ?_ ?_
  · intro s
    by_cases hk : s.next.kind = .eof
    · exact (hend _ hk).moves s
    · exact (h _ hk).moves s
  · intro s hs hone hN herrors
    by_cases htwo : 2 ≤ s.tokens.length
    · exact (h _ (hs.next_kind htwo)).clean s hs htwo hN herrors
    · have hlast : s.tokens.length ≤ 1 := by omega
      have heof : s.next.kind = .eof := State.next_eq_eof hlast ▸ hs.eof
      exact (hend _ heof).clean s hs hone hN herrors
  · intro s n e hs he hn hle hN a t hrun herrors
    have hcut := (h _ (hs.next_kind (by omega))).cuts s n e hs he hn hle hN a t hrun herrors
    have hrun' : (next >>= g) (s.cut n e) = g s.next (s.cut n e) := by
      show g (s.cut n e).next (s.cut n e) = _
      rw [State.next_cut hn hle]
    unfold Echoes at hcut ⊢
    rw [hrun']
    exact hcut
  · intro s hs hlength hN
    have heof : s.next.kind = .eof := State.next_eq_eof (Nat.le_of_eq hlength) ▸ hs.eof
    exact (hend _ heof).closes s hs hlength hN

/-- Looking ahead where each case accounts for the end of input. -/
theorem Accounts.glance {g : Token → Parser α} (h : ∀ t, Accounts N 1 j U (g t)) :
    Accounts N 1 j U (next >>= g) :=
  .peek (fun t _ => (h t).toTracks.later (by omega)) fun t _ => h t

/-- A choice by the next token, where the end of input is not chosen. -/
theorem Accounts.ahead {h : State → Bool} {p q : Parser α}
    (hsame : ∀ s s' : State, s.next.kind = s'.next.kind → h s = h s')
    (hend : ∀ s : State, s.next.kind = .eof → h s = false) (hp : Tracks N 2 j U p)
    (hq : Accounts N 1 j U q) :
    Accounts N 1 j U (Parser.observe h >>= fun b => if b = true then p else q) := by
  -- `h` sees the next token only, so it is a function of that token
  have hnext : (Parser.observe h >>= fun b => if b = true then p else q)
      = next >>= fun t => if h ⟨[t, t], t, [], false, 0⟩ = true then p else q := by
    funext s
    show (if h s = true then p else q) s
      = (if h ⟨[s.next, s.next], s.next, [], false, 0⟩ = true then p else q) s
    rw [hsame s ⟨[s.next, s.next], s.next, [], false, 0⟩ rfl]
  rw [hnext]
  refine .peek (fun t _ => ?_) fun t ht => ?_
  · exact .ite (fun _ => hp) fun _ => hq.toTracks.later (Nat.le_succ 1)
  · rw [hend ⟨[t, t], t, [], false, 0⟩ ht, if_neg Bool.false_ne_true]
    exact hq

/-- A choice by the next token between parsers that account for the end of input. -/
theorem Accounts.nextIs {kind : TokenKind} {p q : Parser α} (hkind : kind ≠ .eof)
    (hp : Accounts N 1 j U p) (hq : Accounts N 1 j U q) :
    Accounts N 1 j U (Parser.nextIs kind >>= fun b => if b = true then p else q) := by
  refine .ahead ?_ ?_ (hp.toTracks.later (Nat.le_succ 1)) hq
  · intro s s' hsame
    rw [hsame]
  · intro s hs
    rw [hs]
    exact decide_eq_false hkind.symm

/-! ### Using up tokens -/

theorem accounts_advance : Accounts N (k + 1) k (fun _ => True) advance := by
  refine ⟨⟨?_, ?_, ?_⟩, ?_⟩
  · intro s
    exact ⟨List.tail_suffix _, rfl, List.prefix_refl _, id⟩
  · intro s hs hk hN _
    have hlength := State.length_advance s
    exact ⟨(), rfl, by omega, fun _ => by omega⟩
  · intro s n e hs he hk hn hN a t hrun _
    have hlength := State.length_advance s
    rw [hrun] at hlength
    refine .inl ⟨n - 1, ?_, by omega, by simp only at hlength; omega⟩
    have htail : t = (advance s).2 := by rw [hrun]
    rw [htail, ← State.cut_advance]
    rfl
  · intro s hs hk hN
    have hlength := State.length_advance s
    exact .inr (.inr ⟨rfl, by omega, rfl⟩)

/-- A token that must follow. -/
theorem accounts_expect {kind : TokenKind} (hkind : kind ≠ .eof) (expected : String) :
    Accounts N 1 1 (fun _ => True) (expect kind expected) := by
  show Accounts N 1 1 _ (next >>= fun t => if decide (t.kind = kind) = true then advance
    else rejectNext expected)
  refine .peek (fun t _ => .ite (fun _ => ?_) fun _ => ?_) fun t ht => ?_
  · exact accounts_advance.toTracks
  · exact (refuses_rejectNext expected).tracks
  · rw [ht, if_neg (by simpa using hkind.symm)]
    exact accounts_rejectNext expected

/-- A token that may follow is used up if it does. -/
theorem accounts_skip {kind : TokenKind} (hkind : kind ≠ .eof) :
    Accounts N 1 1 (fun b => b = true) (skip kind) := by
  show Accounts N 1 1 _ (next >>= fun t => if decide (t.kind = kind) = true
    then advance >>= fun _ => pure true else pure false)
  refine .peek (fun t _ => .ite (fun _ => ?_) fun _ => ?_) fun t ht => ?_
  · exact accounts_advance.toTracks.moved fun _ => .pure id
  · have hpure : Accounts N 1 1 (fun b => b = true) (pure false : Parser Bool) :=
      .pure Bool.false_ne_true
    exact hpure.toTracks.later (Nat.le_succ 1)
  · rw [ht, if_neg (by simpa using hkind.symm)]
    exact .pure Bool.false_ne_true

theorem accounts_skipEither {kind kind' : TokenKind} (hkind : kind ≠ .eof) (hkind' : kind' ≠ .eof) :
    Accounts N 1 1 (fun b => b = true) (skipEither kind kind') := by
  refine (accounts_skip hkind).bind (fun b hb => ?_) fun b hb => ?_
  · rw [hb]
    exact .pure id
  · rw [Bool.not_eq_true] at hb
    rw [hb]
    exact accounts_skip hkind'

/-- A choice by a token that may follow. -/
theorem Accounts.skip {kind : TokenKind} {g : Bool → Parser α} (hkind : kind ≠ .eof)
    (htrue : Reads (N - 1) 1 j (g true)) (hfalse : Accounts N 1 j U (g false)) :
    Accounts N 1 j U (Parser.skip kind >>= g) := by
  refine (accounts_skip hkind).bind (fun b hb => ?_) fun b hb => ?_
  · rw [hb]
    exact htrue
  · rw [Bool.not_eq_true] at hb
    rw [hb]
    exact hfalse

theorem Accounts.skipIf {kind : TokenKind} {p q : Parser α} (hkind : kind ≠ .eof)
    (hp : Reads (N - 1) 1 j p) (hq : Accounts N 1 j U q) :
    Accounts N 1 j U (Parser.skip kind >>= fun b => if b = true then p else q) :=
  .skip hkind hp hq

/-- A token that must follow, and what follows it. -/
theorem Accounts.expect {kind : TokenKind} {expected : String} {q : Unit → Parser α}
    (hkind : kind ≠ .eof) (h : ∀ u, Reads (N - 1) 1 j (q u)) :
    Accounts N 1 j U (Parser.expect kind expected >>= q) :=
  (accounts_expect hkind expected).moved h

theorem Accounts.advance {q : Unit → Parser α} (h : ∀ u, Reads (N - 1) k j (q u)) :
    Accounts N (k + 1) j U (Parser.advance >>= q) :=
  accounts_advance.moved h

/-- Moving on is the same behind every cut, so what follows need not account for the end of input. -/
theorem Tracks.advance {q : Unit → Parser α} (h : ∀ u, Tracks (N - 1) k j (fun _ => False) (q u)) :
    Tracks N (k + 1) j U (Parser.advance >>= q) := by
  have hreach : ∀ s : State, s.Reaches (Parser.advance s).2 :=
    (accounts_advance (N := N) (k := k)).moves
  refine ⟨fun s => (hreach s).trans ((h ()).moves _), ?_, ?_⟩
  · intro s hs hk hN herrors
    have hlength := State.length_advance s
    obtain ⟨a, ha, hj, -⟩ :=
      (h ()).clean (Parser.advance s).2 ((hreach s).whole hs) (by omega) (by omega) herrors
    have hle : ((Parser.advance >>= q) s).2.tokens.length ≤ (Parser.advance s).2.tokens.length :=
      ((h ()).moves _).length_le
    exact ⟨a, ha, hj, fun _ => by omega⟩
  · intro s n e hs he hk hn hN a t hrun herrors
    have hlength := State.length_advance s
    have hcut := (h ()).cuts (Parser.advance s).2 (n - 1) e ((hreach s).whole hs) he (by omega)
      (by omega) (by omega) a t hrun herrors
    have hrun' : (Parser.advance >>= q) (s.cut n e) = q () ((Parser.advance s).2.cut (n - 1) e) := by
      rw [← State.cut_advance]
      rfl
    unfold Echoes at hcut ⊢
    rw [hrun']
    rcases hcut with ⟨m, hm, hjm, hlengths⟩ | hends
    · exact .inl ⟨m, hm, hjm, by omega⟩
    · exact .inr hends

/-! ### Loops -/

/-- Rounds after which there is another one. -/
def Round.Continues : Round α β → Prop
  | .again _ => True
  | .done _ => False

section Loops

variable {round : α → Parser (Round α β)}

theorem loop_none {fuel : Nat} {a : α} (h : round a s = (none, t)) :
    loop round (fuel + 1) a s = (none, t) :=
  run_bind_none h

theorem loop_again {fuel : Nat} {a b : α} (h : round a s = (some (.again b), t)) :
    loop round (fuel + 1) a s = loop round fuel b t :=
  run_bind_some h

theorem loop_done {fuel : Nat} {a : α} {b : β} (h : round a s = (some (.done b), t)) :
    loop round (fuel + 1) a s = (some b, t) :=
  run_bind_some h

/-- What follows a round. -/
def Round.rest (round : α → Parser (Round α β)) (fuel : Nat) : Round α β → Parser β
  | .again a => loop round fuel a
  | .done b => Pure.pure b

theorem loop_eq (fuel : Nat) (a : α) :
    loop round (fuel + 1) a = round a >>= Round.rest round fuel := by
  rw [loop]
  congr 1

theorem reaches_loop (h : ∀ (a : α) (s : State), s.Reaches (round a s).2) (fuel : Nat) (a : α)
    (s : State) : s.Reaches (loop round fuel a s).2 := by
  induction fuel generalizing a s with
  | zero => exact .refl s
  | succ fuel ih =>
    have hround := h a s
    cases hrun : round a s with
    | mk r t =>
      rw [hrun] at hround
      cases r with
      | none =>
        rw [loop_none hrun]
        exact hround
      | some r =>
        cases r with
        | again b =>
          rw [loop_again hrun]
          exact hround.trans (ih b t)
        | done b =>
          rw [loop_done hrun]
          exact hround

theorem reaches_rest (h : ∀ (a : α) (s : State), s.Reaches (round a s).2) (fuel : Nat)
    (r : Round α β) (s : State) : s.Reaches (Round.rest round fuel r s).2 := by
  cases r with
  | again a => exact reaches_loop h fuel a s
  | done b => exact .refl s

variable (h : ∀ a, Accounts N k k Round.Continues (round a))

include h

/-- There is fuel for as many rounds as there are tokens. -/
theorem clean_loop (fuel : Nat) (a : α) {s : State} (hs : s.Whole) (hk : k ≤ s.tokens.length)
    (hN : s.tokens.length < N) (hfuel : s.tokens.length < fuel)
    (herrors : (loop round fuel a s).2.errors = s.errors) :
    ∃ b, (loop round fuel a s).1 = some b ∧ k ≤ (loop round fuel a s).2.tokens.length := by
  induction fuel generalizing a s with
  | zero => omega
  | succ fuel ih =>
    have hreach := (h a).moves s
    have hclean := (h a).clean s hs hk hN
    cases hrun : round a s with
    | mk r t =>
      rw [hrun] at hreach hclean
      cases r with
      | none =>
        rw [loop_none hrun] at herrors
        obtain ⟨b, hb, -⟩ := hclean herrors
        cases hb
      | some r =>
        cases r with
        | again b =>
          rw [loop_again hrun] at herrors ⊢
          have hsame := hreach.errors_eq (reaches_loop (fun a => (h a).moves) fuel b t) herrors
          obtain ⟨r, hr, hkt, hless⟩ := hclean hsame
          cases hr
          have hlt : t.tokens.length < s.tokens.length := hless trivial
          exact ih b (hreach.whole hs) hkt (by omega) (by omega) (herrors.trans hsame.symm)
        | done b =>
          rw [loop_done hrun] at herrors ⊢
          obtain ⟨r, hr, hkt, -⟩ := hclean herrors
          exact ⟨b, rfl, hkt⟩

/-- Where the input ends there is no other round. -/
theorem closes_loop {fuel : Nat} (a : α) {s : State} (hs : s.Whole) (hk : s.tokens.length = k)
    (hN : s.tokens.length < N) (hfuel : 0 < fuel) : Ends k s (loop round fuel a s) := by
  obtain ⟨fuel, rfl⟩ : ∃ m, fuel = m + 1 := ⟨fuel - 1, by omega⟩
  rw [loop_eq]
  refine ((h a).closes s hs hk hN).bind ((h a).moves s)
    (reaches_rest (fun a => (h a).moves) fuel) fun r t hrun herrors hlength => ?_
  cases r with
  | again b =>
    have hclean := (h a).clean s hs (Nat.le_of_eq hk.symm) hN
    rw [hrun] at hclean
    obtain ⟨r, hr, -, hless⟩ := hclean herrors
    cases hr
    have hlt : t.tokens.length < s.tokens.length := hless trivial
    omega
  | done b => exact .inr (.inr ⟨rfl, hlength, rfl⟩)

/-- A loop whose first round stops at the end of input. -/
theorem ends_loop {fuel : Nat} {a : α} {s : State} (hends : Ends k s (round a s)) (hs : s.Whole)
    (hk : k ≤ s.tokens.length) (hN : s.tokens.length < N) (hfuel : s.tokens.length < fuel) :
    Ends k s (loop round fuel a s) := by
  obtain ⟨fuel, rfl⟩ : ∃ m, fuel = m + 1 := ⟨fuel - 1, by omega⟩
  rw [loop_eq]
  refine hends.bind ((h a).moves s) (reaches_rest (fun a => (h a).moves) fuel)
    fun r t hrun herrors hlength => ?_
  cases r with
  | again b =>
    have hreach := (h a).moves s
    have hclean := (h a).clean s hs hk hN
    rw [hrun] at hclean hreach
    obtain ⟨r, hr, -, hless⟩ := hclean herrors
    cases hr
    have hlt : t.tokens.length < s.tokens.length := hless trivial
    exact closes_loop h b (hreach.whole hs) hlength (by omega) (by omega)
  | done b => exact .inr (.inr ⟨rfl, hlength, rfl⟩)

/-- On a cut input the same rounds are run up to the cut. -/
theorem cuts_loop (fuel fuel' : Nat) (a : α) {s : State} (hs : s.Whole) (he : e.kind = .eof)
    (hk : k ≤ n) (hn : n ≤ s.tokens.length) (hN : s.tokens.length < N) (hfuel : s.tokens.length < fuel)
    (hfuel' : n < fuel') {b : β} (hrun : loop round fuel a s = (some b, t))
    (herrors : t.errors = s.errors) :
    (∃ m, loop round fuel' a (s.cut n e) = (some b, t.cut m e) ∧ k ≤ m ∧
      t.tokens.length + n = s.tokens.length + m) ∨
    Ends k (s.cut n e) (loop round fuel' a (s.cut n e)) := by
  induction fuel generalizing fuel' a s n with
  | zero => omega
  | succ fuel ih =>
    obtain ⟨fuel', rfl⟩ : ∃ m, fuel' = m + 1 := ⟨fuel' - 1, by omega⟩
    have hreach := (h a).moves s
    have hclean := (h a).clean s hs (by omega) hN
    have hcutlength : (s.cut n e).tokens.length = n := State.length_cut hn
    have hstop : Ends k (s.cut n e) (round a (s.cut n e)) →
        Ends k (s.cut n e) (loop round (fuel' + 1) a (s.cut n e)) := fun hends =>
      ends_loop h hends (hs.cut he n) (by omega) (by omega) (by omega)
    cases hround : round a s with
    | mk r u =>
      rw [hround] at hreach hclean
      cases r with
      | none =>
        rw [loop_none hround] at hrun
        cases hrun
      | some r =>
        cases r with
        | done c =>
          rw [loop_done hround] at hrun
          cases hrun
          rcases (h a).cuts s n e hs he hk hn hN _ _ hround herrors with ⟨m, hcut, hkm, hlength⟩ | hends
          · exact .inl ⟨m, loop_done hcut, hkm, hlength⟩
          · exact .inr (hstop hends)
        | again c =>
          rw [loop_again hround] at hrun
          have hlater := reaches_loop (fun a => (h a).moves) fuel c u
          rw [hrun] at hlater
          have hsame := hreach.errors_eq hlater herrors
          obtain ⟨r, hr, hku, hless⟩ := hclean hsame
          cases hr
          have hlt : u.tokens.length < s.tokens.length := hless trivial
          rcases (h a).cuts s n e hs he hk hn hN _ _ hround hsame with ⟨m, hcut, hkm, hlength⟩ | hends
          · rw [loop_again hcut]
            have hu : u.Whole := hreach.whole hs
            rcases ih fuel' c hu hkm (by omega) (by omega) (by omega) (by omega) hrun
              (herrors.trans hsame.symm) with ⟨l, hlast, hkl, hlengths⟩ | hends
            · exact .inl ⟨l, hlast, hkl, by omega⟩
            · exact .inr (hends.of_same hsame rfl)
          · exact .inr (hstop hends)

/-- **Loops** whose rounds account for tokens, and use up one if there is another round. -/
theorem Accounts.iterate (a : α) : Reads N k k (iterate round a) := by
  refine ⟨⟨?_, ?_, ?_⟩, ?_⟩
  · intro s
    exact reaches_loop (fun a => (h a).moves) _ a s
  · intro s hs hk hN herrors
    obtain ⟨b, hb, hkb⟩ := clean_loop h _ a hs hk hN (Nat.lt_succ_self _) herrors
    exact ⟨b, hb, hkb, False.elim⟩
  · intro s n e hs he hk hn hN b t hrun herrors
    have hcutlength : (s.cut n e).tokens.length = n := State.length_cut hn
    exact cuts_loop h _ _ a hs he hk hn hN (Nat.lt_succ_self _) (by omega) hrun herrors
  · intro s hs hk hN
    exact closes_loop h a hs hk hN (Nat.succ_pos _)

end Loops

/-- One round of a list: an item and a comma, or the last item. -/
theorem Accounts.commaRound {item : Parser α} (h : Reads (N - 1) 0 1 item) {close : TokenKind}
    (hclose : close ≠ .eof) (expected : String) (items : List α) :
    Accounts N 1 1 Round.Continues (do
      Parser.advance
      let a ← item
      if ← Parser.skip .comma then return .again (items ++ [a])
      else
        Parser.expect close expected
        return (.done (items ++ [a]) : Round (List α) (List α))) := by
  refine .advance fun _ => h.seq fun a => ?_
  exact .skipIf (by decide) (.pure id) (.expect hclose fun _ => .pure id)

theorem Accounts.commaList {item : Parser α} (h : Reads (N - 1) 0 1 item) {close : TokenKind}
    (hclose : close ≠ .eof) (expected : String) :
    Reads N 1 1 (Parser.commaList item close expected) :=
  .iterate (h.commaRound hclose expected) []

theorem Accounts.commaListOrNone {item : Parser α} (h : Reads (N - 1) 0 1 item) {close : TokenKind}
    (hclose : close ≠ .eof) (expected : String) :
    Reads N 1 1 (Parser.commaListOrNone item close expected) :=
  .skipIf hclose (.pure id) (h.commaList hclose expected)

/-! ### Nesting -/

theorem Accounts.nested {p : Parser α} (h : Accounts N k j U p) :
    Accounts N k j U (Parser.nested p) := by
  have hrun : ∀ s : State, Parser.nested p s = ((p { s with depth := s.depth + 1 }).1,
      { (p { s with depth := s.depth + 1 }).2 with
        depth := (p { s with depth := s.depth + 1 }).2.depth - 1 }) := fun _ => rfl
  refine ⟨⟨?_, ?_, ?_⟩, ?_⟩
  · intro s
    have hreach := h.moves { s with depth := s.depth + 1 }
    exact ⟨hreach.tokens, hreach.eof, hreach.errors, hreach.incomplete⟩
  · intro s hs
    exact h.clean { s with depth := s.depth + 1 } ⟨hs.tokens, hs.eof⟩
  · intro s n e hs he hk hn hN a t hnested herrors
    rw [hrun] at hnested
    cases hinner : p { s with depth := s.depth + 1 } with
    | mk r u =>
      rw [hinner] at hnested
      cases hnested
      rcases h.cuts { s with depth := s.depth + 1 } n e ⟨hs.tokens, hs.eof⟩ he hk hn hN a u hinner
        herrors with ⟨m, hcut, hjm, hlength⟩ | hends
      · refine .inl ⟨m, ?_, hjm, hlength⟩
        have hcut' : p { s.cut n e with depth := (s.cut n e).depth + 1 } = (some a, u.cut m e) := hcut
        rw [hrun, hcut']
        rfl
      · exact .inr hends
  · intro s hs
    exact h.closes { s with depth := s.depth + 1 } ⟨hs.tokens, hs.eof⟩

theorem tooDeep_run (s : State) : (tooDeep : Parser α) s = (none, { s with
    errors := s.errors ++ [Diagnostic.new .nestingTooDeep s.current.span [.number maxNesting]]
    depth := s.depth + 1 }) := rfl

theorem refuses_tooDeep : Refuses (tooDeep : Parser α) := by
  constructor
  · intro s
    exact ⟨List.suffix_refl _, rfl, List.prefix_append _ _, id⟩
  · intro s
    refine ⟨rfl, ?_⟩
    show s.errors ++ [Diagnostic.new .nestingTooDeep s.current.span [.number maxNesting]] ≠ s.errors
    simp

/-- The nesting limit is reported at the end of input like everywhere else. -/
theorem accounts_tooDeep : Accounts N 0 j U (tooDeep : Parser α) := by
  refine ⟨refuses_tooDeep.tracks, fun s hs hk hN => .inr (.inl ⟨rfl, ?_, ?_⟩)⟩
  · exact List.length_eq_zero_iff.mp hk
  · refine ⟨_, List.mem_append_right _ (List.mem_singleton_self _), ?_⟩
    rw [tooDeep_run, State.current_eq_eof hk]

theorem Accounts.withRoom {p : Nat → Parser α} (h : ∀ room, Accounts N k j U (p room)) :
    Accounts N k j U (Parser.withRoom p) := by
  refine ⟨⟨?_, ?_, ?_⟩, ?_⟩
  · intro s
    exact (h (maxNesting - s.depth)).moves s
  · intro s
    exact (h (maxNesting - s.depth)).clean s
  · intro s
    exact (h (maxNesting - s.depth)).cuts s
  · intro s
    exact (h (maxNesting - s.depth)).closes s

end Parser

end PatternPlan.Surface
