import PatternPlan.Proofs.Surface.Lines
import PatternPlan.Proofs.Surface.Yields

/-!
# How a parser runs on given tokens

A logic for parsers that are given tokens they can read.

* `kindOf`, `At` — the kind of the next token, and what is said about the token being read and the
  ones behind it;
* `Runs` — **a parser succeeds on some tokens and leaves tokens with a property**; it may only fail
  at the nesting limit, and not even there when the tree `fits`;
* one rule for each step and for sequences; `Loops` for loops, where each round uses up a token;
* `runs_commaListOf`, `runs_commaList` — a list of items, given how one item is read.
-/

namespace PatternPlan.Surface

/-- The kind of the first of some tokens; the end of input follows the last. -/
def kindOf : List Token → TokenKind
  | [] => .eof
  | t :: _ => t.kind

/-- There is a token that is being read, and `K` holds of it and the tokens behind it. -/
def At (K : Rest) (ts : List Token) : Prop := ∃ x ts', ts = x :: ts' ∧ K x ts'

section Words

variable {w : Word} {ws more : List Word} {K : Rest} {x : Token} {ts : List Token}

theorem begins_append (hne : ws ≠ []) :
    Begins (ws ++ more) K ts ↔ Begins ws (After more K) ts := by
  obtain ⟨w, ws, rfl⟩ := List.exists_cons_of_ne_nil hne
  show (∃ t ts', ts = t :: ts' ∧ t.Spells w ∧ After (ws ++ more) K t ts') ↔ _
  rw [after_append]
  rfl

/-- The words behind a token start the tokens behind it. -/
theorem begins_of_after (hne : ws ≠ []) (h : After ws K x ts) : Begins ws K ts := by
  obtain ⟨w, ws, rfl⟩ := List.exists_cons_of_ne_nil hne
  obtain ⟨t, ts', rfl, hspells, -, hrest⟩ := h
  exact ⟨t, ts', rfl, hspells, hrest⟩

theorem kindOf_of_after (h : After (w :: ws) K x ts) : kindOf ts = w.kind := by
  obtain ⟨t, ts', rfl, hspells, -⟩ := h
  exact hspells.kind

theorem kindOf_of_begins (h : Begins (w :: ws) K ts) : kindOf ts = w.kind := by
  obtain ⟨t, ts', rfl, hspells, -⟩ := h
  exact hspells.kind

theorem length_le_of_after (h : After ws K x ts) : ws.length ≤ ts.length := by
  induction ws generalizing x ts with
  | nil => exact Nat.zero_le _
  | cons w ws ih =>
    obtain ⟨t, ts', rfl, -, -, hrest⟩ := h
    exact Nat.succ_le_succ (ih hrest)

theorem after_mono {K' : Rest} (h : After ws K x ts) (hK : ∀ y ts', K y ts' → K' y ts') :
    After ws K' x ts := by
  induction ws generalizing x ts with
  | nil => exact hK x ts h
  | cons w ws ih =>
    obtain ⟨t, ts', rfl, hspells, hline, hrest⟩ := h
    exact ⟨t, ts', rfl, hspells, hline, ih hrest⟩

/-- Words use up tokens. -/
theorem after_shorter (hne : ws ≠ []) (h : After ws K x ts) :
    After ws (fun y ts' => K y ts' ∧ ts'.length < ts.length) x ts := by
  obtain ⟨w, ws, rfl⟩ := List.exists_cons_of_ne_nil hne
  obtain ⟨t, ts, rfl, hspells, hline, hrest⟩ := h
  refine ⟨t, ts, rfl, hspells, hline, ?_⟩
  clear hne hspells hline x
  induction ws generalizing t ts with
  | nil => exact ⟨hrest, Nat.lt_succ_self _⟩
  | cons v ws ih =>
    obtain ⟨u, ts, rfl, hspells, hline, hrest⟩ := hrest
    refine ⟨u, ts, rfl, hspells, hline, ?_⟩
    refine after_mono (ih u ts hrest) fun y ts' hy => ⟨hy.1, ?_⟩
    exact hy.2.trans (Nat.succ_lt_succ (Nat.lt_succ_self _))

theorem length_le_of_begins (h : Begins ws K ts) : ws.length ≤ ts.length := by
  cases ws with
  | nil => exact h.elim
  | cons w ws =>
    obtain ⟨t, ts', rfl, -, hrest⟩ := h
    exact Nat.succ_le_succ (length_le_of_after hrest)

end Words

/-- The nesting limit was reported. -/
def State.TooDeep (s : State) : Prop := ∃ d ∈ s.errors, d.code = .nestingTooDeep

namespace Parser

variable {α β γ : Type} {fits : Prop} {depth : Nat}

/-- On the tokens `ts`, the parser reads an `a` and leaves tokens `ts'` with `post a ts'`; unless
the tree `fits`, it may report the nesting limit instead. -/
def Runs (fits : Prop) (depth : Nat) (p : Parser α) (ts : List Token)
    (post : α → List Token → Prop) : Prop :=
  ∀ s : State, s.eof.kind = .eof → s.depth = depth → s.tokens = ts →
    (∃ a ts', p s = (some a, { s with tokens := ts' }) ∧ ts'.length ≤ ts.length ∧ post a ts') ∨
    (¬ fits ∧ ∃ s', p s = (none, s') ∧ s'.TooDeep)

namespace Runs

variable {ts ts' : List Token} {x t : Token} {post : α → List Token → Prop}

theorem pure {a : α} (h : post a ts) : Runs fits depth (Pure.pure a) ts post := by
  rintro s - - rfl
  exact .inl ⟨a, s.tokens, rfl, le_rfl, h⟩

/-- **Sequences**: what the first parser leaves is what the second is given. -/
theorem bind {p : Parser β} {f : β → Parser α} {mid : β → List Token → Prop}
    (hp : Runs fits depth p ts mid)
    (hf : ∀ b ts', ts'.length ≤ ts.length → mid b ts' → Runs fits depth (f b) ts' post) :
    Runs fits depth (p >>= f) ts post := by
  intro s heof hdepth hs
  rcases hp s heof hdepth hs with ⟨b, ts', hrun, hlength, hmid⟩ | ⟨hfits, s', hrun, hdeep⟩
  · rw [run_bind_some hrun]
    rcases hf b ts' hlength hmid { s with tokens := ts' } heof hdepth rfl with
      ⟨a, ts'', hrest, hle, hpost⟩ | hfail
    · exact .inl ⟨a, ts'', hrest, hle.trans hlength, hpost⟩
    · exact .inr hfail
  · exact .inr ⟨hfits, s', run_bind_none hrun, hdeep⟩

/-- A value that is known before the rest of a sequence runs. -/
theorem given {b : β} {f : β → Parser α} (h : Runs fits depth (f b) ts post) :
    Runs fits depth (Pure.pure b >>= f) ts post := h

theorem mono {p : Parser α} {post' : α → List Token → Prop} (h : Runs fits depth p ts post)
    (hpost : ∀ a ts', ts'.length ≤ ts.length → post a ts' → post' a ts') :
    Runs fits depth p ts post' := by
  intro s heof hdepth hs
  rcases h s heof hdepth hs with ⟨a, ts', hrun, hlength, hmid⟩ | hfail
  · exact .inl ⟨a, ts', hrun, hlength, hpost a ts' hlength hmid⟩
  · exact .inr hfail

/-- A tree that fits where another one does. -/
theorem weaken {fits' : Prop} {p : Parser α} (h : Runs fits depth p ts post) (hfits : fits' → fits) :
    Runs fits' depth p ts post := by
  intro s heof hdepth hts
  exact (h s heof hdepth hts).imp_right fun ⟨hnot, hdeep⟩ => ⟨fun hfits' => hnot (hfits hfits'), hdeep⟩

/-! ### One token -/

theorem observe {f : State → β} {g : β → Parser α} {b : β}
    (hb : ∀ s : State, s.eof.kind = .eof → s.tokens = ts → f s = b)
    (h : Runs fits depth (g b) ts post) : Runs fits depth (observe f >>= g) ts post := by
  intro s heof hdepth hs
  have hrun : Parser.observe f s = (some b, s) := by rw [Parser.observe, hb s heof hs]
  rw [run_bind_some hrun]
  exact h s heof hdepth hs

theorem current {f : Token → Parser α} (h : Runs fits depth (f x) (x :: ts) post) :
    Runs fits depth (Parser.current >>= f) (x :: ts) post := by
  refine observe (fun s _ hs => ?_) h
  rw [State.current, hs]
  rfl

theorem next_kind {s : State} (heof : s.eof.kind = .eof) (hs : s.tokens = x :: ts) :
    s.next.kind = kindOf ts := by
  rw [State.next, hs, List.drop_one]
  cases ts with
  | nil => exact heof
  | cons t ts => rfl

/-- The next token, of which only the kind is known at the end of input. -/
theorem next {f : Token → Parser α}
    (h : ∀ n : Token, n.kind = kindOf ts → (∀ t ts', ts = t :: ts' → n = t) →
      Runs fits depth (f n) (x :: ts) post) :
    Runs fits depth (Parser.next >>= f) (x :: ts) post := by
  intro s heof hdepth hs
  have hfirst : ∀ t ts', ts = t :: ts' → s.next = t := by
    rintro t ts' rfl
    rw [State.next, hs]
    rfl
  rw [run_bind_some (rfl : Parser.next s = (some s.next, s))]
  exact h s.next (next_kind heof hs) hfirst s heof hdepth hs

theorem nextIs {k : TokenKind} {f : Bool → Parser α}
    (h : Runs fits depth (f (decide (kindOf ts = k))) (x :: ts) post) :
    Runs fits depth (Parser.nextIs k >>= f) (x :: ts) post :=
  observe (fun s heof hs => by rw [next_kind heof hs]) h

theorem currentIs {k : TokenKind} {f : Bool → Parser α}
    (h : Runs fits depth (f (decide (x.kind = k))) (x :: ts) post) :
    Runs fits depth (Parser.currentIs k >>= f) (x :: ts) post :=
  observe (fun s _ hs => by rw [State.current, hs]; rfl) h

theorem advance {f : Unit → Parser α} (h : Runs fits depth (f ()) ts post) :
    Runs fits depth (Parser.advance >>= f) (x :: ts) post := by
  intro s heof hdepth hs
  have hrun : Parser.advance s = (some (), { s with tokens := ts }) := by
    rw [Parser.advance, hs]
    rfl
  rw [run_bind_some hrun]
  rcases h { s with tokens := ts } heof hdepth rfl with ⟨a, ts', hrest, hle, hpost⟩ | hfail
  · exact .inl ⟨a, ts', hrest, hle.trans (Nat.le_succ _), hpost⟩
  · exact .inr hfail

theorem expect {k : TokenKind} {expected : String} {f : Unit → Parser α} (hk : kindOf ts = k)
    (h : Runs fits depth (f ()) ts post) :
    Runs fits depth (Parser.expect k expected >>= f) (x :: ts) post := by
  intro s heof hdepth hs
  have hrun : Parser.expect k expected s = Parser.advance s := by
    rw [expect_run, if_pos ((next_kind heof hs).trans hk)]
  rw [run_bind_congr hrun]
  exact advance h s heof hdepth hs

theorem skip_run {k : TokenKind} (hk : kindOf ts = k) :
    Runs fits depth (Parser.skip k) (x :: ts) fun b ts' => b = true ∧ ts' = ts := by
  intro s heof hdepth hs
  have hnext : Parser.nextIs k s = (some true, s) := by
    show (some (decide (s.next.kind = k)), s) = _
    rw [decide_eq_true ((next_kind heof hs).trans hk)]
  refine .inl ⟨true, ts, ?_, Nat.le_succ _, rfl, rfl⟩
  rw [Parser.skip, run_bind_some hnext]
  show (some true, { s with tokens := s.tokens.tail }) = _
  rw [hs]
  rfl

theorem stay_run {k : TokenKind} (hk : kindOf ts ≠ k) :
    Runs fits depth (Parser.skip k) (x :: ts) fun b ts' => b = false ∧ ts' = x :: ts := by
  intro s heof hdepth hs
  have hnext : Parser.nextIs k s = (some false, s) := by
    show (some (decide (s.next.kind = k)), s) = _
    rw [decide_eq_false (by rw [next_kind heof hs]; exact hk)]
  refine .inl ⟨false, x :: ts, ?_, le_rfl, rfl, rfl⟩
  rw [Parser.skip, run_bind_some hnext]
  show (some false, s) = _
  rw [← hs]

/-- A token that is skipped since it has the kind. -/
theorem skipped {k : TokenKind} {f : Bool → Parser α} (hk : kindOf ts = k)
    (h : Runs fits depth (f true) ts post) :
    Runs fits depth (Parser.skip k >>= f) (x :: ts) post := by
  refine bind (skip_run hk) ?_
  rintro b ts' - ⟨rfl, rfl⟩
  exact h

/-- A token that stays since it has another kind. -/
theorem stayed {k : TokenKind} {f : Bool → Parser α} (hk : kindOf ts ≠ k)
    (h : Runs fits depth (f false) (x :: ts) post) :
    Runs fits depth (Parser.skip k >>= f) (x :: ts) post := by
  refine bind (stay_run hk) ?_
  rintro b ts' - ⟨rfl, rfl⟩
  exact h

/-- The first of two kinds. -/
theorem skipFirst {k l : TokenKind} {f : Bool → Parser α} (hk : kindOf ts = k)
    (h : Runs fits depth (f true) ts post) :
    Runs fits depth (Parser.skipEither k l >>= f) (x :: ts) post := by
  have hrun : Runs fits depth (Parser.skipEither k l) (x :: ts) fun b ts' => b = true ∧ ts' = ts :=
    skipped hk (pure ⟨rfl, rfl⟩)
  refine bind hrun ?_
  rintro b ts' - ⟨rfl, rfl⟩
  exact h

/-- The second of two kinds. -/
theorem skipSecond {k l : TokenKind} {f : Bool → Parser α} (hk : kindOf ts ≠ k) (hl : kindOf ts = l)
    (h : Runs fits depth (f true) ts post) :
    Runs fits depth (Parser.skipEither k l >>= f) (x :: ts) post := by
  have hrun : Runs fits depth (Parser.skipEither k l) (x :: ts) fun b ts' => b = true ∧ ts' = ts :=
    stayed hk (skip_run hl)
  refine bind hrun ?_
  rintro b ts' - ⟨rfl, rfl⟩
  exact h

/-- Neither of two kinds. -/
theorem skipNeither {k l : TokenKind} {f : Bool → Parser α} (hk : kindOf ts ≠ k)
    (hl : kindOf ts ≠ l) (h : Runs fits depth (f false) (x :: ts) post) :
    Runs fits depth (Parser.skipEither k l >>= f) (x :: ts) post := by
  have hrun : Runs fits depth (Parser.skipEither k l) (x :: ts)
      fun b ts' => b = false ∧ ts' = x :: ts := stayed hk (stay_run hl)
  refine bind hrun ?_
  rintro b ts' - ⟨rfl, rfl⟩
  exact h

theorem skip {k : TokenKind} {p q : Parser α} (hk : kindOf ts = k) (h : Runs fits depth p ts post) :
    Runs fits depth (Parser.skip k >>= fun b => if b = true then p else q) (x :: ts) post :=
  skipped hk h

theorem stay {k : TokenKind} {p q : Parser α} (hk : kindOf ts ≠ k)
    (h : Runs fits depth q (x :: ts) post) :
    Runs fits depth (Parser.skip k >>= fun b => if b = true then p else q) (x :: ts) post :=
  stayed hk h

/-- A choice by the next token, which has the kind. -/
theorem choose {k : TokenKind} {p q : Parser α} (hk : kindOf ts = k)
    (h : Runs fits depth p (x :: ts) post) :
    Runs fits depth (Parser.nextIs k >>= fun b => if b = true then p else q) (x :: ts) post := by
  refine nextIs ?_
  rw [decide_eq_true hk]
  exact h

/-- A choice by the next token, which has another kind. -/
theorem refuse {k : TokenKind} {p q : Parser α} (hk : kindOf ts ≠ k)
    (h : Runs fits depth q (x :: ts) post) :
    Runs fits depth (Parser.nextIs k >>= fun b => if b = true then p else q) (x :: ts) post := by
  refine nextIs ?_
  rw [decide_eq_false hk]
  exact h

theorem mark {f : Mark → Parser α} (h : ∀ m, Runs fits depth (f m) ts post) :
    Runs fits depth (markFrom t >>= f) ts post := by
  intro s heof hdepth hs
  rw [run_bind_some (rfl : markFrom t s = (some ⟨t, t.span.join s.current.span⟩, s))]
  exact h _ s heof hdepth hs

theorem span {f : Span → Parser α} (h : ∀ m, Runs fits depth (f m) ts post) :
    Runs fits depth (spanFrom t >>= f) ts post := by
  intro s heof hdepth hs
  rw [run_bind_some (rfl : spanFrom t s = (some (t.span.join s.current.span), s))]
  exact h _ s heof hdepth hs

/-! ### Nesting -/

theorem nested {p : Parser α} (h : Runs fits (depth + 1) p ts post) :
    Runs fits depth (Parser.nested p) ts post := by
  intro s heof hdepth hs
  rcases h { s with depth := s.depth + 1 } heof (by rw [hdepth]) hs with
    ⟨a, ts', hrun, hle, hpost⟩ | ⟨hfits, s', hrun, hdeep⟩
  · refine .inl ⟨a, ts', ?_, hle, hpost⟩
    rw [Parser.nested, hrun]
    rfl
  · refine .inr ⟨hfits, { s' with depth := s'.depth - 1 }, ?_, hdeep⟩
    rw [Parser.nested, hrun]

theorem tooDeep (hfits : ¬ fits) : Runs fits depth (Parser.tooDeep : Parser α) ts post := by
  intro s heof hdepth hs
  refine .inr ⟨hfits, _, rfl, ?_⟩
  refine ⟨_, List.mem_append_right _ List.mem_cons_self, rfl⟩

end Runs

/-! ### Loops -/

/-- A loop that is given fuel for every token it can use up. -/
def Loops (fits : Prop) (depth : Nat) (round : β → Parser (Round β α)) (b : β) (ts : List Token)
    (post : α → List Token → Prop) : Prop :=
  ∀ fuel, ts.length < fuel → Runs fits depth (loop round fuel b) ts post

section Loops

variable {round : β → Parser (Round β α)} {b : β} {ts : List Token} {post : α → List Token → Prop}

theorem Runs.iterate (h : Loops fits depth round b ts post) :
    Runs fits depth (Parser.iterate round b) ts post := by
  intro s heof hdepth hs
  rw [Parser.iterate, hs]
  exact h (ts.length + 1) (Nat.lt_succ_self _) s heof hdepth hs

/-- What is left to show after one round. -/
def Round.Goes (fits : Prop) (depth : Nat) (round : β → Parser (Round β α)) (n : Nat)
    (post : α → List Token → Prop) : Round β α → List Token → Prop
  | .again b, ts => ts.length < n ∧ Loops fits depth round b ts post
  | .done a, ts => post a ts

/-- **One round**: a round that is not the last one uses up a token. -/
theorem Loops.step (h : Runs fits depth (round b) ts (Round.Goes fits depth round ts.length post)) :
    Loops fits depth round b ts post := by
  intro fuel hfuel
  obtain ⟨fuel, rfl⟩ := Nat.exists_eq_succ_of_ne_zero (Nat.ne_zero_of_lt hfuel)
  refine Runs.bind h fun r ts' _ hr => ?_
  cases r with
  | again b => exact hr.2 fuel (lt_of_lt_of_le hr.1 (Nat.lt_succ_iff.mp hfuel))
  | done a => exact .pure hr

end Loops

/-! ### Lists -/

/-- The words of items, each with a comma behind it. -/
def commaEnded (words : γ → List Word) (xs : List γ) : List Word :=
  xs.flatMap fun a => words a ++ [.sign .comma]

theorem commaWords_concat (words : γ → List Word) (front : List γ) (last : γ) :
    commaWords ((front ++ [last]).map words) = commaEnded words front ++ words last := by
  induction front with
  | nil => exact List.intercalate_singleton
  | cons a front ih =>
    obtain ⟨b, rest, hrest⟩ : ∃ b rest, front ++ [last] = b :: rest :=
      List.exists_cons_of_ne_nil (by simp)
    rw [List.cons_append, hrest, List.map_cons, List.map_cons, commaWords_cons_cons, ← List.map_cons,
      ← hrest, ih, commaEnded, commaEnded, List.flatMap_cons, List.append_assoc, List.append_assoc]
    simp only [List.append_assoc]

theorem commaWords_comma (words : γ → List Word) {xs : List γ} (hne : xs ≠ []) :
    commaWords (xs.map words) ++ [Word.sign .comma] = commaEnded words xs := by
  obtain ⟨front, last, rfl⟩ := (List.eq_nil_or_concat' xs).resolve_left hne
  rw [commaWords_concat, commaEnded, commaEnded, List.flatMap_append, List.flatMap_singleton,
    List.append_assoc]

/-- **Loops over items with commas between them.**  `I done b` relates the items read so far to the
value of the loop; a round reads one item, and goes on behind a comma, where other items stand. -/
theorem Loops.commas {I : List γ → β → Prop} {words : γ → List Word} {lastWords : List Word} {K : Rest}
    {round : β → Parser (Round β α)} {post : α → List Token → Prop} {front : List γ}
    (hmore : ∀ done, ∀ a ∈ front, ∀ b, I done b → ∀ K' x ts,
      (∀ y ts, K' y ts → ∃ left ⊆ front, After (commaEnded words left ++ lastWords) K y ts) →
      After (words a ++ [Word.sign .comma]) K' x ts → Runs fits depth (round b) (x :: ts)
        fun r ts' => ∃ b', r = .again b' ∧ I (done ++ [a]) b' ∧ At K' ts')
    (hlast : ∀ b, I front b → ∀ x ts, After lastWords K x ts →
      Runs fits depth (round b) (x :: ts) fun r ts' => ∃ c, r = .done c ∧ post c ts')
    {b : β} (hb : I [] b) {x : Token} {ts : List Token}
    (hts : After (commaEnded words front ++ lastWords) K x ts) :
    Loops fits depth round b (x :: ts) post := by
  suffices hloop : ∀ (left done : List γ) (b : β) (x : Token) (ts : List Token),
      done ++ left = front → I done b → After (commaEnded words left ++ lastWords) K x ts →
      Loops fits depth round b (x :: ts) post from hloop front [] b x ts rfl hb hts
  intro left
  induction left with
  | nil =>
    intro done b x ts hdone hI hts
    rw [List.append_nil] at hdone
    rw [hdone] at hI
    refine Loops.step ((hlast b hI x ts hts).mono ?_)
    rintro r ts' - ⟨c, rfl, hpost⟩
    exact hpost
  | cons a left ih =>
    intro done b x ts hdone hI hts
    have ha : a ∈ front := by
      rw [← hdone]
      exact List.mem_append_right done List.mem_cons_self
    rw [commaEnded, List.flatMap_cons, List.append_assoc, after_append] at hts
    have hleft : left ⊆ front := by
      rw [← hdone]
      exact fun c hc => List.mem_append_right done (List.mem_cons_of_mem a hc)
    refine Loops.step ((hmore done a ha b hI _ x ts (fun y ts hy => ⟨left, hleft, hy.1⟩)
      (after_shorter (by simp) hts)).mono ?_)
    rintro r ts' - ⟨b', rfl, hI', y, ts₁, rfl, hy, hlength⟩
    refine ⟨Nat.succ_lt_succ hlength, ?_⟩
    exact ih (done ++ [a]) b' y ts₁ (by rw [← hdone]; simp) hI' hy

section Lists

variable {item : Parser α} {close : TokenKind} {K : Rest}

/-- What stands behind an item of a list. -/
def EndsItem (close : TokenKind) (K : Rest) : Prop :=
  ∀ y ts, K y ts → kindOf ts = .comma ∨ kindOf ts = close

/-- Something with the property `R` is read from some words, wherever they stand in a list. -/
def ReadsWords (fits : Prop) (depth : Nat) (item : Parser α) (close : TokenKind) (ws : List Word)
    (R : α → Prop) : Prop :=
  ∀ K ts, EndsItem close K → Begins ws K ts → Runs fits depth item ts fun a ts' => R a ∧ At K ts'

theorem ReadsWords.weaken {fits' : Prop} {ws : List Word} {R : α → Prop}
    (h : ReadsWords fits depth item close ws R) (hfits : fits' → fits) :
    ReadsWords fits' depth item close ws R :=
  fun K ts hK hts => (h K ts hK hts).weaken hfits

section Words

variable {words : γ → List Word} {R : γ → α → Prop} {cs : List γ}

theorem forall₂_snoc {as : List α} {c : γ} {a : α} (h : List.Forall₂ R cs as) (hca : R c a) :
    List.Forall₂ R (cs ++ [c]) (as ++ [a]) :=
  List.rel_append h (.cons hca .nil)

/-- **Items with commas between them**, up to a closing token. -/
theorem runs_commaListOf (expected : String) (hne : cs ≠ []) (hwords : ∀ c ∈ cs, words c ≠ [])
    (h : ∀ c ∈ cs, ReadsWords fits depth item close (words c) (R c)) {last : Word} {x : Token}
    {ts : List Token} (hts : After (commaWords (cs.map words) ++ [last]) K x ts)
    (hlast : last.kind = close) (hcomma : close ≠ .comma) :
    Runs fits depth (commaList item close expected) (x :: ts)
      fun as ts' => List.Forall₂ R cs as ∧ At K ts' := by
  obtain ⟨front, b, rfl⟩ := (List.eq_nil_or_concat' cs).resolve_left hne
  rw [commaWords_concat, List.append_assoc] at hts
  refine Runs.iterate (Loops.commas (I := List.Forall₂ R) ?_ ?_ .nil hts)
  · intro done a ha as has K' x ts _ hts
    have ha : a ∈ front ++ [b] := List.mem_append_left _ ha
    rw [after_append] at hts
    have hends : EndsItem close (After [.sign .comma] K') := fun y ts hy => .inl (kindOf_of_after hy)
    refine Runs.advance (Runs.bind (h a ha _ ts hends (begins_of_after (hwords a ha) hts)) ?_)
    rintro a' ts' - ⟨hread, y, ts₁, rfl, hy⟩
    refine Runs.skip (kindOf_of_after hy) (Runs.pure ?_)
    obtain ⟨z, ts₂, rfl, -, -, hz⟩ := hy
    exact ⟨_, rfl, forall₂_snoc has hread, z, ts₂, rfl, hz⟩
  · intro as has x ts hts
    have hb : b ∈ front ++ [b] := List.mem_append_right _ List.mem_cons_self
    rw [after_append] at hts
    have hends : EndsItem close (After [last] K) := fun y ts hy =>
      .inr ((kindOf_of_after hy).trans hlast)
    refine Runs.advance (Runs.bind (h b hb _ ts hends (begins_of_after (hwords b hb) hts)) ?_)
    rintro a' ts' - ⟨hread, y, ts₁, rfl, hy⟩
    have hkind := (kindOf_of_after hy).trans hlast
    refine Runs.stay (by rw [hkind]; exact hcomma) (Runs.expect hkind (Runs.pure ?_))
    obtain ⟨z, ts₂, rfl, -, -, hz⟩ := hy
    exact ⟨_, rfl, forall₂_snoc has hread, z, ts₂, rfl, hz⟩

theorem runs_commaListOrNoneOf (expected : String)
    (hwords : ∀ c ∈ cs, ∃ w ws, words c = w :: ws ∧ w.kind ≠ close)
    (h : ∀ c ∈ cs, ReadsWords fits depth item close (words c) (R c)) {last : Word} {x : Token}
    {ts : List Token} (hts : After (commaWords (cs.map words) ++ [last]) K x ts)
    (hlast : last.kind = close) (hcomma : close ≠ .comma) :
    Runs fits depth (commaListOrNone item close expected) (x :: ts)
      fun as ts' => List.Forall₂ R cs as ∧ At K ts' := by
  cases cs with
  | nil =>
    have hclose : After [last] K x ts := hts
    refine Runs.skip ((kindOf_of_after hclose).trans hlast) (Runs.pure ?_)
    obtain ⟨z, ts', rfl, -, -, hz⟩ := hclose
    exact ⟨.nil, z, ts', rfl, hz⟩
  | cons c cs =>
    obtain ⟨w, ws, hw, hkind⟩ := hwords c List.mem_cons_self
    obtain ⟨rest, hrest⟩ := commaWords_cons (words c) (cs.map words)
    have hfirst : kindOf ts = w.kind := by
      have hts' := hts
      rw [List.map_cons, hrest, hw] at hts'
      exact kindOf_of_after hts'
    refine Runs.stay (by rw [hfirst]; exact hkind) ?_
    refine runs_commaListOf expected (List.cons_ne_nil _ _) (fun b hb => ?_) h hts hlast hcomma
    obtain ⟨w, ws, hw, -⟩ := hwords b hb
    rw [hw]
    exact List.cons_ne_nil w ws

end Words

variable {words : α → List Word} {erase : α → γ} {xs : List α}

/-- The item is read from its words, wherever it stands in a list. -/
def ReadsItem (fits : Prop) (depth : Nat) (item : Parser α) (close : TokenKind)
    (words : α → List Word) (erase : α → γ) (a : α) : Prop :=
  ∀ K ts, EndsItem close K → Begins (words a) K ts →
    Runs fits depth item ts fun a' ts' => erase a' = erase a ∧ At K ts'

theorem map_snoc {as bs : List α} {a b : α} (h : as.map erase = bs.map erase)
    (hab : erase a = erase b) : (as ++ [a]).map erase = (bs ++ [b]).map erase := by
  rw [List.map_append, List.map_append, h, List.map_singleton, List.map_singleton, hab]

theorem map_erase_eq {as bs : List α} (h : List.Forall₂ (fun a b => erase b = erase a) as bs) :
    bs.map erase = as.map erase := by
  induction h with
  | nil => rfl
  | cons hab _ ih => rw [List.map_cons, List.map_cons, hab, ih]

theorem runs_commaList (expected : String) (hne : xs ≠ []) (hwords : ∀ a ∈ xs, words a ≠ [])
    (h : ∀ a ∈ xs, ReadsItem fits depth item close words erase a) {last : Word}
    {x : Token} {ts : List Token} (hts : After (commaWords (xs.map words) ++ [last]) K x ts)
    (hlast : last.kind = close) (hcomma : close ≠ .comma) :
    Runs fits depth (commaList item close expected) (x :: ts)
      fun as ts' => as.map erase = xs.map erase ∧ At K ts' :=
  (runs_commaListOf expected hne hwords h hts hlast hcomma).mono fun _ _ _ h => h.imp_left map_erase_eq

theorem runs_commaListOrNone (expected : String) (hwords : ∀ a ∈ xs, ∃ w ws, words a = w :: ws ∧ w.kind ≠ close)
    (h : ∀ a ∈ xs, ReadsItem fits depth item close words erase a) {last : Word}
    {x : Token} {ts : List Token} (hts : After (commaWords (xs.map words) ++ [last]) K x ts)
    (hlast : last.kind = close) (hcomma : close ≠ .comma) :
    Runs fits depth (commaListOrNone item close expected) (x :: ts)
      fun as ts' => as.map erase = xs.map erase ∧ At K ts' :=
  (runs_commaListOrNoneOf expected hwords h hts hlast hcomma).mono fun _ _ _ h =>
    h.imp_left map_erase_eq

end Lists

end Parser

end PatternPlan.Surface
