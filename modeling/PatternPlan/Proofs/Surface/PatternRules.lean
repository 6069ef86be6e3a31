import PatternPlan.Proofs.Surface.Runs
import PatternPlan.Surface.Parser.Pattern

/-!
# How the parts of patterns are read

One rule for each construct of patterns, whatever stands inside it: the patterns inside are given by
their words, and by a property of what is read from these.

* `Pattern.Opening`, `Pattern.followers` — how the words of a pattern start, and what may follow it;
* `Runs.startsBound`, `Runs.startsArgument` — choices by the next token;
* `runs_nestedPattern`, `runs_oneAlternative`, `runs_alternativesOf` — alternatives, with no name
  behind them;
* `runs_groupOf`, `runs_constructOf`, `runs_callOf` — patterns in parentheses, behind a constructor,
  and behind a recognizer;
* `ReadsSliceItem`, `runs_sliceOf` — the items of a slice, and a slice of any items.
-/

namespace PatternPlan

/-- The kinds of token that a bound behind `..` starts with. -/
def Literal.stopStarters : List TokenKind := [.int, .float, .string, .minus]

namespace Surface

/-! ### How patterns start, and what follows them -/

namespace Pattern

/-- The kinds of token that the argument of a recognizer starts with. -/
def argumentStarters : List TokenKind :=
  [.underscore, .lower, .upper, .int, .float, .string, .minus, .kwTrue, .kwFalse, .lparen,
    .lbracket, .lbrace, .regex]

/-- The kinds of token that a pattern starts with. -/
def starters : List TokenKind := argumentStarters ++ [.dotDot, .dotDotEq]

/-- Words that start as a pattern does, a bound standing behind `..`. -/
def Opening (ws : List Word) : Prop :=
  ∃ w rest, ws = w :: rest ∧ w.kind ∈ starters ∧
    (w.kind = .dotDot → ∃ v more, rest = v :: more ∧ v.kind ∈ Literal.stopStarters)

theorem Opening.append {ws : List Word} (h : Opening ws) (more : List Word) : Opening (ws ++ more) := by
  obtain ⟨w, rest, rfl, hw, hrest⟩ := h
  refine ⟨w, rest ++ more, rfl, hw, fun hkind => ?_⟩
  obtain ⟨v, vs, rfl, hv⟩ := hrest hkind
  exact ⟨v, vs ++ more, rfl, hv⟩

theorem opening_of_kind {w : Word} {k : TokenKind} (hw : w.kind = k) (hk : k ∈ starters)
    (hdots : k ≠ .dotDot) (rest : List Word) : Opening (w :: rest) :=
  ⟨w, rest, rfl, by rw [hw]; exact hk, fun h => absurd (hw.symm.trans h) hdots⟩

theorem Opening.parenthesized {ws : List Word} (h : Opening ws) (b : Bool) :
    Opening (parenthesizedWords b ws) := by
  cases b with
  | false => exact h
  | true => exact opening_of_kind (k := .lparen) rfl (by decide) (by decide) _

/-- The kinds of token that may follow a pattern, the end of input among them. -/
def followers : Position → List TokenKind
  | .primary => [.comma, .rparen, .rbracket, .rbrace, .kwAs, .kwWhen, .kwIf, .arrow, .eof, .pipe]
  | .arm => [.comma, .rparen, .rbracket, .rbrace, .kwAs, .kwWhen, .kwIf, .arrow, .eof]
  | .nested => [.comma, .rparen, .rbracket, .rbrace, .eof]

end Pattern

namespace Parser

variable {fits : Prop} {depth : Nat}

/-! ### Choices by the next token -/

/-- Whether a kind may start a bound. -/
def startsBound : TokenKind → Bool
  | .int | .float | .string | .minus => true
  | _ => false

/-- Whether a kind may start the argument of a recognizer. -/
def startsArgument : TokenKind → Bool
  | .underscore | .lower | .upper | .int | .float | .string | .kwTrue | .kwFalse | .minus
  | .lparen | .lbracket | .lbrace | .regex => true
  | _ => false

section Choices

variable {α : Type} {x : Token} {ts : List Token} {post : α → List Token → Prop}

theorem Runs.startsBound {f : Bool → Parser α} {b : Bool} (hb : startsBound (kindOf ts) = b)
    (h : Runs fits depth (f b) (x :: ts) post) :
    Runs fits depth (nextStartsBound >>= f) (x :: ts) post := by
  refine Runs.observe (fun s heof hs => ?_) h
  rw [Runs.next_kind heof hs]
  exact hb

theorem Runs.startsArgument {f : Bool → Parser α} {b : Bool} (hb : startsArgument (kindOf ts) = b)
    (h : Runs fits depth (f b) (x :: ts) post) :
    Runs fits depth (nextStartsArgument >>= f) (x :: ts) post := by
  refine Runs.observe (fun s heof hs => ?_) h
  rw [Runs.next_kind heof hs]
  exact hb

end Choices

theorem followers_facts : ∀ k ∈ Pattern.followers .primary, k ≠ .atSign ∧ k ≠ .lparen ∧ k ≠ .dotDot
    ∧ k ≠ .dotDotEq ∧ startsBound k = false ∧ startsArgument k = false := by decide

/-! ### Alternatives and names -/

/-- One round of reading the names behind a pattern. -/
def asRound (p : Pattern) : Parser (Round Pattern Pattern) := do
  if ← skip .kwAs then
    let asToken ← current
    expect .lower "binding name"
    let name ← current
    return .again (.binding ⟨asToken, p.span.join name.span⟩ name.text false p)
  else return .done p

theorem nestedPattern_eq (alternatives : Parser Pattern) :
    nestedPattern alternatives = alternatives >>= fun p => iterate asRound p := rfl

/-- One round of reading alternatives. -/
def barRound (primary : Parser Pattern) (ps : List Pattern) :
    Parser (Round (List Pattern) (List Pattern)) := do
  if ← skip .pipe then
    advance
    let p ← primary
    return .again (ps ++ [p])
  else return .done ps

theorem words_alternatives (ws : List Word) (wss : List (List Word)) :
    [Word.sign .pipe].intercalate (ws :: wss) = ws ++ wss.flatMap fun ws => .sign .pipe :: ws := by
  induction wss generalizing ws with
  | nil => rw [List.intercalate_singleton, List.flatMap_nil, List.append_nil]
  | cons ws' wss ih => rw [List.intercalate_cons_cons, ih, List.flatMap_cons, List.append_assoc]; rfl

section Rules

variable {γ : Type} {K : Rest} {x : Token} {ts : List Token} {R : Pattern → Prop}
  {alternatives primary element : Parser Pattern}

/-- A pattern inside another one, with no name behind it. -/
theorem runs_nestedPattern (hK : ∀ y ts, K y ts → kindOf ts ≠ .kwAs)
    (h : Runs fits depth alternatives ts fun q ts' => R q ∧ At K ts') :
    Runs fits depth (nestedPattern alternatives) ts fun q ts' => R q ∧ At K ts' := by
  rw [nestedPattern_eq]
  refine Runs.bind h ?_
  rintro q ts' - ⟨hq, y, ts₁, rfl, hy⟩
  refine Runs.iterate (Loops.step (Runs.stay (hK y ts₁ hy) (Runs.pure ?_)))
  exact ⟨hq, y, ts₁, rfl, hy⟩

/-- A pattern with no bar behind it. -/
theorem runs_oneAlternative (hK : ∀ y ts, K y ts → kindOf ts ≠ .pipe)
    (h : Runs fits depth primary ts fun q ts' => R q ∧ At K ts') :
    Runs fits depth (alternativesBody primary) ts fun q ts' => R q ∧ At K ts' := by
  refine Runs.bind h ?_
  rintro q ts' - ⟨hq, y, ts₁, rfl, hy⟩
  refine Runs.next fun n hn _ => ?_
  rw [if_neg (by rw [hn]; exact hK y ts₁ hy)]
  exact Runs.pure ⟨hq, y, ts₁, rfl, hy⟩

/-- A pattern is read from some words where a bar may follow. -/
def ReadsAlternative (fits : Prop) (depth : Nat) (primary : Parser Pattern) (ws : List Word)
    (R : Pattern → Prop) : Prop :=
  ∀ K ts, (∀ y ts, K y ts → kindOf ts ∈ Pattern.followers .primary) → Begins ws K ts →
    Runs fits depth primary ts fun q ts' => R q ∧ At K ts'

theorem ReadsAlternative.weaken {fits' : Prop} {ws : List Word}
    (h : ReadsAlternative fits depth primary ws R) (hfits : fits' → fits) :
    ReadsAlternative fits' depth primary ws R :=
  fun K ts hK hts => (h K ts hK hts).weaken hfits

section Alternatives

variable {words : γ → List Word} {R : γ → Pattern → Prop} {c : γ} {cs : List γ}

/-- What may follow one of several alternatives. -/
theorem kindOf_after_alternative (hK : ∀ y ts, K y ts → kindOf ts ∈ Pattern.followers .arm)
    {y : Token} (hy : After ((cs.map words).flatMap fun ws => .sign .pipe :: ws) K y ts) :
    kindOf ts ∈ Pattern.followers .primary := by
  have hsub : ∀ k ∈ Pattern.followers .arm, k ∈ Pattern.followers .primary := by decide
  cases cs with
  | nil => exact hsub _ (hK y ts hy)
  | cons c cs =>
    rw [List.map_cons, List.flatMap_cons] at hy
    rw [kindOf_of_after hy]
    decide

/-- The alternatives behind those that were read. -/
theorem loops_alternativesOf (hwords : ∀ c ∈ cs, words c ≠ [])
    (h : ∀ c ∈ cs, ReadsAlternative fits depth primary (words c) (R c))
    (hK : ∀ y ts, K y ts → kindOf ts ∈ Pattern.followers .arm) (before : List Pattern)
    (hts : After ((cs.map words).flatMap fun ws => .sign .pipe :: ws) K x ts) :
    Loops fits depth (barRound primary) before (x :: ts) fun qs ts' =>
      (∃ ps, qs = before ++ ps ∧ List.Forall₂ R cs ps) ∧ At K ts' := by
  have hbar : ∀ k ∈ Pattern.followers .arm, k ≠ .pipe := by decide
  induction cs generalizing before x ts with
  | nil =>
    refine Loops.step (Runs.stay (hbar _ (hK x ts hts)) (Runs.pure ⟨⟨[], ?_, .nil⟩, x, ts, rfl, hts⟩))
    rw [List.append_nil]
  | cons c cs ih =>
    rw [List.forall_mem_cons] at hwords h
    rw [List.map_cons, List.flatMap_cons] at hts
    obtain ⟨y, ts, rfl, hy, -, hrest⟩ := hts
    replace hrest : After (words c ++ (cs.map words).flatMap fun ws => .sign .pipe :: ws) K y ts := hrest
    rw [after_append] at hrest
    refine Loops.step (Runs.skip hy.kind (Runs.advance (Runs.bind (h.1 _ ts
      (fun y ts hy => kindOf_after_alternative hK hy) (begins_of_after hwords.1 hrest)) ?_)))
    rintro q ts' hlength ⟨hq, z, ts₁, rfl, hz⟩
    refine Runs.pure ⟨?_, ?_⟩
    · simp only [List.length_cons] at hlength ⊢
      omega
    · intro fuel hfuel
      refine (ih hwords.2 h.2 (before ++ [q]) hz fuel hfuel).mono ?_
      rintro qs ts' - ⟨⟨ps, rfl, hps⟩, hat⟩
      exact ⟨⟨q :: ps, by rw [List.append_assoc, List.singleton_append], .cons hq hps⟩, hat⟩

/-- **Alternatives.** -/
theorem runs_alternativesOf (hne : cs ≠ []) (hwords : ∀ d ∈ c :: cs, words d ≠ [])
    (h : ∀ d ∈ c :: cs, ReadsAlternative fits depth primary (words d) (R d))
    (hK : ∀ y ts, K y ts → kindOf ts ∈ Pattern.followers .arm)
    (hts : Begins ([Word.sign .pipe].intercalate ((c :: cs).map words)) K ts) :
    Runs fits depth (alternativesBody primary) ts fun q ts' =>
      (∃ m ps, q = .or m ps ∧ List.Forall₂ R (c :: cs) ps) ∧ At K ts' := by
  rw [List.forall_mem_cons] at hwords h
  rw [List.map_cons, words_alternatives, begins_append hwords.1] at hts
  have hbar : ∀ y ts, After ((cs.map words).flatMap fun ws => .sign .pipe :: ws) K y ts →
      kindOf ts = .pipe := by
    intro y ts hy
    obtain ⟨d, ds, rfl⟩ := List.exists_cons_of_ne_nil hne
    rw [List.map_cons, List.flatMap_cons] at hy
    exact kindOf_of_after hy
  refine Runs.bind (h.1 _ ts (fun y ts hy => by rw [hbar y ts hy]; decide) hts) ?_
  rintro p ts' - ⟨hp, y, ts, rfl, hy⟩
  refine Runs.next fun n hn _ => ?_
  rw [if_pos (hn.trans (hbar y ts hy))]
  refine Runs.bind (Runs.iterate (loops_alternativesOf hwords.2 h.2 hK [p] hy)) ?_
  rintro qs ts' - ⟨⟨ps, rfl, hps⟩, z, ts, rfl, hz⟩
  exact Runs.current (Runs.pure ⟨⟨_, _, rfl, .cons hp hps⟩, z, ts, rfl, hz⟩)

end Alternatives

/-! ### Parentheses -/

section Lists

variable {words : γ → List Word} {R : γ → Pattern → Prop} {cs : List γ}

theorem opening_commaWords {c : γ} (hopen : Pattern.Opening (words c)) (more : List Word) :
    Pattern.Opening (commaWords ((c :: cs).map words) ++ more) := by
  obtain ⟨rest, hrest⟩ := commaWords_cons (words c) (cs.map words)
  rw [List.map_cons, hrest, List.append_assoc]
  exact hopen.append _

theorem kindOf_of_opening {ws : List Word} (hopen : Pattern.Opening ws) (hts : After ws K x ts) :
    kindOf ts ∈ Pattern.starters := by
  obtain ⟨w, rest, rfl, hw, -⟩ := hopen
  rw [kindOf_of_after hts]
  exact hw

theorem opening_ne {ws : List Word} (hopen : Pattern.Opening ws) : ws ≠ [] := by
  obtain ⟨w, rest, rfl, -⟩ := hopen
  exact List.cons_ne_nil w rest

/-- **Patterns in parentheses**: one is itself, more are a tuple. -/
theorem runs_groupOf (hne : cs ≠ []) (hopen : ∀ c ∈ cs, Pattern.Opening (words c))
    (h : ∀ c ∈ cs, ReadsWords fits depth (nestedPattern alternatives) .rparen (words c) (R c))
    (hx : x.kind = .lparen)
    (hts : After (commaWords (cs.map words) ++ [Word.sign .rparen]) K x ts) :
    Runs fits depth (primaryBody alternatives primary) (x :: ts) fun q ts' =>
      (∃ qs, List.Forall₂ R cs qs ∧ (∀ p, qs = [p] → q = p) ∧
        (2 ≤ qs.length → ∃ m, q = .tuple m qs)) ∧ At K ts' := by
  have hother : ∀ k ∈ Pattern.starters, k ≠ .pipe ∧ k ≠ .rparen := by decide
  have hfirst : kindOf ts ∈ Pattern.starters := by
    obtain ⟨c, cs, rfl⟩ := List.exists_cons_of_ne_nil hne
    exact kindOf_of_opening (opening_commaWords (hopen c List.mem_cons_self) _) hts
  have hlist := runs_commaListOf ")" hne (fun c hc => opening_ne (hopen c hc)) h hts rfl (by decide)
  refine Runs.current ?_
  simp only [hx]
  refine Runs.refuse (hother _ hfirst).1 (Runs.current (Runs.stay (hother _ hfirst).2 ?_))
  refine Runs.bind hlist ?_
  rintro qs ts' - ⟨hqs, hat⟩
  match qs, hqs with
  | [], hqs =>
    cases hqs
    exact absurd rfl hne
  | [q], hqs =>
    refine Runs.pure ⟨⟨[q], hqs, fun p hp => (List.cons.inj hp).1, fun htwo => ?_⟩, hat⟩
    simp at htwo
  | q :: q' :: qs, hqs =>
    refine Runs.mark fun m => Runs.pure ⟨⟨_, hqs, fun p hp => ?_, fun _ => ⟨m, rfl⟩⟩, hat⟩
    cases hp

/-- **Patterns behind a constructor.** -/
theorem runs_constructOf (hopen : ∀ c ∈ cs, Pattern.Opening (words c))
    (h : ∀ c ∈ cs, ReadsWords fits depth (nestedPattern alternatives) .rparen (words c) (R c))
    (hx : x.kind = .upper)
    (hts : After ([Word.sign .lparen] ++ (commaWords (cs.map words) ++ [Word.sign .rparen])) K x ts) :
    Runs fits depth (primaryBody alternatives primary) (x :: ts) fun q ts' =>
      (∃ m qs, q = .construct m x.text qs ∧ List.Forall₂ R cs qs) ∧ At K ts' := by
  obtain ⟨y, ts, rfl, hy, -, hlist⟩ := hts
  have hother : ∀ k ∈ Pattern.starters, k ≠ .rparen := by decide
  have hfirst : ∀ c ∈ cs, ∃ w ws, words c = w :: ws ∧ w.kind ≠ .rparen := by
    intro c hc
    obtain ⟨w, ws, hwords, hw, -⟩ := hopen c hc
    exact ⟨w, ws, hwords, hother _ hw⟩
  refine Runs.current ?_
  simp only [hx]
  refine Runs.skip hy.kind (Runs.bind (runs_commaListOrNoneOf ")" hfirst h hlist rfl (by decide)) ?_)
  rintro qs ts' - ⟨hqs, hat⟩
  exact Runs.mark fun m => Runs.pure ⟨⟨m, qs, rfl, hqs⟩, hat⟩

end Lists

/-! ### Recognizers -/

theorem runs_recognizerName {name : String} {kind : RecognizerKind} (hname : isUpperName name = true)
    {α : Type} {x : Token} (hts : After (kind.words name).tail K x ts)
    {rest : String × RecognizerKind → Parser α} {post : α → List Token → Prop}
    (h : ∀ ts', At K ts' → Runs fits depth (rest (name, kind)) ts' post) :
    Runs fits depth (recognizerName >>= rest) (x :: ts) post := by
  have hrun : Runs fits depth recognizerName (x :: ts) fun r ts' => r = (name, kind) ∧ At K ts' := by
    cases kind with
    | total =>
      obtain ⟨a, ts, rfl, ha, -, b, ts, rfl, hb, -, c, ts, rfl, hc, -, d, ts, rfl, hd, -, hrest⟩ := hts
      refine Runs.expect ha.kind (Runs.expect (hb.kind.trans (kind_of_isUpperName hname)) ?_)
      refine Runs.current (Runs.expect hc.kind ?_)
      have hkind : kindOf (d :: ts) = .rparen := hd.kind
      refine Runs.stay (by rw [hkind]; decide) (Runs.given (Runs.expect hkind (Runs.pure ?_)))
      refine ⟨?_, d, ts, rfl, hrest⟩
      rw [hb.text]
      rfl
    | optional =>
      obtain ⟨a, ts, rfl, ha, -, b, ts, rfl, hb, -, c, ts, rfl, hc, -, d, ts, rfl, hd, -, e, ts, rfl, he,
        -, f, ts, rfl, hf, -, hrest⟩ := hts
      refine Runs.expect ha.kind (Runs.expect (hb.kind.trans (kind_of_isUpperName hname)) ?_)
      refine Runs.current (Runs.expect hc.kind ?_)
      have hkind : kindOf (d :: e :: f :: ts) = .underscore := hd.kind.trans (by decide)
      refine Runs.skip hkind (Runs.expect he.kind (Runs.given (Runs.expect hf.kind (Runs.pure ?_))))
      refine ⟨?_, f, ts, rfl, hrest⟩
      rw [hb.text]
      rfl
  refine Runs.bind hrun ?_
  rintro r ts' - ⟨rfl, hat⟩
  exact h ts' hat

theorem words_recognizer (kind : RecognizerKind) (name : String) :
    kind.words name = Word.sign .lparen :: (kind.words name).tail := by
  cases kind <;> rfl

/-- **A recognizer with an argument.** -/
theorem runs_callOf {name : String} {kind : RecognizerKind} (hname : isUpperName name = true)
    {w : Word} {ws : List Word} (hstart : w.kind ∈ Pattern.argumentStarters)
    (h : ∀ ts, Begins (w :: ws) K ts → Runs fits depth primary ts fun q ts' => R q ∧ At K ts')
    (hts : Begins (kind.words name ++ w :: ws) K ts) :
    Runs fits depth (primaryBody alternatives primary) ts fun q ts' =>
      (∃ m p, q = .active m name kind (some p) ∧ R p) ∧ At K ts' := by
  rw [words_recognizer] at hts
  obtain ⟨x, ts, rfl, hx, hrest⟩ := hts
  have hbar : kindOf ts = .pipe := by
    cases kind <;> exact kindOf_of_after hrest
  replace hrest : After (kind.words name).tail (After (w :: ws) K) x ts := by
    rw [← after_append]
    exact hrest
  have hargument : ∀ k ∈ Pattern.argumentStarters, startsArgument k = true := by decide
  refine Runs.current ?_
  simp only [show x.kind = .lparen from hx.kind]
  refine Runs.choose hbar (Runs.current (runs_recognizerName hname hrest ?_))
  rintro ts' ⟨y, ts, rfl, hy⟩
  have hstarts : startsArgument (kindOf ts) = true := by
    rw [kindOf_of_after hy]
    exact hargument _ hstart
  refine Runs.startsArgument hstarts (Runs.advance (Runs.bind (h ts
    (begins_of_after (List.cons_ne_nil w ws) hy)) ?_))
  rintro q ts' - ⟨hq, hat⟩
  exact Runs.given (Runs.mark fun m => Runs.pure ⟨⟨m, q, rfl, hq⟩, hat⟩)

/-! ### Slices -/

/-- What is done behind an item of a slice. -/
def sliceNext (items : List (SliceItem Pattern)) :
    Parser (Round (List (SliceItem Pattern)) (List (SliceItem Pattern))) := do
  if ← skip .comma then return .again items
  else
    expect .rbracket ", or ]"
    return .done items

/-- One round of reading the items of a slice. -/
def sliceRound (element : Parser Pattern) (items : List (SliceItem Pattern)) :
    Parser (Round (List (SliceItem Pattern)) (List (SliceItem Pattern))) := do
  advance
  let t ← current
  let item : SliceItem Pattern ←
    if t.kind = .dotDot && !(← nextStartsBound) then
      if ← skip .lower then pure (.rest (← current).text t.span) else pure (.rest "" t.span)
    else pure (.element (← element))
  sliceNext (items ++ [item])

theorem slicePattern_eq (element : Parser Pattern) : slicePattern element = (do
    let start ← current
    if ← skip .rbracket then return .slice (← markFrom start) []
    else
      let items ← iterate (sliceRound element) []
      return .slice (← markFrom start) items) := rfl

/-- An item with the property `R` is read from some words, wherever they stand in a slice. -/
def ReadsSliceItem (fits : Prop) (depth : Nat) (element : Parser Pattern) (ws : List Word)
    (R : SliceItem Pattern → Prop) : Prop :=
  ∀ (K : Rest) (x : Token) (ts : List Token) (items : List (SliceItem Pattern))
    (post : Round (List (SliceItem Pattern)) (List (SliceItem Pattern)) → List Token → Prop),
    EndsItem .rbracket K → After ws K x ts →
    (∀ item y ts', R item → K y ts' → Runs fits depth (sliceNext (items ++ [item])) (y :: ts') post) →
    Runs fits depth (sliceRound element items) (x :: ts) post

theorem endsItem_facts {k : TokenKind} (hk : k = .comma ∨ k = .rbracket) :
    k ≠ .lower ∧ startsBound k = false := by
  rcases hk with rfl | rfl <;> decide

/-- A rest marker, with or without a name. -/
theorem readsSliceItem_rest {n : String} (hn : n = "" ∨ isLowerName n = true) :
    ReadsSliceItem fits depth element ([Word.sign .dotDot] ++ if n = "" then [] else [.name n])
      fun item => ∃ span, item = .rest n span := by
  intro K x ts items post hK hts hrest
  by_cases hempty : n = ""
  · rw [if_pos hempty] at hts
    obtain ⟨y, ts, rfl, hy, -, hat⟩ := hts
    have hnext := endsItem_facts (hK y ts hat)
    refine Runs.advance (Runs.current (Runs.startsBound hnext.2 ?_))
    rw [if_pos (by rw [show y.kind = .dotDot from hy.kind]; rfl)]
    exact Runs.stay hnext.1 (Runs.given (hrest _ _ _ ⟨_, by rw [hempty]⟩ hat))
  · rw [if_neg hempty] at hts
    obtain ⟨y, ts, rfl, hy, -, z, ts, rfl, hz, -, hat⟩ := hts
    have hkind : kindOf (z :: ts) = .lower :=
      hz.kind.trans (kind_of_isLowerName (hn.resolve_left hempty))
    have hbound : startsBound (kindOf (z :: ts)) = false := by rw [hkind]; rfl
    refine Runs.advance (Runs.current (Runs.startsBound hbound ?_))
    rw [if_pos (by rw [show y.kind = .dotDot from hy.kind]; rfl)]
    refine Runs.skip hkind (Runs.current (Runs.given (hrest _ _ _ ⟨y.span, ?_⟩ hat)))
    rw [hz.text]
    rfl

/-- An element. -/
theorem readsSliceItem_element {ws : List Word} (hopen : Pattern.Opening ws)
    (h : ReadsWords fits depth element .rbracket ws R) :
    ReadsSliceItem fits depth element ws fun item => ∃ p, item = .element p ∧ R p := by
  intro K x ts items post hK hts hrest
  have hbegins := begins_of_after (opening_ne hopen) hts
  have hstarts : ∀ k ∈ Literal.stopStarters, startsBound k = true := by decide
  obtain ⟨w, rest, rfl, -, hdots⟩ := hopen
  obtain ⟨y, ts, rfl, hy, -, hafter⟩ := hts
  have hbound : y.kind = .dotDot → startsBound (kindOf ts) = true := by
    intro hkind
    obtain ⟨v, more, rfl, hv⟩ := hdots (hy.kind.symm.trans hkind)
    rw [kindOf_of_after hafter]
    exact hstarts _ hv
  refine Runs.advance (Runs.current (Runs.startsBound rfl ?_))
  rw [if_neg ?_]
  · refine Runs.bind (h K _ hK hbegins) ?_
    rintro q ts' - ⟨hq, z, ts, rfl, hz⟩
    exact Runs.given (hrest _ z ts ⟨q, rfl, hq⟩ hz)
  · intro hcond
    simp only [Bool.and_eq_true, decide_eq_true_eq, Bool.not_eq_true'] at hcond
    rw [hbound hcond.1] at hcond
    cases hcond.2

/-- **A slice**, given how its items are read. -/
theorem runs_sliceOf {words : γ → List Word} {R : γ → SliceItem Pattern → Prop} {cs : List γ}
    (hstart : ∀ c ∈ cs, ∃ w ws, words c = w :: ws ∧ w.kind ≠ .rbracket)
    (h : ∀ c ∈ cs, ReadsSliceItem fits depth (nestedPattern alternatives) (words c) (R c))
    (hx : x.kind = .lbracket)
    (hts : After (commaWords (cs.map words) ++ [Word.sign .rbracket]) K x ts) :
    Runs fits depth (primaryBody alternatives primary) (x :: ts) fun q ts' =>
      (∃ m items, q = .slice m items ∧ List.Forall₂ R cs items) ∧ At K ts' := by
  refine Runs.current ?_
  simp only [hx, slicePattern_eq]
  refine Runs.current ?_
  by_cases hne : cs = []
  · subst hne
    refine Runs.skip (kindOf_of_after hts) (Runs.mark fun m => Runs.pure ?_)
    obtain ⟨y, ts, rfl, -, -, hat⟩ := hts
    exact ⟨⟨m, [], rfl, .nil⟩, y, ts, rfl, hat⟩
  have hfirst : kindOf ts ≠ .rbracket := by
    obtain ⟨c, cs, rfl⟩ := List.exists_cons_of_ne_nil hne
    obtain ⟨w, ws, hwords, hw⟩ := hstart c List.mem_cons_self
    obtain ⟨tail, htail⟩ := commaWords_cons (words c) (cs.map words)
    rw [List.map_cons, htail, hwords] at hts
    rw [kindOf_of_after hts]
    exact hw
  obtain ⟨front, last, rfl⟩ := (List.eq_nil_or_concat' cs).resolve_left hne
  rw [commaWords_concat, List.append_assoc] at hts
  have hloop : Loops fits depth (sliceRound (nestedPattern alternatives)) [] (x :: ts) fun items ts' =>
      List.Forall₂ R (front ++ [last]) items ∧ At K ts' := by
    refine Loops.commas (I := List.Forall₂ R) ?_ ?_ .nil hts
    · intro done c hc items hitems K' x ts _ hts
      rw [after_append] at hts
      refine h c (List.mem_append_left _ hc) _ x ts items _ (fun y ts hy => .inl (kindOf_of_after hy))
        hts fun item y ts' hitem hy => ?_
      refine Runs.skip (kindOf_of_after hy) (Runs.pure ?_)
      obtain ⟨z, ts, rfl, -, -, hz⟩ := hy
      exact ⟨_, rfl, forall₂_snoc hitems hitem, z, ts, rfl, hz⟩
    · intro items hitems x ts hts
      rw [after_append] at hts
      refine h last (List.mem_append_right _ List.mem_cons_self) _ x ts items _
        (fun y ts hy => .inr (kindOf_of_after hy)) hts fun item y ts' hitem hy => ?_
      have hkind : kindOf ts' = .rbracket := kindOf_of_after hy
      refine Runs.stay (by rw [hkind]; decide) (Runs.expect hkind (Runs.pure ?_))
      obtain ⟨z, ts, rfl, -, -, hz⟩ := hy
      exact ⟨_, rfl, forall₂_snoc hitems hitem, z, ts, rfl, hz⟩
  refine Runs.stay hfirst (Runs.bind (Runs.iterate hloop) ?_)
  rintro items ts' - ⟨hitems, hat⟩
  exact Runs.mark fun m => Runs.pure ⟨⟨m, items, rfl, hitems⟩, hat⟩

end Rules

end Parser

end Surface

end PatternPlan
