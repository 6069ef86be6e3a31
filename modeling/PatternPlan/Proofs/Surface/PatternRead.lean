import PatternPlan.Proofs.Surface.PatternRules

/-!
# Patterns are read back

A pattern is read from its words in each of the three positions it can stand in.

* `Pattern.opening_words` — how the words of a pattern start;
* `ReadsPrimary`, `ReadsArm`, `ReadsNested` — what it means that a pattern is read from its words;
  the last one goes on with any names that follow, since `p as a as b` is one loop;
* `readsPattern` — **every pattern that is written faithfully is read from its words**.
-/

namespace PatternPlan

/-! ### How words start -/

/-- The kinds of token that a constant starts with. -/
def Literal.starters : List TokenKind :=
  [.int, .float, .string, .minus, .kwTrue, .kwFalse, .lparen]

theorem Literal.words_cons (v : Literal) :
    ∃ w rest, v.words = w :: rest ∧ w.kind ∈ starters ∧ (v.isStart = true → w.kind ≠ .lparen) ∧
      (v.isStop = true → w.kind ∈ stopStarters) := by
  have hkinds : ∀ k ∈ stopStarters, k ∈ starters ∧ k ≠ .lparen := by decide
  have hstop : ∀ (w : Word) (rest : List Word), v.words = w :: rest → w.kind ∈ stopStarters →
      ∃ w rest, v.words = w :: rest ∧ w.kind ∈ starters ∧ (v.isStart = true → w.kind ≠ .lparen) ∧
        (v.isStop = true → w.kind ∈ stopStarters) := fun w rest hwords hw =>
    ⟨w, rest, hwords, (hkinds _ hw).1, fun _ => (hkinds _ hw).2, fun _ => hw⟩
  cases v with
  | int i =>
    by_cases hneg : i < 0
    · exact hstop _ _ (by rw [words, if_pos hneg]) (by decide)
    · exact hstop _ _ (by rw [words, if_neg hneg]) (by decide : TokenKind.int ∈ stopStarters)
  | float d =>
    by_cases hneg : d.negative = true
    · exact hstop _ _ (by rw [words, if_pos hneg]) (by decide)
    · exact hstop _ _ (by rw [words, if_neg hneg]) (by decide : TokenKind.float ∈ stopStarters)
  | text s => exact hstop _ _ rfl (by decide : TokenKind.string ∈ stopStarters)
  | bool b =>
    cases b with
    | true =>
      exact ⟨_, _, rfl, by decide, fun _ => by decide, fun h => absurd h (by decide)⟩
    | false =>
      exact ⟨_, _, rfl, by decide, fun _ => by decide, fun h => absurd h (by decide)⟩
  | unit => exact ⟨_, _, rfl, by decide, fun h => absurd h (by decide), fun h => absurd h (by decide)⟩

namespace Surface

namespace Pattern

theorem intercalate_cons (sep ws : List Word) (wss : List (List Word)) :
    ∃ rest, sep.intercalate (ws :: wss) = ws ++ rest := by
  cases wss with
  | nil => exact ⟨[], by rw [List.intercalate_singleton, List.append_nil]⟩
  | cons ws' wss =>
    exact ⟨sep ++ sep.intercalate (ws' :: wss), by rw [List.intercalate_cons_cons, List.append_assoc]⟩

theorem opening_constant (v : Literal) : Opening v.words := by
  obtain ⟨w, rest, hwords, hw, -⟩ := v.words_cons
  have hstarters : ∀ k ∈ Literal.starters, k ∈ starters ∧ k ≠ .dotDot := by decide
  rw [hwords]
  exact opening_of_kind rfl (hstarters _ hw).1 (hstarters _ hw).2 rest

/-- **The words of a pattern start as those of a pattern.** -/
theorem opening_words {p : Pattern} (h : p.Writable) (place : Position) : Opening (p.words place) := by
  induction h generalizing place with
  | wildcard => exact opening_of_kind (k := .underscore) (by decide) (by decide) (by decide) _
  | var hname => exact opening_of_kind (kind_of_isLowerName hname) (by decide) (by decide) _
  | literal => exact opening_constant _
  | tuple =>
    rw [words]
    exact opening_of_kind (k := .lparen) rfl (by decide) (by decide) _
  | @record mark fs rest _ _ _ =>
    cases fs with
    | nil =>
      cases rest <;> rw [words] <;> exact opening_of_kind (k := .lbrace) rfl (by decide) (by decide) _
    | cons f fs =>
      rw [words]
      exact opening_of_kind (k := .lbrace) rfl (by decide) (by decide) _
  | @construct mark n ps hname _ _ =>
    have hkind := kind_of_isUpperName hname
    cases ps <;> rw [words] <;> exact opening_of_kind hkind (by decide) (by decide) _
  | @binding mark n viaAt p hname _ ih =>
    cases viaAt with
    | true =>
      rw [words]
      exact opening_of_kind (kind_of_isLowerName hname) (by decide) (by decide) _
    | false =>
      rw [words]
      exact (((ih .nested).append _).append _).parenthesized _
  | @or mark ps hlength _ ih =>
    cases ps with
    | nil => exact absurd hlength (by decide)
    | cons p ps =>
      obtain ⟨rest, hrest⟩ := intercalate_cons [.sign .pipe] (p.words .primary) (wordsAll .primary ps)
      rw [words, wordsAll, hrest]
      exact ((ih p List.mem_cons_self .primary).append rest).parenthesized _
  | slice =>
    rw [words]
    exact opening_of_kind (k := .lbracket) rfl (by decide) (by decide) _
  | @range mark start stop inclusive hsome hstop hstart hend =>
    rw [words]
    cases start with
    | some b => exact ((opening_constant b.value).append _).append _
    | none =>
      obtain ⟨b, rfl⟩ : ∃ b, stop = some b := by simpa [Option.isSome_iff_exists] using hsome
      obtain ⟨w, rest, hwords, -, -, hw⟩ := b.value.words_cons
      refine ⟨rangeWord inclusive, b.value.words, rfl, ?_, fun _ => ⟨w, rest, hwords, hw (hend b rfl).kind⟩⟩
      cases inclusive <;> decide
  | regex => exact opening_of_kind (k := .regex) rfl (by decide) (by decide) _
  | @active mark n kind arg _ _ _ =>
    have hlabel : Opening (kind.words n) := by
      cases kind <;> exact opening_of_kind (k := .lparen) rfl (by decide) (by decide) _
    cases arg with
    | none => exact hlabel
    | some p =>
      rw [words]
      exact hlabel.append _

theorem words_ne {p : Pattern} (h : p.Writable) (place : Position) : p.words place ≠ [] := by
  obtain ⟨w, ws, hw, -⟩ := opening_words h place
  rw [hw]
  exact List.cons_ne_nil w ws

/-- Where one pattern stands alone, only a range without start begins with `..`. -/
theorem argument_words {p : Pattern} (h : p.Writable) (hstart : p.isStartless = false) :
    ∃ w rest, p.words .primary = w :: rest ∧ w.kind ∈ argumentStarters := by
  have hconstant : ∀ v : Literal, ∃ w rest, v.words = w :: rest ∧ w.kind ∈ argumentStarters := by
    intro v
    obtain ⟨w, rest, hwords, hw, -⟩ := v.words_cons
    have hstarters : ∀ k ∈ Literal.starters, k ∈ argumentStarters := by decide
    exact ⟨w, rest, hwords, hstarters _ hw⟩
  cases h with
  | wildcard => exact ⟨_, _, rfl, by decide⟩
  | var hname => exact ⟨_, _, rfl, by rw [kind_of_isLowerName hname]; decide⟩
  | literal => exact hconstant _
  | tuple =>
    rw [words]
    exact ⟨_, _, rfl, by decide⟩
  | @record mark fs rest _ _ =>
    cases fs with
    | nil => cases rest <;> rw [words] <;> exact ⟨_, _, rfl, by decide⟩
    | cons f fs =>
      rw [words]
      exact ⟨_, _, rfl, by decide⟩
  | @construct mark n ps hname _ =>
    have hkind := kind_of_isUpperName hname
    cases ps <;> rw [words] <;> exact ⟨_, _, rfl, by rw [hkind]; decide⟩
  | @binding mark n viaAt p hname _ =>
    cases viaAt with
    | true =>
      rw [words]
      exact ⟨_, _, rfl, by rw [kind_of_isLowerName hname]; decide⟩
    | false =>
      rw [words]
      exact ⟨_, _, rfl, by decide⟩
  | or =>
    rw [words]
    exact ⟨_, _, rfl, by decide⟩
  | slice =>
    rw [words]
    exact ⟨_, _, rfl, by decide⟩
  | @range mark start stop inclusive _ _ _ _ =>
    cases start with
    | none => cases hstart
    | some b =>
      obtain ⟨w, rest, hwords, hw⟩ := hconstant b.value
      rw [words, boundWords, hwords]
      exact ⟨_, _, rfl, hw⟩
  | regex => exact ⟨_, _, rfl, (by decide : TokenKind.regex ∈ argumentStarters)⟩
  | @active mark n kind arg _ _ =>
    cases arg with
    | none => cases kind <;> exact ⟨_, _, rfl, by decide⟩
    | some p =>
      rw [words]
      cases kind <;> exact ⟨_, _, rfl, by decide⟩

end Pattern

namespace Parser

variable {fits : Prop} {depth : Nat}

/-! ### Constants -/

theorem negated_neg (d : Double) : d.neg.neg = d := by
  rw [Double.neg, Double.neg]
  simp

/-- **A constant is read from its words.** -/
theorem runs_bound {v : Literal} (hv : v.isStart = true) {K : Rest} {ts : List Token}
    (hts : Begins v.words K ts) :
    Runs fits depth bound ts fun b ts' => b.value = v ∧ At K ts' := by
  cases v with
  | int i =>
    rw [Literal.words] at hts
    split at hts
    · obtain ⟨x, ts, rfl, hx, y, ts, rfl, hy, -, hrest⟩ := hts
      refine Runs.current ?_
      simp only [show x.kind = .minus from hx.kind]
      refine Runs.next fun n _ hn => ?_
      have hkind : y.kind = .int := hy.kind
      rw [hn y ts rfl, if_pos (by simp [hkind])]
      refine Runs.advance (Runs.mark fun m => Runs.pure ⟨?_, y, ts, rfl, hrest⟩)
      rw [hy.value]
      show Literal.int (-(i.natAbs : Int)) = _
      congr 1
      omega
    · obtain ⟨x, ts, rfl, hx, hrest⟩ := hts
      refine Runs.current ?_
      simp only [show x.kind = .int from hx.kind]
      refine Runs.pure ⟨?_, x, ts, rfl, hrest⟩
      rw [hx.value]
      show Literal.int (i.natAbs : Int) = _
      congr 1
      omega
  | float d =>
    rw [Literal.words] at hts
    split at hts
    · obtain ⟨x, ts, rfl, hx, y, ts, rfl, hy, -, hrest⟩ := hts
      refine Runs.current ?_
      simp only [show x.kind = .minus from hx.kind]
      refine Runs.next fun n _ hn => ?_
      have hkind : y.kind = .float := hy.kind
      rw [hn y ts rfl, if_pos (by simp [hkind])]
      refine Runs.advance (Runs.mark fun m => Runs.pure ⟨?_, y, ts, rfl, hrest⟩)
      rw [hy.value]
      exact congrArg Literal.float (negated_neg d)
    · obtain ⟨x, ts, rfl, hx, hrest⟩ := hts
      refine Runs.current ?_
      simp only [show x.kind = .float from hx.kind]
      refine Runs.pure ⟨?_, x, ts, rfl, hrest⟩
      rw [hx.value]
      rfl
  | text s =>
    obtain ⟨x, ts, rfl, hx, hrest⟩ := hts
    refine Runs.current ?_
    simp only [show x.kind = .string from hx.kind]
    refine Runs.pure ⟨?_, x, ts, rfl, hrest⟩
    rw [hx.value]
    rfl
  | bool b =>
    obtain ⟨x, ts, rfl, hx, hrest⟩ := hts
    refine Runs.current ?_
    cases b with
    | true =>
      have hkind : x.kind = .kwTrue := hx.kind.trans (by decide)
      have hvalue : x.value = some (.bool true) := hx.value.trans (by decide)
      simp only [hkind]
      exact Runs.pure ⟨by rw [hvalue]; rfl, x, ts, rfl, hrest⟩
    | false =>
      have hkind : x.kind = .kwFalse := hx.kind.trans (by decide)
      have hvalue : x.value = some (.bool false) := hx.value.trans (by decide)
      simp only [hkind]
      exact Runs.pure ⟨by rw [hvalue]; rfl, x, ts, rfl, hrest⟩
  | unit => cases hv

/-! ### The three positions -/

/-- A pattern is read from its words where only one pattern may stand. -/
def ReadsPrimary (fits : Prop) (p : Pattern) : Prop :=
  ∀ (depth room : Nat) (K : Rest) (ts : List Token), (fits → p.depth .primary ≤ room) →
    (∀ y ts, K y ts → kindOf ts ∈ Pattern.followers .primary) → Begins (p.words .primary) K ts →
    Runs fits depth (primaryWithin room) ts fun q ts' => q.erase = p.erase ∧ At K ts'

/-- A pattern is read from its words at the top of an arm. -/
def ReadsArm (fits : Prop) (p : Pattern) : Prop :=
  ∀ (depth room : Nat) (K : Rest) (ts : List Token), (fits → p.depth .arm ≤ room) →
    (∀ y ts, K y ts → kindOf ts ∈ Pattern.followers .arm) → Begins (p.words .arm) K ts →
    Runs fits depth (orWithin room) ts fun q ts' => q.erase = p.erase ∧ At K ts'

/-- A pattern is read from its words inside another one, before any names it is given. -/
def ReadsNested (fits : Prop) (p : Pattern) : Prop :=
  ∀ (depth room : Nat) (K : Rest) (ts : List Token) (post : Pattern → List Token → Prop),
    (fits → p.depth .nested ≤ room) →
    (∀ y ts, K y ts → kindOf ts ∈ Pattern.followers .arm) → Begins (p.words .nested) K ts →
    (∀ q ts', q.erase = p.erase → At K ts' → Loops fits depth asRound q ts' post) →
    Runs fits depth (orWithin room >>= fun q => iterate asRound q) ts post

/-- A pattern is read from its words in every position. -/
structure ReadsPattern (fits : Prop) (p : Pattern) : Prop where
  primary : ReadsPrimary fits p
  arm : ReadsArm fits p
  nested : ReadsNested fits p

theorem depth_pos (p : Pattern) : 1 ≤ p.depth .primary := by
  rw [Pattern.depth.eq_def]
  split <;> simp [Pattern.wrapped]

/-- What is left to show once there is a level to read one pattern on. -/
theorem readsPrimary_of_body {p : Pattern}
    (h : ∀ (depth room : Nat) (K : Rest) (ts : List Token), (fits → p.depth .primary ≤ room + 1) →
      (∀ y ts, K y ts → kindOf ts ∈ Pattern.followers .primary) → Begins (p.words .primary) K ts →
      Runs fits depth (primaryBody (orWithin room) (primaryWithin room)) ts
        fun q ts' => q.erase = p.erase ∧ At K ts') : ReadsPrimary fits p := by
  intro depth room K ts hroom hK hts
  cases room with
  | zero =>
    have hpos := depth_pos p
    exact Runs.tooDeep fun hfits => absurd (hroom hfits) (by omega)
  | succ room => exact Runs.nested (h (depth + 1) room K ts hroom hK hts)

/-- A pattern that is one pattern is one alternative. -/
theorem ReadsPrimary.arm {p : Pattern} (h : ReadsPrimary fits p)
    (hwords : p.words .arm = p.words .primary) (hdepth : p.depth .arm = p.depth .primary + 1) :
    ReadsArm fits p := by
  intro depth room K ts hroom hK hts
  cases room with
  | zero => exact Runs.tooDeep fun hfits => absurd (hroom hfits) (by omega)
  | succ room =>
    have hsub : ∀ k ∈ Pattern.followers .arm, k ∈ Pattern.followers .primary ∧ k ≠ .pipe := by decide
    rw [hwords] at hts
    refine Runs.nested (runs_oneAlternative (fun y ts hy => (hsub _ (hK y ts hy)).2) (h (depth + 1) room K
      ts (fun hfits => ?_) (fun y ts hy => (hsub _ (hK y ts hy)).1) hts))
    have hle := hroom hfits
    omega

/-- Alternatives inside a pattern are alternatives. -/
theorem ReadsArm.nested {p : Pattern} (h : ReadsArm fits p) (hwords : p.words .nested = p.words .arm)
    (hdepth : p.depth .nested = p.depth .arm) : ReadsNested fits p := by
  intro depth room K ts post hroom hK hts hrest
  rw [hwords] at hts
  rw [hdepth] at hroom
  refine Runs.bind (h depth room K ts hroom hK hts) ?_
  rintro q ts' - ⟨herase, hat⟩
  exact Runs.iterate (hrest q ts' herase hat)

/-- A pattern inside another one, with no name behind it. -/
theorem ReadsNested.runs {p : Pattern} (h : ReadsNested fits p) {room : Nat}
    (hroom : fits → p.depth .nested ≤ room) {K : Rest}
    (hK : ∀ y ts, K y ts → kindOf ts ∈ Pattern.followers .nested) {ts : List Token}
    (hts : Begins (p.words .nested) K ts) :
    Runs fits depth (nestedPattern (orWithin room)) ts fun q ts' => q.erase = p.erase ∧ At K ts' := by
  have hsub : ∀ k ∈ Pattern.followers .nested, k ∈ Pattern.followers .arm ∧ k ≠ .kwAs := by decide
  rw [nestedPattern_eq]
  refine h depth room K ts _ hroom (fun y ts hy => (hsub _ (hK y ts hy)).1) hts ?_
  rintro q ts' herase ⟨y, ts₁, rfl, hy⟩
  refine Loops.step (Runs.stay (hsub _ (hK y ts₁ hy)).2 (Runs.pure ?_))
  exact ⟨herase, y, ts₁, rfl, hy⟩

theorem ReadsNested.item {p : Pattern} (h : ReadsNested fits p) {room : Nat}
    (hroom : fits → p.depth .nested ≤ room) {close : TokenKind}
    (hclose : close ∈ Pattern.followers .nested) :
    ReadsItem fits depth (nestedPattern (orWithin room)) close (Pattern.words .nested) Pattern.erase p := by
  intro K ts hends hts
  refine h.runs hroom (fun y ts hy => ?_) hts
  rcases hends y ts hy with hkind | hkind
  · rw [hkind]
    decide
  · rw [hkind]
    exact hclose

/-! ### Patterns in parentheses -/

section Groups

variable {K : Rest} {x : Token} {ts : List Token} {room : Nat}

/-- Patterns in parentheses: one is itself, more are a tuple. -/
theorem runs_groupPattern {ps : List Pattern} (hne : ps ≠ []) (hw : ∀ p ∈ ps, p.Writable)
    (h : ∀ p ∈ ps, ReadsNested fits p) (hroom : fits → ∀ p ∈ ps, p.depth .nested ≤ room)
    (hx : x.kind = .lparen)
    (hts : After (commaWords (ps.map (Pattern.words .nested)) ++ [Word.sign .rparen]) K x ts) :
    Runs fits depth (primaryBody (orWithin room) (primaryWithin room)) (x :: ts) fun q ts' =>
      (∀ p, ps = [p] → q.erase = p.erase) ∧
      (2 ≤ ps.length → q.erase = .tuple default (ps.map Pattern.erase)) ∧ At K ts' := by
  refine (runs_groupOf hne (fun p hp => Pattern.opening_words (hw p hp) .nested) (fun p hp =>
    (h p hp).item (fun hfits => hroom hfits p hp) (by decide)) hx hts).mono ?_
  rintro q ts' - ⟨⟨qs, hqs, hone, htuple⟩, hat⟩
  have hlength := hqs.length_eq
  refine ⟨fun p hp => ?_, fun htwo => ?_, hat⟩
  · subst hp
    obtain ⟨r, rfl⟩ := List.length_eq_one_iff.mp hlength.symm
    rw [hone r rfl]
    exact (List.forall₂_cons.mp hqs).1
  · obtain ⟨m, rfl⟩ := htuple (hlength ▸ htwo)
    rw [Pattern.erase, Pattern.eraseAll_eq, map_erase_eq hqs]

/-- A pattern that stands in parentheses. -/
theorem ReadsNested.primary {p : Pattern} (hp : p.Writable) (h : ReadsNested fits p)
    (hwords : p.words .primary = [Word.sign .lparen] ++ p.words .nested ++ [Word.sign .rparen])
    (hdepth : p.depth .primary = p.depth .nested + 1) : ReadsPrimary fits p := by
  refine readsPrimary_of_body fun depth room K ts hroom hK hts => ?_
  rw [hwords, List.append_assoc] at hts
  obtain ⟨x, ts, rfl, hx, hrest⟩ := hts
  have hone : After (commaWords ([p].map (Pattern.words .nested)) ++ [Word.sign .rparen]) K x ts := by
    rw [List.map_singleton, commaWords, List.intercalate_singleton]
    exact hrest
  refine (runs_groupPattern (List.cons_ne_nil p []) (by simpa using hp) (by simpa using h)
    (fun hfits => ?_) hx.kind hone).mono ?_
  · have hle := hroom hfits
    simp only [List.mem_singleton, forall_eq]
    omega
  · rintro q ts' - ⟨herase, -, hat⟩
    exact ⟨herase p rfl, hat⟩

end Groups

/-! ### One pattern of each form -/

section Forms

variable {K : Rest} {ts : List Token} {room : Nat} {mark : Mark}

theorem readsPrimary_wildcard : ReadsPrimary fits (.wildcard mark) := by
  refine readsPrimary_of_body fun depth room K ts _ _ hts => ?_
  obtain ⟨x, ts, rfl, hx, hrest⟩ := hts
  have hkind : x.kind = .underscore := hx.kind.trans (by decide)
  refine Runs.current ?_
  simp only [hkind]
  exact Runs.pure ⟨rfl, x, ts, rfl, hrest⟩

theorem readsPrimary_var {name : String} (hname : isLowerName name = true) :
    ReadsPrimary fits (.var mark name) := by
  refine readsPrimary_of_body fun depth room K ts _ hK hts => ?_
  obtain ⟨x, ts, rfl, hx, hrest⟩ := hts
  refine Runs.current ?_
  simp only [hx.kind.trans (kind_of_isLowerName hname)]
  refine Runs.stay (followers_facts _ (hK x ts hrest)).1 (Runs.pure ⟨?_, x, ts, rfl, hrest⟩)
  rw [Pattern.erase, Pattern.erase, hx.text]
  rfl

/-- Whether a kind starts a constant other than unit. -/
def startsConstant (k : TokenKind) : Prop :=
  k = .int ∨ k = .float ∨ k = .string ∨ k = .kwTrue ∨ k = .kwFalse ∨ k = .minus

theorem startsConstant_words {v : Literal} (hv : v.isStart = true) {K : Rest} {ts : List Token}
    (hts : Begins v.words K ts) : ∃ x ts', ts = x :: ts' ∧ startsConstant x.kind := by
  obtain ⟨w, rest, hwords, hw, hparen, -⟩ := v.words_cons
  have hother := hparen hv
  rw [hwords] at hts
  obtain ⟨x, ts', rfl, hx, -⟩ := hts
  refine ⟨x, ts', rfl, ?_⟩
  rw [hx.kind]
  simp only [Literal.starters, List.mem_cons, List.not_mem_nil, or_false] at hw
  simp only [startsConstant]
  tauto

/-- A pattern that starts with a constant. -/
theorem runs_constant {x : Token} (hx : startsConstant x.kind) {alternatives primary : Parser Pattern}
    {post : Pattern → List Token → Prop}
    (h : Runs fits depth (do
      let b ← bound
      if ← skipEither .dotDot .dotDotEq then rangeAfter b
      else return .literal b.mark b.value) (x :: ts) post) :
    Runs fits depth (primaryBody alternatives primary) (x :: ts) post := by
  refine Runs.current ?_
  rcases hx with hx | hx | hx | hx | hx | hx <;> simp only [hx] <;> exact h

theorem readsPrimary_literal {value : Literal} : ReadsPrimary fits (.literal mark value) := by
  refine readsPrimary_of_body fun depth room K ts _ hK hts => ?_
  rw [Pattern.words] at hts
  by_cases hunit : value = .unit
  · subst hunit
    obtain ⟨x, ts, rfl, hx, y, ts, rfl, hy, -, hrest⟩ := hts
    refine Runs.current ?_
    simp only [show x.kind = .lparen from hx.kind]
    have hkind : kindOf (y :: ts) = .rparen := hy.kind
    refine Runs.refuse (by rw [hkind]; decide) (Runs.current (Runs.skip hkind ?_))
    exact Runs.mark fun m => Runs.pure ⟨rfl, y, ts, rfl, hrest⟩
  · have hstart : value.isStart = true := by
      cases value <;> first | rfl | exact absurd rfl hunit
    obtain ⟨x, ts', rfl, hx⟩ := startsConstant_words hstart hts
    refine runs_constant hx (Runs.bind (runs_bound hstart hts) ?_)
    rintro b ts' - ⟨hvalue, y, ts, rfl, hrest⟩
    have hfollow := followers_facts _ (hK y ts hrest)
    refine Runs.skipNeither hfollow.2.2.1 hfollow.2.2.2.1 (Runs.pure ⟨?_, y, ts, rfl, hrest⟩)
    rw [Pattern.erase, Pattern.erase, hvalue]

theorem readsPrimary_tuple {ps : List Pattern} (hlength : 2 ≤ ps.length) (hw : ∀ p ∈ ps, p.Writable)
    (h : ∀ p ∈ ps, ReadsPattern fits p) : ReadsPrimary fits (.tuple mark ps) := by
  refine readsPrimary_of_body fun depth room K ts hroom hK hts => ?_
  rw [Pattern.words, Pattern.wordsAll_eq, List.append_assoc] at hts
  obtain ⟨x, ts, rfl, hx, hrest⟩ := hts
  have hne : ps ≠ [] := by
    rintro rfl
    exact absurd hlength (by decide)
  refine (runs_groupPattern hne hw (fun p hp => (h p hp).nested) (fun hfits p hp => ?_) hx.kind hrest).mono ?_
  · have hle := hroom hfits
    rw [Pattern.depth, Pattern.wrapped] at hle
    exact Pattern.depthAll_le_iff.mp (Nat.le_of_succ_le_succ hle) p hp
  · rintro q ts' - ⟨-, herase, hat⟩
    refine ⟨?_, hat⟩
    rw [herase hlength, Pattern.erase, Pattern.eraseAll_eq]

theorem readsPrimary_construct {name : String} {ps : List Pattern} (hname : isUpperName name = true)
    (hw : ∀ p ∈ ps, p.Writable) (h : ∀ p ∈ ps, ReadsPattern fits p) :
    ReadsPrimary fits (.construct mark name ps) := by
  refine readsPrimary_of_body fun depth room K ts hroom hK hts => ?_
  cases ps with
  | nil =>
    obtain ⟨x, ts, rfl, hx, hrest⟩ := hts
    refine Runs.current ?_
    simp only [hx.kind.trans (kind_of_isUpperName hname)]
    refine Runs.stay (followers_facts _ (hK x ts hrest)).2.1 (Runs.given (Runs.mark fun m => ?_))
    refine Runs.pure ⟨?_, x, ts, rfl, hrest⟩
    rw [Pattern.erase, Pattern.erase, hx.text]
    rfl
  | cons p ps =>
    rw [Pattern.words, Pattern.wordsAll_eq] at hts
    simp only [List.append_assoc] at hts
    obtain ⟨x, ts, rfl, hx, hrest⟩ := hts
    refine (runs_constructOf (fun q hq => Pattern.opening_words (hw q hq) .nested) (fun q hq =>
      (h q hq).nested.item (fun hfits => ?_) (by decide)) (hx.kind.trans (kind_of_isUpperName hname))
      hrest).mono ?_
    · have hle := hroom hfits
      rw [Pattern.depth, Pattern.wrapped] at hle
      exact Pattern.depthAll_le_iff.mp (Nat.le_of_succ_le_succ hle) q hq
    · rintro r ts' - ⟨⟨m, qs, rfl, hqs⟩, hat⟩
      refine ⟨?_, hat⟩
      rw [Pattern.erase, Pattern.erase, hx.text, Pattern.eraseAll_eq, Pattern.eraseAll_eq,
        map_erase_eq hqs]
      rfl

theorem readsPrimary_at {name : String} {p : Pattern} (hname : isLowerName name = true)
    (hw : p.Writable) (h : ReadsPattern fits p) : ReadsPrimary fits (.binding mark name true p) := by
  refine readsPrimary_of_body fun depth room K ts hroom hK hts => ?_
  rw [Pattern.words] at hts
  simp only [List.append_assoc] at hts
  obtain ⟨x, ts, rfl, hx, y, ts, rfl, hy, -, hrest⟩ := hts
  refine Runs.current ?_
  simp only [hx.kind.trans (kind_of_isLowerName hname)]
  refine Runs.skip hy.kind (Runs.advance (Runs.bind (h.primary depth room K ts (fun hfits => ?_) hK
    (begins_of_after (Pattern.words_ne hw .primary) hrest)) ?_))
  · have hle := hroom hfits
    rw [Pattern.depth, Pattern.wrapped] at hle
    exact Nat.le_of_succ_le_succ hle
  rintro q ts' - ⟨herase, hat⟩
  refine Runs.mark fun m => Runs.pure ⟨?_, hat⟩
  rw [Pattern.erase, Pattern.erase, hx.text, herase]
  rfl

theorem readsPrimary_regex {source : String} : ReadsPrimary fits (.regex mark source) := by
  refine readsPrimary_of_body fun depth room K ts _ _ hts => ?_
  obtain ⟨x, ts, rfl, hx, hrest⟩ := hts
  have hvalue : x.value = some (.text source) := hx.value
  refine Runs.current ?_
  simp only [show x.kind = .regex from hx.kind, hvalue]
  exact Runs.pure ⟨rfl, x, ts, rfl, hrest⟩

/-- A bound behind a range operator. -/
theorem startsBound_stop {b : Bound} (hb : b.Writable Literal.isStop) {x : Token}
    (hts : After b.value.words K x ts) : startsBound (kindOf ts) = true := by
  obtain ⟨w, rest, hwords, -, -, hw⟩ := b.value.words_cons
  have hstarts : ∀ k ∈ Literal.stopStarters, startsBound k = true := by decide
  rw [hwords] at hts
  rw [kindOf_of_after hts]
  exact hstarts _ (hw hb.kind)

theorem runs_stop {b : Bound} (hb : b.Writable Literal.isStop) {x : Token}
    (hts : After b.value.words K x ts) :
    Runs fits depth bound ts fun c ts' => c.value = b.value ∧ At K ts' := by
  obtain ⟨w, rest, hwords, -⟩ := b.value.words_cons
  have hstart : b.value.isStart = true := by
    have hkind := hb.kind
    cases hvalue : b.value <;> rw [hvalue] at hkind <;> first | rfl | cases hkind
  exact runs_bound hstart (begins_of_after (by rw [hwords]; simp) hts)

/-- A bound, or none where it cannot be read. -/
def boundOrNone : Parser (Option Bound) := fun s =>
  ((bound s).1.elim (some none) fun b => some (some b), (bound s).2)

/-- The bound of a range without start stays away only where it cannot be read. -/
theorem rangeBefore_eq : rangeBefore = (do
    let op ← current
    let inclusive := op.kind = .dotDotEq
    if ← nextStartsBound then
      advance
      let stop ← boundOrNone
      return .range (← markFrom op) none stop inclusive
    else rejectNext "range end") := by
  refine congrArg (current >>= ·) (funext fun op => ?_)
  refine congrArg (nextStartsBound >>= ·) (funext fun starts => ?_)
  refine congrArg (fun p => if starts = true then advance >>= fun _ => p else _) ?_
  refine congrArg (· >>= _) (funext fun s => ?_)
  rw [boundOrNone]
  rcases bound s with ⟨_ | b, s'⟩ <;> rfl

theorem runs_boundOrNone {post : Bound → List Token → Prop} (h : Runs True depth bound ts post) :
    Runs fits depth boundOrNone ts fun o ts' => ∃ b, o = some b ∧ post b ts' := by
  intro s heof hdepth hs
  rcases h s heof hdepth hs with ⟨b, ts', hrun, hle, hpost⟩ | ⟨hfalse, -⟩
  · refine .inl ⟨some b, ts', ?_, hle, b, rfl, hpost⟩
    rw [boundOrNone, hrun]
    rfl
  · exact absurd trivial hfalse

theorem rangeWord_kind (inclusive : Bool) {x : Token} (hx : x.Spells (Pattern.rangeWord inclusive)) :
    (x.kind = .dotDot ∨ x.kind = .dotDotEq) ∧ decide (x.kind = .dotDotEq) = inclusive := by
  rw [hx.kind]
  cases inclusive <;> decide

/-- What stands behind the operator of a range without start. -/
theorem runs_rangeBefore {mark : Mark} {b : Bound} {inclusive : Bool} {K : Rest} {x : Token}
    {ts : List Token} (hb : b.Writable Literal.isStop)
    (hinclusive : decide (x.kind = .dotDotEq) = inclusive)
    (hts : After (Pattern.boundWords (some b)) K x ts) :
    Runs fits depth rangeBefore (x :: ts) fun q ts' =>
      q.erase = (Pattern.range mark none (some b) inclusive).erase ∧ At K ts' := by
  rw [rangeBefore_eq]
  refine Runs.current (Runs.startsBound (startsBound_stop hb hts) ?_)
  refine Runs.advance (Runs.bind (runs_boundOrNone (runs_stop hb hts)) ?_)
  rintro o ts' - ⟨c, rfl, hvalue, hat⟩
  refine Runs.mark fun m => Runs.pure ⟨?_, hat⟩
  rw [Pattern.erase, Pattern.erase, hinclusive]
  show Pattern.range default none (some ⟨default, c.value⟩) inclusive = _
  rw [hvalue]
  rfl

/-- What stands behind the operator of a range with a start. -/
theorem runs_rangeAfter {mark : Mark} {a c : Bound} {stop : Option Bound} {inclusive : Bool} {K : Rest}
    {z : Token} {ts : List Token} (hstop : inclusive = true → stop.isSome = true)
    (hend : ∀ b, stop = some b → b.Writable Literal.isStop) (hvalue : c.value = a.value)
    (hinclusive : decide (z.kind = .dotDotEq) = inclusive)
    (hK : ∀ y ts, K y ts → kindOf ts ∈ Pattern.followers .primary)
    (hts : After (Pattern.boundWords stop) K z ts) :
    Runs fits depth (rangeAfter c) (z :: ts) fun q ts' =>
      q.erase = (Pattern.range mark (some a) stop inclusive).erase ∧ At K ts' := by
  refine Runs.current ?_
  cases stop with
  | some b =>
    refine Runs.startsBound (startsBound_stop (hend b rfl) hts) (Runs.advance ?_)
    refine Runs.bind (runs_stop (hend b rfl) hts) ?_
    rintro d ts' - ⟨hstopped, u, ts, rfl, hu⟩
    refine Runs.current (Runs.pure ⟨?_, u, ts, rfl, hu⟩)
    rw [Pattern.erase, Pattern.erase, hinclusive]
    show Pattern.range default (some ⟨default, c.value⟩) (some ⟨default, d.value⟩) inclusive = _
    rw [hvalue, hstopped]
    rfl
  | none =>
    have hexclusive : inclusive = false := by
      by_contra hne
      exact absurd (hstop (by simpa using hne)) (by decide)
    replace hts : K z ts := hts
    refine Runs.startsBound (followers_facts _ (hK z ts hts)).2.2.2.2.1 ?_
    rw [hexclusive] at hinclusive ⊢
    simp only [hinclusive, if_neg (of_decide_eq_false hinclusive)]
    refine Runs.pure ⟨?_, z, ts, rfl, hts⟩
    rw [Pattern.erase, Pattern.erase]
    show Pattern.range default (some ⟨default, c.value⟩) none false = _
    rw [hvalue]
    rfl

theorem readsPrimary_range {start stop : Option Bound} {inclusive : Bool}
    (hsome : start.isSome = true ∨ stop.isSome = true) (hstop : inclusive = true → stop.isSome = true)
    (hstart : ∀ b, start = some b → b.Writable Literal.isStart)
    (hend : ∀ b, stop = some b → b.Writable Literal.isStop) :
    ReadsPrimary fits (.range mark start stop inclusive) := by
  refine readsPrimary_of_body fun depth room K ts _ hK hts => ?_
  rw [Pattern.words] at hts
  cases start with
  | none =>
    obtain ⟨b, rfl⟩ : ∃ b, stop = some b := by simpa [Option.isSome_iff_exists] using hsome
    obtain ⟨x, ts, rfl, hx, hrest⟩ := hts
    obtain ⟨hkind, hinclusive⟩ := rangeWord_kind inclusive hx
    have hbefore : Runs fits depth rangeBefore (x :: ts) fun q ts' =>
        q.erase = (Pattern.range mark none (some b) inclusive).erase ∧ At K ts' :=
      runs_rangeBefore (hend b rfl) hinclusive hrest
    refine Runs.current ?_
    rcases hkind with hkind | hkind <;> simp only [hkind] <;> exact hbefore
  | some a =>
    have ha := hstart a rfl
    rw [Pattern.boundWords, List.append_assoc] at hts
    obtain ⟨w, rest, hwords, -⟩ := a.value.words_cons
    rw [begins_append (by rw [hwords]; simp)] at hts
    obtain ⟨x, ts', rfl, hx⟩ := startsConstant_words ha.kind hts
    refine runs_constant hx (Runs.bind (runs_bound ha.kind hts) ?_)
    rintro c ts' - ⟨hvalue, y, ts, rfl, z, ts, rfl, hz, -, hrest⟩
    obtain ⟨hkind, hinclusive⟩ := rangeWord_kind inclusive hz
    have hafter : Runs fits depth (rangeAfter c) (z :: ts) fun q ts' =>
        q.erase = (Pattern.range mark (some a) stop inclusive).erase ∧ At K ts' :=
      runs_rangeAfter hstop hend hvalue hinclusive hK hrest
    rcases hkind with hkind | hkind
    · exact Runs.skipFirst hkind hafter
    · exact Runs.skipSecond (by rw [show kindOf (z :: ts) = .dotDotEq from hkind]; decide) hkind hafter

theorem readsPrimary_active {name : String} {kind : RecognizerKind} {arg : Option Pattern}
    (hname : isUpperName name = true) (hw : ∀ p, arg = some p → p.Writable)
    (hstart : ∀ p, arg = some p → p.isStartless = false)
    (h : ∀ p, arg = some p → ReadsPattern fits p) : ReadsPrimary fits (.active mark name kind arg) := by
  refine readsPrimary_of_body fun depth room K ts hroom hK hts => ?_
  cases arg with
  | none =>
    rw [Pattern.words, words_recognizer] at hts
    obtain ⟨x, ts, rfl, hx, hrest⟩ := hts
    have hbar : kindOf ts = .pipe := by
      cases kind <;> exact kindOf_of_after hrest
    refine Runs.current ?_
    simp only [show x.kind = .lparen from hx.kind]
    refine Runs.choose hbar (Runs.current (runs_recognizerName hname hrest ?_))
    rintro ts' ⟨y, ts, rfl, hy⟩
    refine Runs.startsArgument (followers_facts _ (hK y ts hy)).2.2.2.2.2 (Runs.given ?_)
    refine Runs.mark fun m => Runs.pure ⟨?_, y, ts, rfl, hy⟩
    rw [Pattern.erase, Pattern.erase]
  | some p =>
    obtain ⟨w, ws, hwords, hstarts⟩ := Pattern.argument_words (hw p rfl) (hstart p rfl)
    rw [Pattern.words, hwords] at hts
    refine (runs_callOf hname hstarts (fun ts hts => (h p rfl).primary depth room K ts (fun hfits => ?_) hK
      (hwords ▸ hts)) hts).mono ?_
    · have hle := hroom hfits
      rw [Pattern.depth, Pattern.wrapped] at hle
      exact Nat.le_of_succ_le_succ hle
    · rintro r ts' - ⟨⟨m, q, rfl, herase⟩, hat⟩
      refine ⟨?_, hat⟩
      rw [Pattern.erase, Pattern.erase, herase]

/-! Slices. -/

theorem itemWords_ne {item : SliceItem Pattern} {items : List (SliceItem Pattern)}
    (hw : ∀ p, .element p ∈ items → p.Writable) (hitem : item ∈ items) :
    ∃ w ws, Pattern.itemWords item = w :: ws ∧ w.kind ≠ .rbracket := by
  cases item with
  | element p =>
    obtain ⟨w, ws, hwords, hmem, -⟩ := Pattern.opening_words (hw p hitem) .nested
    refine ⟨w, ws, hwords, fun hk => ?_⟩
    rw [hk] at hmem
    exact absurd hmem (by decide)
  | rest n span => exact ⟨_, _, rfl, by decide⟩

/-- An item of a slice is read from its words. -/
theorem readsSliceItem {item : SliceItem Pattern} (hw : ∀ p, item = .element p → p.Writable)
    (h : ∀ p, item = .element p → ReadsNested fits p)
    (hroom : ∀ p, item = .element p → fits → p.depth .nested ≤ room)
    (hname : ∀ n span, item = .rest n span → n = "" ∨ isLowerName n = true) :
    ReadsSliceItem fits depth (nestedPattern (orWithin room)) (Pattern.itemWords item)
      fun item' => Pattern.eraseItem item' = Pattern.eraseItem item := by
  intro K x ts items post hK hts hrest
  cases item with
  | rest n span =>
    refine readsSliceItem_rest (hname n span rfl) K x ts items post hK hts ?_
    rintro item y ts' ⟨span', rfl⟩ hy
    exact hrest _ y ts' rfl hy
  | element p =>
    have hp : ReadsWords fits depth (nestedPattern (orWithin room)) .rbracket (p.words .nested)
        fun q => q.erase = p.erase := (h p rfl).item (hroom p rfl) (by decide)
    refine readsSliceItem_element (Pattern.opening_words (hw p rfl) .nested) hp K x ts items post hK
      hts ?_
    rintro item y ts' ⟨q, rfl, herase⟩ hy
    refine hrest _ y ts' ?_ hy
    show Pattern.eraseItem (.element q) = Pattern.eraseItem (.element p)
    rw [Pattern.eraseItem, Pattern.eraseItem, herase]

theorem readsPrimary_slice {items : List (SliceItem Pattern)}
    (hw : ∀ p, .element p ∈ items → p.Writable)
    (hnames : ∀ n span, .rest n span ∈ items → n = "" ∨ isLowerName n = true)
    (h : ∀ p, .element p ∈ items → ReadsPattern fits p) : ReadsPrimary fits (.slice mark items) := by
  refine readsPrimary_of_body fun depth room K ts hroom hK hts => ?_
  rw [Pattern.words, Pattern.wordsItems_eq, List.append_assoc] at hts
  obtain ⟨x, ts, rfl, hx, hrest⟩ := hts
  replace hrest : After (commaWords (items.map Pattern.itemWords) ++ [Word.sign .rbracket]) K x ts := hrest
  have hdepth : ∀ p, .element p ∈ items → fits → p.depth .nested ≤ room := by
    intro p hp hfits
    have hle := hroom hfits
    rw [Pattern.depth, Pattern.wrapped] at hle
    exact Pattern.depthItems_le_iff.mp (Nat.le_of_succ_le_succ hle) p hp
  refine (runs_sliceOf (fun item hitem => itemWords_ne hw hitem) (fun item hitem => readsSliceItem ?_ ?_ ?_ ?_)
    hx.kind hrest).mono ?_
  · rintro p rfl
    exact hw p hitem
  · rintro p rfl
    exact (h p hitem).nested
  · rintro p rfl
    exact hdepth p hitem
  · rintro n span rfl
    exact hnames n span hitem
  · rintro r ts' - ⟨⟨m, is, rfl, his⟩, hat⟩
    refine ⟨?_, hat⟩
    rw [Pattern.erase, Pattern.erase, Pattern.eraseItems_eq, Pattern.eraseItems_eq, map_erase_eq his]

/-! Records. -/

/-- One round of reading the fields of a record. -/
def fieldRound (value : Parser Pattern) (fields : List (String × Pattern)) :
    Parser (Round (List (String × Pattern)) (List (String × Pattern) × Bool)) := do
  advance
  let t ← current
  match t.kind with
  | .dotDot =>
    expect .rbrace "\x7d after .."
    return .done (fields, true)
  | .lower =>
    let p ← if ← skip .colon then do
        advance
        value
      else pure (.var ⟨t, t.span⟩ t.text)
    let fields := fields ++ [(t.text, p)]
    if ← skip .comma then return .again fields
    else
      expect .rbrace ", or \x7d"
      return .done (fields, false)
  | _ => reject .unexpectedToken t [.str "field name or ..", .str t.described]

theorem recordFields_eq (value : Parser Pattern) :
    recordFields value = iterate (fieldRound value) [] := rfl

/-- One field, and what is done behind it. -/
theorem runs_fieldRound {f : String × Pattern} (hname : isLowerName f.1 = true) (hw : f.2.Writable)
    (h : ReadsNested fits f.2)
    (hroom : fits → f.2.isVar f.1 = false → f.2.depth .nested ≤ room)
    (hK : ∀ y ts, K y ts → kindOf ts = .comma ∨ kindOf ts = .rbrace) {x : Token}
    (hts : After (Pattern.fieldWords f) K x ts) {fields : List (String × Pattern)}
    {post : Round (List (String × Pattern)) (List (String × Pattern) × Bool) → List Token → Prop}
    (hrest : ∀ p ts', Pattern.eraseField (f.1, p) = Pattern.eraseField f → At K ts' →
      Runs fits depth (do
        if ← skip .comma then return .again (fields ++ [(f.1, p)])
        else
          expect .rbrace ", or \x7d"
          return .done (fields ++ [(f.1, p)], false)) ts' post) :
    Runs fits depth (fieldRound (nestedPattern (orWithin room)) fields) (x :: ts) post := by
  have hends : ∀ k : TokenKind, k = .comma ∨ k = .rbrace →
      k ≠ .colon ∧ k ∈ Pattern.followers .nested := by
    rintro k (rfl | rfl) <;> decide
  rw [Pattern.fieldWords] at hts
  by_cases hvar : f.2.isVar f.1 = true
  · rw [if_pos hvar] at hts
    obtain ⟨y, ts, rfl, hy, -, hat⟩ := hts
    have htext : y.text = f.1 := hy.text
    have herase : Pattern.eraseField (f.1, .var ⟨y, y.span⟩ f.1) = Pattern.eraseField f := by
      obtain ⟨n, p⟩ := f
      cases p <;> first | cases hvar | rfl | skip
      rename_i m n'
      have hn : n' = n := of_decide_eq_true hvar
      rw [hn]
      rfl
    refine Runs.advance (Runs.current ?_)
    simp only [hy.kind.trans (kind_of_isLowerName hname), htext]
    refine Runs.stay (hends _ (hK y ts hat)).1 (Runs.given ?_)
    exact hrest _ _ herase ⟨y, ts, rfl, hat⟩
  · rw [if_neg hvar] at hts
    simp only [List.append_assoc] at hts
    obtain ⟨y, ts, rfl, hy, -, z, ts, rfl, hz, -, hvalue⟩ := hts
    have htext : y.text = f.1 := hy.text
    refine Runs.advance (Runs.current ?_)
    simp only [hy.kind.trans (kind_of_isLowerName hname), htext]
    refine Runs.skip hz.kind (Runs.advance (Runs.bind (h.runs
      (fun hfits => hroom hfits (Bool.not_eq_true _ ▸ hvar)) (fun y ts hy => (hends _ (hK y ts hy)).2)
      (begins_of_after (Pattern.words_ne hw .nested) hvalue)) ?_))
    rintro p ts' - ⟨herase, hat⟩
    refine hrest p ts' ?_ hat
    rw [Pattern.eraseField, Pattern.eraseField, herase]

theorem runs_recordFields {fs : List (String × Pattern)} {hasRest : Bool}
    (hne : fs ≠ [] ∨ hasRest = true) (hnames : ∀ f ∈ fs, isLowerName f.1 = true)
    (hw : ∀ f ∈ fs, f.2.Writable) (h : ∀ f ∈ fs, ReadsNested fits f.2)
    (hroom : fits → ∀ f ∈ fs, f.2.isVar f.1 = false → f.2.depth .nested ≤ room) {x : Token}
    (hts : After (if hasRest then commaEnded Pattern.fieldWords fs ++ [Word.sign .dotDot, .sign .rbrace]
      else commaWords (fs.map Pattern.fieldWords) ++ [Word.sign .rbrace]) K x ts) :
    Runs fits depth (recordFields (nestedPattern (orWithin room))) (x :: ts) fun r ts' =>
      r.1.map Pattern.eraseField = fs.map Pattern.eraseField ∧ r.2 = hasRest ∧ At K ts' := by
  have hmore : ∀ done, ∀ f ∈ fs, ∀ fields : List (String × Pattern),
      fields.map Pattern.eraseField = done.map Pattern.eraseField → ∀ K' x ts,
      After (Pattern.fieldWords f ++ [Word.sign .comma]) K' x ts →
      Runs fits depth (fieldRound (nestedPattern (orWithin room)) fields) (x :: ts) fun r ts' =>
        ∃ fields' : List (String × Pattern), r = .again fields' ∧
          fields'.map Pattern.eraseField = (done ++ [f]).map Pattern.eraseField ∧ At K' ts' := by
    intro done f hf fields hfields K' x ts hts
    rw [after_append] at hts
    refine runs_fieldRound (hnames f hf) (hw f hf) (h f hf) (fun hfits => hroom hfits f hf)
      (fun y ts hy => .inl (kindOf_of_after hy)) hts ?_
    rintro p ts' herase ⟨y, ts, rfl, hy⟩
    refine Runs.skip (kindOf_of_after hy) (Runs.pure ?_)
    obtain ⟨z, ts, rfl, -, -, hz⟩ := hy
    exact ⟨_, rfl, map_snoc hfields herase, z, ts, rfl, hz⟩
  rw [recordFields_eq]
  cases hasRest with
  | true =>
    refine Runs.iterate (Loops.commas (fun done f hf fields hfields K' x ts _ =>
      hmore done f hf fields hfields K' x ts) ?_ rfl hts)
    intro fields hfields x ts hts
    obtain ⟨y, ts, rfl, hy, -, z, ts, rfl, hz, -, hat⟩ := hts
    refine Runs.advance (Runs.current ?_)
    simp only [show y.kind = .dotDot from hy.kind]
    exact Runs.expect hz.kind (Runs.pure ⟨_, rfl, hfields, rfl, z, ts, rfl, hat⟩)
  | false =>
    obtain ⟨front, last, rfl⟩ := (List.eq_nil_or_concat' fs).resolve_left (hne.resolve_right nofun)
    replace hts : After (commaEnded Pattern.fieldWords front
        ++ (Pattern.fieldWords last ++ [Word.sign .rbrace])) K x ts := by
      rw [← List.append_assoc, ← commaWords_concat]
      exact hts
    refine Runs.iterate (Loops.commas (fun done f hf fields hfields K' x ts _ =>
      hmore done f (List.mem_append_left _ hf) fields hfields K' x ts) ?_ rfl hts)
    intro fields hfields x ts hts
    have hlast : last ∈ front ++ [last] := List.mem_append_right _ List.mem_cons_self
    rw [after_append] at hts
    refine runs_fieldRound (hnames last hlast) (hw last hlast) (h last hlast)
      (fun hfits => hroom hfits last hlast) (fun y ts hy => .inr (kindOf_of_after hy)) hts ?_
    rintro p ts' herase ⟨y, ts, rfl, hy⟩
    have hkind : kindOf ts = .rbrace := kindOf_of_after hy
    refine Runs.stay (by rw [hkind]; decide) (Runs.expect hkind (Runs.pure ?_))
    obtain ⟨z, ts, rfl, -, -, hz⟩ := hy
    exact ⟨_, rfl, map_snoc hfields herase, rfl, z, ts, rfl, hz⟩

/-- The words of a record behind its brace. -/
theorem words_record (fs : List (String × Pattern)) (hasRest : Bool) (place : Position) :
    Pattern.words place (.record mark fs hasRest) = Word.sign .lbrace ::
      (if hasRest then commaEnded Pattern.fieldWords fs ++ [Word.sign .dotDot, .sign .rbrace]
        else commaWords (fs.map Pattern.fieldWords) ++ [Word.sign .rbrace]) := by
  cases fs with
  | nil => cases hasRest <;> rw [Pattern.words] <;> rfl
  | cons f fs =>
    rw [Pattern.words, Pattern.wordsFields_eq]
    cases hasRest with
    | true =>
      rw [← commaWords_comma _ (List.cons_ne_nil f fs)]
      simp only [if_pos, List.append_assoc, List.cons_append, List.nil_append]
    | false => simp

theorem readsPrimary_record {fs : List (String × Pattern)} {hasRest : Bool}
    (hnames : ∀ f ∈ fs, isLowerName f.1 = true) (hw : ∀ f ∈ fs, f.2.Writable)
    (h : ∀ f ∈ fs, ReadsPattern fits f.2) : ReadsPrimary fits (.record mark fs hasRest) := by
  refine readsPrimary_of_body fun depth room K ts hroom hK hts => ?_
  have hdepth : fits → ∀ f ∈ fs, f.2.isVar f.1 = false → f.2.depth .nested ≤ room := by
    intro hfits f hf hvar
    have hle := hroom hfits
    rw [Pattern.depth, Pattern.wrapped] at hle
    exact Pattern.depthFields_le_iff.mp (Nat.le_of_succ_le_succ hle) f hf hvar
  rw [words_record] at hts
  obtain ⟨x, ts, rfl, hx, hrest⟩ := hts
  refine Runs.current ?_
  simp only [show x.kind = .lbrace from hx.kind]
  refine Runs.current ?_
  by_cases hempty : fs = [] ∧ hasRest = false
  · obtain ⟨rfl, rfl⟩ := hempty
    have hclose : After [.sign .rbrace] K x ts := hrest
    refine Runs.skip (kindOf_of_after hclose) (Runs.mark fun m => Runs.pure ?_)
    obtain ⟨y, ts, rfl, -, -, hat⟩ := hclose
    exact ⟨rfl, y, ts, rfl, hat⟩
  have hne : fs ≠ [] ∨ hasRest = true := by
    rw [not_and_or, Bool.not_eq_false] at hempty
    exact hempty
  have hfirst : kindOf ts ≠ .rbrace := by
    cases fs with
    | nil =>
      rw [hne.resolve_left (not_not_intro rfl)] at hrest
      rw [kindOf_of_after hrest]
      decide
    | cons f fs =>
      have hstart : ∃ more, (if hasRest then
            commaEnded Pattern.fieldWords (f :: fs) ++ [Word.sign .dotDot, .sign .rbrace]
          else commaWords ((f :: fs).map Pattern.fieldWords) ++ [Word.sign .rbrace]) =
            Word.name f.1 :: more := by
        obtain ⟨tail, htail⟩ : ∃ tail, Pattern.fieldWords f = Word.name f.1 :: tail := by
          rw [Pattern.fieldWords]
          split <;> exact ⟨_, rfl⟩
        obtain ⟨after, hafter⟩ := commaWords_cons (Pattern.fieldWords f) (fs.map Pattern.fieldWords)
        cases hasRest with
        | true => exact ⟨_, by rw [if_pos rfl, commaEnded, List.flatMap_cons, htail]; rfl⟩
        | false => exact ⟨_, by rw [if_neg (by decide), List.map_cons, hafter, htail]; rfl⟩
      obtain ⟨more, hmore⟩ := hstart
      rw [hmore] at hrest
      rw [kindOf_of_after hrest, kind_of_isLowerName (hnames f List.mem_cons_self)]
      decide
  refine Runs.stay hfirst (Runs.bind (runs_recordFields hne hnames hw (fun f hf => (h f hf).nested)
    hdepth hrest) ?_)
  rintro ⟨fields, rest⟩ ts' - ⟨herase, rfl, hat⟩
  refine Runs.mark fun m => Runs.pure ⟨?_, hat⟩
  rw [Pattern.erase, Pattern.erase, Pattern.eraseFields_eq, Pattern.eraseFields_eq, herase]

/-! Alternatives, and names behind a pattern. -/

theorem exists_cons_cons {α : Type} {xs : List α} (h : 2 ≤ xs.length) :
    ∃ x y rest, xs = x :: y :: rest := by
  cases xs with
  | nil => exact absurd h (Nat.not_succ_le_zero 1)
  | cons x xs =>
    obtain ⟨y, rest, rfl⟩ := List.exists_cons_of_length_pos (Nat.le_of_succ_le_succ h)
    exact ⟨x, y, rest, rfl⟩

theorem readsArm_or {ps : List Pattern} (hlength : 2 ≤ ps.length) (hw : ∀ p ∈ ps, p.Writable)
    (h : ∀ p ∈ ps, ReadsPattern fits p) : ReadsArm fits (.or mark ps) := by
  intro depth room K ts hroom hK hts
  have hdepth : Pattern.depth .arm (.or mark ps) = Pattern.depthAll .primary ps + 1 := by
    rw [Pattern.depth]
    rfl
  rw [hdepth] at hroom
  cases room with
  | zero => exact Runs.tooDeep fun hfits => absurd (hroom hfits) (by omega)
  | succ room =>
    obtain ⟨p, q, ps, rfl⟩ := exists_cons_cons hlength
    have hwords : Pattern.words .arm (.or mark (p :: q :: ps))
        = [Word.sign .pipe].intercalate ((p :: q :: ps).map (Pattern.words .primary)) := by
      rw [Pattern.words, Pattern.wordsAll_eq]
      rfl
    rw [hwords] at hts
    refine Runs.nested ((runs_alternativesOf (List.cons_ne_nil q ps)
      (fun r hr => Pattern.words_ne (hw r hr) .primary) (fun r hr K ts hK hts =>
        (h r hr).primary (depth + 1) room K ts (fun hfits => ?_) hK hts) hK hts).mono ?_)
    · exact Pattern.depthAll_le_iff.mp (Nat.le_of_succ_le_succ (hroom hfits)) r hr
    · rintro t ts' - ⟨⟨m, rs, rfl, hrs⟩, hat⟩
      refine ⟨?_, hat⟩
      rw [Pattern.erase, Pattern.erase, Pattern.eraseAll_eq, Pattern.eraseAll_eq, map_erase_eq hrs]

theorem readsNested_as {name : String} {p : Pattern} (hname : isLowerName name = true)
    (hw : p.Writable) (h : ReadsPattern fits p) : ReadsNested fits (.binding mark name false p) := by
  intro depth room K ts post hroom hK hts hrest
  have hwords : Pattern.words .nested (.binding mark name false p)
      = p.words .nested ++ [Word.name "as", .name name] := by
    rw [Pattern.words]
    simp [parenthesizedWords]
  have hdepth : Pattern.depth .nested (.binding mark name false p) = p.depth .nested := by
    rw [Pattern.depth]
    rfl
  have has : (Word.name "as").kind = .kwAs := by decide
  rw [hwords, begins_append (Pattern.words_ne hw .nested)] at hts
  rw [hdepth] at hroom
  refine h.nested depth room _ ts post hroom (fun y ts hy => ?_) hts ?_
  · rw [kindOf_of_after hy, has]
    decide
  rintro q ts' herase ⟨x, ts, rfl, y, ts, rfl, hy, -, z, ts, rfl, hz, -, hat⟩
  refine Loops.step (Runs.skip (hy.kind.trans has) (Runs.current ?_))
  refine Runs.expect (hz.kind.trans (kind_of_isLowerName hname)) (Runs.current (Runs.pure ⟨?_, ?_⟩))
  · simp
  · refine hrest _ _ ?_ ⟨z, ts, rfl, hat⟩
    rw [Pattern.erase, Pattern.erase, hz.text, herase]
    rfl

end Forms

/-! ### All patterns -/

/-- A pattern that is written alike in all positions. -/
theorem ReadsPrimary.pattern {p : Pattern} (h : ReadsPrimary fits p)
    (hwords : ∀ place, p.words place = p.words .primary)
    (hdepth : ∀ place, p.depth place = Pattern.wrapped place (p.depth .primary)) :
    ReadsPattern fits p := by
  have harm : ReadsArm fits p := h.arm (hwords .arm) (hdepth .arm)
  refine ⟨h, harm, harm.nested ((hwords .nested).trans (hwords .arm).symm) ?_⟩
  rw [hdepth .nested, hdepth .arm]
  rfl

/-- **Every pattern that is written faithfully is read from its words.** -/
theorem readsPattern {p : Pattern} (h : p.Writable) (hfaithful : p.faithful = true) :
    ReadsPattern fits p := by
  have hplain : ∀ place, Pattern.wrapped place 1 = Pattern.wrapped place (Pattern.wrapped .primary 1) :=
    fun _ => rfl
  induction h with
  | wildcard => exact readsPrimary_wildcard.pattern (fun _ => rfl) hplain
  | var hname => exact (readsPrimary_var hname).pattern (fun _ => rfl) hplain
  | literal => exact readsPrimary_literal.pattern (fun _ => rfl) hplain
  | @tuple mark ps hlength hw ih =>
    rw [Pattern.faithful, Pattern.allFaithful_iff] at hfaithful
    refine (readsPrimary_tuple hlength hw fun p hp => ih p hp (hfaithful p hp)).pattern ?_ ?_
    · intro place
      rw [Pattern.words, Pattern.words]
    · intro place
      rw [Pattern.depth, Pattern.depth]
      rfl
  | @record mark fs hasRest hnames hw ih =>
    rw [Pattern.faithful, Pattern.fieldsFaithful_iff] at hfaithful
    refine (readsPrimary_record hnames hw fun f hf => ih f hf (hfaithful f hf)).pattern ?_ ?_
    · intro place
      rw [words_record, words_record]
    · intro place
      rw [Pattern.depth, Pattern.depth]
      rfl
  | @construct mark name ps hname hw ih =>
    rw [Pattern.faithful, Pattern.allFaithful_iff] at hfaithful
    refine (readsPrimary_construct hname hw fun p hp => ih p hp (hfaithful p hp)).pattern ?_ ?_
    · intro place
      cases ps <;> rw [Pattern.words, Pattern.words]
    · intro place
      rw [Pattern.depth, Pattern.depth]
      rfl
  | @binding mark name viaAt p hname hw ih =>
    rw [Pattern.faithful] at hfaithful
    have hp := ih hfaithful
    cases viaAt with
    | true =>
      refine (readsPrimary_at hname hw hp).pattern ?_ ?_
      · intro place
        rw [Pattern.words, Pattern.words]
      · intro place
        rw [Pattern.depth, Pattern.depth]
        rfl
    | false =>
      have hnested : ReadsNested fits (.binding mark name false p) := readsNested_as hname hw hp
      have hprimary : ReadsPrimary fits (.binding mark name false p) := by
        refine hnested.primary (.binding hname hw) ?_ ?_
        · rw [Pattern.words, Pattern.words]
          rfl
        · rw [Pattern.depth, Pattern.depth]
          rfl
      refine ⟨hprimary, hprimary.arm ?_ ?_, hnested⟩
      · rw [Pattern.words, Pattern.words]
        rfl
      · rw [Pattern.depth, Pattern.depth]
        rfl
  | @or mark ps hlength hw ih =>
    rw [Pattern.faithful, Pattern.allFaithful_iff] at hfaithful
    have harm : ReadsArm fits (.or mark ps) :=
      readsArm_or hlength hw fun p hp => ih p hp (hfaithful p hp)
    have hnested : ReadsNested fits (.or mark ps) := by
      refine harm.nested ?_ ?_
      · rw [Pattern.words, Pattern.words]
        rfl
      · rw [Pattern.depth, Pattern.depth]
        rfl
    refine ⟨hnested.primary (.or hlength hw) ?_ ?_, harm, hnested⟩
    · rw [Pattern.words, Pattern.words]
      rfl
    · rw [Pattern.depth, Pattern.depth]
      rfl
  | @slice mark items hw hnames ih =>
    rw [Pattern.faithful, Pattern.itemsFaithful_iff] at hfaithful
    refine (readsPrimary_slice hw hnames fun p hp => ih p hp (hfaithful p hp)).pattern ?_ ?_
    · intro place
      rw [Pattern.words, Pattern.words]
    · intro place
      rw [Pattern.depth, Pattern.depth]
      rfl
  | range hsome hstop hstart hend =>
    refine (readsPrimary_range hsome hstop hstart hend).pattern ?_ ?_
    · intro place
      rw [Pattern.words, Pattern.words]
    · intro place
      rw [Pattern.depth, Pattern.depth]
      rfl
  | regex => exact readsPrimary_regex.pattern (fun _ => rfl) hplain
  | @active mark name kind arg hname hw ih =>
    refine (readsPrimary_active hname hw ?_ ?_).pattern ?_ ?_
    · rintro p rfl
      rw [Pattern.faithful, Bool.and_eq_true, Bool.not_eq_true'] at hfaithful
      exact hfaithful.1
    · rintro p rfl
      rw [Pattern.faithful, Bool.and_eq_true] at hfaithful
      exact ih p rfl hfaithful.2
    · intro place
      cases arg <;> rw [Pattern.words, Pattern.words]
    · intro place
      cases arg <;> rw [Pattern.depth, Pattern.depth] <;> rfl

end Parser

end Surface

end PatternPlan
