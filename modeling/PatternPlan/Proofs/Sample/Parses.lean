import PatternPlan.Proofs.Compile.Formatting
import PatternPlan.Proofs.Sample.Levels
import PatternPlan.Proofs.Sample.Words

/-!
# Sample programs parse

The text of a program is read as its words, and its words by the parser, which follows every pattern
down to its leaves.  Nothing stops it but the nesting limit.

* `Form.reads` — **a pattern is read exactly if it has its levels**; otherwise the nesting limit is
  reported;
* `Function.runs_match`, `reads_program` — the same for functions and for programs;
* `program_parses_iff` — **nothing is reported about a program exactly if its functions fit**;
* `program_too_deep` — a program that does not fit.
-/

namespace PatternPlan.Sample

open Surface Surface.Parser

/-! ### Patterns -/

/-- A pattern starts as the argument of a recognizer does. -/
theorem Form.words_cons (p : Form) :
    ∃ w ws, p.words = w :: ws ∧ w.kind ∈ Pattern.argumentStarters := by
  cases p with
  | leaf l => exact Pattern.argument_words l.writable_pattern (by cases l <;> rfl)
  | apply c p => exact ⟨_, _, rfl, by rw [kind_of_isUpperName c.isUpperName_name]; decide⟩
  | call r p => cases r <;> exact ⟨_, _, rfl, by decide⟩
  | _ => exact ⟨_, _, rfl, by decide⟩

theorem Form.opening_words (p : Form) : Pattern.Opening p.words := by
  have harguments : ∀ k ∈ Pattern.argumentStarters, k ∈ Pattern.starters ∧ k ≠ .dotDot := by decide
  obtain ⟨w, ws, hwords, hw⟩ := p.words_cons
  exact ⟨w, ws, hwords, (harguments _ hw).1, fun hkind => absurd hkind (harguments _ hw).2⟩

/-- A pattern is read from its words exactly if it has its levels. -/
def Form.Reads (p : Form) : Prop :=
  ∀ depth room, ReadsAlternative (p.levels ≤ room) depth (primaryWithin room) p.words
    fun _ => p.levels ≤ room

section Forms

variable {depth room n : Nat} {p q : Form} {K : Rest} {ts : List Token}

/-- What is left to show once there is a level to read a pattern on. -/
theorem reads_of_body (hlevels : p.levels = n + 1)
    (h : ∀ depth room, ReadsAlternative (n ≤ room) depth (primaryBody (orWithin room) (primaryWithin room))
      p.words fun _ => n ≤ room) : p.Reads := by
  intro depth room K ts hK hts
  cases room with
  | zero => exact Runs.tooDeep (by omega)
  | succ room =>
    refine Runs.nested (((h (depth + 1) room K ts hK hts).weaken (by omega)).mono ?_)
    rintro q ts' - ⟨hn, hat⟩
    exact ⟨by omega, hat⟩

/-- One alternative takes a level. -/
theorem Form.Reads.alternative (h : p.Reads) (hK : ∀ y ts, K y ts → kindOf ts ∈ Pattern.followers .arm)
    (hts : Begins p.words K ts) :
    Runs (p.levels + 1 ≤ room) depth (orWithin room) ts
      fun _ ts' => p.levels + 1 ≤ room ∧ At K ts' := by
  have hsub : ∀ k ∈ Pattern.followers .arm, k ∈ Pattern.followers .primary ∧ k ≠ .pipe := by decide
  cases room with
  | zero => exact Runs.tooDeep (by omega)
  | succ room =>
    refine Runs.nested (runs_oneAlternative (fun y ts hy => (hsub _ (hK y ts hy)).2) ?_)
    have hread := h (depth + 1) room K ts (fun y ts hy => (hsub _ (hK y ts hy)).1) hts
    refine (hread.weaken (by omega)).mono ?_
    rintro q ts' - ⟨hp, hat⟩
    exact ⟨by omega, hat⟩

theorem followers_of_endsItem {close : TokenKind} (hclose : close ∈ Pattern.followers .nested)
    (hK : EndsItem close K) : ∀ y ts, K y ts → kindOf ts ∈ Pattern.followers .arm ∧ kindOf ts ≠ .kwAs := by
  have hsub : ∀ k ∈ Pattern.followers .nested, k ∈ Pattern.followers .arm ∧ k ≠ .kwAs := by decide
  intro y ts hy
  rcases hK y ts hy with hkind | hkind
  · rw [hkind]
    decide
  · rw [hkind]
    exact hsub _ hclose

/-- One of several patterns with commas between them. -/
theorem Form.Reads.item (h : p.Reads) {close : TokenKind} (hclose : close ∈ Pattern.followers .nested) :
    ReadsWords (p.levels + 1 ≤ room) depth (nestedPattern (orWithin room)) close p.words
      fun _ => p.levels + 1 ≤ room := by
  intro K ts hK hts
  have hfollows := followers_of_endsItem hclose hK
  exact runs_nestedPattern (fun y ts hy => (hfollows y ts hy).2)
    (h.alternative (fun y ts hy => (hfollows y ts hy).1) hts)

theorem reads_leaf (l : Leaf) : Form.Reads (.leaf l) := by
  intro depth room K ts hK hts
  cases room with
  | zero => exact Runs.tooDeep (by rw [Form.levels]; omega)
  | succ room =>
    have hlevels : Form.levels (.leaf l) ≤ room + 1 := by
      rw [Form.levels]
      omega
    have hdepth : l.pattern.depth .primary = 1 := by
      cases l <;> rfl
    have hpattern : ReadsPattern True l.pattern := readsPattern l.writable_pattern (by cases l <;> rfl)
    have hread := hpattern.primary depth (room + 1) K ts (fun _ => by omega) hK hts
    refine (hread.weaken fun _ => trivial).mono ?_
    rintro q ts' - ⟨-, hat⟩
    exact ⟨hlevels, hat⟩

theorem forall_of_forall₂ {α γ : Type} {P : γ → Prop} {cs : List γ} {as : List α}
    (h : List.Forall₂ (fun c _ => P c) cs as) : ∀ c ∈ cs, P c := by
  induction h with
  | nil => simp
  | cons hc _ ih => exact List.forall_mem_cons.mpr ⟨hc, ih⟩

theorem reads_apply (c : Wrapper) (h : p.Reads) : Form.Reads (.apply c p) := by
  refine reads_of_body (n := p.levels + 1) (by rw [Form.levels]) fun depth room K ts hK hts => ?_
  obtain ⟨x, ts, rfl, hx, hrest⟩ := hts
  have hlist : commaWords ([p].map Form.words) = p.words := by
    rw [List.map_singleton, commaWords, List.intercalate_singleton]
  replace hrest : After ([Word.sign .lparen] ++ (commaWords ([p].map Form.words)
      ++ [Word.sign .rparen])) K x ts := by
    rw [hlist]
    exact hrest
  refine (runs_constructOf (R := fun _ _ => p.levels + 1 ≤ room) (fun q _ => q.opening_words)
    (List.forall_mem_singleton.mpr (h.item (by decide)))
    (hx.kind.trans (kind_of_isUpperName c.isUpperName_name)) hrest).mono ?_
  rintro q ts' - ⟨⟨m, qs, -, hqs⟩, hat⟩
  exact ⟨forall_of_forall₂ hqs p List.mem_cons_self, hat⟩

theorem reads_call (r : Recognizer) (h : p.Reads) : Form.Reads (.call r p) := by
  refine reads_of_body (n := p.levels) (by rw [Form.levels]) fun depth room K ts hK hts => ?_
  obtain ⟨w, ws, hwords, hw⟩ := p.words_cons
  have hargument := h depth room K
  rw [Form.words, hwords] at hts
  rw [hwords] at hargument
  refine (runs_callOf (R := fun _ => p.levels ≤ room) r.isUpperName_name hw
    (fun ts hts => hargument ts hK hts) hts).mono ?_
  rintro q ts' - ⟨⟨m, q', rfl, hp⟩, hat⟩
  exact ⟨hp, hat⟩

/-- A pattern in parentheses. -/
theorem reads_group {ws : List Word} (hopen : Pattern.Opening ws)
    (h : ReadsWords (n ≤ room) depth (nestedPattern (orWithin room)) .rparen ws fun _ => n ≤ room) :
    ReadsAlternative (n ≤ room) depth (primaryBody (orWithin room) (primaryWithin room))
      ([Word.sign .lparen] ++ (ws ++ [Word.sign .rparen])) fun _ => n ≤ room := by
  intro K ts hK hts
  have hws : ws = commaWords ([()].map fun _ => ws) := by
    rw [List.map_singleton, commaWords, List.intercalate_singleton]
  obtain ⟨x, ts, rfl, hx, hrest⟩ := hts
  replace hrest : After (commaWords ([()].map fun _ => ws) ++ [Word.sign .rparen]) K x ts := by
    rw [← hws]
    exact hrest
  refine (runs_groupOf (R := fun _ _ => n ≤ room) (List.cons_ne_nil () []) (fun _ _ => hopen)
    (fun _ _ => h) hx.kind hrest).mono ?_
  rintro q ts' - ⟨⟨qs, hqs, -⟩, hat⟩
  exact ⟨forall_of_forall₂ hqs () (by simp), hat⟩

theorem reads_pair (hp : p.Reads) (hq : q.Reads) : Form.Reads (.pair p q) := by
  refine reads_of_body (n := max p.levels q.levels + 1) (by rw [Form.levels])
    fun depth room K ts hK hts => ?_
  have hitem : ∀ c ∈ [p, q], ReadsWords (max p.levels q.levels + 1 ≤ room) depth
      (nestedPattern (orWithin room)) .rparen c.words fun _ => c.levels + 1 ≤ room := by
    have hclose : TokenKind.rparen ∈ Pattern.followers .nested := by decide
    simp only [List.mem_cons, List.not_mem_nil, or_false, forall_eq_or_imp, forall_eq]
    exact ⟨(hp.item hclose).weaken (by omega), (hq.item hclose).weaken (by omega)⟩
  obtain ⟨x, ts, rfl, hx, hrest⟩ := hts
  replace hrest : After (commaWords ([p, q].map Form.words) ++ [Word.sign .rparen]) K x ts := hrest
  refine (runs_groupOf (List.cons_ne_nil p [q]) (fun c _ => c.opening_words) hitem hx.kind hrest).mono ?_
  rintro r ts' - ⟨⟨qs, hqs, -⟩, hat⟩
  have hlevels := forall_of_forall₂ hqs
  have hp := hlevels p (by simp)
  have hq := hlevels q (by simp)
  exact ⟨by omega, hat⟩

theorem reads_either (hp : p.Reads) (hq : q.Reads) : Form.Reads (.either p q) := by
  refine reads_of_body (n := max p.levels q.levels + 1) (by rw [Form.levels]) fun depth room => ?_
  have hopen : Pattern.Opening ([Word.sign .pipe].intercalate [p.words, q.words]) := by
    rw [List.intercalate_cons_cons, List.append_assoc]
    exact p.opening_words.append _
  refine reads_group hopen fun K ts hK hts => ?_
  have hfollows := followers_of_endsItem (by decide) hK
  refine runs_nestedPattern (fun y ts hy => (hfollows y ts hy).2) ?_
  cases room with
  | zero => exact Runs.tooDeep (by omega)
  | succ room =>
    have hread : ∀ c ∈ [p, q], ReadsAlternative (max p.levels q.levels + 1 ≤ room + 1) (depth + 1)
        (primaryWithin room) c.words fun _ => c.levels ≤ room := by
      simp only [List.mem_cons, List.not_mem_nil, or_false, forall_eq_or_imp, forall_eq]
      exact ⟨(hp _ _).weaken (by omega), (hq _ _).weaken (by omega)⟩
    refine (Runs.nested (runs_alternativesOf (List.cons_ne_nil q [])
      (fun c _ => opening_ne c.opening_words) hread (fun y ts hy => (hfollows y ts hy).1) hts)).mono ?_
    rintro r ts' - ⟨⟨m, ps, -, hps⟩, hat⟩
    have hlevels := forall_of_forall₂ hps
    have hp := hlevels p (by simp)
    have hq := hlevels q (by simp)
    exact ⟨by omega, hat⟩

theorem reads_named (h : p.Reads) (i : Nat) : Form.Reads (.named p i) := by
  refine reads_of_body (n := p.levels + 1) (by rw [Form.levels]) fun depth room => ?_
  have has : (Word.name "as").kind = .kwAs := by decide
  refine reads_group (p.opening_words.append _) fun K ts hK hts => ?_
  have hfollows := followers_of_endsItem (by decide) hK
  rw [begins_append (opening_ne p.opening_words)] at hts
  rw [nestedPattern_eq]
  refine Runs.bind (h.alternative (fun y ts hy => ?_) hts) ?_
  · rw [kindOf_of_after hy, has]
    decide
  rintro q ts' - ⟨hp, y, ts, rfl, z, ts, rfl, hz, -, t, ts, rfl, ht, -, hrest⟩
  refine Runs.iterate (Loops.step (Runs.skip (hz.kind.trans has) (Runs.current (Runs.expect
    (ht.kind.trans (kind_of_isLowerName (isLowerName_nameText i))) (Runs.current (Runs.pure ?_))))))
  refine ⟨by simp, Loops.step (Runs.stay (hfollows t ts hrest).2 (Runs.pure ?_))⟩
  exact ⟨hp, t, ts, rfl, hrest⟩

theorem restWords_eq (n : Option Nat) : restWords n = [Word.sign .dotDot]
    ++ if (n.map nameText).getD "" = "" then [] else [Word.name ((n.map nameText).getD "")] := by
  cases n with
  | none => rfl
  | some i =>
    have hne : nameText i ≠ "" := by
      intro hempty
      have hname := isLowerName_nameText i
      rw [hempty] at hname
      cases hname
    rw [restWords, Option.map_some, Option.map_some, Option.getD_some, Option.getD_some, if_neg hne]

theorem reads_slice {items : List Form} (rest : Option (Option Nat)) (h : ∀ p ∈ items, p.Reads) :
    Form.Reads (.slice items rest) := by
  refine reads_of_body (n := Form.levelsAll items) (by rw [Form.levels]) fun depth room K ts hK hts => ?_
  rw [Form.words, Form.words_items] at hts
  obtain ⟨x, ts, rfl, hx, hrest⟩ := hts
  have hstart : ∀ c ∈ Form.itemsOf items rest, ∃ w ws, Sum.elim Form.words restWords c = w :: ws ∧
      w.kind ≠ .rbracket := by
    have hother : ∀ k ∈ Pattern.argumentStarters, k ≠ .rbracket := by decide
    rintro (p | n) -
    · obtain ⟨w, ws, hwords, hw⟩ := p.words_cons
      exact ⟨w, ws, hwords, hother _ hw⟩
    · exact ⟨_, _, rfl, by decide⟩
  have hitem : ∀ c ∈ Form.itemsOf items rest, ReadsSliceItem (Form.levelsAll items ≤ room) depth
      (nestedPattern (orWithin room)) (Sum.elim Form.words restWords c)
      fun _ => ∀ p, c = .inl p → p.levels + 1 ≤ room := by
    rintro (p | n) hc K x ts done post hK hts hrest
    · have hp : p ∈ items := by simpa [Form.itemsOf] using hc
      have hinner : ReadsWords (Form.levelsAll items ≤ room) depth (nestedPattern (orWithin room))
          .rbracket p.words fun _ => p.levels + 1 ≤ room :=
        ((h p hp).item (by decide)).weaken fun hle => Form.levelsAll_le_iff.mp hle p hp
      refine readsSliceItem_element p.opening_words hinner K x ts done post hK hts
        fun item y ts' hitem hy => hrest item y ts' ?_ hy
      obtain ⟨q, -, hle⟩ := hitem
      rintro _ ⟨⟩
      exact hle
    · have hname : (n.map nameText).getD "" = "" ∨ isLowerName ((n.map nameText).getD "") = true := by
        cases n with
        | none => exact .inl rfl
        | some i => exact .inr (isLowerName_nameText i)
      rw [Sum.elim_inr, restWords_eq] at hts
      exact readsSliceItem_rest hname K x ts done post hK hts fun item y ts' _ hy =>
        hrest item y ts' (fun p hp => absurd hp Sum.inr_ne_inl) hy
  refine (runs_sliceOf (R := fun c _ => ∀ p, c = .inl p → p.levels + 1 ≤ room) hstart hitem hx.kind
    hrest).mono ?_
  rintro q ts' - ⟨⟨m, qs, -, hqs⟩, hat⟩
  refine ⟨Form.levelsAll_le_iff.mpr fun p hp => ?_, hat⟩
  refine forall_of_forall₂ hqs (.inl p) ?_ p rfl
  exact List.mem_append_left _ (List.mem_map_of_mem hp)

end Forms

/-- **A pattern is read exactly if it has its levels.** -/
theorem Form.reads (p : Form) : p.Reads := by
  induction p using Form.induction with
  | leaf l => exact reads_leaf l
  | apply c p ih => exact reads_apply c ih
  | call r p ih => exact reads_call r ih
  | pair p q ihp ihq => exact reads_pair ihp ihq
  | either p q ihp ihq => exact reads_either ihp ihq
  | named p i ih => exact reads_named ih i
  | slice items rest ih => exact reads_slice rest ih

/-! ### Functions -/

section Functions

variable {depth room : Nat} {K : Rest} {x : Token} {ts : List Token}

/-- An arm, behind its bar. -/
theorem Arm.runs (a : Arm) (hroom : 2 ≤ room) (hK : ∀ y ts, K y ts → binds y ts = 0)
    (hts : After a.words.tail K x ts) :
    Runs (a.pattern.levels + 1 ≤ room) depth (Parser.arm (exprWithin room) (orWithin room)) (x :: ts)
      fun _ ts' => a.pattern.levels + 1 ≤ room ∧ At K ts' := by
  have hguard : ∀ g, a.guard.map Guard.condition = some g → ∃ g', g = Guard.condition g' := by
    intro g hg
    obtain ⟨g', -, rfl⟩ := Option.map_eq_some_iff.mp hg
    exact ⟨g', rfl⟩
  have hlevels : Expr.levelsOption (a.guard.map Guard.condition) ≤ room := by
    cases a.guard with
    | none => exact Nat.zero_le room
    | some g => exact hroom
  have hplain : a.guard.map Guard.condition = none → a.usedIf = false := by
    rw [Option.map_eq_none_iff, Arm.usedIf]
    intro hnone
    rw [hnone]
    rfl
  have hresult : ∀ ts, Begins a.result.words K ts → Runs (a.pattern.levels + 1 ≤ room) depth
      (exprWithin room Precedence.lowest) ts fun e ts' => e.erase = a.result.erase ∧ At K ts' :=
    fun ts hts => runs_plain (readsExpr a.writable_result rfl) (fun _ => Nat.one_le_of_lt hroom)
      (fun y ts hy => ⟨hK y ts hy, Bool.false_ne_true.elim, Bool.false_ne_true.elim⟩) hts
  refine (runs_armOf a.isLowerName_given (fun g hg => ?_) (fun g hg => ?_) (fun _ => hlevels) hplain
    (opening_ne a.pattern.opening_words) (List.cons_ne_nil _ _)
    (fun K ts hK hts => a.pattern.reads.alternative hK hts) hresult hts).mono ?_
  · obtain ⟨g', rfl⟩ := hguard g hg
    exact g'.writable_condition
  · obtain ⟨g', rfl⟩ := hguard g hg
    exact readsExpr g'.writable_condition rfl
  · rintro b ts' - ⟨⟨hp, -⟩, hat⟩
    exact ⟨hp, hat⟩

/-- The arms of a match. -/
theorem loops_arms {fits : Prop} {as : List Arm} (hfits : fits → ∀ a ∈ as, a.pattern.levels + 1 ≤ room)
    (hroom : 2 ≤ room) (hK : ∀ y ts, K y ts → binds y ts = 0 ∧ kindOf ts ≠ .pipe)
    (before : List (PatternPlan.Arm Pattern Expr)) (hts : After (as.flatMap Arm.words) K x ts) :
    Loops fits depth (armRound (exprWithin room) (orWithin room)) before (x :: ts)
      fun _ ts' => (∀ a ∈ as, a.pattern.levels + 1 ≤ room) ∧ At K ts' := by
  induction as generalizing before x ts with
  | nil => exact Loops.step (Runs.stay (hK x ts hts).2 (Runs.pure ⟨by simp, x, ts, rfl, hts⟩))
  | cons a as ih =>
    rw [List.flatMap_cons, after_append] at hts
    obtain ⟨y, ts, rfl, hy, -, hrest⟩ := hts
    have hbinds : ∀ z ts, After (as.flatMap Arm.words) K z ts → binds z ts = 0 := by
      intro z ts hz
      cases as with
      | nil => exact (hK z ts hz).1
      | cons b as => exact binds_of_kind (kindOf_of_after hz) (by decide)
    refine Loops.step (Runs.skip hy.kind (Runs.bind ((a.runs hroom hbinds hrest).weaken
      fun h => hfits h a List.mem_cons_self) ?_))
    rintro b ts' hlength ⟨ha, z, ts, rfl, hz⟩
    refine Runs.pure ⟨?_, ?_⟩
    · simp only [List.length_cons] at hlength ⊢
      omega
    · intro fuel hfuel
      have hrounds := ih (fun h b hb => hfits h b (List.mem_cons_of_mem a hb)) (before ++ [b]) hz
      refine (hrounds fuel hfuel).mono ?_
      rintro bs ts' - ⟨has, hat⟩
      exact ⟨List.forall_mem_cons.mpr ⟨ha, has⟩, hat⟩

/-- **The body of a function is read exactly if the function fits.** -/
theorem Function.runs_match (f : Function) (hK : ∀ y ts, K y ts → binds y ts = 0 ∧ kindOf ts ≠ .pipe)
    (hts : Begins f.matchWords K ts) :
    Runs f.Fits 0 expression ts fun _ ts' => f.Fits ∧ At K ts' := by
  have hv : isLowerName "v" = true := by decide
  have htarget : ∀ K ts, (∀ y ts, K y ts → kindOf ts = .kwWith) → Begins [Word.name "v"] K ts →
      Runs f.Fits 1 (exprWithin 255 Precedence.lowest) ts
        fun e ts' => e.erase = Expr.erase (.ident default "v") ∧ At K ts' := by
    intro K ts hK hts
    refine runs_plain (readsExpr_ident hv) (fun _ => by decide) (fun y ts hy => ?_) hts
    exact closes_of_closers (by rw [hK y ts hy]; decide)
  have harms : ∀ x ts, After (f.arms.flatMap Arm.words) K x ts →
      Loops f.Fits 1 (armRound (exprWithin 255) (orWithin 255)) [] (x :: ts)
        fun _ ts' => f.Fits ∧ At K ts' := by
    intro x ts hts fuel hfuel
    refine (loops_arms (fun hfits a ha => Nat.le_of_succ_le_succ (hfits a ha)) (by decide) hK [] hts fuel
      hfuel).mono ?_
    rintro as ts' - ⟨hlevels, hat⟩
    exact ⟨fun a ha => Nat.succ_le_succ (hlevels a ha), hat⟩
  refine Runs.withRoom ?_
  show Runs f.Fits 0 (exprWithin (255 + 1) Precedence.lowest) ts _
  refine runs_aloneOf ?_ fun y ts hy => (hK y ts hy).1.le
  refine (runs_selectionOf (List.cons_ne_nil _ _) htarget ⟨_, rfl⟩ harms hts).mono ?_
  rintro e ts' - ⟨⟨m, t, as, -, -, hfits⟩, hat⟩
  exact ⟨hfits, hat⟩

theorem Function.runs_declaration (f : Function) (hK : ∀ y ts, K y ts → binds y ts = 0 ∧ kindOf ts ≠ .pipe)
    (hts : Begins f.words K ts) :
    Runs f.Fits 0 declaration ts fun _ ts' => f.Fits ∧ At K ts' := by
  have hfront : Begins (frontWords [] false "fn" ++ (Word.name f.name :: (paramWords f.params
      ++ (resultWords Function.returns ++ ([Word.sign .assign] ++ f.matchWords))))) K ts := hts
  refine runs_front (by simp) (k := .kwFn) (by decide) (by decide) hfront ?_
  intro start t ts' ht hmore
  simp only [ht]
  refine Runs.bind (runs_functionOf (.inl f.isLowerName_name) f.writable_params Function.writable_returns
    (List.cons_ne_nil _ _) (fun ts hts => f.runs_match hK hts) start hmore) ?_
  rintro d ts'' - ⟨⟨m, ps, u, e, -, -, -, hfits⟩, hat⟩
  exact Runs.pure ⟨hfits, hat⟩

end Functions

/-! ### Programs -/

/-- The lines of a program: the declarations that its matches use, and its functions. -/
def lineTrees (bytes : List UInt8) : List (Decl ⊕ Function) :=
  declarations.map .inl ++ (functions bytes).map .inr

/-- The words of a line. -/
def lineWords : Decl ⊕ Function → List Word := Sum.elim Decl.words Function.words

theorem lines_eq (bytes : List UInt8) : lines bytes = (lineTrees bytes).map lineWords := by
  rw [lines, lineTrees, List.map_append, List.map_map, List.map_map]
  rfl

/-- The kinds of token that a line starts with. -/
def lineStarters : List TokenKind := [.atSign, .kwPattern, .kwType, .kwFn]

theorem lineStarters_facts : ∀ k ∈ .eof :: lineStarters, k ≠ .lparen ∧ bindingOf k = 0 ∧ k ≠ .kwElse ∧
    k ≠ .pipe ∧ k ≠ .kwModule ∧ k ≠ .kwUse := by decide

theorem lineWords_cons {c : Decl ⊕ Function} (hc : ∀ d, c = .inl d → d ∈ declarations) :
    ∃ w ws, lineWords c = w :: ws ∧ w.kind ∈ lineStarters := by
  rcases c with d | f
  · have hd := hc d rfl
    simp only [declarations, List.mem_cons, List.not_mem_nil, or_false] at hd
    rcases hd with rfl | rfl | rfl <;> exact ⟨_, _, rfl, by decide⟩
  · exact ⟨_, _, rfl, by decide⟩

section Lines

variable {cs : List (Decl ⊕ Function)} {x : Token} {ts : List Token}

theorem kindOf_of_lines (hcs : ∀ d, .inl d ∈ cs → d ∈ declarations) (hts : Lines (cs.map lineWords) x ts) :
    kindOf ts ∈ .eof :: lineStarters := by
  cases cs with
  | nil =>
    rw [show ts = [] from hts]
    exact List.mem_cons_self
  | cons c cs =>
    obtain ⟨w, ws, hwords, hw⟩ := lineWords_cons (c := c) fun d hd => hcs d (hd ▸ List.mem_cons_self)
    have hbegins := hts.1
    rw [hwords] at hbegins
    rw [kindOf_of_begins hbegins]
    exact List.mem_cons_of_mem _ hw

theorem ends_of_kind {d : Decl} (h : kindOf ts ∈ .eof :: lineStarters) : d.Ends x ts := by
  obtain ⟨hparen, hbinds, helse, hbar, -⟩ := lineStarters_facts _ h
  exact ⟨fun e _ => ⟨(binds_of_kind rfl hparen).trans hbinds, fun _ => helse, fun _ => hbar⟩, hbar,
    fun _ _ _ => hparen⟩

/-- Each line is read, a function exactly if it fits. -/
theorem readsEach_lines {fits : Prop} (hcs : ∀ d, .inl d ∈ cs → d ∈ declarations)
    (hfits : fits → ∀ f, .inr f ∈ cs → f.Fits) :
    ReadsEach fits lineWords (fun c _ => ∀ f, c = .inr f → f.Fits) cs := by
  induction cs with
  | nil => trivial
  | cons c cs ih =>
    have hrest : ∀ d, .inl d ∈ cs → d ∈ declarations := fun d hd => hcs d (List.mem_cons_of_mem c hd)
    have hnext : ∀ y ts, Lines (cs.map lineWords) y ts → kindOf ts ∈ .eof :: lineStarters :=
      fun y ts hy => kindOf_of_lines hrest hy
    refine ⟨fun ts hts => ⟨?_, ?_⟩, ih hrest fun h f hf => hfits h f (List.mem_cons_of_mem c hf)⟩
    · obtain ⟨w, ws, hwords, hw⟩ := lineWords_cons (c := c) fun d hd => hcs d (hd ▸ List.mem_cons_self)
      have hother : ∀ k ∈ lineStarters, k ≠ .eof := by decide
      rw [hwords] at hts
      rw [kindOf_of_begins hts]
      exact hother _ hw
    · rcases c with d | f
      · have hd := hcs d List.mem_cons_self
        have hfaithful : ∀ d ∈ declarations, d.faithful = true := by decide
        have hlevels : ∀ d ∈ declarations, d.levels ≤ maxNesting := by decide
        refine (runs_declaration (writable_declarations d hd) (hfaithful d hd) (fun _ => hlevels d hd)
          (fun y ts hy => ends_of_kind (hnext y ts hy)) hts).mono ?_
        rintro d' ts' - ⟨-, hat⟩
        exact ⟨nofun, hat⟩
      · refine ((f.runs_declaration (fun y ts hy => ?_) hts).weaken
          fun h => hfits h f List.mem_cons_self).mono ?_
        · obtain ⟨hparen, hbinds, -, hbar, -⟩ := lineStarters_facts _ (hnext y ts hy)
          exact ⟨(binds_of_kind rfl hparen).trans hbinds, hbar⟩
        · rintro d' ts' - ⟨hf, hat⟩
          refine ⟨?_, hat⟩
          rintro _ ⟨⟩
          exact hf

end Lines

/-- A program is read from its lines exactly if its functions fit. -/
theorem reads_program (bytes : List UInt8) {s : State} (hs : s.Sound) (hdepth : s.depth = 0) {x : Token}
    (hts : Lines (lines bytes) x s.tokens) :
    ((∀ f ∈ functions bytes, f.Fits) ∧ (Parser.program s).2.errors = s.errors) ∨
      ((¬ ∀ f ∈ functions bytes, f.Fits) ∧ (Parser.program s).2.TooDeep) := by
  have hdecls : ∀ d, .inl d ∈ lineTrees bytes → d ∈ declarations := by
    intro d hd
    simpa [lineTrees] using hd
  have hfunctions : ∀ f, .inr f ∈ lineTrees bytes ↔ f ∈ functions bytes := by
    simp [lineTrees]
  rw [lines_eq] at hts
  obtain ⟨-, -, -, -, hmodule, huse⟩ := lineStarters_facts _ (kindOf_of_lines hdecls hts)
  have heach := readsEach_lines hdecls fun (h : ∀ f ∈ functions bytes, f.Fits) f hf =>
    h f ((hfunctions f).mp hf)
  rw [program_of_declarations hs.eof hmodule huse]
  rcases reads_declarationsOf heach _ s x hs hdepth (Nat.lt_succ_self _) hts with
    ⟨ds, hrun, hds⟩ | ⟨hfits, hdeep⟩
  · refine .inl ⟨fun f hf => ?_, ?_⟩
    · exact forall_of_forall₂ hds (.inr f) ((hfunctions f).mpr hf) f rfl
    · rw [hrun]
  · exact .inr ⟨hfits, hdeep⟩

/-- Either the functions of a program fit and nothing is wrong with it, or the nesting limit is
reported. -/
theorem parse_program (bytes : List UInt8) :
    ((∀ f ∈ functions bytes, f.Fits) ∧ (parse (lex (.ofString (program bytes)))).errors = []) ∨
      ((¬ ∀ f ∈ functions bytes, f.Fits) ∧
        ∃ d ∈ (parse (lex (.ofString (program bytes)))).errors, d.code = .nestingTooDeep) := by
  have hsound : State.Sound { tokens := (lex (.ofString (program bytes))).tokens
                              eof := (lex (.ofString (program bytes))).eof } := ⟨sound_lex _, rfl⟩
  exact reads_program bytes hsound rfl (readsLines_program bytes).lexed

/-- **A program parses exactly if its functions fit**, which they do if there are at most 496 bytes.
No token of it is illegal in any case, and if anything is reported, the nesting limit is. -/
theorem program_parses_iff (bytes : List UInt8) :
    Reading.illegalTokens (lex (.ofString (program bytes))) = [] ∧
    ((parse (lex (.ofString (program bytes)))).errors = [] ↔ ∀ f ∈ functions bytes, f.Fits) ∧
    (bytes.length ≤ 496 → (parse (lex (.ofString (program bytes)))).errors = []) ∧
    ((parse (lex (.ofString (program bytes)))).errors ≠ [] →
      ∃ d ∈ (parse (lex (.ofString (program bytes)))).errors, d.code = .nestingTooDeep) := by
  refine ⟨(readsLines_program bytes).illegalTokens, ?_⟩
  rcases parse_program bytes with ⟨hfits, hclean⟩ | ⟨hfits, hdeep⟩
  · exact ⟨iff_of_true hclean hfits, fun _ => hclean, fun hne => absurd hclean hne⟩
  · refine ⟨iff_of_false ?_ hfits, fun hshort => absurd (fits_of_short hshort) hfits, fun _ => hdeep⟩
    intro hclean
    obtain ⟨d, hd, -⟩ := hdeep
    rw [hclean] at hd
    cases hd

/-- The bytes of a function with one arm, whose pattern calls a recognizer 254 times. -/
def deepBytes : List UInt8 := [0, 0, 0, 1] ++ (List.replicate 254 [4, 1]).flatten ++ [0, 1, 1, 7, 0, 1]

/-- **Not every program parses.** -/
theorem program_too_deep : (parse (lex (.ofString (program deepBytes)))).errors ≠ [] := by
  have hfits : ¬ ∀ f ∈ functions deepBytes, f.Fits := by decide +kernel
  intro hclean
  rcases parse_program deepBytes with ⟨h, -⟩ | ⟨-, d, hd, -⟩
  · exact hfits h
  · rw [hclean] at hd
    cases hd

end PatternPlan.Sample
