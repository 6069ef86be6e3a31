import PatternPlan.Proofs.Surface.Gives
import PatternPlan.Surface.Parser.Program

/-!
# What is parsed can be written

* `gives_…` — each parsing function gives trees that can be written, given that the ones it is
  written over do;
* `writable_parse` — **the tree of a source in which nothing is wrong can be written**.
-/

namespace PatternPlan.Surface

namespace Parser

/-! ### Types -/

theorem gives_typeBody {inner : Parser TypeExpr} (h : Gives TypeExpr.Writable inner) :
    Gives TypeExpr.Writable (typeBody inner) := by
  refine .current fun t ht => ?_
  split
  · rename_i hk
    refine .choose (.bind (h.commaList _ _) fun ts => .seq (preserves_markFrom _) fun m => .pure ?_)
      (.given (.seq (preserves_markFrom _) fun m => .pure ?_))
    · exact fun hts => .named (ht.upper hk) hts.2
    · exact .named (ht.upper hk) (by simp)
  · refine .bind (h.commaListOrNone _ _) fun ts => ?_
    split
    · exact .pure fun hts => hts _ (List.mem_singleton_self _)
    · rename_i hmany
      refine .seq (preserves_markFrom _) fun m => .pure fun hts => .tuple (fun hlength => ?_) hts
      obtain ⟨t, rfl⟩ := List.length_eq_one_iff.mp hlength
      exact hmany t rfl
  · refine .seq preserves_advance fun _ => .bind h fun e => .seq (preserves_expect _ _) fun _ => ?_
    exact .seq (preserves_markFrom _) fun m => .pure fun he => .array he
  · exact gives_reject _ _ _

theorem gives_typeWithin (fuel : Nat) : Gives TypeExpr.Writable (typeWithin fuel) := by
  induction fuel with
  | zero => exact .fail
  | succ fuel ih => exact gives_typeBody ih

theorem gives_type : Gives TypeExpr.Writable type := fun s hs =>
  (gives_typeWithin (s.tokens.length + 1) s hs).of_run rfl rfl

/-- Fields that can be written. -/
def FieldsWritable (fs : List (String × TypeExpr)) : Prop :=
  ∀ f ∈ fs, isLowerName f.1 = true ∧ f.2.Writable

theorem gives_recordTypeFields : Gives FieldsWritable recordTypeFields := by
  refine .iterate (I := FieldsWritable) (by simp [FieldsWritable]) fun fs => ?_
  refine .observe fun b => .ite (fun _ => .pure fun hfs => hfs) fun _ => ?_
  refine .expect fun t ht hk => .seq (preserves_expect _ _) fun _ => ?_
  refine .seq preserves_advance fun _ => .bind gives_type fun u => ?_
  have hmore : u.Writable → FieldsWritable fs → FieldsWritable (fs ++ [(t.text, u)]) :=
    fun hu hfs => forall_mem_snoc hfs ⟨ht.lower hk, hu⟩
  exact .choose (.pure hmore) (.pure hmore)

theorem gives_variants : Gives (fun vs : List Variant => ∀ v ∈ vs, v.Writable) variants := by
  refine .iterate (I := fun vs : List Variant => ∀ v ∈ vs, v.Writable) (by simp) fun vs => ?_
  refine .expect fun t ht hk => ?_
  have hend : ∀ ts : List TypeExpr, Gives
      (fun r => (∀ u ∈ ts, u.Writable) → (∀ v ∈ vs, v.Writable) →
        Round.Holds (fun vs : List Variant => ∀ v ∈ vs, v.Writable)
          (fun vs : List Variant => ∀ v ∈ vs, v.Writable) r)
      (do if ← skip .pipe then return .again (vs ++ [⟨t.text, ts⟩])
          else return .done (vs ++ [⟨t.text, ts⟩])) := by
    intro ts
    have hmore : (∀ u ∈ ts, u.Writable) → (∀ v ∈ vs, v.Writable) →
        ∀ v ∈ vs ++ [Variant.mk t.text ts], v.Writable :=
      fun hts hvs => forall_mem_snoc hvs ⟨ht.upper hk, hts⟩
    exact .choose (.pure hmore) (.pure hmore)
  refine .choose (.bind (gives_type.commaList _ _) fun ts => ?_) (.given ?_)
  · exact (hend ts).mono fun _ hr hts => hr hts.2
  · exact (hend []).mono fun _ hr => hr (by simp)

theorem gives_typeDeclaration (start : Token) (isPublic : Bool) :
    Gives TypeDecl.Writable (typeDeclaration start isPublic) := by
  refine .current fun keyword _ => .expect fun t ht hk => .seq (preserves_expect _ _) fun _ => ?_
  have hname := ht.upper hk
  refine .choose ?_ ?_
  · refine .bind gives_recordTypeFields fun fs => .seq (preserves_expect _ _) fun _ => ?_
    refine .seq (preserves_spanFrom _) fun span => .pure fun hfs => ?_
    exact ⟨hname, by simp, fun f hf => (hfs f hf).1, fun f hf => (hfs f hf).2, by simp⟩
  · refine .seq (preserves_skip _) fun _ => .bind gives_variants fun vs => ?_
    refine .seq (preserves_spanFrom _) fun span => .pure fun hvs => ?_
    exact ⟨hname, hvs, by simp, by simp, fun _ => rfl⟩

/-! ### Patterns -/

/-- What is known of a constant that starts with a kind of token. -/
structure BoundFrom (k : TokenKind) (b : Bound) : Prop where
  start : b.Writable Literal.isStart
  stop : k ∈ [.int, .float, .string, .minus] → b.Writable Literal.isStop

theorem negated_signed {v : Literal} (h : v.Unsigned) : (negated v).Signed := by
  cases v with
  | int i =>
    have hrange : 0 ≤ i ∧ i < 2 ^ 63 := h
    show (-i).natAbs < 2 ^ 63
    omega
  | float d => exact canonical_neg h.1
  | _ => trivial

theorem negated_isStart (v : Literal) : (negated v).isStart = v.isStart := by cases v <;> rfl

theorem negated_isStop (v : Literal) : (negated v).isStop = v.isStop := by cases v <;> rfl

theorem givesOn_bound {s : State} (hs : s.Sound) :
    GivesOn (BoundFrom s.current.kind) bound s := by
  refine .current ?_
  have hone : ∀ t : Token, t.Sound → t.kind ∈ TokenKind.constants →
      BoundFrom t.kind ⟨⟨t, t.span⟩, t.value.getD .unit⟩ := by
    intro t ht hk
    have hconstant := ht.constant hk
    refine ⟨⟨hconstant.2, hconstant.1.signed⟩, fun hstop => ⟨ht.stop ?_, hconstant.1.signed⟩⟩
    simp only [TokenKind.constants, List.mem_cons, List.not_mem_nil, or_false] at hk hstop ⊢
    rcases hstop with hstop | hstop | hstop | hstop
    · exact .inl hstop
    · exact .inr (.inl hstop)
    · exact .inr (.inr hstop)
    · rw [hstop] at hk
      simp at hk
  have ht := hs.current
  generalize s.current = t at ht ⊢
  have hkinds := hone t ht
  split
  · exact .pure hs (hkinds (by rw [‹t.kind = _›]; decide))
  · exact .pure hs (hkinds (by rw [‹t.kind = _›]; decide))
  · exact .pure hs (hkinds (by rw [‹t.kind = _›]; decide))
  · exact .pure hs (hkinds (by rw [‹t.kind = _›]; decide))
  · exact .pure hs (hkinds (by rw [‹t.kind = _›]; decide))
  · refine Gives.next (fun n hn => .ite (fun hnumber => ?_) fun _ => gives_rejectNext _) s hs
    have hk : n.kind ∈ [TokenKind.int, .float] := by simpa using hnumber
    have hconstants : ∀ k ∈ [TokenKind.int, .float],
        k ∈ TokenKind.constants ∧ k ∈ [TokenKind.int, .float, .string] := by decide
    have hconstant := hn.constant (hconstants _ hk).1
    have hstop := hn.stop (hconstants _ hk).2
    refine .seq preserves_advance fun _ => .seq (preserves_markFrom _) fun m => .pure ?_
    refine ⟨⟨?_, negated_signed hconstant.1⟩, fun _ => ⟨?_, negated_signed hconstant.1⟩⟩
    · rw [negated_isStart]
      exact hconstant.2
    · rw [negated_isStop]
      exact hstop
  · exact gives_reject _ _ _ s hs

theorem gives_bound : Gives (fun b => b.Writable Literal.isStart) bound := fun _ hs =>
  (givesOn_bound hs).mono fun _ hb => hb.start

/-- Where the parser gives up, it records something. -/
def Loud {α : Type} (p : Parser α) (s : State) : Prop :=
  (p s).1 = none → (p s).2.errors ≠ s.errors

theorem loud_current {α : Type} {f : Token → Parser α} {s : State} (h : Loud (f s.current) s) :
    Loud (current >>= f) s := h

theorem loud_next {α : Type} {f : Token → Parser α} {s : State} (h : Loud (f s.next) s) :
    Loud (next >>= f) s := h

theorem loud_reject {α : Type} (code : Code) (place : Token) (args : List Arg) (s : State) :
    Loud (reject code place args : Parser α) s := by
  intro _ heq
  have hlength := congrArg List.length heq
  change (s.errors ++ [_]).length = s.errors.length at hlength
  simp at hlength

theorem loud_rejectNext {α : Type} (expected : String) (s : State) :
    Loud (rejectNext expected : Parser α) s := by
  refine loud_next ?_
  split
  · exact loud_reject _ _ _ { s with incomplete := true }
  · exact loud_reject _ _ _ s

theorem loud_bound (s : State) : Loud bound s := by
  refine loud_current ?_
  split
  iterate 5 exact fun hnone => nomatch hnone
  · refine loud_next ?_
    split
    · exact fun hnone => nomatch hnone
    · exact loud_rejectNext _ s
  · exact loud_reject _ _ _ s

/-- A parser `q` that returns whether `p` gives up, in place of giving up. -/
theorem GivesOn.attempt {β : Type} {Q : β → Prop} {p : Parser β} {q : Parser (Option β)} {s : State}
    (h : GivesOn Q p s) (hloud : Loud p s) (hrun : q s = (some (p s).1, (p s).2)) :
    GivesOn (fun o => ∃ b, o = some b ∧ Q b) q s := by
  obtain ⟨hsound, hgrows, hgives⟩ := h
  refine ⟨by rw [hrun]; exact hsound, by rw [hrun]; exact hgrows, ?_⟩
  rw [hrun]
  rintro hsame o ⟨⟩
  cases hresult : (p s).1 with
  | none => exact absurd hsame (hloud hresult)
  | some b => exact ⟨b, rfl, hgives hsame b hresult⟩

/-- **A choice whether a bound follows**: it starts with one of four kinds of token. -/
theorem Gives.stop {α : Type} {P : α → Prop} {p q : Parser α}
    (hp : ∀ s : State, s.Sound → s.current.kind ∈ [.int, .float, .string, .minus] → GivesOn P p s)
    (hq : Gives P q) :
    Gives P (nextStartsBound >>= fun b => if b = true then advance >>= fun _ => p else q) := by
  refine .observed fun s hs => ?_
  have hchoice : ∀ b : Bool, (b = true → s.next.kind ∈ [TokenKind.int, .float, .string, .minus]) →
      GivesOn P (if b = true then advance >>= fun _ => p else q) s := by
    intro b hb
    split
    · refine (hp (advance s).2 (sound_advance hs) ?_).of_run rfl rfl
      rw [current_advance]
      exact hb ‹_›
    · exact hq s hs
  refine hchoice _ ?_
  cases s.next.kind <;> decide

theorem gives_rangeAfter (start : Bound) :
    Gives (fun p => start.Writable Literal.isStart → p.Writable) (rangeAfter start) := by
  refine .current fun op _ => .stop (fun s hs hk => ?_) (.ite (fun _ => gives_rejectNext _) fun hop => ?_)
  · refine (givesOn_bound hs).bind fun stop s' _ hs' => ?_
    refine Gives.current (fun last _ => .pure fun hstop hstart => ?_) s' hs'
    refine .range (.inl rfl) (fun _ => rfl) ?_ ?_
    · rintro b ⟨⟩
      exact hstart
    · rintro b ⟨⟩
      exact hstop.stop hk
  · refine .pure fun hstart => .range (.inl rfl) (fun hop' => absurd (of_decide_eq_true hop') hop) ?_ ?_
    · rintro b ⟨⟩
      exact hstart
    · rintro b ⟨⟩

theorem gives_rangeBefore : Gives Pattern.Writable rangeBefore := by
  refine .current fun op _ => .stop (fun s hs hk => ?_) (gives_rejectNext _)
  refine ((givesOn_bound hs).attempt (loud_bound s) ?_).bind fun stop s' _ hs' => ?_
  · rcases bound s with ⟨_ | b, s'⟩ <;> rfl
  refine Gives.seq (preserves_markFrom _) (fun m => .pure ?_) s' hs'
  rintro ⟨b, rfl, hb⟩
  refine .range (.inr rfl) (fun _ => rfl) ?_ ?_
  · rintro b' ⟨⟩
  · rintro b' ⟨⟩
    exact hb.stop hk

theorem gives_recognizerName : Gives (fun r => isUpperName r.1 = true) recognizerName := by
  refine .seq (preserves_expect _ _) fun _ => .expect fun t ht hk => ?_
  have hend : ∀ kind : RecognizerKind, Gives (fun r => isUpperName r.1 = true)
      (do expect .rparen ")"
          return (t.text, kind)) :=
    fun kind => .seq (preserves_expect _ _) fun _ => .pure (ht.upper hk)
  refine .seq (preserves_expect _ _) fun _ => .choose ?_ (.given (hend .total))
  exact .seq (preserves_expect _ _) fun _ => .given (hend .optional)

section Patterns

variable {alternatives primary inner : Parser Pattern}

theorem gives_nestedPattern (h : Gives Pattern.Writable alternatives) :
    Gives Pattern.Writable (nestedPattern alternatives) := by
  refine .bind h fun p => ?_
  refine .iterate_of (I := Pattern.Writable) fun p => ?_
  refine .choose (.current fun asToken _ => .expect fun t ht hk => .pure fun hp => ?_)
    (.pure fun hp => hp)
  exact .binding (ht.lower hk) hp

/-- Items of a slice that can be written. -/
def ItemWritable : SliceItem Pattern → Prop
  | .element p => p.Writable
  | .rest n _ => n = "" ∨ isLowerName n = true

theorem gives_slicePattern (h : Gives Pattern.Writable inner) :
    Gives Pattern.Writable (slicePattern inner) := by
  refine .current fun start _ => .choose ?_ ?_
  · exact .seq (preserves_markFrom _) fun m => .pure (.slice (by simp) (by simp))
  refine .bind (Q := fun items => ∀ i ∈ items, ItemWritable i) ?_ fun items =>
    .seq (preserves_markFrom _) fun m => .pure fun hitems => ?_
  · refine .iterate (I := fun items => ∀ i ∈ items, ItemWritable i) (by simp) fun items => ?_
    have hend : ∀ item, Gives (fun r => ItemWritable item → (∀ i ∈ items, ItemWritable i) →
        Round.Holds (fun items => ∀ i ∈ items, ItemWritable i)
          (fun items => ∀ i ∈ items, ItemWritable i) r)
        (do if ← skip .comma then return .again (items ++ [item])
            else
              expect .rbracket ", or ]"
              return .done (items ++ [item])) := by
      intro item
      refine .choose (.pure fun hitem hitems => forall_mem_snoc hitems hitem) ?_
      exact .seq (preserves_expect _ _) fun _ => .pure fun hitem hitems => forall_mem_snoc hitems hitem
    refine .seq preserves_advance fun _ => .current fun t _ => .observe fun b => ?_
    refine .ite (fun _ => .skip (fun s hs hk => .current ?_) ?_) fun _ => ?_
    · exact (hend _ s hs).mono fun _ hr => hr (.inr (hs.current.lower hk))
    · intro s hs _
      exact (hend _ s hs).mono fun _ hr => hr (.inl rfl)
    · exact .bind h fun p => .given (hend (.element p))
  · exact .slice (fun p hp => hitems _ hp) fun n span hn => hitems _ hn

theorem gives_recordFields (h : Gives Pattern.Writable inner) :
    Gives (fun r => ∀ f ∈ r.1, isLowerName f.1 = true ∧ f.2.Writable) (recordFields inner) := by
  refine .iterate (I := fun fs => ∀ f ∈ fs, isLowerName f.1 = true ∧ f.2.Writable) (by simp)
    fun fs => .seq preserves_advance fun _ => .current fun t ht => ?_
  have hend : t.kind = .lower → ∀ p : Pattern, Gives (fun r => p.Writable →
      (∀ f ∈ fs, isLowerName f.1 = true ∧ f.2.Writable) →
        Round.Holds (fun fs => ∀ f ∈ fs, isLowerName f.1 = true ∧ f.2.Writable)
          (fun r => ∀ f ∈ r.1, isLowerName f.1 = true ∧ f.2.Writable) r)
      (do if ← skip .comma then return .again (fs ++ [(t.text, p)])
          else
            expect .rbrace ", or \x7d"
            return .done (fs ++ [(t.text, p)], false)) := by
    intro hk p
    have hmore : p.Writable → (∀ f ∈ fs, isLowerName f.1 = true ∧ f.2.Writable) →
        ∀ f ∈ fs ++ [(t.text, p)], isLowerName f.1 = true ∧ f.2.Writable :=
      fun hp hfs => forall_mem_snoc hfs ⟨ht.lower hk, hp⟩
    exact .choose (.pure hmore) (.seq (preserves_expect _ _) fun _ => .pure hmore)
  split
  · exact .seq (preserves_expect _ _) fun _ => .pure fun hfs => hfs
  · rename_i hk
    refine .choose (.seq preserves_advance fun _ => .bind h (hend hk)) (.given ?_)
    exact (hend hk _).mono fun _ hr => hr (.var (ht.lower hk))
  · exact gives_reject _ _ _

theorem gives_recordPattern (h : Gives Pattern.Writable inner) :
    Gives Pattern.Writable (recordPattern inner) := by
  refine .current fun start _ => .choose ?_ ?_
  · exact .seq (preserves_markFrom _) fun m => .pure (.record (by simp) (by simp))
  · refine .bind (gives_recordFields h) fun r => .seq (preserves_markFrom _) fun m => .pure ?_
    exact fun hr => .record (fun f hf => (hr f hf).1) fun f hf => (hr f hf).2

theorem two_le_length {α : Type} {xs : List α} (hne : xs ≠ []) (hone : ∀ x, xs ≠ [x]) :
    2 ≤ xs.length := by
  match xs with
  | [] => exact absurd rfl hne
  | [x] => exact absurd rfl (hone x)
  | x :: y :: xs => simp

theorem gives_groupPattern (h : Gives Pattern.Writable inner) :
    Gives Pattern.Writable (groupPattern inner) := by
  refine .current fun start _ => .choose ?_ ?_
  · exact .seq (preserves_markFrom _) fun m => .pure (.literal trivial)
  · refine .bind (h.commaList _ _) fun ps => ?_
    split
    · exact .pure fun hps => hps.2 _ (List.mem_singleton_self _)
    · rename_i hone
      refine .seq (preserves_markFrom _) fun m => .pure fun hps => ?_
      exact .tuple (two_le_length hps.1 hone) hps.2

theorem gives_activePattern (h : Gives Pattern.Writable primary) :
    Gives Pattern.Writable (activePattern primary) := by
  refine .current fun start _ => .bind gives_recognizerName fun r => .observe fun b => ?_
  refine .ite (fun _ => ?_) fun _ => .given ?_
  · refine .seq preserves_advance fun _ => .bind h fun p => .given ?_
    refine .seq (preserves_markFrom _) fun m => .pure fun hp hr => .active hr ?_
    rintro q ⟨⟩
    exact hp
  · refine .seq (preserves_markFrom _) fun m => .pure fun hr => .active hr ?_
    rintro q ⟨⟩

/-- One pattern can be written if the parsers it is written over give such patterns. -/
theorem gives_primaryBody (ha : Gives Pattern.Writable alternatives)
    (hp : Gives Pattern.Writable primary) :
    Gives Pattern.Writable (primaryBody alternatives primary) := by
  have hinner := gives_nestedPattern ha
  have hconstant : Gives Pattern.Writable (do
      let b ← bound
      if ← skipEither .dotDot .dotDotEq then rangeAfter b else return .literal b.mark b.value) := by
    refine .bind gives_bound fun b => .seq (preserves_skipEither _ _) fun c => ?_
    exact .ite (fun _ => gives_rangeAfter b) fun _ => .pure fun hb => .literal hb.signed
  refine .current fun t ht => ?_
  split
  · exact .pure .wildcard
  · rename_i hk
    refine .choose (.seq preserves_advance fun _ => .bind hp fun p => ?_) (.pure (.var (ht.lower hk)))
    exact .seq (preserves_markFrom _) fun m => .pure fun hp => .binding (ht.lower hk) hp
  iterate 6 exact hconstant
  · exact gives_rangeBefore
  · exact gives_rangeBefore
  · rename_i hk
    refine .choose (.bind (hinner.commaListOrNone _ _) fun ps => ?_) (.given ?_)
    · exact .seq (preserves_markFrom _) fun m => .pure fun hps => .construct (ht.upper hk) hps
    · exact .seq (preserves_markFrom _) fun m => .pure (.construct (ht.upper hk) (by simp))
  · exact .observe fun b => .ite (fun _ => gives_activePattern hp) fun _ => gives_groupPattern hinner
  · exact gives_slicePattern hinner
  · exact gives_recordPattern hinner
  · rename_i hk
    obtain ⟨source, hvalue, hsource⟩ := ht.regex hk
    rw [hvalue]
    exact .pure (.regex hsource)
  · exact gives_rejectEnd _ _
  · exact gives_reject _ _ _

theorem gives_alternativesBody (h : Gives Pattern.Writable primary) :
    Gives Pattern.Writable (alternativesBody primary) := by
  refine .bind h fun first => .observed fun s hs => ?_
  split
  · rename_i hbar
    refine GivesOn.bind (Q := fun ps => first.Writable → 2 ≤ ps.length ∧ ∀ p ∈ ps, p.Writable)
      (.iterate (I := fun ps => first.Writable → 2 ≤ ps.length ∧ ∀ p ∈ ps, p.Writable) ?_ fun ps => ?_)
      fun ps s' _ hs' => .current (.pure hs' fun hps hfirst => .or (hps hfirst).1 (hps hfirst).2)
    -- the bar stands there, so that the first round reads a second alternative
    · refine .skipped hbar (Gives.seq preserves_advance (fun _ => .bind h fun p => .pure ?_) _
        (sound_advance hs))
      exact fun hp hfirst => ⟨by simp, forall_mem_snoc (by simpa using hfirst) hp⟩
    · refine .choose (.seq preserves_advance fun _ => .bind h fun p => .pure ?_) (.pure fun hps => hps)
      intro hp hps hfirst
      have hlength := (hps hfirst).1
      exact ⟨by rw [List.length_append]; omega, forall_mem_snoc (hps hfirst).2 hp⟩
  · exact .pure hs fun hfirst => hfirst

end Patterns

/-- **Patterns can be written**, at any level of nesting. -/
theorem gives_pattern (room : Nat) : Gives Pattern.Writable (primaryWithin room) ∧
    Gives Pattern.Writable (orWithin room) := by
  induction room with
  | zero => exact ⟨gives_tooDeep, gives_tooDeep⟩
  | succ room ih => exact ⟨(gives_primaryBody ih.2 ih.1).nested, (gives_alternativesBody ih.1).nested⟩

/-! ### Expressions -/

section Expressions

variable {expr : Nat → Parser Expr} {pattern : Parser Pattern}

theorem gives_exprList (h : ∀ n, Gives Expr.Writable (expr n)) (close : TokenKind) :
    Gives (fun es => ∀ e ∈ es, e.Writable) (exprList expr close) :=
  (h _).commaListOrNone _ _

theorem gives_constructor (h : ∀ n, Gives Expr.Writable (expr n)) {s : State} (hs : s.Sound)
    (hk : s.current.kind = .upper) : GivesOn Expr.Writable (constructor expr) s := by
  have hname := hs.current.upper hk
  refine .current (Gives.next (fun n _ => .ite (fun _ => ?_) fun _ => .given ?_) s hs)
  · refine .seq preserves_advance fun _ => .bind (gives_exprList h _) fun es => ?_
    exact .seq (preserves_markFrom _) fun m => .pure fun hes => .construct hname hes
  · exact .seq (preserves_markFrom _) fun m => .pure (.construct hname (by simp))

theorem gives_group (h : ∀ n, Gives Expr.Writable (expr n)) : Gives Expr.Writable (group expr) := by
  refine .current fun start _ => .skip (fun s hs _ => ?_) fun s hs hk => ?_
  · exact Gives.seq (preserves_markFrom _) (fun m => .pure (.literal trivial)) s hs
  -- the group does not close at once, so that the list is not empty
  · refine GivesOn.bind (.stayed hk ((h _).commaList _ _ s hs)) fun es s' _ hs' => ?_
    split
    · exact .pure hs' fun hes => hes.2 _ (List.mem_singleton_self _)
    · rename_i hone
      refine Gives.seq (preserves_markFrom _) (fun m => .pure fun hes => ?_) s' hs'
      exact .tuple (two_le_length hes.1 hone) hes.2

/-- Fields of a record, or bindings of a block, that can be written. -/
def BindingsWritable (fs : List (String × Expr)) : Prop :=
  ∀ f ∈ fs, isLowerName f.1 = true ∧ f.2.Writable

theorem gives_recordLiteral (h : ∀ n, Gives Expr.Writable (expr n)) :
    Gives Expr.Writable (recordLiteral expr) := by
  refine .current fun start _ => .bind (Q := fun fs => fs ≠ [] ∧ BindingsWritable fs) ?_ fun fs =>
    .seq (preserves_expect _ _) fun _ => .seq (preserves_markFrom _) fun m => .pure fun hfs => ?_
  · refine .iterate (I := BindingsWritable) (by simp [BindingsWritable]) fun fs => ?_
    refine .expect fun t ht hk => .seq (preserves_expect _ _) fun _ => ?_
    refine .seq preserves_advance fun _ => .bind (h _) fun e => ?_
    have hmore : e.Writable → BindingsWritable fs → BindingsWritable (fs ++ [(t.text, e)]) :=
      fun he hfs => forall_mem_snoc hfs ⟨ht.lower hk, he⟩
    have hdone : e.Writable → BindingsWritable fs →
        fs ++ [(t.text, e)] ≠ [] ∧ BindingsWritable (fs ++ [(t.text, e)]) :=
      fun he hfs => ⟨by simp, hmore he hfs⟩
    refine .choose (.observe fun b => ?_) (.pure hdone)
    exact .ite (fun _ => .pure hdone) fun _ => .pure hmore
  · exact .record hfs.1 (fun f hf => (hfs.2 f hf).1) fun f hf => (hfs.2 f hf).2

theorem gives_blockBody (h : ∀ n, Gives Expr.Writable (expr n)) :
    Gives (fun r => BindingsWritable r.1 ∧ ∀ e, r.2 = some e → e.Writable) (blockBody expr) := by
  refine .iterate (I := BindingsWritable) (by simp [BindingsWritable]) fun lets => ?_
  refine .choose (.pure fun hlets => ⟨hlets, by simp⟩) (.seq preserves_advance fun _ => ?_)
  refine .observe fun b => .ite (fun _ => ?_) fun _ => ?_
  · refine .expect fun t ht hk => .seq (preserves_expect _ _) fun _ => ?_
    refine .seq preserves_advance fun _ => .bind (h _) fun e => .seq (preserves_skip _) fun _ => ?_
    exact .pure fun he hlets => forall_mem_snoc hlets ⟨ht.lower hk, he⟩
  · refine .bind (h _) fun e => .seq (preserves_skip _) fun _ => .seq (preserves_expect _ _) fun _ => ?_
    refine .pure fun he hlets => ⟨hlets, ?_⟩
    rintro e' ⟨⟩
    exact he

theorem gives_recordOrBlock (h : ∀ n, Gives Expr.Writable (expr n)) :
    Gives Expr.Writable (recordOrBlock expr) := by
  refine .current fun start _ => .observe fun b => ?_
  refine .ite (fun _ => gives_recordLiteral h) fun _ => .bind (gives_blockBody h) fun r => ?_
  refine .seq (preserves_markFrom _) fun m => .pure fun hr => ?_
  exact .block (fun l hl => (hr.1 l hl).1) (fun l hl => (hr.1 l hl).2) hr.2

theorem gives_conditional (h : ∀ n, Gives Expr.Writable (expr n)) :
    Gives Expr.Writable (conditional expr) := by
  refine .current fun start _ => .seq preserves_advance fun _ => .bind (h _) fun c => ?_
  refine .seq (preserves_expect _ _) fun _ => .seq preserves_advance fun _ => .bind (h _) fun y => ?_
  refine .choose (.seq preserves_advance fun _ => .bind (h _) fun e => .given ?_) (.given ?_)
  · refine .seq (preserves_markFrom _) fun m => .pure fun he hy hc => .cond hc hy ?_
    rintro e' ⟨⟩
    exact he
  · exact .seq (preserves_markFrom _) fun m => .pure fun hy hc => .cond hc hy (by simp)

theorem gives_performance (h : ∀ n, Gives Expr.Writable (expr n)) :
    Gives Expr.Writable (performance expr) := by
  refine .current fun start _ => .expect fun t ht hk => ?_
  refine .choose (.bind (gives_exprList h _) fun es => ?_) (.given ?_)
  · exact .seq (preserves_markFrom _) fun m => .pure fun hes => .perform (ht.upper hk) hes
  · exact .seq (preserves_markFrom _) fun m => .pure (.perform (ht.upper hk) (by simp))

/-! Matches -/

/-- What stands between a pattern and its arrow, if it can be written. -/
structure HeadWritable (r : ArmHead) : Prop where
  guard : ∀ g, r.guard = some g → g.Writable
  plain : r.guard = none → r.usedIf = false
  name : ∀ given, r.asName = some given → isLowerName given.name = true

theorem gives_armHead (h : ∀ n, Gives Expr.Writable (expr n)) :
    Gives HeadWritable (armHead expr) := by
  refine .iterate (I := HeadWritable) ⟨by simp, by simp, by simp⟩ fun r => ?_
  refine .next fun n _ => .ite (fun _ => ?_) fun _ => .ite (fun _ => ?_) fun _ => .pure fun hr => hr
  · refine .seq preserves_advance fun _ => .expect fun t ht hk => .pure fun hr => ?_
    refine ⟨hr.guard, hr.plain, ?_⟩
    rintro given ⟨⟩
    exact ht.lower hk
  · refine .seq preserves_advance fun _ => .seq preserves_advance fun _ => .bind (h _) fun g => ?_
    refine .pure fun hg hr => ⟨?_, ?_, hr.name⟩
    · rintro g' ⟨⟩
      exact hg
    · rintro ⟨⟩

/-- Arms that can be written, guards and bodies included. -/
structure WholeWritable (a : Arm Pattern Expr) : Prop where
  arm : ArmWritable a
  guard : ∀ g, a.guard = some g → g.Writable
  body : a.body.Writable

theorem gives_arm (h : ∀ n, Gives Expr.Writable (expr n)) (hp : Gives Pattern.Writable pattern) :
    Gives WholeWritable (arm expr pattern) := by
  refine .current fun bar _ => .seq preserves_advance fun _ => .bind hp fun p => ?_
  refine .bind (gives_armHead h) fun r => .seq (preserves_expect _ _) fun _ => ?_
  refine .seq preserves_advance fun _ => .bind (h _) fun body => ?_
  refine .seq (preserves_spanFrom _) fun span => .pure fun hbody hr hp => ?_
  exact ⟨⟨hp, hr.plain, hr.name⟩, hr.guard, hbody⟩

theorem gives_selection (h : ∀ n, Gives Expr.Writable (expr n))
    (hp : Gives Pattern.Writable pattern) : Gives Expr.Writable (selection expr pattern) := by
  refine .current fun start _ => .seq preserves_advance fun _ => .bind (h _) fun t => ?_
  refine .seq (preserves_expect _ _) fun _ => .observed fun s hs => ?_
  split
  · rename_i hbar
    refine GivesOn.bind (Q := fun arms => arms ≠ [] ∧ ∀ a ∈ arms, WholeWritable a)
      (.iterate (I := fun arms => arms ≠ [] ∧ ∀ a ∈ arms, WholeWritable a) ?_ fun arms => ?_)
      fun arms s' _ hs' => Gives.seq (preserves_markFrom _) (fun m => .pure ?_) s' hs'
    -- the bar stands there, so that the first round reads an arm
    · refine .skipped (of_decide_eq_true hbar) (Gives.bind (gives_arm h hp) (fun a => .pure ?_) _
        (sound_advance hs))
      exact fun ha => ⟨by simp, forall_mem_snoc (by simp) ha⟩
    · refine .choose (.bind (gives_arm h hp) fun a => .pure fun ha harms => ?_) (.pure fun harms => harms)
      exact ⟨by simp, forall_mem_snoc harms.2 ha⟩
    · intro harms ht
      exact .select ht harms.1 (fun a ha => (harms.2 a ha).arm) (fun a ha => (harms.2 a ha).guard)
        fun a ha => (harms.2 a ha).body
  · exact gives_rejectNext _ s hs

theorem gives_unaryWith (h : ∀ n, Gives Expr.Writable (expr n)) (op : UnaryOp) :
    Gives Expr.Writable (unaryWith expr op) := by
  refine .current fun t _ => .seq preserves_advance fun _ => .bind (h _) fun e => ?_
  exact .seq (preserves_markFrom _) fun m => .pure fun he => .unary he

theorem gives_atom (h : ∀ n, Gives Expr.Writable (expr n)) (hp : Gives Pattern.Writable pattern) :
    Gives Expr.Writable (atom expr pattern) := by
  intro s hs
  have ht := hs.current
  have hconstant : s.current.kind ∈ TokenKind.constants → GivesOn Expr.Writable
      (pure (.literal ⟨s.current, s.current.span⟩ (s.current.value.getD .unit))) s :=
    fun hk => .pure hs (.literal (ht.constant hk).1)
  refine .current ?_
  split
  · rename_i hk
    exact .pure hs (.ident (ht.lower hk))
  · rename_i hk
    exact gives_constructor h hs hk
  iterate 5 exact hconstant (by rw [‹s.current.kind = _›]; decide)
  · exact gives_unaryWith h _ s hs
  · exact gives_unaryWith h _ s hs
  · exact gives_group h s hs
  · refine Gives.bind (gives_exprList h _) (fun es => ?_) s hs
    exact .seq (preserves_markFrom _) fun m => .pure fun hes => .array hes
  · exact gives_recordOrBlock h s hs
  · exact gives_conditional h s hs
  · exact gives_selection h hp s hs
  · exact gives_performance h s hs
  · exact gives_rejectEnd _ _ s hs
  · exact gives_reject _ _ _ s hs

theorem gives_extended (h : ∀ n, Gives Expr.Writable (expr n)) (left : Expr) :
    Gives (fun e => left.Writable → e.Writable) (extended expr left) := by
  refine .current fun t _ => ?_
  split
  · refine .bind (gives_exprList h _) fun es => .current fun last _ => .pure fun hes hleft => ?_
    exact .call hleft hes
  · exact .expect fun t ht hk => .pure fun hleft => .field hleft (ht.lower hk)
  · split
    · refine .seq preserves_advance fun _ => .bind (h _) fun r => .pure fun hr hleft => ?_
      exact .binary hleft hr
    · exact .fail

theorem gives_exprBody (h : ∀ n, Gives Expr.Writable (expr n)) (hp : Gives Pattern.Writable pattern)
    (precedence : Nat) : Gives Expr.Writable (exprBody expr pattern precedence) := by
  refine .bind (gives_atom h hp) fun first => .iterate_of (I := Expr.Writable) fun left => ?_
  refine .current fun t _ => .next fun n _ => .observe fun b => .ite (fun _ => ?_) fun _ => ?_
  · refine .seq preserves_advance fun _ => .bind (gives_extended h left) fun e => ?_
    exact .pure fun he hleft => he hleft
  · exact .pure fun hleft => hleft

end Expressions

/-- **Expressions can be written**, at any level of nesting. -/
theorem gives_exprWithin (room precedence : Nat) :
    Gives Expr.Writable (exprWithin room precedence) := by
  induction room generalizing precedence with
  | zero => exact gives_tooDeep
  | succ room ih => exact (gives_exprBody ih (gives_pattern room).2 precedence).nested

theorem gives_expression : Gives Expr.Writable expression :=
  .withRoom fun room => gives_exprWithin room _

/-! ### Declarations -/

theorem gives_param : Gives Param.Writable param := by
  refine .expect fun t ht hk => .choose (.seq preserves_advance fun _ => .bind gives_type fun u => ?_) ?_
  · refine .pure fun hu => ⟨ht.lower hk, ?_⟩
    rintro u' ⟨⟩
    exact hu
  · exact .pure ⟨ht.lower hk, by simp [WritableType]⟩

theorem gives_params : Gives (fun ps => ∀ p ∈ ps, p.Writable) params := by
  refine .seq (preserves_expect _ _) fun _ => .choose (.pure (by simp)) ?_
  refine .iterate (I := fun ps => ∀ p ∈ ps, p.Writable) (by simp) fun ps => ?_
  refine .bind gives_param fun p => .choose (.pure fun hp hps => forall_mem_snoc hps hp) ?_
  exact .seq (preserves_expect _ _) fun _ => .pure fun hp hps => forall_mem_snoc hps hp

theorem gives_resultType : Gives WritableType resultType := by
  refine .choose (.seq preserves_advance fun _ => .bind gives_type fun t => .pure fun ht => ?_)
    (.pure (by simp [WritableType]))
  rintro u ⟨⟩
  exact ht

theorem gives_definition : Gives Expr.Writable definition :=
  .seq (preserves_expect _ _) fun _ => .seq preserves_advance fun _ => gives_expression

theorem gives_function (start : Token) (isPublic : Bool) (annotations : List String) :
    Gives (fun f => (∀ a ∈ annotations, isLowerName a = true) → f.Writable)
      (function start isPublic annotations) := by
  refine .current fun keyword _ => .skipEither (fun t ht hk => ?_) (gives_rejectNext _)
  refine .bind gives_params fun ps => .bind gives_resultType fun u => ?_
  refine .bind gives_definition fun e => .seq (preserves_spanFrom _) fun span => ?_
  refine .pure fun he hu hps hannotations => ⟨?_, hps, hu, he, hannotations⟩
  exact hk.imp ht.lower ht.upper

theorem preserves_checkAnnotations (start : Token) (annotations : List String) :
    Preserves (checkAnnotations start annotations) := by
  induction annotations with
  | nil => exact .pure trivial
  | cons a as ih => exact .optionally (preserves_record _ _ _) ih

theorem gives_recognizer (start : Token) (isPublic : Bool) (annotations : List String) :
    Gives Recognizer.Writable (recognizer start isPublic annotations) := by
  refine .current fun keyword _ => .seq (preserves_checkAnnotations _ _) fun _ => ?_
  refine .seq (preserves_expect _ _) fun _ => .bind gives_recognizerName fun r => ?_
  refine .bind gives_params fun ps => .bind gives_resultType fun u => ?_
  refine .bind gives_definition fun e => .seq (preserves_spanFrom _) fun span => ?_
  exact .pure fun he hu hps hr => ⟨hr, hps, hu, he⟩

theorem gives_annotationNames : Gives (fun names => ∀ a ∈ names, isLowerName a = true) annotationNames := by
  refine .iterate (I := fun names => ∀ a ∈ names, isLowerName a = true) (by simp) fun names => ?_
  refine .observe fun b => .ite (fun _ => ?_) fun _ => .pure fun hnames => hnames
  refine .expect fun t ht hk => .seq preserves_advance fun _ => .pure fun hnames => ?_
  exact forall_mem_snoc hnames (ht.lower hk)

theorem gives_declaration : Gives Decl.Writable declaration := by
  refine .current fun start _ => .bind gives_annotationNames fun annotations => ?_
  refine .observe fun isPublic => .optionally preserves_advance (.current fun t _ => ?_)
  split
  · exact .bind (gives_function _ _ _) fun f => .pure fun hf hannotations => hf hannotations
  · exact .bind (gives_recognizer _ _ _) fun r => .pure fun hr _ => hr
  · exact .bind (gives_typeDeclaration _ _) fun d => .pure fun hd _ => hd
  · refine .ite (fun _ => gives_reject _ _ _) fun _ => .bind gives_expression fun e => ?_
    exact .seq (preserves_markFrom _) fun m => .pure fun he _ => he

/-! ### Files -/

theorem gives_step : Gives (fun o => ∀ d, o = some d → d.Writable) (reader step) := by
  intro s hs
  have hdecl := gives_declaration s hs
  have hafter : (step s).2.Sound ∧ (step s).2.errors = (declaration s).2.errors := by
    rw [step]
    dsimp only
    split
    · exact ⟨sound_advance hdecl.sound, rfl⟩
    · refine ⟨⟨fun t ht => hdecl.sound.tokens t ?_, hdecl.sound.eof⟩, rfl⟩
      exact List.mem_of_mem_tail (List.dropWhile_subset _ ht)
  refine ⟨hafter.1, ?_, ?_⟩
  · show s.errors <+: (step s).2.errors
    rw [hafter.2]
    exact hdecl.grows
  · rintro hsame o ⟨⟩
    exact hdecl.gives (hafter.2.symm.trans hsame)

theorem gives_declarations (fuel : Nat) :
    Gives (fun ds => ∀ d ∈ ds, d.Writable) (reader (declarations fuel)) := by
  induction fuel with
  | zero => exact fun s hs => .pure hs (by simp)
  | succ fuel ih =>
    intro s hs
    by_cases hend : s.current.kind = .eof
    · refine GivesOn.of_run (q := pure []) (.pure hs (by simp)) ?_ rfl
      rw [reader, declarations, if_pos hend]
      rfl
    · have hround : Gives (fun ds => ∀ d ∈ ds, d.Writable) (do
          let d ← reader step
          let ds ← reader (declarations fuel)
          return d.toList ++ ds) := by
        refine .bind gives_step fun d => .bind ih fun ds => .pure fun hds hd => ?_
        exact List.forall_mem_append.mpr ⟨fun e he => hd e (Option.mem_toList.mp he), hds⟩
      refine (hround s hs).of_run ?_ rfl
      rw [reader, declarations, if_neg hend]
      rfl

/-- Paths that can be written. -/
def PathWritable (names : List String) : Prop :=
  names ≠ [] ∧ ∀ n ∈ names, isLowerName n = true ∨ isUpperName n = true

theorem two_le_tokens {s : State} (hs : s.Sound) (hk : s.next.kind ≠ .eof) :
    2 ≤ s.tokens.length := by
  rcases htokens : s.tokens with _ | ⟨x, _ | ⟨y, ts⟩⟩
  · exact absurd hs.eof (by rw [State.next, htokens] at hk; exact hk)
  · exact absurd hs.eof (by rw [State.next, htokens] at hk; exact hk)
  · simp

theorem gives_path (fuel : Nat) : ∀ s : State, s.Sound → s.tokens.length < fuel →
    GivesOn PathWritable (reader (path fuel)) s := by
  induction fuel with
  | zero =>
    intro s hs hfuel
    cases hfuel
  | succ fuel ih =>
    intro s hs hfuel
    by_cases hname : s.next.kind = .upper ∨ s.next.kind = .lower
    · have htext : isLowerName s.next.text = true ∨ isUpperName s.next.text = true :=
        hname.symm.imp hs.next.lower hs.next.upper
      have hlength := two_le_tokens hs (by rcases hname with hk | hk <;> rw [hk] <;> decide)
      have hrun : path (fuel + 1) s
          = if (advance s).2.next.kind = .dot then
              (s.next.text :: (path fuel (advance (advance s).2).2).1, (path fuel (advance (advance s).2).2).2)
            else ([s.next.text], (advance s).2) := by
        rw [path, if_pos (by simpa using hname)]
        dsimp only
        rw [current_advance]
      by_cases hdot : (advance s).2.next.kind = .dot
      · rw [if_pos hdot] at hrun
        have hrest := ih (advance (advance s).2).2 (sound_advance (sound_advance hs)) (by
          show s.tokens.tail.tail.length < fuel
          rw [List.length_tail, List.length_tail]
          omega)
        have hpath : GivesOn PathWritable (reader (path fuel) >>= fun names => pure (s.next.text :: names))
            (advance (advance s).2).2 :=
          hrest.bind fun names s' _ hs' => .pure hs' fun hnames =>
            ⟨by simp, List.forall_mem_cons.mpr ⟨htext, hnames.2⟩⟩
        refine hpath.of_run ?_ rfl
        rw [reader, hrun]
        rfl
      · rw [if_neg hdot] at hrun
        have hpath : GivesOn PathWritable (pure [s.next.text]) (advance s).2 :=
          .pure (sound_advance hs) ⟨by simp, List.forall_mem_singleton.mpr htext⟩
        refine hpath.of_run ?_ rfl
        rw [reader, hrun]
        rfl
    -- no name follows: this was recorded
    · have hrun : path (fuel + 1) s = ([], (rejectNext "module path" s : Option Unit × State).2) := by
        rw [path, if_neg (by simpa using hname)]
      have hreject := gives_rejectNext (P := fun _ : Unit => True) "module path" s hs
      obtain ⟨s', hs'⟩ := rejectNext_run "module path" s
      have hloud := loud_rejectNext (α := Unit) "module path" s (by rw [hs' Unit])
      refine ⟨?_, ?_, ?_⟩
      · show (path (fuel + 1) s).2.Sound
        rw [hrun]
        exact hreject.sound
      · show s.errors <+: (path (fuel + 1) s).2.errors
        rw [hrun]
        exact hreject.grows
      · intro hsame
        replace hsame : (path (fuel + 1) s).2.errors = s.errors := hsame
        rw [hrun] at hsame
        exact absurd hsame hloud

theorem gives_pathLine : Gives PathLine.Writable (reader pathLine) := by
  intro s hs
  have hpath := gives_path (s.tokens.length + 1) s hs (Nat.lt_succ_self _)
  refine ⟨sound_advance hpath.sound, hpath.grows, ?_⟩
  rintro hsame l ⟨⟩
  have hnames := hpath.gives hsame _ rfl
  exact ⟨hnames.1, hnames.2⟩

theorem gives_useLines (fuel : Nat) :
    Gives (fun ls => ∀ l ∈ ls, l.Writable) (reader (useLines fuel)) := by
  induction fuel with
  | zero => exact fun s hs => .pure hs (by simp)
  | succ fuel ih =>
    intro s hs
    by_cases huse : s.current.kind = .kwUse
    · have hround : Gives (fun ls => ∀ l ∈ ls, l.Writable) (do
          let l ← reader pathLine
          let ls ← reader (useLines fuel)
          return l :: ls) :=
        .bind gives_pathLine fun l => .bind ih fun ls => .pure fun hls hl =>
          List.forall_mem_cons.mpr ⟨hl, hls⟩
      refine (hround s hs).of_run ?_ rfl
      rw [reader, useLines, if_pos huse]
      rfl
    · refine GivesOn.of_run (q := pure []) (.pure hs (by simp)) ?_ rfl
      rw [reader, useLines, if_neg huse]
      rfl

theorem gives_program : Gives Program.Writable (reader program) := by
  have hrest : ∀ header : Option PathLine,
      Gives (fun p : Program => (∀ l, header = some l → l.Writable) → p.Writable) (do
        let uses ← reader fun s => useLines (s.tokens.length + 1) s
        let decls ← reader fun s => declarations (s.tokens.length + 1) s
        return ⟨header, uses, decls⟩) := by
    intro header
    refine .bind (fun s hs => (gives_useLines (s.tokens.length + 1) s hs).of_run rfl rfl) fun uses => ?_
    refine .bind (fun s hs => (gives_declarations (s.tokens.length + 1) s hs).of_run rfl rfl) fun ds => ?_
    exact .pure fun hds huses hheader => ⟨hheader, huses, hds⟩
  intro s hs
  by_cases hmodule : s.current.kind = .kwModule
  · have hheader := gives_pathLine.bind (P := Program.Writable) fun l => (hrest (some l)).mono
      fun p hp hl => hp (by rintro l' ⟨⟩; exact hl)
    refine (hheader s hs).of_run ?_ rfl
    rw [reader, program, if_pos hmodule]
    rfl
  · have hnone := (hrest none).mono fun p hp => hp (by simp)
    refine (hnone s hs).of_run ?_ rfl
    rw [reader, program, if_neg hmodule]
    rfl

end Parser

/-- **The tree of a source in which nothing is wrong can be written.** -/
theorem writable_parse {source : Text} (h : (parse (lex source)).errors = []) :
    (parse (lex source)).program.Writable := by
  have hgives := Parser.gives_program { tokens := (lex source).tokens, eof := (lex source).eof }
    ⟨sound_lex source, rfl⟩
  exact hgives.gives h _ rfl

end PatternPlan.Surface
