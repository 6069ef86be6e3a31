import PatternPlan.Proofs.Surface.Yields
import PatternPlan.Surface.Parser.Program

/-!
# What parsing gives

Whatever a source looks like, and whatever is wrong with it, the tree of it has names where names
have to be, and alternatives where it says there are alternatives.

* `TypeExpr.isNamed`, `Pattern.isNamed` — annotations and patterns whose names are names;
* `Expr.Named`, `Decl.Named`, `Program.Named` — the same for all patterns of all matches inside;
* `yields_…` — each parsing function yields named trees, given that the ones it is written over do;
* `named_parse` — **every tree that parsing gives is named**.
-/

namespace PatternPlan.Surface

/-! ### Named trees -/

mutual

/-- Whether no name in an annotation is empty. -/
def TypeExpr.isNamed : TypeExpr → Bool
  | .named _ n ts => n ≠ "" && TypeExpr.allNamed ts
  | .tuple _ ts => TypeExpr.allNamed ts
  | .array _ t => TypeExpr.isNamed t

def TypeExpr.allNamed : List TypeExpr → Bool
  | [] => true
  | t :: ts => TypeExpr.isNamed t && TypeExpr.allNamed ts

end

theorem TypeExpr.allNamed_iff {ts : List TypeExpr} :
    allNamed ts = true ↔ ∀ t ∈ ts, isNamed t = true := by
  induction ts with
  | nil => simp [allNamed]
  | cons t ts ih => simp [allNamed, ih]

namespace Pattern

mutual

/-- Whether the names in a pattern are names, and there is an alternative among alternatives. -/
def isNamed : Pattern → Bool
  | wildcard _ | literal _ _ | range _ _ _ _ | regex _ _ => true
  | var _ n => isIdentifier n
  | tuple _ ps => allNamed ps
  | record _ fs _ => fieldsNamed fs
  | construct _ n ps => isIdentifier n && allNamed ps
  | binding _ n _ p => isIdentifier n && isNamed p
  | or _ ps => !ps.isEmpty && allNamed ps
  | slice _ items => itemsNamed items
  | active _ n _ arg => isIdentifier n && match arg with
    | some p => isNamed p
    | none => true

def allNamed : List Pattern → Bool
  | [] => true
  | p :: ps => isNamed p && allNamed ps

def fieldsNamed : List (String × Pattern) → Bool
  | [] => true
  | (_, p) :: fs => isNamed p && fieldsNamed fs

def itemsNamed : List (SliceItem Pattern) → Bool
  | [] => true
  | .element p :: items => isNamed p && itemsNamed items
  | .rest _ _ :: items => itemsNamed items

end

theorem allNamed_iff {ps : List Pattern} : allNamed ps = true ↔ ∀ p ∈ ps, isNamed p = true := by
  induction ps with
  | nil => simp [allNamed]
  | cons p ps ih => simp [allNamed, ih]

theorem fieldsNamed_iff {fs : List (String × Pattern)} :
    fieldsNamed fs = true ↔ ∀ f ∈ fs, isNamed f.2 = true := by
  induction fs with
  | nil => simp [fieldsNamed]
  | cons f fs ih => simp [fieldsNamed, ih]

/-- Whether an item of a slice is named. -/
def ItemNamed : SliceItem Pattern → Prop
  | .element p => isNamed p = true
  | .rest _ _ => True

theorem itemsNamed_iff {items : List (SliceItem Pattern)} :
    itemsNamed items = true ↔ ∀ i ∈ items, ItemNamed i := by
  induction items with
  | nil => simp [itemsNamed]
  | cons item items ih => cases item <;> simp [itemsNamed, ItemNamed, ih]

end Pattern

/-- All patterns of a match are named. -/
def Match.Named (m : Match) : Prop := ∀ a ∈ m.arms, a.pattern.isNamed = true

namespace Expr

/-- All patterns of an expression's matches are named. -/
def Named (e : Expr) : Prop := ∀ m ∈ e.allMatches, m.Named

theorem mem_allMatchesOfList {m : Match} {es : List Expr} :
    m ∈ allMatchesOfList es ↔ ∃ e ∈ es, m ∈ e.allMatches := by
  induction es with
  | nil => simp [allMatchesOfList]
  | cons e es ih => simp [allMatchesOfList, ih]

theorem mem_allMatchesOfOption {m : Match} {o : Option Expr} :
    m ∈ allMatchesOfOption o ↔ ∃ e, o = some e ∧ m ∈ e.allMatches := by
  cases o <;> simp [allMatchesOfOption]

theorem mem_allMatchesOfFields {m : Match} {fs : List (String × Expr)} :
    m ∈ allMatchesOfFields fs ↔ ∃ f ∈ fs, m ∈ f.2.allMatches := by
  induction fs with
  | nil => simp [allMatchesOfFields]
  | cons f fs ih => simp [allMatchesOfFields, ih]

theorem mem_allMatchesOfArms {m : Match} {arms : List (Arm Pattern Expr)} :
    m ∈ allMatchesOfArms arms ↔ ∃ a ∈ arms,
      (∃ g, a.guard = some g ∧ m ∈ g.allMatches) ∨ m ∈ a.body.allMatches := by
  induction arms with
  | nil => simp [allMatchesOfArms]
  | cons a arms ih => simp [allMatchesOfArms, mem_allMatchesOfOption, ih, or_assoc]

theorem Named.list {es : List Expr} (h : ∀ e ∈ es, e.Named) :
    ∀ m ∈ allMatchesOfList es, m.Named := by
  intro m hm
  obtain ⟨e, he, hm⟩ := mem_allMatchesOfList.mp hm
  exact h e he m hm

theorem Named.option {o : Option Expr} (h : ∀ e, o = some e → e.Named) :
    ∀ m ∈ allMatchesOfOption o, m.Named := by
  intro m hm
  obtain ⟨e, he, hm⟩ := mem_allMatchesOfOption.mp hm
  exact h e he m hm

theorem Named.fields {fs : List (String × Expr)} (h : ∀ f ∈ fs, f.2.Named) :
    ∀ m ∈ allMatchesOfFields fs, m.Named := by
  intro m hm
  obtain ⟨f, hf, hm⟩ := mem_allMatchesOfFields.mp hm
  exact h f hf m hm

/-- An arm whose parts are named. -/
structure ArmNamed (a : Arm Pattern Expr) : Prop where
  pattern : a.pattern.isNamed = true
  guard : ∀ g, a.guard = some g → g.Named
  body : a.body.Named

theorem Named.select {mark : Mark} {t : Expr} {arms : List (Arm Pattern Expr)} (ht : t.Named)
    (h : ∀ a ∈ arms, ArmNamed a) : (select mark t arms).Named := by
  intro m hm
  rcases List.mem_cons.mp hm with rfl | hm
  · exact fun a ha => (h a ha).pattern
  · refine List.forall_mem_append.mpr ⟨ht, fun m hm => ?_⟩ m hm
    obtain ⟨a, ha, ⟨g, hg, hm⟩ | hm⟩ := mem_allMatchesOfArms.mp hm
    · exact (h a ha).guard g hg m hm
    · exact (h a ha).body m hm

end Expr

/-- An annotation that may be left out. -/
def Annotated (t : Option TypeExpr) : Prop := ∀ u, t = some u → u.isNamed = true

structure Function.Named (f : Function) : Prop where
  params : ∀ p ∈ f.params, Annotated p.ty
  returns : Annotated f.returns
  body : f.body.Named

structure Recognizer.Named (r : Recognizer) : Prop where
  params : ∀ p ∈ r.params, Annotated p.ty
  returns : Annotated r.returns
  body : r.body.Named

structure TypeDecl.Named (d : TypeDecl) : Prop where
  name : d.name ≠ ""
  variants : ∀ v ∈ d.variants, ∀ t ∈ v.fields, t.isNamed = true
  fields : ∀ f ∈ d.fields, f.2.isNamed = true

def Decl.Named : Decl → Prop
  | .function f => f.Named
  | .recognizer r => r.Named
  | .type t => t.Named
  | .expr _ e => e.Named

namespace Parser

/-! ### Types -/

theorem yields_typeBody {inner : Parser TypeExpr} (h : Yields (fun t => t.isNamed = true) inner) :
    Yields (fun t => t.isNamed = true) (typeBody inner) := by
  refine .bind yields_current fun start hstart => ?_
  split
  · rename_i hk
    have hname : start.text ≠ "" := ne_empty_of_isIdentifier (hstart (.inr hk))
    refine .seq (keeps_skip _) fun b => .branch (fun _ => h.commaList _ _)
      (fun _ => .pure (by simp)) fun ts hts => .seq (keeps_markFrom _) fun m => .pure ?_
    simp [TypeExpr.isNamed, hname, TypeExpr.allNamed_iff.mpr hts]
  · refine .bind (h.commaListOrNone _ _) fun ts hts => ?_
    split
    · exact .pure (hts _ (List.mem_singleton_self _))
    · exact .seq (keeps_markFrom _) fun m => .pure (TypeExpr.allNamed_iff.mpr hts)
  · refine .seq keeps_advance fun _ => .bind h fun t ht => .seq (keeps_expect _ _) fun _ => ?_
    exact .seq (keeps_markFrom _) fun m => .pure ht
  · exact yields_reject _ _ _ rfl

theorem yields_typeWithin (fuel : Nat) : Yields (fun t => t.isNamed = true) (typeWithin fuel) := by
  induction fuel with
  | zero => exact .fail
  | succ fuel ih => exact yields_typeBody ih

theorem yields_type : Yields (fun t => t.isNamed = true) type :=
  fun s hs => yields_typeWithin (s.tokens.length + 1) s hs

theorem yields_recordTypeFields :
    Yields (fun fs => ∀ f ∈ fs, f.2.isNamed = true) recordTypeFields := by
  refine .iterate (I := fun fs => ∀ f ∈ fs, f.2.isNamed = true) (by simp) fun fs hfs => ?_
  refine .seq (keeps_observe _) fun b => .ite (fun _ => .pure hfs) fun _ => ?_
  refine .seq (keeps_expect _ _) fun _ => .seq (keeps_observe _) fun name => ?_
  refine .seq (keeps_expect _ _) fun _ => .seq keeps_advance fun _ => ?_
  refine .bind yields_type fun t ht => .seq (keeps_skip _) fun b => ?_
  exact .ite (fun _ => .pure (forall_mem_snoc hfs ht)) fun _ => .pure (forall_mem_snoc hfs ht)

theorem yields_variants :
    Yields (fun vs => ∀ v ∈ vs, ∀ t ∈ v.fields, t.isNamed = true) variants := by
  refine .iterate (I := fun vs => ∀ v ∈ vs, ∀ t ∈ v.fields, t.isNamed = true) (by simp)
    fun vs hvs => ?_
  refine .seq (keeps_expect _ _) fun _ => .seq (keeps_observe _) fun name => ?_
  refine .seq (keeps_skip _) fun b => .branch (fun _ => yields_type.commaList _ _)
    (fun _ => .pure (by simp)) fun ts hts => .seq (keeps_skip _) fun b => ?_
  exact .ite (fun _ => .pure (forall_mem_snoc hvs hts)) fun _ => .pure (forall_mem_snoc hvs hts)

theorem yields_typeDeclaration (start : Token) (isPublic : Bool) :
    Yields TypeDecl.Named (typeDeclaration start isPublic) := by
  refine .seq (keeps_observe _) fun keyword => .expect fun t ht hk => ?_
  have hname : t.text ≠ "" := ne_empty_of_isIdentifier (ht (.inr hk))
  refine .seq (keeps_expect _ _) fun _ => .seq (keeps_skip _) fun b =>
    .ite (fun _ => ?_) fun _ => ?_
  · refine .bind yields_recordTypeFields fun fs hfs => .seq (keeps_expect _ _) fun _ => ?_
    exact .seq (keeps_spanFrom _) fun span => .pure ⟨hname, by simp, hfs⟩
  · refine .seq (keeps_skip _) fun _ => .bind yields_variants fun vs hvs => ?_
    exact .seq (keeps_spanFrom _) fun span => .pure ⟨hname, hvs, by simp⟩

/-! ### Patterns -/

theorem keeps_bound : Keeps bound := by
  refine .seq (keeps_observe _) fun t => ?_
  split
  iterate 5 exact .pure trivial
  · refine .seq (keeps_observe _) fun n => .ite (fun _ => ?_) fun _ => yields_rejectNext _
    exact .seq keeps_advance fun _ => .seq (keeps_markFrom _) fun _ => .pure trivial
  · exact yields_reject _ _ _ rfl

theorem yields_rangeAfter (start : Bound) :
    Yields (fun p => p.isNamed = true) (rangeAfter start) := by
  refine .seq (keeps_observe _) fun op => .seq (keeps_observe _) fun b =>
    .ite (fun _ => ?_) fun _ => ?_
  · refine .seq keeps_advance fun _ => .seq keeps_bound fun stop => ?_
    exact .seq (keeps_observe _) fun last => .pure rfl
  · exact .ite (fun _ => yields_rejectNext _) fun _ => .pure rfl

theorem yields_rangeBefore : Yields (fun p => p.isNamed = true) rangeBefore := by
  refine .seq (keeps_observe _) fun op => .seq (keeps_observe _) fun b =>
    .ite (fun _ => ?_) fun _ => ?_
  · refine .seq keeps_advance fun _ => .seq ?_ fun stop => ?_
    · intro s hs
      refine ⟨?_, fun _ _ => trivial⟩
      have hbound := (keeps_bound s hs).1
      dsimp only
      generalize bound s = r at hbound
      obtain ⟨_ | b, s'⟩ := r <;> exact hbound
    · exact .seq (keeps_markFrom _) fun m => .pure rfl
  · exact yields_rejectNext _

theorem yields_recognizerName : Yields (fun r => isIdentifier r.1 = true) recognizerName := by
  refine .seq (keeps_expect _ _) fun _ => .expect fun t ht hk => ?_
  have hname : isIdentifier t.text = true := ht (.inr hk)
  have hend : ∀ kind : RecognizerKind, Yields (fun r => isIdentifier r.1 = true)
      (do expect .rparen ")"
          return (t.text, kind)) :=
    fun kind => .seq (keeps_expect _ _) fun _ => .pure hname
  refine .seq (keeps_expect _ _) fun _ => .seq (keeps_skip _) fun b =>
    .ite (fun _ => ?_) fun _ => ?_
  · exact .seq (keeps_expect _ _) fun _ => .seq (.pure trivial) hend
  · exact .seq (.pure trivial) hend

variable {alternatives primary inner : Parser Pattern}

theorem yields_nestedPattern (h : Yields (fun p => p.isNamed = true) alternatives) :
    Yields (fun p => p.isNamed = true) (nestedPattern alternatives) := by
  refine .bind h fun p hp => ?_
  refine .iterate (I := fun p => p.isNamed = true) hp fun p hp => ?_
  refine .seq (keeps_skip _) fun b => .ite (fun _ => ?_) fun _ => .pure hp
  refine .seq (keeps_observe _) fun asToken => .expect fun t ht hk => .pure ?_
  show (isIdentifier t.text && p.isNamed) = true
  rw [ht (.inl hk), hp, Bool.and_self]

theorem yields_slicePattern (h : Yields (fun p => p.isNamed = true) inner) :
    Yields (fun p => p.isNamed = true) (slicePattern inner) := by
  refine .seq (keeps_observe _) fun start => .seq (keeps_skip _) fun b =>
    .ite (fun _ => ?_) fun _ => ?_
  · exact .seq (keeps_markFrom _) fun m => .pure rfl
  · refine .bind (Q := fun items => ∀ i ∈ items, Pattern.ItemNamed i) ?_ fun items hitems =>
      .seq (keeps_markFrom _) fun m => .pure (Pattern.itemsNamed_iff.mpr hitems)
    refine .iterate (I := fun items => ∀ i ∈ items, Pattern.ItemNamed i) (by simp)
      fun items hitems => ?_
    have hend : ∀ item, Pattern.ItemNamed item → Yields (Round.Holds
        (fun items => ∀ i ∈ items, Pattern.ItemNamed i)
        fun items => ∀ i ∈ items, Pattern.ItemNamed i)
        (do if ← skip .comma then return .again (items ++ [item])
            else
              expect .rbracket ", or ]"
              return .done (items ++ [item])) := by
      intro item hitem
      refine .seq (keeps_skip _) fun b => .ite (fun _ => .pure (forall_mem_snoc hitems hitem))
        fun _ => ?_
      exact .seq (keeps_expect _ _) fun _ => .pure (forall_mem_snoc hitems hitem)
    refine .seq keeps_advance fun _ => .seq (keeps_observe _) fun t => ?_
    refine .seq (keeps_observe _) fun b => .ite (fun _ => ?_) fun _ => ?_
    · refine .seq (keeps_skip _) fun b => .ite (fun _ => ?_) fun _ => .bind (.pure trivial) hend
      exact .seq (keeps_observe _) fun name => .bind (.pure trivial) hend
    · exact .bind h fun p hp => .bind (.pure hp) hend

theorem yields_recordFields (h : Yields (fun p => p.isNamed = true) inner) :
    Yields (fun r => ∀ f ∈ r.1, f.2.isNamed = true) (recordFields inner) := by
  refine .iterate (I := fun fs => ∀ f ∈ fs, f.2.isNamed = true) (by simp) fun fs hfs => ?_
  refine .seq keeps_advance fun _ => .bind yields_current fun t ht => ?_
  have hend : ∀ p : Pattern, p.isNamed = true → Yields (Round.Holds
      (fun fs => ∀ f ∈ fs, f.2.isNamed = true) fun r => ∀ f ∈ r.1, f.2.isNamed = true)
      (do if ← skip .comma then return .again (fs ++ [(t.text, p)])
          else
            expect .rbrace ", or \x7d"
            return .done (fs ++ [(t.text, p)], false)) := by
    intro p hp
    refine .seq (keeps_skip _) fun b => .ite (fun _ => .pure (forall_mem_snoc hfs hp)) fun _ => ?_
    exact .seq (keeps_expect _ _) fun _ => .pure (forall_mem_snoc hfs hp)
  split
  · exact .seq (keeps_expect _ _) fun _ => .pure hfs
  · rename_i hk
    refine .seq (keeps_skip _) fun b => .ite (fun _ => ?_) fun _ => ?_
    · exact .seq keeps_advance fun _ => .bind h hend
    · exact .bind (.pure (ht (.inl hk))) hend
  · exact yields_reject _ _ _ rfl

theorem yields_recordPattern (h : Yields (fun p => p.isNamed = true) inner) :
    Yields (fun p => p.isNamed = true) (recordPattern inner) := by
  refine .seq (keeps_observe _) fun start => .seq (keeps_skip _) fun b =>
    .ite (fun _ => ?_) fun _ => ?_
  · exact .seq (keeps_markFrom _) fun m => .pure rfl
  · refine .bind (yields_recordFields h) fun r hr => .seq (keeps_markFrom _) fun m => .pure ?_
    exact Pattern.fieldsNamed_iff.mpr hr

theorem yields_groupPattern (h : Yields (fun p => p.isNamed = true) inner) :
    Yields (fun p => p.isNamed = true) (groupPattern inner) := by
  refine .seq (keeps_observe _) fun start => .seq (keeps_skip _) fun b =>
    .ite (fun _ => ?_) fun _ => ?_
  · exact .seq (keeps_markFrom _) fun m => .pure rfl
  · refine .bind (h.commaList _ _) fun ps hps => ?_
    split
    · exact .pure (hps _ (List.mem_singleton_self _))
    · exact .seq (keeps_markFrom _) fun m => .pure (Pattern.allNamed_iff.mpr hps)

theorem yields_activePattern (h : Yields (fun p => p.isNamed = true) primary) :
    Yields (fun p => p.isNamed = true) (activePattern primary) := by
  refine .seq (keeps_observe _) fun start => .bind yields_recognizerName fun r hr => ?_
  have hend : ∀ arg : Option Pattern, (∀ p, arg = some p → p.isNamed = true) →
      Yields (fun p : Pattern => p.isNamed = true)
        (do return Pattern.active (← markFrom start) r.1 r.2 arg) := by
    intro arg harg
    refine .seq (keeps_markFrom _) fun m => .pure ?_
    cases arg with
    | none =>
      show (isIdentifier r.1 && true) = true
      rw [hr, Bool.and_self]
    | some p =>
      show (isIdentifier r.1 && p.isNamed) = true
      rw [hr, harg p rfl, Bool.and_self]
  refine .seq (keeps_observe _) fun b => .ite (fun _ => ?_) fun _ => ?_
  · refine .seq keeps_advance fun _ => .bind h fun p hp => .bind (.pure ?_) hend
    rintro q ⟨⟩
    exact hp
  · exact .bind (.pure (by simp)) hend

/-- One pattern is named if the parsers it is written over yield named ones. -/
theorem yields_primaryBody (ha : Yields (fun p => p.isNamed = true) alternatives)
    (hp : Yields (fun p => p.isNamed = true) primary) :
    Yields (fun p => p.isNamed = true) (primaryBody alternatives primary) := by
  have hinner := yields_nestedPattern ha
  have hconstant : Yields (fun p => p.isNamed = true) (do
      let b ← bound
      if ← skipEither .dotDot .dotDotEq then rangeAfter b else return .literal b.mark b.value) := by
    refine .seq keeps_bound fun b => .seq (keeps_skipEither _ _) fun c => ?_
    exact .ite (fun _ => yields_rangeAfter b) fun _ => .pure rfl
  refine .bind yields_current fun t ht => ?_
  split
  · exact .pure rfl
  · rename_i hk
    have hname : isIdentifier t.text = true := ht (.inl hk)
    refine .seq (keeps_skip _) fun b => .ite (fun _ => ?_) fun _ => .pure hname
    refine .seq keeps_advance fun _ => .bind hp fun p hp => .seq (keeps_markFrom _) fun m =>
      .pure ?_
    show (isIdentifier t.text && p.isNamed) = true
    rw [hname, hp, Bool.and_self]
  iterate 6 exact hconstant
  · exact yields_rangeBefore
  · exact yields_rangeBefore
  · rename_i hk
    have hname : isIdentifier t.text = true := ht (.inr hk)
    refine .seq (keeps_skip _) fun b => .branch (fun _ => hinner.commaListOrNone _ _)
      (fun _ => .pure (by simp)) fun ps hps => .seq (keeps_markFrom _) fun m => .pure ?_
    show (isIdentifier t.text && Pattern.allNamed ps) = true
    rw [hname, Pattern.allNamed_iff.mpr hps, Bool.and_self]
  · refine .seq (keeps_observe _) fun b => ?_
    exact .ite (fun _ => yields_activePattern hp) fun _ => yields_groupPattern hinner
  · exact yields_slicePattern hinner
  · exact yields_recordPattern hinner
  · exact .pure rfl
  · exact yields_rejectEnd _ _
  · exact yields_reject _ _ _ rfl

theorem yields_alternativesBody (hp : Yields (fun p => p.isNamed = true) primary) :
    Yields (fun p => p.isNamed = true) (alternativesBody primary) := by
  refine .bind hp fun first hfirst => .seq (keeps_observe _) fun bar =>
    .ite (fun _ => ?_) fun _ => ?_
  · refine .bind (Q := fun ps => ps ≠ [] ∧ ∀ p ∈ ps, p.isNamed = true) ?_ fun ps hps =>
      .seq (keeps_observe _) fun last => .pure ?_
    · refine .iterate (I := fun ps => ps ≠ [] ∧ ∀ p ∈ ps, p.isNamed = true)
        ⟨List.cons_ne_nil _ _, by simpa using hfirst⟩ fun ps hps => ?_
      refine .seq (keeps_skip _) fun b => .ite (fun _ => ?_) fun _ => .pure hps
      refine .seq keeps_advance fun _ => .bind hp fun p hp => .pure ?_
      exact ⟨by simp, forall_mem_snoc hps.2 hp⟩
    · show (!ps.isEmpty && Pattern.allNamed ps) = true
      rw [Pattern.allNamed_iff.mpr hps.2]
      simpa using hps.1
  · exact .pure hfirst

/-- **Patterns are named**, at any level of nesting. -/
theorem yields_pattern (room : Nat) : Yields (fun p => p.isNamed = true) (primaryWithin room) ∧
    Yields (fun p => p.isNamed = true) (orWithin room) := by
  induction room with
  | zero => exact ⟨yields_tooDeep, yields_tooDeep⟩
  | succ room ih =>
    exact ⟨(yields_primaryBody ih.2 ih.1).nested, (yields_alternativesBody ih.1).nested⟩

/-! ### Expressions -/

section Expressions

variable {expr : Nat → Parser Expr} {pattern : Parser Pattern}

theorem yields_exprList (h : ∀ n, Yields Expr.Named (expr n)) (close : TokenKind) :
    Yields (fun es => ∀ e ∈ es, e.Named) (exprList expr close) :=
  (h _).commaListOrNone _ _

theorem yields_constructor (h : ∀ n, Yields Expr.Named (expr n)) :
    Yields Expr.Named (constructor expr) := by
  refine .seq (keeps_observe _) fun t => .seq (keeps_observe _) fun n => ?_
  have hend : ∀ es : List Expr, (∀ e ∈ es, e.Named) →
      Yields Expr.Named (do return .construct (← markFrom t) t.text es) :=
    fun es hes => .seq (keeps_markFrom _) fun m => .pure (Expr.Named.list hes)
  refine .ite (fun _ => ?_) fun _ => ?_
  · exact .seq keeps_advance fun _ => .bind (yields_exprList h _) hend
  · exact .bind (.pure (by simp)) hend

theorem yields_group (h : ∀ n, Yields Expr.Named (expr n)) : Yields Expr.Named (group expr) := by
  refine .seq (keeps_observe _) fun start => .seq (keeps_skip _) fun b =>
    .ite (fun _ => ?_) fun _ => ?_
  · exact .seq (keeps_markFrom _) fun m => .pure (by simp [Expr.Named, Expr.allMatches])
  · refine .bind (yields_exprList h _) fun es hes => ?_
    split
    · exact .pure (hes _ (List.mem_singleton_self _))
    · exact .seq (keeps_markFrom _) fun m => .pure (Expr.Named.list hes)

theorem yields_recordLiteral (h : ∀ n, Yields Expr.Named (expr n)) :
    Yields Expr.Named (recordLiteral expr) := by
  refine .seq (keeps_observe _) fun start => .bind (Q := fun fs => ∀ f ∈ fs, f.2.Named) ?_
    fun fs hfs => .seq (keeps_expect _ _) fun _ => .seq (keeps_markFrom _) fun m =>
      .pure (Expr.Named.fields hfs)
  refine .iterate (I := fun fs => ∀ f ∈ fs, f.2.Named) (by simp) fun fs hfs => ?_
  refine .seq (keeps_expect _ _) fun _ => .seq (keeps_observe _) fun name => ?_
  refine .seq (keeps_expect _ _) fun _ => .seq keeps_advance fun _ => .bind (h _) fun e he => ?_
  have hmore := forall_mem_snoc (P := fun f : String × Expr => f.2.Named) hfs
    (x := (name.text, e)) he
  refine .seq (keeps_skip _) fun b => .ite (fun _ => ?_) fun _ => .pure hmore
  exact .seq (keeps_observe _) fun b => .ite (fun _ => .pure hmore) fun _ => .pure hmore

/-- The bindings and the result of a block that are named. -/
def BlockNamed (b : List (String × Expr) × Option Expr) : Prop :=
  (∀ f ∈ b.1, f.2.Named) ∧ ∀ e, b.2 = some e → e.Named

theorem yields_blockBody (h : ∀ n, Yields Expr.Named (expr n)) :
    Yields BlockNamed (blockBody expr) := by
  refine .iterate (I := fun fs => ∀ f ∈ fs, f.2.Named) (by simp) fun fs hfs => ?_
  refine .seq (keeps_skip _) fun b => .ite (fun _ => .pure ⟨hfs, by simp⟩) fun _ => ?_
  refine .seq keeps_advance fun _ => .seq (keeps_observe _) fun b => .ite (fun _ => ?_) fun _ => ?_
  · refine .seq (keeps_expect _ _) fun _ => .seq (keeps_observe _) fun name => ?_
    refine .seq (keeps_expect _ _) fun _ => .seq keeps_advance fun _ => .bind (h _) fun e he => ?_
    exact .seq (keeps_skip _) fun _ => .pure (forall_mem_snoc hfs he)
  · refine .bind (h _) fun e he => .seq (keeps_skip _) fun _ => .seq (keeps_expect _ _) fun _ => ?_
    refine .pure ⟨hfs, ?_⟩
    rintro e' ⟨⟩
    exact he

theorem yields_recordOrBlock (h : ∀ n, Yields Expr.Named (expr n)) :
    Yields Expr.Named (recordOrBlock expr) := by
  refine .seq (keeps_observe _) fun start => .seq (keeps_observe _) fun b => ?_
  refine .ite (fun _ => yields_recordLiteral h) fun _ => .bind (yields_blockBody h) fun r hr => ?_
  refine .seq (keeps_markFrom _) fun m => .pure ?_
  exact List.forall_mem_append.mpr ⟨Expr.Named.fields hr.1, Expr.Named.option hr.2⟩

theorem yields_conditional (h : ∀ n, Yields Expr.Named (expr n)) :
    Yields Expr.Named (conditional expr) := by
  refine .seq (keeps_observe _) fun start => .seq keeps_advance fun _ => .bind (h _) fun c hc => ?_
  refine .seq (keeps_expect _ _) fun _ => .seq keeps_advance fun _ => .bind (h _) fun y hy => ?_
  have hend : ∀ n : Option Expr, (∀ e, n = some e → e.Named) →
      Yields Expr.Named (do return .cond (← markFrom start) c y n) := by
    intro n hn
    refine .seq (keeps_markFrom _) fun m => .pure ?_
    have hcy := List.forall_mem_append.mpr ⟨hc, hy⟩
    exact List.forall_mem_append.mpr ⟨hcy, Expr.Named.option hn⟩
  refine .seq (keeps_skip _) fun b => .ite (fun _ => ?_) fun _ => .bind (.pure (by simp)) hend
  refine .seq keeps_advance fun _ => .bind (h _) fun e he => .bind (.pure ?_) hend
  rintro e' ⟨⟩
  exact he

theorem yields_performance (h : ∀ n, Yields Expr.Named (expr n)) :
    Yields Expr.Named (performance expr) := by
  refine .seq (keeps_observe _) fun start => .seq (keeps_expect _ _) fun _ => ?_
  refine .seq (keeps_observe _) fun effect => .seq (keeps_skip _) fun b => ?_
  refine .branch (fun _ => yields_exprList h _) (fun _ => .pure (by simp)) fun es hes => ?_
  exact .seq (keeps_markFrom _) fun m => .pure (Expr.Named.list hes)

/-! Matches -/

theorem yields_armHead (h : ∀ n, Yields Expr.Named (expr n)) :
    Yields (fun r => ∀ g, r.guard = some g → g.Named) (armHead expr) := by
  refine .iterate (I := fun r => ∀ g, r.guard = some g → g.Named) (by simp) fun r hr => ?_
  refine .seq (keeps_observe _) fun n => .ite (fun _ => ?_) fun _ => .ite (fun _ => ?_)
    fun _ => .pure hr
  · refine .seq keeps_advance fun _ => .seq (keeps_expect _ _) fun _ => ?_
    exact .seq (keeps_observe _) fun name => .pure hr
  · refine .seq keeps_advance fun _ => .seq keeps_advance fun _ => .bind (h _) fun g hg => .pure ?_
    rintro g' ⟨⟩
    exact hg

theorem yields_arm (h : ∀ n, Yields Expr.Named (expr n))
    (hp : Yields (fun p => p.isNamed = true) pattern) :
    Yields Expr.ArmNamed (arm expr pattern) := by
  refine .seq (keeps_observe _) fun bar => .seq keeps_advance fun _ => .bind hp fun p hp => ?_
  refine .bind (yields_armHead h) fun r hr => .seq (keeps_expect _ _) fun _ => ?_
  refine .seq keeps_advance fun _ => .bind (h _) fun body hbody => ?_
  exact .seq (keeps_spanFrom _) fun span => .pure ⟨hp, hr, hbody⟩

theorem yields_selection (h : ∀ n, Yields Expr.Named (expr n))
    (hp : Yields (fun p => p.isNamed = true) pattern) :
    Yields Expr.Named (selection expr pattern) := by
  refine .seq (keeps_observe _) fun start => .seq keeps_advance fun _ => .bind (h _) fun t ht => ?_
  refine .seq (keeps_expect _ _) fun _ => .seq (keeps_observe _) fun b => .ite (fun _ => ?_)
    fun _ => yields_rejectNext _
  refine .bind (Q := fun arms => ∀ a ∈ arms, Expr.ArmNamed a) ?_ fun arms harms =>
    .seq (keeps_markFrom _) fun m => .pure (Expr.Named.select ht harms)
  refine .iterate (I := fun arms => ∀ a ∈ arms, Expr.ArmNamed a) (by simp) fun arms harms => ?_
  refine .seq (keeps_skip _) fun b => .ite (fun _ => ?_) fun _ => .pure harms
  exact .bind (yields_arm h hp) fun a ha => .pure (forall_mem_snoc harms ha)

theorem yields_unaryWith (h : ∀ n, Yields Expr.Named (expr n)) (op : UnaryOp) :
    Yields Expr.Named (unaryWith expr op) := by
  refine .seq (keeps_observe _) fun t => .seq keeps_advance fun _ => .bind (h _) fun e he => ?_
  exact .seq (keeps_markFrom _) fun m => .pure he

theorem yields_atom (h : ∀ n, Yields Expr.Named (expr n))
    (hp : Yields (fun p => p.isNamed = true) pattern) : Yields Expr.Named (atom expr pattern) := by
  have hconstant : ∀ m l, (Expr.literal m l).Named := by simp [Expr.Named, Expr.allMatches]
  refine .seq (keeps_observe _) fun t => ?_
  split
  · exact .pure (by simp [Expr.Named, Expr.allMatches])
  · exact yields_constructor h
  iterate 5 exact .pure (hconstant _ _)
  · exact yields_unaryWith h _
  · exact yields_unaryWith h _
  · exact yields_group h
  · refine .bind (yields_exprList h _) fun es hes => ?_
    exact .seq (keeps_markFrom _) fun m => .pure (Expr.Named.list hes)
  · exact yields_recordOrBlock h
  · exact yields_conditional h
  · exact yields_selection h hp
  · exact yields_performance h
  · exact yields_rejectEnd _ _
  · exact yields_reject _ _ _ rfl

theorem yields_extended (h : ∀ n, Yields Expr.Named (expr n)) {left : Expr} (hl : left.Named) :
    Yields Expr.Named (extended expr left) := by
  refine .seq (keeps_observe _) fun t => ?_
  split
  · refine .bind (yields_exprList h _) fun es hes => .seq (keeps_observe _) fun last => .pure ?_
    exact List.forall_mem_append.mpr ⟨hl, Expr.Named.list hes⟩
  · refine .seq (keeps_expect _ _) fun _ => .seq (keeps_observe _) fun name => .pure ?_
    exact hl
  · split
    · refine .seq keeps_advance fun _ => .bind (h _) fun r hr => .pure ?_
      exact List.forall_mem_append.mpr ⟨hl, hr⟩
    · exact .fail

theorem yields_exprBody (h : ∀ n, Yields Expr.Named (expr n))
    (hp : Yields (fun p => p.isNamed = true) pattern) (precedence : Nat) :
    Yields Expr.Named (exprBody expr pattern precedence) := by
  refine .bind (yields_atom h hp) fun first hfirst => ?_
  refine .iterate (I := Expr.Named) hfirst fun left hleft => ?_
  refine .seq (keeps_observe _) fun t => .seq (keeps_observe _) fun n => ?_
  refine .seq (keeps_observe _) fun k => .ite (fun _ => ?_) fun _ => .pure hleft
  exact .seq keeps_advance fun _ => .bind (yields_extended h hleft) fun e he => .pure he

end Expressions

/-- **Expressions are named**, at any level of nesting. -/
theorem yields_exprWithin (room precedence : Nat) :
    Yields Expr.Named (exprWithin room precedence) := by
  induction room generalizing precedence with
  | zero => exact yields_tooDeep
  | succ room ih => exact (yields_exprBody ih (yields_pattern room).2 precedence).nested

theorem yields_expression : Yields Expr.Named expression :=
  .withRoom fun room => yields_exprWithin room _

/-! ### Declarations -/

theorem yields_param : Yields (fun p => Annotated p.ty) param := by
  refine .seq (keeps_expect _ _) fun _ => .seq (keeps_observe _) fun name => ?_
  refine .seq (keeps_skip _) fun b => .ite (fun _ => ?_) fun _ => .pure (by simp [Annotated])
  refine .seq keeps_advance fun _ => .bind yields_type fun t ht => .pure ?_
  rintro u ⟨⟩
  exact ht

theorem yields_params : Yields (fun ps => ∀ p ∈ ps, Annotated p.ty) params := by
  refine .seq (keeps_expect _ _) fun _ => .seq (keeps_skip _) fun b => ?_
  refine .ite (fun _ => .pure (by simp)) fun _ => ?_
  refine .iterate (I := fun ps => ∀ p ∈ ps, Annotated p.ty) (by simp) fun ps hps => ?_
  refine .bind yields_param fun p hp => .seq (keeps_skip _) fun b => ?_
  refine .ite (fun _ => .pure (forall_mem_snoc hps hp)) fun _ => ?_
  exact .seq (keeps_expect _ _) fun _ => .pure (forall_mem_snoc hps hp)

theorem yields_resultType : Yields Annotated resultType := by
  refine .seq (keeps_skip _) fun b => .ite (fun _ => ?_) fun _ => .pure (by simp [Annotated])
  refine .seq keeps_advance fun _ => .bind yields_type fun t ht => .pure ?_
  rintro u ⟨⟩
  exact ht

theorem yields_definition : Yields Expr.Named definition :=
  .seq (keeps_expect _ _) fun _ => .seq keeps_advance fun _ => yields_expression

theorem yields_function (start : Token) (isPublic : Bool) (annotations : List String) :
    Yields Function.Named (function start isPublic annotations) := by
  refine .seq (keeps_observe _) fun keyword => .seq (keeps_skipEither _ _) fun b =>
    .ite (fun _ => ?_) fun _ => yields_rejectNext _
  refine .seq (keeps_observe _) fun name => .bind yields_params fun ps hps => ?_
  refine .bind yields_resultType fun t ht => .bind yields_definition fun e he => ?_
  exact .seq (keeps_spanFrom _) fun span => .pure ⟨hps, ht, he⟩

theorem keeps_checkAnnotations (start : Token) (annotations : List String) :
    Keeps (checkAnnotations start annotations) := by
  induction annotations with
  | nil => exact .pure trivial
  | cons a as ih =>
    refine .ite (fun _ => ?_) fun _ => ih
    exact .seq (keeps_record _ _ _ rfl) fun _ => ih

theorem yields_recognizer (start : Token) (isPublic : Bool) (annotations : List String) :
    Yields Recognizer.Named (recognizer start isPublic annotations) := by
  refine .seq (keeps_observe _) fun keyword => .seq (keeps_checkAnnotations _ _) fun _ => ?_
  refine .seq (keeps_expect _ _) fun _ => .bind yields_recognizerName fun r _ => ?_
  refine .bind yields_params fun ps hps => .bind yields_resultType fun t ht => ?_
  refine .bind yields_definition fun e he => .seq (keeps_spanFrom _) fun span => .pure ?_
  exact ⟨hps, ht, he⟩

theorem keeps_annotationNames : Keeps annotationNames := by
  refine .iterate (I := fun _ => True) trivial fun names _ => ?_
  refine .seq (keeps_observe _) fun b => .ite (fun _ => ?_) fun _ => .pure trivial
  refine .seq (keeps_expect _ _) fun _ => .seq (keeps_observe _) fun name => ?_
  exact .seq keeps_advance fun _ => .pure trivial

theorem yields_declaration : Yields Decl.Named declaration := by
  refine .seq (keeps_observe _) fun start => .seq keeps_annotationNames fun annotations => ?_
  refine .seq (keeps_observe _) fun isPublic => ?_
  refine .optionally keeps_advance (.seq (keeps_observe _) fun t => ?_)
  split
  · exact .bind (yields_function _ _ _) fun f hf => .pure hf
  · exact .bind (yields_recognizer _ _ _) fun r hr => .pure hr
  · exact .bind (yields_typeDeclaration _ _) fun d hd => .pure hd
  · refine .ite (fun _ => yields_reject _ _ _ rfl) fun _ => .bind yields_expression fun e he => ?_
    exact .seq (keeps_markFrom _) fun m => .pure he

/-! ### Files -/

theorem keeps_synchronize : Keeps synchronize := by
  intro s hs
  refine ⟨⟨fun t ht => hs.tokens t ?_, hs.eof⟩, fun _ _ => trivial⟩
  exact List.mem_of_mem_tail (List.dropWhile_subset _ ht)

theorem named_step {s : State} (hs : s.Named) :
    (step s).2.Named ∧ ∀ d, (step s).1 = some d → d.Named := by
  have hdecl := yields_declaration s hs
  refine ⟨?_, hdecl.2⟩
  rw [step]
  dsimp only
  split
  · exact (keeps_advance _ hdecl.1).1
  · exact (keeps_synchronize _ hdecl.1).1

/-- The declarations that were read, also behind errors, are named. -/
theorem named_declarations (fuel : Nat) {s : State} (hs : s.Named) :
    ∀ d ∈ (declarations fuel s).1, d.Named := by
  induction fuel generalizing s with
  | zero => simp [declarations]
  | succ fuel ih =>
    rw [declarations]
    split
    · simp
    · have hstep := named_step hs
      intro d hd
      rcases List.mem_append.mp hd with hd | hd
      · exact hstep.2 d (Option.mem_toList.mp hd)
      · exact ih hstep.1 d hd

theorem named_path (fuel : Nat) {s : State} (hs : s.Named) : (path fuel s).2.Named := by
  induction fuel generalizing s with
  | zero => exact hs
  | succ fuel ih =>
    have hnext := (keeps_advance s hs).1
    rw [path]
    split
    · dsimp only
      split
      · exact ih (keeps_advance _ hnext).1
      · exact hnext
    · exact (yields_rejectNext (P := fun _ : Unit => True) _ s hs).1

theorem named_pathLine {s : State} (hs : s.Named) : (pathLine s).2.Named :=
  (keeps_advance _ (named_path _ hs)).1

theorem named_useLines (fuel : Nat) {s : State} (hs : s.Named) : (useLines fuel s).2.Named := by
  induction fuel generalizing s with
  | zero => exact hs
  | succ fuel ih =>
    rw [useLines]
    split
    · exact ih (named_pathLine hs)
    · exact hs

theorem named_program {s : State} (hs : s.Named) : ∀ d ∈ (program s).1.decls, d.Named := by
  rw [program]
  dsimp only
  split
  · exact named_declarations _ (named_useLines _ (named_pathLine hs))
  · exact named_declarations _ (named_useLines _ hs)

end Parser

/-- **Every tree that parsing a source gives is named.** -/
theorem named_parse (source : Text) : ∀ d ∈ (parse (lex source)).program.decls, d.Named :=
  Parser.named_program ⟨hasName_of_mem_lex source, rfl⟩

end PatternPlan.Surface
