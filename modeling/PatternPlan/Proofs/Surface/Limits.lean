import PatternPlan.Proofs.Diagnostic.Registered
import PatternPlan.Proofs.Source.Storable
import PatternPlan.Proofs.Surface.ParsedWritable

/-!
# The numbers of a tree

Whatever is wrong with a source, the places and constants in its tree come from its tokens, and so do
the places where something is reported: they keep to every limit that the tokens keep to.

* `Pattern.Meets`, `Expr.Meets`, `Decl.Meets` — trees that keep to the limits;
* `State.Meets` — states whose tokens and diagnostics do;
* `Respects` — the logic of parsers over such states;
* `respects_…` — each parsing function gives trees within the limits, if those that it is written over
  do;
* `meets_parse` — **every tree that parsing gives keeps to the limits, and everything it reports does**,
  unless the source is too long.
-/

namespace PatternPlan

/-- The place of a rest marker. -/
def SliceItem.place? {π : Type} : SliceItem π → Option Span
  | .element _ => none
  | .rest _ s => some s

namespace Surface

variable {L : Limits}

/-! ### Trees within limits -/

/-- A bound within the limits. -/
structure Bound.Meets (L : Limits) (b : Bound) : Prop where
  span : L.place b.mark.span
  value : b.value.Storable

namespace Pattern

/-- The patterns directly inside a pattern. -/
def parts : Pattern → List Pattern
  | wildcard _ | var _ _ | literal _ _ | range _ _ _ _ | regex _ _ => []
  | tuple _ ps | construct _ _ ps | or _ ps => ps
  | record _ fs _ => fs.map (·.2)
  | binding _ _ _ p => [p]
  | slice _ items => items.filterMap SliceItem.element?
  | active _ _ _ arg => arg.toList

/-- The constants of a pattern itself. -/
def bounds : Pattern → List Bound
  | literal m v => [⟨m, v⟩]
  | range _ start stop _ => start.toList ++ stop.toList
  | _ => []

/-- The places of a pattern itself: its own one, and those of its rest markers. -/
def places : Pattern → List Span
  | slice m items => m.span :: items.filterMap SliceItem.place?
  | p => [p.span]

/-- A pattern within the limits. -/
inductive Meets (L : Limits) : Pattern → Prop
  | mk {p : Pattern} (places : ∀ s ∈ p.places, L.place s) (bounds : ∀ b ∈ p.bounds, b.Meets L)
      (parts : ∀ q ∈ p.parts, Meets L q) : Meets L p

/-- A pattern without rest markers. -/
theorem Meets.plain {p : Pattern} (hplaces : p.places = [p.span]) (span : L.place p.span)
    (bounds : ∀ b ∈ p.bounds, b.Meets L) (parts : ∀ q ∈ p.parts, q.Meets L) : p.Meets L :=
  .mk (hplaces ▸ List.forall_mem_singleton.mpr span) bounds parts

/-- A pattern without rest markers and without constants of its own. -/
theorem Meets.node {p : Pattern} (hplaces : p.places = [p.span]) (hbounds : p.bounds = [])
    (span : L.place p.span) (parts : ∀ q ∈ p.parts, q.Meets L) : p.Meets L :=
  .plain hplaces span (by rw [hbounds]; simp) parts

theorem span_mem_places (p : Pattern) : p.span ∈ p.places := by
  cases p with
  | slice m items => exact List.mem_cons_self
  | _ => exact List.mem_singleton_self _

theorem Meets.span {p : Pattern} (h : p.Meets L) : L.place p.span := by
  cases h with
  | mk places _ _ => exact places _ p.span_mem_places

end Pattern

namespace Expr

/-- The expressions directly inside an expression. -/
def children : Expr → List Expr
  | ident _ _ | literal _ _ => []
  | construct _ _ es | perform _ _ es | tuple _ es | array _ es => es
  | call _ f es => f :: es
  | unary _ _ e | field _ e _ => [e]
  | binary _ _ l r => [l, r]
  | cond _ c y n => c :: y :: n.toList
  | select _ t arms => t :: arms.flatMap fun a => a.guard.toList ++ [a.body]
  | block _ lets r => lets.map (·.2) ++ r.toList
  | record _ fs => fs.map (·.2)

/-- The constant that an expression is. -/
def constant? : Expr → Option Literal
  | literal _ v => some v
  | _ => none

/-- The arms of a match. -/
def arms : Expr → List (Arm Pattern Expr)
  | select _ _ arms => arms
  | _ => []

end Expr

/-- An arm whose places and pattern are within the limits. -/
structure HeadMeets (L : Limits) (a : Arm Pattern Expr) : Prop where
  span : L.place a.span
  asName : ∀ n ∈ a.asName, L.place n.span
  pattern : a.pattern.Meets L

namespace Expr

/-- An expression within the limits. -/
inductive Meets (L : Limits) : Expr → Prop
  | mk {e : Expr} (span : L.place e.span) (constant : ∀ v ∈ e.constant?, v.Storable)
      (arms : ∀ a ∈ e.arms, HeadMeets L a) (count : e.arms.length ≤ L.count)
      (children : ∀ c ∈ e.children, Meets L c) : Meets L e

/-- An expression that is neither a constant nor a match. -/
theorem Meets.node {e : Expr} (hconstant : e.constant? = none) (harms : e.arms = [])
    (span : L.place e.span) (children : ∀ c ∈ e.children, c.Meets L) : e.Meets L :=
  .mk span (by rw [hconstant]; simp) (by rw [harms]; simp) (by rw [harms]; simp) children

theorem Meets.constant {m : Mark} {v : Literal} (span : L.place m.span) (value : v.Storable) :
    (literal m v).Meets L := by
  refine .mk span ?_ (List.forall_mem_nil _) (Nat.zero_le _) (List.forall_mem_nil _)
  intro w hw
  cases hw
  exact value

theorem Meets.span {e : Expr} (h : e.Meets L) : L.place e.span := by
  cases h with
  | mk span _ _ _ _ => exact span

end Expr

/-- A declaration within the limits. -/
structure Decl.Meets (L : Limits) (d : Decl) : Prop where
  span : L.place d.mark.span
  body : ∀ e ∈ d.body?, e.Meets L

theorem Decl.Meets.of_body {d : Decl} {e : Expr} (hd : d.body? = some e) (span : L.place d.mark.span)
    (body : e.Meets L) : d.Meets L := by
  refine ⟨span, fun x hx => ?_⟩
  cases hd.symm.trans hx
  exact body

/-! ### The logic -/

/-- The tokens of a state and what is recorded in it are within the limits. -/
structure State.Meets (L : Limits) (s : State) : Prop where
  tokens : ∀ t ∈ s.tokens, t.Meets L
  eof : s.eof.Meets L
  count : s.tokens.length < L.count
  errors : ∀ d ∈ s.errors, d.Registered L.place
  stages : ∀ d ∈ s.errors, d.code.stage = .parser

instance : Invariant (State.Meets L) (Token.Meets L) where
  suffix hs htokens heof herrors :=
    ⟨fun t ht => hs.tokens t (htokens.subset ht), heof.symm ▸ hs.eof,
      Nat.lt_of_le_of_lt htokens.length_le hs.count, herrors.symm ▸ hs.errors,
      herrors.symm ▸ hs.stages⟩
  tokens hs := hs.tokens
  eof hs := hs.eof
  record hs ht hcode args := ⟨hs.tokens, hs.eof, hs.count,
    Parser.forall_mem_snoc hs.errors (Diagnostic.registered_new ht.span _ args),
    Parser.forall_mem_snoc hs.stages hcode⟩

namespace Parser

/-- Whatever `p` returns satisfies `P`, over states within the limits. -/
abbrev Respects (L : Limits) {α : Type} (P : α → Prop) (p : Parser α) : Prop :=
  Ensures (State.Meets L) P p

theorem respects_current : Respects L (Token.Meets L) current := ensures_current

theorem respects_spanFrom {start : Token} (h : start.Meets L) :
    Respects L L.place (spanFrom start) :=
  .observe fun _ hs => L.join h.span (Invariant.drop hs 0).span

theorem respects_markFrom {start : Token} (h : start.Meets L) :
    Respects L (fun m => L.place m.span) (markFrom start) :=
  .bind (respects_spanFrom h) fun _ hspan => .pure hspan

/-! ### Types

Nothing of a type is stored, and so it is enough that the invariant stays. -/

section Types

variable {I : State → Prop} {T : Token → Prop} [Invariant I T]

include T

theorem maintains_typeBody {inner : Parser TypeExpr} (h : Maintains I inner) :
    Maintains I (typeBody inner) := by
  have hmark : ∀ (start : Token) (f : Mark → TypeExpr),
      Maintains I (markFrom start >>= fun m => pure (f m)) :=
    fun start f => .seq (maintains_markFrom start) fun _ => .pure trivial
  refine .bind ensures_current fun start hstart => ?_
  split
  · refine .seq (maintains_skip _) fun b => ?_
    exact .branch (fun _ => h.commaList _ _) (fun _ => .pure (by simp)) fun _ _ => hmark _ _
  · refine .bind (h.commaListOrNone _ _) fun ts _ => ?_
    split
    · exact .pure trivial
    · exact hmark _ _
  · refine .seq maintains_advance fun _ => .seq h fun t => ?_
    exact .seq (maintains_expect _ _) fun _ => hmark _ _
  · exact ensures_reject hstart _ _ rfl

theorem maintains_type : Maintains I type := by
  have hwithin : ∀ fuel, Maintains I (typeWithin fuel) := by
    intro fuel
    induction fuel with
    | zero => exact .fail
    | succ fuel ih => exact maintains_typeBody ih
  exact fun s hs => hwithin (s.tokens.length + 1) s hs

theorem maintains_recordTypeFields : Maintains I recordTypeFields := by
  refine .iterate (R := fun _ => True) trivial fun fs _ => ?_
  refine .seq (maintains_observe _) fun b => .ite (fun _ => .pure trivial) fun _ => ?_
  refine .seq (maintains_expect _ _) fun _ => .seq (maintains_observe _) fun name => ?_
  refine .seq (maintains_expect _ _) fun _ => .seq maintains_advance fun _ => ?_
  refine .seq maintains_type fun t => .seq (maintains_skip _) fun b => ?_
  exact .ite (fun _ => .pure trivial) fun _ => .pure trivial

theorem maintains_variants : Maintains I variants := by
  refine .iterate (R := fun _ => True) trivial fun vs _ => ?_
  refine .seq (maintains_expect _ _) fun _ => .seq (maintains_observe _) fun name => ?_
  refine .seq (maintains_skip _) fun b => .branch (fun _ => maintains_type.commaList _ _)
    (fun _ => .pure (by simp)) fun ts _ => .seq (maintains_skip _) fun b => ?_
  exact .ite (fun _ => .pure trivial) fun _ => .pure trivial

theorem maintains_param : Maintains I param := by
  refine .seq (maintains_expect _ _) fun _ => .seq (maintains_observe _) fun name => ?_
  refine .seq (maintains_skip _) fun b => .ite (fun _ => ?_) fun _ => .pure trivial
  exact .seq maintains_advance fun _ => .seq maintains_type fun t => .pure trivial

theorem maintains_params : Maintains I params := by
  refine .seq (maintains_expect _ _) fun _ => .seq (maintains_skip _) fun b => ?_
  refine .ite (fun _ => .pure trivial) fun _ => ?_
  refine .iterate (R := fun _ => True) trivial fun ps _ => ?_
  refine .seq maintains_param fun p => .seq (maintains_skip _) fun b => ?_
  refine .ite (fun _ => .pure trivial) fun _ => ?_
  exact .seq (maintains_expect _ _) fun _ => .pure trivial

theorem maintains_resultType : Maintains I resultType := by
  refine .seq (maintains_skip _) fun b => .ite (fun _ => ?_) fun _ => .pure trivial
  exact .seq maintains_advance fun _ => .seq maintains_type fun t => .pure trivial

theorem maintains_recognizerName : Maintains I recognizerName := by
  refine .seq (maintains_expect _ _) fun _ => .seq (maintains_expect _ _) fun _ => ?_
  refine .seq (maintains_observe _) fun t => .seq (maintains_expect _ _) fun _ => ?_
  have hend : ∀ kind : RecognizerKind, Maintains I
      (do expect .rparen ")"
          return (t.text, kind)) :=
    fun kind => .seq (maintains_expect _ _) fun _ => .pure trivial
  refine .seq (maintains_skip _) fun b => .ite (fun _ => ?_) fun _ => ?_
  · exact .seq (maintains_expect _ _) fun _ => .seq (.pure trivial) hend
  · exact .seq (.pure trivial) hend

theorem maintains_annotationNames : Maintains I annotationNames := by
  refine .iterate (R := fun _ => True) trivial fun names _ => ?_
  refine .seq (maintains_observe _) fun b => .ite (fun _ => ?_) fun _ => .pure trivial
  refine .seq (maintains_expect _ _) fun _ => .seq (maintains_observe _) fun name => ?_
  exact .seq maintains_advance fun _ => .pure trivial

theorem maintains_checkAnnotations {start : Token} (h : T start) (annotations : List String) :
    Maintains I (checkAnnotations start annotations) := by
  induction annotations with
  | nil => exact .pure trivial
  | cons a as ih =>
    refine .ite (fun _ => ?_) fun _ => ih
    exact .seq (maintains_record h _ _ rfl) fun _ => ih

end Types

/-! ### Patterns -/

theorem respects_bound : Respects L (Bound.Meets L) bound := by
  refine .bind respects_current fun t ht => ?_
  have hone : t.kind ∈ TokenKind.constants →
      Bound.Meets L ⟨⟨t, t.span⟩, t.value.getD .unit⟩ := fun hk => ⟨ht.span, ht.constant hk⟩
  split
  iterate 5 exact .pure (hone (by rw [‹t.kind = _›]; decide))
  · refine .bind ensures_next fun n hn => .ite (fun hnumber => ?_) fun _ => ensures_rejectNext _
    have hk : n.kind ∈ TokenKind.constants := by
      have hnumbers : n.kind = .int ∨ n.kind = .float := by simpa using hnumber
      rcases hnumbers with hk | hk <;> rw [hk] <;> decide
    refine .seq maintains_advance fun _ => .bind (respects_markFrom ht) fun m hm => .pure ?_
    exact ⟨hm, (negated_signed (hn.sound.constant hk).1).storable⟩
  · exact ensures_reject ht _ _ rfl

theorem respects_rangeAfter {start : Bound} (hstart : start.Meets L) :
    Respects L (Pattern.Meets L) (rangeAfter start) := by
  refine .bind respects_current fun op hop => .seq (maintains_observe _) fun b =>
    .ite (fun _ => ?_) fun _ => ?_
  · refine .seq maintains_advance fun _ => .bind respects_bound fun stop hstop => ?_
    refine .bind respects_current fun last hlast => .pure (.plain rfl (L.join hstart.span hlast.span) ?_ (List.forall_mem_nil _))
    simpa [Pattern.bounds] using ⟨hstart, hstop⟩
  · refine .ite (fun _ => ensures_rejectNext _) fun _ => .pure ?_
    refine .plain rfl (L.join hstart.span hop.span) ?_ (List.forall_mem_nil _)
    simpa [Pattern.bounds] using hstart

/-- A parser that returns whether another one gives up, in place of giving up. -/
theorem Ensures.attempt {α : Type} {I : State → Prop} {P : α → Prop} {p : Parser α}
    {q : Parser (Option α)} (h : Ensures I P p) (hrun : ∀ s, q s = (some (p s).1, (p s).2)) :
    Ensures I (fun o => ∀ a ∈ o, P a) q := by
  intro s hs
  rw [hrun s]
  refine ⟨(h s hs).1, fun o ho => ?_⟩
  cases ho
  exact (h s hs).2

theorem respects_rangeBefore : Respects L (Pattern.Meets L) rangeBefore := by
  refine .bind respects_current fun op hop => .seq (maintains_observe _) fun b =>
    .ite (fun _ => ?_) fun _ => ensures_rejectNext _
  refine .seq maintains_advance fun _ => .bind (respects_bound.attempt ?_) fun stop hstop => ?_
  · intro s
    rcases bound s with ⟨_ | b, s'⟩ <;> rfl
  · refine .bind (respects_markFrom hop) fun m hm => .pure (.plain rfl hm ?_ (List.forall_mem_nil _))
    simpa [Pattern.bounds] using hstop

section Patterns

variable {alternatives primary inner : Parser Pattern}

theorem respects_nestedPattern (h : Respects L (Pattern.Meets L) alternatives) :
    Respects L (Pattern.Meets L) (nestedPattern alternatives) := by
  refine .bind h fun p hp => .iterate hp fun p hp => ?_
  refine .seq (maintains_skip _) fun b => .ite (fun _ => ?_) fun _ => .pure hp
  refine .seq (maintains_observe _) fun asToken => .seq (maintains_expect _ _) fun _ => ?_
  refine .bind respects_current fun name hname => .pure (.node rfl rfl (L.join hp.span hname.span) ?_)
  exact List.forall_mem_singleton.mpr hp

/-- Items of a slice within the limits. -/
structure ItemsMeet (L : Limits) (items : List (SliceItem Pattern)) : Prop where
  elements : ∀ p ∈ items.filterMap SliceItem.element?, p.Meets L
  rests : ∀ s ∈ items.filterMap SliceItem.place?, L.place s

theorem itemsMeet_nil : ItemsMeet L [] := ⟨List.forall_mem_nil _, List.forall_mem_nil _⟩

theorem ItemsMeet.append {items more : List (SliceItem Pattern)} (h : ItemsMeet L items)
    (hmore : ItemsMeet L more) : ItemsMeet L (items ++ more) := by
  constructor
  · rw [List.filterMap_append]
    exact List.forall_mem_append.mpr ⟨h.elements, hmore.elements⟩
  · rw [List.filterMap_append]
    exact List.forall_mem_append.mpr ⟨h.rests, hmore.rests⟩

theorem itemsMeet_element {p : Pattern} (h : p.Meets L) : ItemsMeet L [.element p] :=
  ⟨List.forall_mem_singleton.mpr h, List.forall_mem_nil _⟩

theorem itemsMeet_rest {span : Span} (h : L.place span) (name : String) :
    ItemsMeet L [.rest name span] :=
  ⟨List.forall_mem_nil _, List.forall_mem_singleton.mpr h⟩

theorem respects_slicePattern (h : Respects L (Pattern.Meets L) inner) :
    Respects L (Pattern.Meets L) (slicePattern inner) := by
  have hslice : ∀ {m : Mark} {items : List (SliceItem Pattern)}, L.place m.span →
      ItemsMeet L items → (Pattern.slice m items).Meets L := fun hm hitems =>
    .mk (List.forall_mem_cons.mpr ⟨hm, hitems.rests⟩) (List.forall_mem_nil _) hitems.elements
  refine .bind respects_current fun start hstart => .seq (maintains_skip _) fun b =>
    .ite (fun _ => ?_) fun _ => ?_
  · exact .bind (respects_markFrom hstart) fun m hm => .pure (hslice hm itemsMeet_nil)
  refine .bind (Q := ItemsMeet L) ?_ fun items hitems =>
    .bind (respects_markFrom hstart) fun m hm => .pure (hslice hm hitems)
  refine .iterate (R := ItemsMeet L) itemsMeet_nil fun items hitems => ?_
  have hend : ∀ item : SliceItem Pattern, ItemsMeet L [item] →
      Respects L (Round.Holds (ItemsMeet L) (ItemsMeet L))
        (do if ← skip .comma then return .again (items ++ [item])
            else
              expect .rbracket ", or ]"
              return .done (items ++ [item])) := by
    intro item hitem
    refine .seq (maintains_skip _) fun b => .ite (fun _ => .pure (hitems.append hitem)) fun _ => ?_
    exact .seq (maintains_expect _ _) fun _ => .pure (hitems.append hitem)
  refine .seq maintains_advance fun _ => .bind respects_current fun t ht => ?_
  have hrest : ∀ n, ItemsMeet L [.rest n t.span] := itemsMeet_rest ht.span
  refine .seq (maintains_observe _) fun b => .ite (fun _ => ?_) fun _ => ?_
  · refine .seq (maintains_skip _) fun b => .ite (fun _ => ?_) fun _ => .bind (.pure (hrest _)) hend
    exact .seq (maintains_observe _) fun name => .bind (.pure (hrest _)) hend
  · exact .bind h fun p hp => .bind (.pure (itemsMeet_element hp)) hend

theorem respects_recordFields (h : Respects L (Pattern.Meets L) inner) :
    Respects L (fun r => ∀ f ∈ r.1, f.2.Meets L) (recordFields inner) := by
  refine .iterate (R := fun fs => ∀ f ∈ fs, f.2.Meets L) (by simp) fun fs hfs => ?_
  refine .seq maintains_advance fun _ => .bind respects_current fun t ht => ?_
  have hend : ∀ p : Pattern, p.Meets L → Respects L (Round.Holds
      (fun fs => ∀ f ∈ fs, f.2.Meets L) fun r => ∀ f ∈ r.1, f.2.Meets L)
      (do if ← skip .comma then return .again (fs ++ [(t.text, p)])
          else
            expect .rbrace ", or \x7d"
            return .done (fs ++ [(t.text, p)], false)) := by
    intro p hp
    refine .seq (maintains_skip _) fun b => .ite (fun _ => .pure (forall_mem_snoc hfs hp)) fun _ => ?_
    exact .seq (maintains_expect _ _) fun _ => .pure (forall_mem_snoc hfs hp)
  split
  · exact .seq (maintains_expect _ _) fun _ => .pure hfs
  · refine .seq (maintains_skip _) fun b => .ite (fun _ => ?_) fun _ => ?_
    · exact .seq maintains_advance fun _ => .bind h hend
    · exact .bind (.pure (.node rfl rfl ht.span (List.forall_mem_nil _))) hend
  · exact ensures_reject ht _ _ rfl

theorem respects_recordPattern (h : Respects L (Pattern.Meets L) inner) :
    Respects L (Pattern.Meets L) (recordPattern inner) := by
  refine .bind respects_current fun start hstart => .seq (maintains_skip _) fun b =>
    .ite (fun _ => ?_) fun _ => ?_
  · exact .bind (respects_markFrom hstart) fun m hm => .pure (.node rfl rfl hm (List.forall_mem_nil _))
  · refine .bind (respects_recordFields h) fun r hr => .bind (respects_markFrom hstart) fun m hm => ?_
    exact .pure (.node rfl rfl hm (List.forall_mem_map.mpr hr))

theorem respects_groupPattern (h : Respects L (Pattern.Meets L) inner) :
    Respects L (Pattern.Meets L) (groupPattern inner) := by
  refine .bind respects_current fun start hstart => .seq (maintains_skip _) fun b =>
    .ite (fun _ => ?_) fun _ => ?_
  · refine .bind (respects_markFrom hstart) fun m hm => .pure (.plain rfl hm ?_ (List.forall_mem_nil _))
    exact List.forall_mem_singleton.mpr ⟨hm, trivial⟩
  · refine .bind (h.commaList _ _) fun ps hps => ?_
    split
    · exact .pure (hps _ (List.mem_singleton_self _))
    · exact .bind (respects_markFrom hstart) fun m hm => .pure (.node rfl rfl hm hps)

theorem respects_activePattern (h : Respects L (Pattern.Meets L) primary) :
    Respects L (Pattern.Meets L) (activePattern primary) := by
  refine .bind respects_current fun start hstart => .seq maintains_recognizerName fun r => ?_
  have hend : ∀ arg : Option Pattern, (∀ p ∈ arg.toList, p.Meets L) →
      Respects L (Pattern.Meets L) (do return Pattern.active (← markFrom start) r.1 r.2 arg) :=
    fun arg harg => .bind (respects_markFrom hstart) fun m hm => .pure (.node rfl rfl hm harg)
  refine .seq (maintains_observe _) fun b => .ite (fun _ => ?_) fun _ => ?_
  · refine .seq maintains_advance fun _ => .bind h fun p hp => .bind (.pure ?_) hend
    exact List.forall_mem_singleton.mpr hp
  · exact .bind (.pure (List.forall_mem_nil _)) hend

/-- One pattern is storable if the parsers it is written over give storable ones. -/
theorem respects_primaryBody (ha : Respects L (Pattern.Meets L) alternatives)
    (hp : Respects L (Pattern.Meets L) primary) :
    Respects L (Pattern.Meets L) (primaryBody alternatives primary) := by
  have hinner := respects_nestedPattern ha
  have hconstant : Respects L (Pattern.Meets L) (do
      let b ← bound
      if ← skipEither .dotDot .dotDotEq then rangeAfter b else return .literal b.mark b.value) := by
    refine .bind respects_bound fun b hb => .seq (maintains_skipEither _ _) fun c => ?_
    refine .ite (fun _ => respects_rangeAfter hb) fun _ => .pure (.plain rfl hb.span ?_ (List.forall_mem_nil _))
    exact List.forall_mem_singleton.mpr hb
  refine .bind respects_current fun t ht => ?_
  split
  · exact .pure (.node rfl rfl ht.span (List.forall_mem_nil _))
  · refine .seq (maintains_skip _) fun b => .ite (fun _ => ?_) fun _ => .pure (.node rfl rfl ht.span (List.forall_mem_nil _))
    refine .seq maintains_advance fun _ => .bind hp fun p hp => ?_
    refine .bind (respects_markFrom ht) fun m hm => .pure (.node rfl rfl hm ?_)
    exact List.forall_mem_singleton.mpr hp
  iterate 6 exact hconstant
  · exact respects_rangeBefore
  · exact respects_rangeBefore
  · refine .seq (maintains_skip _) fun b => .branch (fun _ => hinner.commaListOrNone _ _)
      (fun _ => .pure (List.forall_mem_nil _)) fun ps hps => ?_
    exact .bind (respects_markFrom ht) fun m hm => .pure (.node rfl rfl hm hps)
  · refine .seq (maintains_observe _) fun b => ?_
    exact .ite (fun _ => respects_activePattern hp) fun _ => respects_groupPattern hinner
  · exact respects_slicePattern hinner
  · exact respects_recordPattern hinner
  · exact .pure (.node rfl rfl ht.span (List.forall_mem_nil _))
  · exact ensures_rejectEnd ht _
  · exact ensures_reject ht _ _ rfl

theorem respects_alternativesBody (hp : Respects L (Pattern.Meets L) primary) :
    Respects L (Pattern.Meets L) (alternativesBody primary) := by
  refine .bind hp fun first hfirst => .seq (maintains_observe _) fun bar =>
    .ite (fun _ => ?_) fun _ => .pure hfirst
  refine .bind (Q := fun ps => ∀ p ∈ ps, p.Meets L) ?_ fun ps hps =>
    .bind respects_current fun last hlast => .pure (.node rfl rfl (L.join hfirst.span hlast.span) hps)
  have hstart : ∀ p ∈ [first], p.Meets L := List.forall_mem_singleton.mpr hfirst
  refine .iterate (R := fun ps => ∀ p ∈ ps, p.Meets L) hstart fun ps hps => ?_
  refine .seq (maintains_skip _) fun b => .ite (fun _ => ?_) fun _ => .pure hps
  exact .seq maintains_advance fun _ => .bind hp fun p hp => .pure (forall_mem_snoc hps hp)

end Patterns

/-- **Patterns are storable**, at any level of nesting. -/
theorem respects_pattern (room : Nat) : Respects L (Pattern.Meets L) (primaryWithin room) ∧
    Respects L (Pattern.Meets L) (orWithin room) := by
  induction room with
  | zero => exact ⟨ensures_tooDeep, ensures_tooDeep⟩
  | succ room ih =>
    exact ⟨(respects_primaryBody ih.2 ih.1).nested, (respects_alternativesBody ih.1).nested⟩

/-! ### Expressions -/

section Expressions

variable {expr : Nat → Parser Expr} {pattern : Parser Pattern}

theorem respects_exprList (h : ∀ n, Respects L (Expr.Meets L) (expr n)) (close : TokenKind) :
    Respects L (fun es => ∀ e ∈ es, e.Meets L) (exprList expr close) :=
  (h _).commaListOrNone _ _

theorem respects_constructor (h : ∀ n, Respects L (Expr.Meets L) (expr n)) :
    Respects L (Expr.Meets L) (constructor expr) := by
  refine .bind respects_current fun t ht => .seq (maintains_observe _) fun n => ?_
  have hend : ∀ es : List Expr, (∀ e ∈ es, e.Meets L) →
      Respects L (Expr.Meets L) (do return .construct (← markFrom t) t.text es) :=
    fun es hes => .bind (respects_markFrom ht) fun m hm => .pure (.node rfl rfl hm hes)
  refine .ite (fun _ => ?_) fun _ => ?_
  · exact .seq maintains_advance fun _ => .bind (respects_exprList h _) hend
  · exact .bind (.pure (by simp)) hend

theorem respects_group (h : ∀ n, Respects L (Expr.Meets L) (expr n)) :
    Respects L (Expr.Meets L) (group expr) := by
  refine .bind respects_current fun start hstart => .seq (maintains_skip _) fun b =>
    .ite (fun _ => ?_) fun _ => ?_
  · exact .bind (respects_markFrom hstart) fun m hm => .pure (.constant hm trivial)
  · refine .bind (respects_exprList h _) fun es hes => ?_
    split
    · exact .pure (hes _ (List.mem_singleton_self _))
    · exact .bind (respects_markFrom hstart) fun m hm => .pure (.node rfl rfl hm hes)

theorem respects_recordLiteral (h : ∀ n, Respects L (Expr.Meets L) (expr n)) :
    Respects L (Expr.Meets L) (recordLiteral expr) := by
  refine .bind respects_current fun start hstart => .bind (Q := fun fs => ∀ f ∈ fs, f.2.Meets L) ?_
    fun fs hfs => .seq (maintains_expect _ _) fun _ => .bind (respects_markFrom hstart) fun m hm =>
      .pure (.node rfl rfl hm (List.forall_mem_map.mpr hfs))
  refine .iterate (R := fun fs => ∀ f ∈ fs, f.2.Meets L) (by simp) fun fs hfs => ?_
  refine .seq (maintains_expect _ _) fun _ => .seq (maintains_observe _) fun name => ?_
  refine .seq (maintains_expect _ _) fun _ => .seq maintains_advance fun _ => .bind (h _) fun e he => ?_
  have hmore := forall_mem_snoc (P := fun f : String × Expr => f.2.Meets L) hfs
    (x := (name.text, e)) he
  refine .seq (maintains_skip _) fun b => .ite (fun _ => ?_) fun _ => .pure hmore
  exact .seq (maintains_observe _) fun b => .ite (fun _ => .pure hmore) fun _ => .pure hmore

/-- The bindings and the result of a block whose numbers fit their words. -/
def BlockMeets (L : Limits) (b : List (String × Expr) × Option Expr) : Prop :=
  (∀ f ∈ b.1, f.2.Meets L) ∧ ∀ e ∈ b.2.toList, e.Meets L

theorem respects_blockBody (h : ∀ n, Respects L (Expr.Meets L) (expr n)) :
    Respects L (BlockMeets L) (blockBody expr) := by
  refine .iterate (R := fun fs => ∀ f ∈ fs, f.2.Meets L) (by simp) fun fs hfs => ?_
  refine .seq (maintains_skip _) fun b => .ite (fun _ => .pure ⟨hfs, List.forall_mem_nil _⟩)
    fun _ => ?_
  refine .seq maintains_advance fun _ => .seq (maintains_observe _) fun b =>
    .ite (fun _ => ?_) fun _ => ?_
  · refine .seq (maintains_expect _ _) fun _ => .seq (maintains_observe _) fun name => ?_
    refine .seq (maintains_expect _ _) fun _ => .seq maintains_advance fun _ => ?_
    exact .bind (h _) fun e he => .seq (maintains_skip _) fun _ => .pure (forall_mem_snoc hfs he)
  · refine .bind (h _) fun e he => .seq (maintains_skip _) fun _ => ?_
    exact .seq (maintains_expect _ _) fun _ => .pure ⟨hfs, List.forall_mem_singleton.mpr he⟩

theorem respects_recordOrBlock (h : ∀ n, Respects L (Expr.Meets L) (expr n)) :
    Respects L (Expr.Meets L) (recordOrBlock expr) := by
  refine .bind respects_current fun start hstart => .seq (maintains_observe _) fun b => ?_
  refine .ite (fun _ => respects_recordLiteral h) fun _ => .bind (respects_blockBody h) fun r hr => ?_
  refine .bind (respects_markFrom hstart) fun m hm => .pure (.node rfl rfl hm ?_)
  exact List.forall_mem_append.mpr ⟨List.forall_mem_map.mpr hr.1, hr.2⟩

theorem respects_conditional (h : ∀ n, Respects L (Expr.Meets L) (expr n)) :
    Respects L (Expr.Meets L) (conditional expr) := by
  refine .bind respects_current fun start hstart => .seq maintains_advance fun _ => ?_
  refine .bind (h _) fun c hc => .seq (maintains_expect _ _) fun _ => ?_
  refine .seq maintains_advance fun _ => .bind (h _) fun y hy => ?_
  have hend : ∀ n : Option Expr, (∀ e ∈ n.toList, e.Meets L) →
      Respects L (Expr.Meets L) (do return .cond (← markFrom start) c y n) := by
    intro n hn
    refine .bind (respects_markFrom hstart) fun m hm => .pure (.node rfl rfl hm ?_)
    exact List.forall_mem_cons.mpr ⟨hc, List.forall_mem_cons.mpr ⟨hy, hn⟩⟩
  refine .seq (maintains_skip _) fun b => .ite (fun _ => ?_)
    fun _ => .bind (.pure (List.forall_mem_nil _)) hend
  refine .seq maintains_advance fun _ => .bind (h _) fun e he => .bind (.pure ?_) hend
  exact List.forall_mem_singleton.mpr he

theorem respects_performance (h : ∀ n, Respects L (Expr.Meets L) (expr n)) :
    Respects L (Expr.Meets L) (performance expr) := by
  refine .bind respects_current fun start hstart => .seq (maintains_expect _ _) fun _ => ?_
  refine .seq (maintains_observe _) fun effect => .seq (maintains_skip _) fun b => ?_
  refine .branch (fun _ => respects_exprList h _) (fun _ => .pure (by simp)) fun es hes => ?_
  exact .bind (respects_markFrom hstart) fun m hm => .pure (.node rfl rfl hm hes)

/-! Matches -/

/-- What stands between a pattern and its arrow, within the limits. -/
structure ArmHead.Meets (L : Limits) (r : ArmHead) : Prop where
  asName : ∀ n ∈ r.asName, L.place n.span
  guard : ∀ g ∈ r.guard.toList, g.Meets L

theorem respects_armHead (h : ∀ n, Respects L (Expr.Meets L) (expr n)) :
    Respects L (ArmHead.Meets L) (armHead expr) := by
  refine .iterate (R := ArmHead.Meets L) ⟨nofun, List.forall_mem_nil _⟩ fun r hr => ?_
  refine .seq (maintains_observe _) fun n => .ite (fun _ => ?_) fun _ => .ite (fun _ => ?_)
    fun _ => .pure hr
  · refine .seq maintains_advance fun _ => .seq (maintains_expect _ _) fun _ => ?_
    refine .bind respects_current fun name hname => .pure ⟨?_, hr.guard⟩
    intro a ha
    cases ha
    exact hname.span
  · refine .seq maintains_advance fun _ => .seq maintains_advance fun _ => .bind (h _) fun g hg => ?_
    exact .pure ⟨hr.asName, List.forall_mem_singleton.mpr hg⟩

/-- An arm within the limits. -/
structure ArmMeets (L : Limits) (a : Arm Pattern Expr) : Prop extends HeadMeets L a where
  inside : ∀ e ∈ a.guard.toList ++ [a.body], e.Meets L

theorem respects_arm (h : ∀ n, Respects L (Expr.Meets L) (expr n))
    (hp : Respects L (Pattern.Meets L) pattern) : Respects L (ArmMeets L) (arm expr pattern) := by
  refine .bind respects_current fun bar hbar => .seq maintains_advance fun _ => .bind hp fun p hp => ?_
  refine .bind (respects_armHead h) fun r hr => .seq (maintains_expect _ _) fun _ => ?_
  refine .seq maintains_advance fun _ => .bind (h _) fun body hbody => ?_
  refine .bind (respects_spanFrom hbar) fun span hspan => .pure ⟨⟨hspan, hr.asName, hp⟩, ?_⟩
  exact forall_mem_snoc hr.guard hbody

theorem respects_selection (h : ∀ n, Respects L (Expr.Meets L) (expr n))
    (hp : Respects L (Pattern.Meets L) pattern) :
    Respects L (Expr.Meets L) (selection expr pattern) := by
  refine .bind respects_current fun start hstart => .seq maintains_advance fun _ => ?_
  refine .bind (h _) fun t ht => .seq (maintains_expect _ _) fun _ => ?_
  refine .seq (maintains_observe _) fun b => .ite (fun _ => ?_) fun _ => ensures_rejectNext _
  refine .bind (Q := fun arms => arms.length ≤ L.count ∧ ∀ a ∈ arms, ArmMeets L a) ?_
    fun arms harms => .bind (respects_markFrom hstart) fun m hm => .pure ?_
  · -- the arms so far and the rounds left are no more than the tokens at the start
    intro s hs
    refine Ensures.loop (R := fun n arms => arms.length + n ≤ L.count ∧ ∀ a ∈ arms, ArmMeets L a)
      (fun n arms harms => ?_) (s.tokens.length + 1) ⟨?_, List.forall_mem_nil _⟩ s hs
    · refine .seq (maintains_skip _) fun b => .ite (fun _ => ?_) fun _ => .pure ⟨by omega, harms.2⟩
      refine .bind (respects_arm h hp) fun a ha => .pure ⟨?_, forall_mem_snoc harms.2 ha⟩
      have hlength : (arms ++ [a]).length = arms.length + 1 := List.length_append
      omega
    · have hcount := hs.count
      show 0 + (s.tokens.length + 1) ≤ L.count
      omega
  · refine .mk hm (by simp [Expr.constant?]) (fun a ha => (harms.2 a ha).toHeadMeets) harms.1 ?_
    refine List.forall_mem_cons.mpr ⟨ht, fun e he => ?_⟩
    obtain ⟨a, ha, he⟩ := List.mem_flatMap.mp he
    exact (harms.2 a ha).inside e he

theorem respects_unaryWith (h : ∀ n, Respects L (Expr.Meets L) (expr n)) (op : UnaryOp) :
    Respects L (Expr.Meets L) (unaryWith expr op) := by
  refine .bind respects_current fun t ht => .seq maintains_advance fun _ => .bind (h _) fun e he => ?_
  refine .bind (respects_markFrom ht) fun m hm => .pure (.node rfl rfl hm ?_)
  exact List.forall_mem_singleton.mpr he

theorem respects_atom (h : ∀ n, Respects L (Expr.Meets L) (expr n)) (hp : Respects L (Pattern.Meets L) pattern) :
    Respects L (Expr.Meets L) (atom expr pattern) := by
  refine .bind respects_current fun t ht => ?_
  have hconstant : t.kind ∈ TokenKind.constants →
      (Expr.literal ⟨t, t.span⟩ (t.value.getD .unit)).Meets L :=
    fun hk => .constant ht.span (ht.constant hk)
  split
  · exact .pure (.node rfl rfl ht.span (List.forall_mem_nil _))
  · exact respects_constructor h
  iterate 5 exact .pure (hconstant (by rw [‹t.kind = _›]; decide))
  · exact respects_unaryWith h _
  · exact respects_unaryWith h _
  · exact respects_group h
  · refine .bind (respects_exprList h _) fun es hes => ?_
    exact .bind (respects_markFrom ht) fun m hm => .pure (.node rfl rfl hm hes)
  · exact respects_recordOrBlock h
  · exact respects_conditional h
  · exact respects_selection h hp
  · exact respects_performance h
  · exact ensures_rejectEnd ht _
  · exact ensures_reject ht _ _ rfl

theorem respects_extended (h : ∀ n, Respects L (Expr.Meets L) (expr n)) {left : Expr} (hl : left.Meets L) :
    Respects L (Expr.Meets L) (extended expr left) := by
  refine .seq (maintains_observe _) fun t => ?_
  split
  · refine .bind (respects_exprList h _) fun es hes => .bind respects_current fun last hlast => .pure ?_
    exact .node rfl rfl (L.join hl.span hlast.span) (List.forall_mem_cons.mpr ⟨hl, hes⟩)
  · refine .seq (maintains_expect _ _) fun _ => .bind respects_current fun name hname => .pure ?_
    exact .node rfl rfl (L.join hl.span hname.span) (List.forall_mem_singleton.mpr hl)
  · split
    · refine .seq maintains_advance fun _ => .bind (h _) fun r hr => .pure ?_
      refine .node rfl rfl (L.join hl.span hr.span) (List.forall_mem_cons.mpr ⟨hl, ?_⟩)
      exact List.forall_mem_singleton.mpr hr
    · exact .fail

theorem respects_exprBody (h : ∀ n, Respects L (Expr.Meets L) (expr n))
    (hp : Respects L (Pattern.Meets L) pattern) (precedence : Nat) :
    Respects L (Expr.Meets L) (exprBody expr pattern precedence) := by
  refine .bind (respects_atom h hp) fun first hfirst => .iterate hfirst fun left hleft => ?_
  refine .seq (maintains_observe _) fun t => .seq (maintains_observe _) fun n => ?_
  refine .seq (maintains_observe _) fun k => .ite (fun _ => ?_) fun _ => .pure hleft
  exact .seq maintains_advance fun _ => .bind (respects_extended h hleft) fun e he => .pure he

end Expressions

/-- **Expressions are storable**, at any level of nesting. -/
theorem respects_exprWithin (room precedence : Nat) :
    Respects L (Expr.Meets L) (exprWithin room precedence) := by
  induction room generalizing precedence with
  | zero => exact ensures_tooDeep
  | succ room ih => exact (respects_exprBody ih (respects_pattern room).2 precedence).nested

theorem respects_expression : Respects L (Expr.Meets L) expression :=
  .withRoom fun room => respects_exprWithin room _

/-! ### Declarations -/

theorem respects_definition : Respects L (Expr.Meets L) definition :=
  .seq (maintains_expect _ _) fun _ => .seq maintains_advance fun _ => respects_expression

theorem respects_function {start : Token} (hstart : start.Meets L) (isPublic : Bool)
    (annotations : List String) :
    Respects L (fun f => Decl.Meets L (.function f)) (function start isPublic annotations) := by
  refine .seq (maintains_observe _) fun keyword => .seq (maintains_skipEither _ _) fun b =>
    .ite (fun _ => ?_) fun _ => ensures_rejectNext _
  refine .seq (maintains_observe _) fun name => .seq maintains_params fun ps => ?_
  refine .seq maintains_resultType fun t => .bind respects_definition fun e he => ?_
  exact .bind (respects_spanFrom hstart) fun span hspan => .pure (.of_body rfl hspan he)

theorem respects_recognizer {start : Token} (hstart : start.Meets L) (isPublic : Bool)
    (annotations : List String) :
    Respects L (fun r => Decl.Meets L (.recognizer r)) (recognizer start isPublic annotations) := by
  refine .seq (maintains_observe _) fun keyword => ?_
  refine .seq (maintains_checkAnnotations hstart _) fun _ => ?_
  refine .seq (maintains_expect _ _) fun _ => .seq maintains_recognizerName fun r => ?_
  refine .seq maintains_params fun ps => .seq maintains_resultType fun t => ?_
  refine .bind respects_definition fun e he => ?_
  exact .bind (respects_spanFrom hstart) fun span hspan => .pure (.of_body rfl hspan he)

theorem respects_typeDeclaration {start : Token} (hstart : start.Meets L) (isPublic : Bool) :
    Respects L (fun d => Decl.Meets L (.type d)) (typeDeclaration start isPublic) := by
  have hend : ∀ {d : TypeDecl}, L.place d.mark.span → Decl.Meets L (.type d) :=
    fun hspan => ⟨hspan, nofun⟩
  refine .seq (maintains_observe _) fun keyword => .seq (maintains_expect _ _) fun _ => ?_
  refine .seq (maintains_observe _) fun name => .seq (maintains_expect _ _) fun _ => ?_
  refine .seq (maintains_skip _) fun b => .ite (fun _ => ?_) fun _ => ?_
  · refine .seq maintains_recordTypeFields fun fs => .seq (maintains_expect _ _) fun _ => ?_
    exact .bind (respects_spanFrom hstart) fun span hspan => .pure (hend hspan)
  · refine .seq (maintains_skip _) fun _ => .seq maintains_variants fun vs => ?_
    exact .bind (respects_spanFrom hstart) fun span hspan => .pure (hend hspan)

theorem respects_declaration : Respects L (Decl.Meets L) declaration := by
  refine .bind respects_current fun start hstart => .seq maintains_annotationNames fun annotations => ?_
  refine .seq (maintains_observe _) fun isPublic => ?_
  refine .optionally maintains_advance (.bind respects_current fun t ht => ?_)
  split
  · exact .bind (respects_function hstart _ _) fun f hf => .pure hf
  · exact .bind (respects_recognizer hstart _ _) fun r hr => .pure hr
  · exact .bind (respects_typeDeclaration hstart _) fun d hd => .pure hd
  · refine .ite (fun _ => ensures_reject ht _ _ rfl) fun _ => .bind respects_expression fun e he => ?_
    exact .bind (respects_markFrom hstart) fun m hm => .pure (.of_body rfl hm he)

/-! ### Files -/

theorem meets_step {s : State} (hs : s.Meets L) :
    (step s).2.Meets L ∧ ∀ d, (step s).1 = some d → d.Meets L := by
  have hdecl := respects_declaration s hs
  refine ⟨?_, hdecl.2⟩
  rw [step]
  dsimp only
  split
  · exact (maintains_advance _ hdecl.1).1
  · refine Invariant.suffix hdecl.1 ?_ rfl rfl
    exact (List.dropWhile_suffix _).trans (List.tail_suffix _)

/-- The declarations that were read, also behind errors, are within the limits, and so is what was
recorded. -/
theorem meets_declarations (fuel : Nat) {s : State} (hs : s.Meets L) :
    (∀ d ∈ (declarations fuel s).1, d.Meets L) ∧ (declarations fuel s).2.Meets L := by
  induction fuel generalizing s with
  | zero => exact ⟨List.forall_mem_nil _, hs⟩
  | succ fuel ih =>
    rw [declarations]
    split
    · exact ⟨List.forall_mem_nil _, hs⟩
    · have hstep := meets_step hs
      obtain ⟨hdecls, hlast⟩ := ih hstep.1
      refine ⟨List.forall_mem_append.mpr ⟨fun d hd => ?_, hdecls⟩, hlast⟩
      exact hstep.2 d (Option.mem_toList.mp hd)

section Paths

variable {I : State → Prop} {T : Token → Prop} [Invariant I T] {s : State}

include T

theorem invariant_path (fuel : Nat) (hs : I s) : I (path fuel s).2 := by
  induction fuel generalizing s with
  | zero => exact hs
  | succ fuel ih =>
    have hnext := (maintains_advance s hs).1
    rw [path]
    split
    · dsimp only
      split
      · exact ih (maintains_advance _ hnext).1
      · exact hnext
    · exact (ensures_rejectNext (P := fun _ : Unit => True) _ s hs).1

theorem invariant_pathLine (hs : I s) : I (pathLine s).2 :=
  (maintains_advance _ (invariant_path _ hs)).1

theorem invariant_useLines (fuel : Nat) (hs : I s) : I (useLines fuel s).2 := by
  induction fuel generalizing s with
  | zero => exact hs
  | succ fuel ih =>
    rw [useLines]
    split
    · exact ih (invariant_pathLine hs)
    · exact hs

end Paths

theorem meets_program {s : State} (hs : s.Meets L) :
    (∀ d ∈ (program s).1.decls, d.Meets L) ∧ (program s).2.Meets L := by
  rw [program]
  dsimp only
  split
  · exact meets_declarations _ (invariant_useLines _ (invariant_pathLine hs))
  · exact meets_declarations _ (invariant_useLines _ hs)

end Parser

theorem meets_start {source : Text} (h : L.Admits (Text.width source)) :
    State.Meets L ⟨(lex source).tokens, (lex source).eof, [], false, 0⟩ := by
  obtain ⟨htokens, heof, hcount⟩ := meets_lex h
  exact ⟨htokens, heof, hcount, List.forall_mem_nil _, List.forall_mem_nil _⟩

/-- **Every tree that parsing a source gives is within the limits**, and everything that is reported
has what its class is registered with, at a place within the limits. -/
theorem meets_parse {source : Text} (h : L.Admits (Text.width source)) :
    (∀ d ∈ (parse (lex source)).program.decls, d.Meets L) ∧
      ∀ d ∈ (parse (lex source)).errors, d.Registered L.place := by
  obtain ⟨hdecls, hlast⟩ := Parser.meets_program (meets_start h)
  exact ⟨hdecls, hlast.errors⟩

/-- Parsing reports what is its own to report. -/
theorem stage_parse (source : Text) :
    ∀ d ∈ (parse (lex source)).errors, d.code.stage = .parser := by
  let anywhere : Limits := ⟨fun _ => True, fun _ _ => trivial, Text.width source + 1⟩
  have hadmits : anywhere.Admits (Text.width source) := ⟨fun _ _ => trivial, Nat.lt_succ_self _⟩
  exact (Parser.meets_program (meets_start hadmits)).2.stages

end Surface

end PatternPlan
