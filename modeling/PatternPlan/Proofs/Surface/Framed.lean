import PatternPlan.Proofs.Surface.PatternExtended
import PatternPlan.Proofs.Surface.Repeated

/-!
# What a run depends on

A pattern and an expression that are read without an error are read from the tokens that they consist
of: it does not matter what was recorded before, on which line they stand, and what follows, as long as
it is not something with which they go on.

* `Parser.Accepts` — a run that records nothing; `Parser.Consumes` — one that stops at the token in front
  of a given rest; `Parser.ReadsAll` — one that reads all there is of an input;
* `Accepts.again` — an accepting run is one on the same tokens further down, too;
* `Parser.Framed` — parsers of which both holds; `framed_pattern`, `framed_expr` — those of patterns and
  of expressions;
* `Framed.consumes` — **what is read when it is all there is, is read in front of anything** that neither an
  expression nor a pattern goes on with.
-/

namespace PatternPlan.Surface

variable {s s' t : State} {k : Int}

theorem State.Moved.symm (h : s.Moved k s') (hdepth : s'.depth = s.depth) : s'.Moved (-k) s :=
  ⟨(h.tokens.imp fun _ _ hxy => hxy.symm).flip, h.eof.symm, hdepth.le⟩

theorem State.Moved.whole (h : s.Moved k s') (hs : s.Whole) : s'.Whole := by
  refine ⟨fun y hy => ?_, h.eof.kind.trans hs.eof⟩
  obtain ⟨i, hi, rfl⟩ := List.getElem_of_mem hy
  have hi' : i < s.tokens.length := h.length ▸ hi
  have hkind : s'.tokens[i].kind = s.tokens[i].kind := (h.tokens.get hi' hi).kind
  rw [hkind]
  exact hs.tokens _ (List.getElem_mem hi')

namespace Parser

variable {α β γ : Type} {p : Parser α} {f : α → γ} {a : α} {more : List Token} {e : Token}

/-! ### Runs that accept -/

/-- A run that returns something and records nothing. -/
structure Accepts (p : Parser α) (s : State) (a : α) (t : State) : Prop where
  run : p s = (some a, t)
  errors : t.errors = s.errors

/-- A run that accepts what stands in front of `more`, and stops at the last token of it. -/
structure Consumes (more : List Token) (p : Parser α) (s : State) (a : α) (t : State) : Prop
    extends Accepts p s a t where
  tokens : ∃ last, t.tokens = last :: more
  suffix : t.tokens <:+ s.tokens
  eof : t.eof = s.eof
  depth : t.depth = s.depth

/-- The tokens `ts`, if they are all there is of an input, are read to the last one, `depth` levels down. -/
def ReadsAll (p : Parser α) (depth : Nat) (ts : List Token) (a : α) : Prop :=
  ∃ s t : State, s.tokens = ts ∧ s.depth = depth ∧ Clean p s a t ∧ t.tokens.length = 1

theorem accepts_of_run (h : (p s).1.isSome = true ∧ (p s).2.errors = s.errors) :
    ∃ a, Accepts p s a (p s).2 := by
  obtain ⟨a, ha⟩ := Option.isSome_iff_exists.mp h.1
  exact ⟨a, Prod.ext ha rfl, h.2⟩

theorem readsAll_of_run (hs : s.Whole ∧ s.errors = [])
    (h : (p s).1.isSome = true ∧ (p s).2.errors = s.errors ∧ (p s).2.tokens.length = 1) :
    ∃ a, ReadsAll p s.depth s.tokens a := by
  obtain ⟨a, ha⟩ := accepts_of_run ⟨h.1, h.2.1⟩
  exact ⟨a, s, (p s).2, rfl, rfl, ⟨ha.run, hs.1, hs.2, ha.errors.trans hs.2⟩, h.2.2⟩

theorem Consumes.whole (h : Consumes more p s a t) (hs : s.Whole) : t.Whole :=
  ⟨fun x hx => hs.tokens x (h.suffix.subset hx), h.eof ▸ hs.eof⟩

/-- One parser that accepts after another. -/
theorem Accepts.bind {p : Parser β} {g : β → Parser α} {b : β} {u : State} (h : Accepts p s b u)
    (h' : Accepts (g b) u a t) : Accepts (p >>= g) s a t :=
  ⟨(run_bind_some h.run).trans h'.run, h'.errors.trans h.errors⟩

theorem Consumes.bind {p : Parser β} {g : β → Parser α} {b : β} {u : State} {rest : List Token}
    (h : Consumes rest p s b u) (h' : Consumes more (g b) u a t) : Consumes more (p >>= g) s a t where
  toAccepts := h.toAccepts.bind h'.toAccepts
  tokens := h'.tokens
  suffix := h'.suffix.trans h.suffix
  eof := h'.eof.trans h.eof
  depth := h'.depth.trans h.depth

/-- **An accepting run is one on the same tokens elsewhere, too**: as many levels are left, so that it does
not meet the nesting limit there. -/
theorem Accepts.again {q : Parser α} (h : Accepts p s a t) (hrepeats : ∀ k, Repeats True k (SameBy f) p q)
    (hback : ∀ k, Repeats True k (SameBy f) q p) (hmoved : s.Moved k s') (hdepth : s'.depth = s.depth) :
    ∃ b t', Accepts q s' b t' ∧ f b = f a ∧ t.Moved k t' ∧ t'.tokens <:+ s'.tokens ∧ t'.eof = s'.eof ∧
      t'.depth = s'.depth := by
  have hgives : (q s').1 ≠ none := by
    intro hnone
    have hrun := congrArg Prod.fst h.run
    rcases hback (-k) s' s (hmoved.symm hdepth) with ⟨-, hrefused⟩ | hmatched
    · exact absurd (hrefused.gave.symm.trans hrun) (Option.some_ne_none a).symm
    · have hresult := hmatched.result
      rw [hnone, hrun] at hresult
      cases hresult
  have hmatched := (hrepeats k s s' hmoved).resolve_left fun hrefused => hgives hrefused.2.gave
  obtain ⟨b, t', hrun⟩ : ∃ b t', q s' = (some b, t') := by
    obtain ⟨b, hb⟩ := Option.ne_none_iff_exists'.mp hgives
    exact ⟨b, (q s').2, Prod.ext hb rfl⟩
  rw [h.run, hrun] at hmatched
  have hsame : SameBy f a b := by
    cases hmatched.result
    assumption
  obtain ⟨es, fs, hes, hfs, hcodes, -⟩ := hmatched.errors
  have hnone : es = [] := List.append_right_eq_self.mp (hes.symm.trans h.errors)
  rw [hnone, List.map_nil] at hcodes
  rw [List.map_eq_nil_iff.mp hcodes.symm, List.append_nil] at hfs
  exact ⟨b, t', ⟨hrun, hfs⟩, hsame.symm, hmatched.moved, hmatched.tokens, hmatched.eof, hmatched.depth.2⟩

/-! ### Framed parsers -/

/-- Parsers whose accepting runs are the same elsewhere and in front of what is not gone on with. -/
structure Framed (f : α → γ) (p : Parser α) : Prop where
  repeats : ∀ k, Repeats True k (SameBy f) p p
  exact : ∀ (more : List Token) (e : Token) [Crossing (fun _ => False) more e], Exact more e p

theorem framed_pattern (room : Nat) : Framed Pattern.erase (orWithin room) :=
  ⟨fun _ => (repeats_pattern room room le_rfl).2, fun _ _ => (exact_pattern room).2⟩

theorem framed_expr (room precedence : Nat) : Framed Expr.erase (exprWithin room precedence) :=
  ⟨fun _ => repeats_exprWithin room room le_rfl precedence,
    fun _ _ => extends_exprWithin (I := fun _ => False) upheld_never room precedence⟩

theorem crossing_of_inert (hmore : ∀ t ∈ more, t.kind ≠ .eof) (he : e.kind = .eof)
    (hhead : (more.headD e).kind ∈ inert) : Crossing (fun _ => False) more e :=
  ⟨hmore, he, fun _ hcross => absurd hhead hcross⟩

/-- What a parser reads when it is all there is, it reads in front of more. -/
theorem Framed.extend (h : Framed f p) (hclean : Clean p s a t) (hone : t.tokens.length = 1)
    (hmore : ∀ t ∈ more, t.kind ≠ .eof) (he : e.kind = .eof) (hhead : (more.headD e).kind ∈ inert) :
    Accepts p (s.extend more e) a (t.extend more e) := by
  have hcrossing := crossing_of_inert hmore he hhead
  exact ⟨((h.exact more e).same hclean hone.ge).resolve_right fun hcross => hcross.2,
    hclean.after.trans hclean.before.symm⟩

/-- What a parser reads when it is all there is, it reads on other lines. -/
theorem Framed.elsewhere (h : Framed f p) {depth : Nat} {ts ts' : List Token} (hall : ReadsAll p depth ts a)
    (hts : List.Forall₂ (Token.Shifted k) ts ts') : ∃ b, ReadsAll p depth ts' b ∧ f b = f a := by
  obtain ⟨s, t, rfl, rfl, hclean, hone⟩ := hall
  -- the end of input is moved down first, so that it can be moved up by as many lines
  have heof := hclean.whole.eof
  let e : Token := { s.eof with line := k.natAbs }
  have hdown : Accepts p (s.extend [] e) a (t.extend [] e) :=
    h.extend hclean hone (fun _ hx => absurd hx List.not_mem_nil) heof (by rw [List.headD_nil, heof]; decide)
  let s' : State :=
    { tokens := ts', eof := { s.eof with line := (k.natAbs + k).toNat }, depth := s.depth }
  have hmoved : (s.extend [] e).Moved k s' := by
    refine ⟨?_, ⟨rfl, rfl, rfl, ?_⟩, le_rfl⟩
    · show List.Forall₂ _ (s.tokens ++ []) ts'
      rwa [List.append_nil]
    · show (((k.natAbs + k).toNat : Nat) : Int) = (k.natAbs : Int) + k
      omega
  obtain ⟨b, t', haccepts, hsame, hmoved', -⟩ := hdown.again h.repeats h.repeats hmoved rfl
  have hwhole : s'.Whole :=
    hmoved.whole (hclean.whole.extend (fun _ hx => absurd hx List.not_mem_nil) heof)
  refine ⟨b, ⟨s', t', rfl, rfl, ⟨haccepts.run, hwhole, rfl, haccepts.errors⟩, ?_⟩, hsame⟩
  rw [← hmoved'.length]
  show (t.tokens ++ []).length = 1
  rw [List.append_nil, hone]

/-- **What is read when it is all there is, is read in front of anything** that neither an expression nor a
pattern goes on with, on whatever lines it stands and whatever was recorded before. -/
theorem Framed.consumes (h : Framed f p) {ts ts' : List Token} (hall : ReadsAll p s.depth ts a)
    (hts : List.Forall₂ (Token.Shifted k) ts ts') (hs : s.Whole) (htokens : s.tokens = ts' ++ more)
    (hhead : (more.headD s.eof).kind ∈ inert) : ∃ b t, Consumes more p s b t ∧ f b = f a := by
  obtain ⟨b, ⟨u, v, hu, hdepth, hclean, hone⟩, hb⟩ := h.elsewhere hall hts
  have hmore : ∀ x ∈ more, x.kind ≠ .eof := fun x hx =>
    hs.tokens x (htokens ▸ List.mem_append_right _ hx)
  have hextended := h.extend hclean hone hmore hs.eof hhead
  have hsame : (u.extend more s.eof).tokens = s.tokens := by
    rw [htokens, ← hu]
    rfl
  have hmoved : (u.extend more s.eof).Moved 0 s :=
    ⟨hsame ▸ List.forall₂_same.mpr fun x _ => .refl x, .refl _, hdepth.le⟩
  obtain ⟨c, t, haccepts, hc, hmoved', hsuffix, heof, hdepth'⟩ :=
    hextended.again h.repeats h.repeats hmoved hdepth.symm
  -- what is left is as long as a last token and what follows it, and ends as all that was there
  have hlength : t.tokens.length = more.length + 1 := by
    rw [← hmoved'.length, State.length_extend, hone, Nat.add_comm]
  have hrest : more <:+ t.tokens :=
    List.suffix_of_suffix_length_le (htokens ▸ List.suffix_append ts' more) hsuffix (by omega)
  obtain ⟨front, hfront⟩ := hrest
  have hsingle : front.length = 1 := by
    have := congrArg List.length hfront
    rw [List.length_append, hlength] at this
    omega
  obtain ⟨last, rfl⟩ := List.length_eq_one_iff.mp hsingle
  exact ⟨c, t, ⟨haccepts, ⟨last, hfront.symm⟩, hsuffix, heof, hdepth'⟩, hc.trans hb⟩

end Parser

end PatternPlan.Surface
