import PatternPlan.Proofs.Surface.ExprRead
import PatternPlan.Proofs.Surface.Framed

/-!
# Aliases and guards in either order

Between the pattern of an arm and its arrow an alias and a guard may stand in either order.

* `ArmTokens` — the tokens of an arm with both; `aliasFirst`, `guardFirst` — the two orders;
* `ArmTokens.Like` — the same tokens, each part of the arm at a place of its own;
* `consumes_alias`, `consumes_guard`, `consumes_arrow` — the rounds of the loop that reads the two;
* `aliasFirst_upToBody`, `guardFirst_upToBody` — **in either order an arm is read up to its body, with the same
  pattern, alias and guard**;
* `UpToBody.accepted_iff`, `arm_orders` — so that either order is accepted if and only if the body is.
-/

namespace PatternPlan.Surface

/-- The tokens of an arm with an alias and a guard; `rest` is its body and what follows the arm, up to the
end of input. -/
structure ArmTokens where
  bar : Token
  pattern : List Token
  asWord : Token
  name : Token
  keyword : Token
  guard : List Token
  arrow : Token
  rest : List Token
  eof : Token

namespace ArmTokens

/-- The arm with the tokens `head` between its pattern and its arrow. -/
def withHead (a : ArmTokens) (head : List Token) : List Token :=
  a.bar :: (a.pattern ++ (head ++ a.arrow :: a.rest))

/-- The alias and then the guard. -/
def aliasFirst (a : ArmTokens) : List Token := a.withHead (a.asWord :: a.name :: a.keyword :: a.guard)

/-- The guard and then the alias. -/
def guardFirst (a : ArmTokens) : List Token := a.withHead (a.keyword :: (a.guard ++ [a.asWord, a.name]))

/-- What stands between the pattern and the arrow, without its places, if `g` is the guard. -/
def head (a : ArmTokens) (g : Expr) : Parser.ArmHead where
  asName := some ⟨a.name.text, default⟩
  guard := some g.erase
  usedIf := a.keyword.kind = .kwIf

/-- The words and the name stand where they are to stand. -/
structure Formed (a : ArmTokens) : Prop where
  asWord : a.asWord.kind = .kwAs
  name : a.name.kind = .lower
  keyword : a.keyword.kind = .kwWhen ∨ a.keyword.kind = .kwIf
  arrow : a.arrow.kind = .arrow

instance (a : ArmTokens) : Decidable a.Formed :=
  decidable_of_iff (a.asWord.kind = .kwAs ∧ a.name.kind = .lower ∧
      (a.keyword.kind = .kwWhen ∨ a.keyword.kind = .kwIf) ∧ a.arrow.kind = .arrow)
    ⟨fun ⟨has, hname, hkeyword, harrow⟩ => ⟨has, hname, hkeyword, harrow⟩,
      fun h => ⟨h.asWord, h.name, h.keyword, h.arrow⟩⟩

/-- An arm has the pattern `p` and the guard `g`, and the name and the keyword of the tokens, up to places. -/
structure Says (a : ArmTokens) (p : Pattern) (g : Expr) (m : Arm Pattern Expr) : Prop where
  pattern : m.pattern.erase = p.erase
  guard : m.guard.map Expr.erase = some g.erase
  asName : m.asName.map Alias.name = some a.name.text
  usedIf : m.usedIf = decide (a.keyword.kind = .kwIf)

/-- The same tokens, each part of the arm so many lines further down or up. -/
structure Like (a b : ArmTokens) : Prop where
  pattern : ∃ k, List.Forall₂ (Token.Shifted k) a.pattern b.pattern
  asWord : ∃ k, a.asWord.Shifted k b.asWord
  name : ∃ k, a.name.Shifted k b.name
  keyword : ∃ k, a.keyword.Shifted k b.keyword
  guard : ∃ k, List.Forall₂ (Token.Shifted k) a.guard b.guard
  arrow : ∃ k, a.arrow.Shifted k b.arrow
  rest : ∃ k, List.Forall₂ (Token.Shifted k) a.rest b.rest ∧ a.eof.Shifted k b.eof

theorem Like.formed {a b : ArmTokens} (h : a.Like b) (ha : a.Formed) : b.Formed := by
  obtain ⟨-, ⟨_, has⟩, ⟨_, hname⟩, ⟨_, hkeyword⟩, -, ⟨_, harrow⟩, -⟩ := h
  refine ⟨has.kind.trans ha.asWord, hname.kind.trans ha.name, ?_, harrow.kind.trans ha.arrow⟩
  rw [hkeyword.kind]
  exact ha.keyword

theorem Like.head {a b : ArmTokens} (h : a.Like b) (g : Expr) : b.head g = a.head g := by
  obtain ⟨-, -, ⟨_, hname⟩, ⟨_, hkeyword⟩, -⟩ := h
  rw [ArmTokens.head, ArmTokens.head, hname.text, hkeyword.kind]

end ArmTokens

/-- A state in which the tokens `ts` are left up to the end `e`, `depth` levels down. -/
structure State.Holds (s : State) (ts : List Token) (e : Token) (depth : Nat) : Prop where
  tokens : s.tokens = ts
  eof : s.eof = e
  depth : s.depth = depth
  whole : s.Whole

namespace Parser

variable {α β : Type} {s t u v : State} {more rest : List Token} {last : Token}
variable {expr : Nat → Parser Expr} {head : ArmHead}

/-! ### Rounds -/

theorem Consumes.again {round : α → Parser (Round α β)} {a b : α} {c : β} {n : Nat}
    (h : Consumes rest (round a) s (.again b) u) (h' : Consumes more (loop round n b) u c t) :
    Consumes more (loop round (n + 1) a) s c t := h.bind h'

theorem Consumes.done {round : α → Parser (Round α β)} {a : α} {c : β} {n : Nat}
    (h : Consumes more (round a) s (.done c) t) : Consumes more (loop round (n + 1) a) s c t where
  run := run_bind_some h.run
  errors := h.errors
  tokens := h.tokens
  suffix := h.suffix
  eof := h.eof
  depth := h.depth

theorem headRound_next {y : Token} (hnext : s.next = y) : headRound expr head s =
    (if y.kind = .kwAs && head.asName.isNone then do
        advance
        expect .lower "alias name"
        let name ← current
        return .again { head with asName := some ⟨name.text, name.span⟩ }
      else if (y.kind = .kwWhen || y.kind = .kwIf) && head.guard.isNone then do
        advance
        advance
        let g ← expr Precedence.lowest
        return .again { head with guard := some g, usedIf := y.kind = .kwIf }
      else return .done head : Parser (Round ArmHead ArmHead)) s := by
  subst hnext
  rfl

/-- A round that reads an alias. -/
theorem consumes_alias (expr : Nat → Parser Expr) (head : ArmHead) {y x : Token}
    (htokens : s.tokens = last :: y :: x :: more) (hy : y.kind = .kwAs) (hx : x.kind = .lower)
    (hnone : head.asName = none) : ∃ t, Consumes more (headRound expr head) s
      (.again { head with asName := some ⟨x.text, x.span⟩ }) t := by
  obtain ⟨tokens, eof, errors, incomplete, depth⟩ := s
  obtain rfl : tokens = last :: y :: x :: more := htokens
  let t : State := ⟨x :: more, eof, errors, incomplete, depth⟩
  have hexpect : expect .lower "alias name" ⟨y :: x :: more, eof, errors, incomplete, depth⟩ = (some (), t) := by
    rw [expect_run]
    exact if_pos hx
  refine ⟨t, ⟨?_, rfl⟩, ⟨x, rfl⟩, (List.suffix_cons y _).trans (List.suffix_cons last _), rfl, rfl⟩
  rw [headRound_next (y := y) rfl, if_pos (by rw [hy, hnone]; rfl)]
  exact run_bind_some hexpect

/-- A round that reads a guard. -/
theorem consumes_guard (head : ArmHead) {y : Token} {ts ts' : List Token} {k : Int} {g : Expr} (hs : s.Whole)
    (hframed : Framed Expr.erase (expr Precedence.lowest)) (hall : ReadsAll (expr Precedence.lowest) s.depth ts g)
    (hts : List.Forall₂ (Token.Shifted k) ts ts') (htokens : s.tokens = last :: y :: (ts' ++ more))
    (hy : y.kind = .kwWhen ∨ y.kind = .kwIf) (hnone : head.guard = none)
    (hmore : (more.headD s.eof).kind ∈ inert) :
    ∃ g' t, Consumes more (headRound expr head) s
      (.again { head with guard := some g', usedIf := y.kind = .kwIf }) t ∧ g'.erase = g.erase := by
  obtain ⟨tokens, eof, errors, incomplete, depth⟩ := s
  obtain rfl : tokens = last :: y :: (ts' ++ more) := htokens
  let u : State := ⟨ts' ++ more, eof, errors, incomplete, depth⟩
  have hsuffix : ts' ++ more <:+ last :: y :: (ts' ++ more) :=
    (List.suffix_cons y _).trans (List.suffix_cons last _)
  have hwhole : u.Whole := ⟨fun x hx => hs.tokens x (hsuffix.subset hx), hs.eof⟩
  obtain ⟨g', t, hg, hsame⟩ := hframed.consumes (s := u) hall hts hwhole rfl hmore
  refine ⟨g', t, ⟨⟨?_, hg.errors⟩, hg.tokens, hg.suffix.trans hsuffix, hg.eof, hg.depth⟩, hsame⟩
  have has : ¬ (y.kind = .kwAs && head.asName.isNone) = true := by
    rcases hy with hk | hk <;> rw [hk] <;> exact Bool.false_ne_true
  have hguard : ((y.kind = .kwWhen || y.kind = .kwIf) && head.guard.isNone) = true := by
    rcases hy with hk | hk <;> rw [hk, hnone] <;> rfl
  rw [headRound_next (y := y) rfl, if_neg has, if_pos hguard]
  exact run_bind_some hg.run

/-- The round at the arrow. -/
theorem consumes_arrow {y : Token} (htokens : s.tokens = last :: y :: more) (hy : y.kind = .arrow) :
    Consumes (y :: more) (headRound expr head) s (.done head) s := by
  refine ⟨⟨?_, rfl⟩, ⟨last, htokens⟩, List.suffix_refl _, rfl, rfl⟩
  have hnext : s.next = y := by
    rw [State.next, htokens]
    rfl
  rw [headRound_next hnext, hy]
  rfl

/-! ### Either order -/

section Orders

variable {a b : ArmTokens} {pattern : Parser Pattern} {p q : Pattern} {g : Expr} {ts : List Token} {k : Int}

theorem consumes_armHead {m : Nat} (hlength : m ≤ s.tokens.length)
    (h : ∀ n, Consumes more (loop (headRound expr) (n + m + 1) {}) s head t) :
    Consumes more (armHead expr) s head t := by
  have hrun : armHead expr s = loop (headRound expr) (s.tokens.length - m + m + 1) {} s := by
    rw [Nat.sub_add_cancel hlength]
    rfl
  have hloop := h (s.tokens.length - m)
  exact ⟨⟨hrun.trans hloop.run, hloop.errors⟩, hloop.tokens, hloop.suffix, hloop.eof, hloop.depth⟩

theorem arrow_inert {y : Token} (hy : y.kind = .arrow) : ((y :: more).headD s.eof).kind ∈ inert := by
  rw [List.headD_cons, hy]
  decide

theorem consumes_aliasFirst (ha : a.Formed) (hs : s.Whole)
    (hframed : Framed Expr.erase (expr Precedence.lowest)) (hall : ReadsAll (expr Precedence.lowest) s.depth ts g)
    (hts : List.Forall₂ (Token.Shifted k) ts a.guard)
    (htokens : s.tokens = last :: a.asWord :: a.name :: a.keyword :: (a.guard ++ a.arrow :: a.rest)) :
    ∃ head t, Consumes (a.arrow :: a.rest) (armHead expr) s head t ∧ head.erase = a.head g := by
  obtain ⟨u, hu⟩ := consumes_alias expr {} htokens ha.asWord ha.name rfl
  obtain ⟨l, hl⟩ := hu.tokens
  obtain ⟨g', v, hv, hsame⟩ := consumes_guard ⟨some ⟨a.name.text, a.name.span⟩, none, false⟩ (hu.whole hs)
    hframed (hu.depth ▸ hall) hts hl ha.keyword rfl (arrow_inert ha.arrow)
  obtain ⟨l', hl'⟩ := hv.tokens
  -- three rounds: the alias, the guard and the arrow
  have hread := fun n => hu.again (hv.again (n := n + 1) (consumes_arrow hl' ha.arrow).done)
  refine ⟨_, v, consumes_armHead (m := 2) ?_ hread, ?_⟩
  · rw [htokens]
    exact Nat.le_add_left 2 _
  · show ArmHead.mk _ _ _ = ArmHead.mk _ _ _
    rw [Option.map_some, Option.map_some, hsame]
    rfl

theorem consumes_guardFirst (ha : a.Formed) (hs : s.Whole)
    (hframed : Framed Expr.erase (expr Precedence.lowest)) (hall : ReadsAll (expr Precedence.lowest) s.depth ts g)
    (hts : List.Forall₂ (Token.Shifted k) ts a.guard)
    (htokens : s.tokens = last :: a.keyword :: (a.guard ++ a.asWord :: a.name :: a.arrow :: a.rest)) :
    ∃ head t, Consumes (a.arrow :: a.rest) (armHead expr) s head t ∧ head.erase = a.head g := by
  have hmore : ((a.asWord :: a.name :: a.arrow :: a.rest).headD s.eof).kind ∈ inert := by
    rw [List.headD_cons, ha.asWord]
    decide
  obtain ⟨g', u, hu, hsame⟩ := consumes_guard {} hs hframed hall hts htokens ha.keyword rfl hmore
  obtain ⟨l, hl⟩ := hu.tokens
  obtain ⟨v, hv⟩ := consumes_alias expr ⟨none, some g', a.keyword.kind = .kwIf⟩ hl ha.asWord ha.name rfl
  obtain ⟨l', hl'⟩ := hv.tokens
  have hread := fun n => hu.again (hv.again (n := n + 1) (consumes_arrow hl' ha.arrow).done)
  refine ⟨_, v, consumes_armHead (m := 2) ?_ hread, ?_⟩
  · rw [htokens]
    exact Nat.le_add_left 2 _
  · show ArmHead.mk _ _ _ = ArmHead.mk _ _ _
    rw [Option.map_some, Option.map_some, hsame]
    rfl

/-- Everything in front of the body of an arm is read, as `q` and `h`, which are `p` and `head` up to places:
what is left of reading the arm from `s` is to read its body from `v`. -/
structure UpToBody (expr : Nat → Parser Expr) (pattern : Parser Pattern) (a : ArmTokens) (p : Pattern)
    (head : ArmHead) (s : State) (q : Pattern) (h : ArmHead) (v : State) : Prop where
  run : arm expr pattern s = armBody expr a.bar q h v
  pattern : q.erase = p.erase
  head : h.erase = head
  tokens : v.tokens = a.rest
  eof : v.eof = s.eof
  depth : v.depth = s.depth
  errors : v.errors = s.errors

theorem UpToBody.accepts {head h : ArmHead} {m : Arm Pattern Expr} (hup : UpToBody expr pattern a p head s q h v) :
    Accepts (arm expr pattern) s m u ↔ Accepts (armBody expr a.bar q h) v m u :=
  ⟨fun hs => ⟨hup.run.symm.trans hs.run, hs.errors.trans hup.errors.symm⟩,
    fun hv => ⟨hup.run.trans hv.run, hv.errors.trans hup.errors⟩⟩

theorem parts_armBody {h : ArmHead} {m : Arm Pattern Expr} {bar : Token}
    (hrun : armBody expr bar q h v = (some m, u)) :
    m.pattern = q ∧ m.guard = h.guard ∧ m.usedIf = h.usedIf ∧ m.asName = h.asName ∧
      expr Precedence.lowest v = (some m.body, u) := by
  cases hbody : expr Precedence.lowest v with
  | mk o w =>
    cases o with
    | none =>
      rw [armBody, run_bind_none hbody] at hrun
      cases hrun
    | some body =>
      rw [armBody, run_bind_some hbody] at hrun
      cases hrun
      exact ⟨rfl, rfl, rfl, rfl, rfl⟩

/-- **An arm is read up to its body** if its pattern is, and what follows it up to the arrow. -/
theorem arm_upToBody {words : List Token} {h : ArmHead} (ha : a.Formed) (hs : s.Whole)
    (htokens : s.tokens = a.withHead words) (hwords : ((words ++ a.arrow :: a.rest).headD s.eof).kind ∈ inert)
    (hframed : Framed Pattern.erase pattern) (hall : ReadsAll pattern s.depth ts p)
    (hts : List.Forall₂ (Token.Shifted k) ts a.pattern)
    (hhead : ∀ (u : State) (last : Token), u.Whole → u.depth = s.depth →
      u.tokens = last :: (words ++ a.arrow :: a.rest) →
      ∃ head t, Consumes (a.arrow :: a.rest) (armHead expr) u head t ∧ head.erase = h) :
    ∃ q head v, UpToBody expr pattern a p h s q head v := by
  obtain ⟨tokens, eof, errors, incomplete, depth⟩ := s
  obtain rfl : tokens = a.withHead words := htokens
  let t : State := ⟨a.pattern ++ (words ++ a.arrow :: a.rest), eof, errors, incomplete, depth⟩
  have hwhole : t.Whole := ⟨fun x hx => hs.tokens x (List.mem_cons_of_mem _ hx), hs.eof⟩
  obtain ⟨q, u, hu, hq⟩ := hframed.consumes (s := t) hall hts hwhole rfl hwords
  obtain ⟨last, hlast⟩ := hu.tokens
  obtain ⟨head, v, hv, herase⟩ := hhead u last (hu.whole hwhole) hu.depth hlast
  obtain ⟨last', hlast'⟩ := hv.tokens
  obtain ⟨tokens', eof', errors', incomplete', depth'⟩ := v
  obtain rfl : tokens' = last' :: a.arrow :: a.rest := hlast'
  refine ⟨q, head, ⟨a.rest, eof', errors', incomplete', depth'⟩, ?_, hq, herase, rfl,
    hv.eof.trans hu.eof, hv.depth.trans hu.depth, hv.errors.trans hu.errors⟩
  have hexpect : expect .arrow "->" ⟨last' :: a.arrow :: a.rest, eof', errors', incomplete', depth'⟩
      = (some (), ⟨a.arrow :: a.rest, eof', errors', incomplete', depth'⟩) := by
    rw [expect_run]
    exact if_pos ha.arrow
  show (pattern >>= fun p => armHead expr >>= fun h => expect .arrow "->" >>= fun _ => advance >>= fun _ =>
    armBody expr a.bar p h) t = _
  rw [run_bind_some hu.run, run_bind_some hv.run, run_bind_some hexpect]
  rfl

variable {room depth : Nat}

theorem aliasFirst_upToBody (ha : a.Formed) (hs : s.Holds a.aliasFirst a.eof depth)
    (hp : ReadsAll (orWithin room) depth ts p) (hts : List.Forall₂ (Token.Shifted k) ts a.pattern)
    {gs : List Token} {l : Int} (hg : ReadsAll (exprWithin room Precedence.lowest) depth gs g)
    (hgs : List.Forall₂ (Token.Shifted l) gs a.guard) :
    ∃ q head v, UpToBody (exprWithin room) (orWithin room) a p (a.head g) s q head v := by
  obtain rfl := hs.depth
  refine arm_upToBody ha hs.whole hs.tokens ?_ (framed_pattern room) hp hts fun u last hu hdepth htokens => ?_
  · rw [List.cons_append, List.headD_cons, ha.asWord]
    decide
  · exact consumes_aliasFirst ha hu (framed_expr room _) (hdepth ▸ hg) hgs htokens

theorem guardFirst_upToBody (ha : a.Formed) (hs : s.Holds a.guardFirst a.eof depth)
    (hp : ReadsAll (orWithin room) depth ts p) (hts : List.Forall₂ (Token.Shifted k) ts a.pattern)
    {gs : List Token} {l : Int} (hg : ReadsAll (exprWithin room Precedence.lowest) depth gs g)
    (hgs : List.Forall₂ (Token.Shifted l) gs a.guard) :
    ∃ q head v, UpToBody (exprWithin room) (orWithin room) a p (a.head g) s q head v := by
  obtain rfl := hs.depth
  refine arm_upToBody ha hs.whole hs.tokens ?_ (framed_pattern room) hp hts fun u last hu hdepth htokens => ?_
  · rw [List.cons_append, List.headD_cons]
    rcases ha.keyword with hk | hk <;> rw [hk] <;> decide
  · rw [List.cons_append, List.append_assoc] at htokens
    exact consumes_guardFirst ha hu (framed_expr room _) (hdepth ▸ hg) hgs htokens

/-- What is accepted with its body in one place, is accepted with it in another. -/
theorem UpToBody.again {head h h' : ArmHead} {q' : Pattern} {w x : State} {m : Arm Pattern Expr}
    (hv : UpToBody (exprWithin room) (orWithin room) a p head s q h v)
    (hw : UpToBody (exprWithin room) (orWithin room) b p head t q' h' w) (hmoved : v.Moved k w)
    (hdepth : w.depth = v.depth) (hm : Accepts (arm (exprWithin room) (orWithin room)) s m x) :
    ∃ n y, Accepts (arm (exprWithin room) (orWithin room)) t n y ∧ Expr.eraseArm n = Expr.eraseArm m := by
  have hexpr : ∀ (k : Int) (n : Nat), Repeats True k (SameBy Expr.erase) (exprWithin room n) (exprWithin room n) :=
    fun k n => (framed_expr room n).repeats k
  have hpattern : SameBy Pattern.erase q q' := hv.pattern.trans hw.pattern.symm
  have hhead : SameBy ArmHead.erase h h' := hv.head.trans hw.head.symm
  obtain ⟨n, y, hn, hsame, -⟩ := (hv.accepts.mp hm).again
    (fun k => repeats_armBody (hexpr k) a.bar b.bar hpattern hhead)
    (fun k => repeats_armBody (hexpr k) b.bar a.bar hpattern.symm hhead.symm) hmoved hdepth
  exact ⟨n, y, hw.accepts.mpr hn, hsame⟩

/-- What is accepted in front of its body is accepted if its body is. -/
theorem UpToBody.accepted_iff {head h : ArmHead}
    (hv : UpToBody (exprWithin room) (orWithin room) a p head s q h v) :
    (∃ m x, Accepts (arm (exprWithin room) (orWithin room)) s m x) ↔
      ∃ e x, Accepts (exprWithin room Precedence.lowest) { s with tokens := a.rest } e x := by
  have hexpr := (framed_expr room Precedence.lowest).repeats
  have hmoved : v.Moved 0 { s with tokens := a.rest } :=
    ⟨hv.tokens ▸ List.forall₂_same.mpr fun x _ => .refl x, hv.eof ▸ .refl v.eof, hv.depth.le⟩
  constructor
  · rintro ⟨m, x, hm⟩
    have hbody := hv.accepts.mp hm
    have haccepts : Accepts (exprWithin room Precedence.lowest) v m.body x :=
      ⟨(parts_armBody hbody.run).2.2.2.2, hbody.errors⟩
    obtain ⟨e, y, he, -⟩ := haccepts.again hexpr hexpr hmoved hv.depth.symm
    exact ⟨e, y, he⟩
  · rintro ⟨e, x, he⟩
    obtain ⟨e', y, he', -⟩ := he.again hexpr hexpr (hmoved.symm hv.depth.symm) hv.depth
    exact ⟨_, y, hv.accepts.mpr ⟨run_bind_some he'.run, he'.errors⟩⟩

theorem UpToBody.says {h : ArmHead} {m : Arm Pattern Expr} {x : State}
    (hv : UpToBody (exprWithin room) (orWithin room) a p (a.head g) s q h v)
    (hm : Accepts (arm (exprWithin room) (orWithin room)) s m x) : a.Says p g m := by
  obtain ⟨hpattern, hguard, hused, hname, -⟩ := parts_armBody (hv.accepts.mp hm).run
  obtain ⟨hasName, hguardSays, husedSays⟩ := ArmHead.mk.inj hv.head
  refine ⟨hpattern ▸ hv.pattern, hguard ▸ hguardSays, ?_, hused ▸ husedSays⟩
  have htext := congrArg (Option.map Alias.name) hasName
  rw [Option.map_map] at htext
  rw [hname]
  exact htext

/-- **An arm is accepted with its alias first if and only if it is with its guard first**, which is when its
body is accepted, and the two are the same arm up to places. -/
theorem arm_orders (ha : a.Formed) (hlike : a.Like b) (hp : ReadsAll (orWithin room) depth a.pattern p)
    (hg : ReadsAll (exprWithin room Precedence.lowest) depth a.guard g)
    (hs : s.Holds a.aliasFirst a.eof depth) (ht : t.Holds b.guardFirst b.eof depth) :
    ((∃ m u, Accepts (arm (exprWithin room) (orWithin room)) s m u) ↔
      ∃ n u, Accepts (arm (exprWithin room) (orWithin room)) t n u) ∧
    ((∃ m u, Accepts (arm (exprWithin room) (orWithin room)) s m u) ↔
      ∃ e u, Accepts (exprWithin room Precedence.lowest) { s with tokens := a.rest } e u) ∧
    ∀ m u n v, Accepts (arm (exprWithin room) (orWithin room)) s m u →
      Accepts (arm (exprWithin room) (orWithin room)) t n v →
      Expr.eraseArm n = Expr.eraseArm m ∧ a.Says p g m := by
  have hsame : ∀ ts : List Token, List.Forall₂ (Token.Shifted 0) ts ts :=
    fun ts => List.forall₂_same.mpr fun x _ => .refl x
  obtain ⟨i, hpattern⟩ := hlike.pattern
  obtain ⟨j, hguard⟩ := hlike.guard
  obtain ⟨k, hrest, heof⟩ := hlike.rest
  obtain ⟨q, h, v, hv⟩ := aliasFirst_upToBody ha hs hp (hsame _) hg (hsame _)
  obtain ⟨q', h', w, hw⟩ := guardFirst_upToBody (hlike.formed ha) ht hp hpattern hg hguard
  rw [hlike.head] at hw
  -- both runs come to the body, with the same tokens left and the same read before them
  have hdepth : w.depth = v.depth := by rw [hv.depth, hw.depth, hs.depth, ht.depth]
  have hmoved : v.Moved k w := by
    refine ⟨?_, ?_, hdepth.ge⟩
    · rw [hv.tokens, hw.tokens]
      exact hrest
    · rw [hv.eof, hw.eof, hs.eof, ht.eof]
      exact heof
  refine ⟨⟨fun ⟨m, u, hm⟩ => ?_, fun ⟨n, u, hn⟩ => ?_⟩, hv.accepted_iff, fun m u n x hm hn => ⟨?_, hv.says hm⟩⟩
  · obtain ⟨n, y, hn, -⟩ := hv.again hw hmoved hdepth hm
    exact ⟨n, y, hn⟩
  · obtain ⟨m, y, hm, -⟩ := hw.again hv (hmoved.symm hdepth) hdepth.symm hn
    exact ⟨m, y, hm⟩
  · -- a run returns one thing only
    obtain ⟨n', y, hn', herase⟩ := hv.again hw hmoved hdepth hm
    have hrun := hn.run.symm.trans hn'.run
    cases hrun
    exact herase

end Orders

end Parser

end PatternPlan.Surface
