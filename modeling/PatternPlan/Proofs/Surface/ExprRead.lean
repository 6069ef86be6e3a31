import PatternPlan.Proofs.Surface.PatternRead
import PatternPlan.Surface.Parser.Expr

/-!
# Expressions are read back

An expression is read by one loop that puts calls, fields and operators behind what it has read.
So it is not enough to say that an expression is read from its words: the loop has to be able to go
on behind it.

* `binds` — how tightly the next token binds to what stands before it;
* `Expr.Ends` — what may follow an expression without being taken for a part of it;
* `ReadsSpine` — **an expression is read from its words, and the loop goes on behind it**;
* `readsExpr` — every expression that is written faithfully is read from its words.
-/

namespace PatternPlan.Surface

/-- How tightly a token of a kind binds to what stands before it. -/
def bindingOf (k : TokenKind) : Nat :=
  match k with
  | .lparen => Precedence.call
  | .dot => Precedence.field
  | k => match BinaryOp.ofKind? k with
    | some op => op.precedence
    | none => Precedence.lowest

/-- How tightly the next token binds: a parenthesis on another line does not. -/
def binds (x : Token) : List Token → Nat
  | [] => Precedence.lowest
  | t :: _ => if t.kind = .lparen && t.line ≠ x.line then Precedence.lowest else bindingOf t.kind

theorem precedence_pos (op : BinaryOp) : 0 < op.precedence := by cases op <;> decide

theorem precedence_lt_unary (op : BinaryOp) : op.precedence < Precedence.unary := by
  cases op <;> decide

namespace Expr

/-- What may follow an expression: nothing that binds so tightly that it would be taken for a part
of it, no `else` behind an expression that takes it, and no arm behind a match. -/
def Ends (e : Expr) (x : Token) (ts : List Token) : Prop :=
  match e with
  | binary _ op _ _ => binds x ts ≤ op.precedence
  | unary _ _ _ => binds x ts ≤ Precedence.unary
  | cond _ _ _ _ => binds x ts = 0 ∧ (e.takesElse = true → kindOf ts ≠ .kwElse)
  | select _ _ _ => binds x ts = 0 ∧ kindOf ts ≠ .kwElse ∧ kindOf ts ≠ .pipe
  | construct _ _ [] => binds x ts ≠ Precedence.call
  | _ => True

/-- An expression whose operators bind tighter than `q`. -/
def Admits (e : Expr) (q : Nat) : Prop :=
  match e with
  | binary _ op _ _ => q < op.precedence
  | _ => True

theorem admits_lowest (e : Expr) : e.Admits Precedence.lowest := by
  cases e <;> first | trivial | exact precedence_pos _

/-- What may follow an expression where nothing is an operand. -/
structure Closes (e : Expr) (x : Token) (ts : List Token) : Prop where
  binds : binds x ts = 0
  noElse : e.takesElse = true → kindOf ts ≠ .kwElse
  noBar : e.isSelect = true → kindOf ts ≠ .pipe

theorem Closes.ends {e : Expr} {x : Token} {ts : List Token} (h : e.Closes x ts) : e.Ends x ts := by
  have hzero := h.binds
  cases e with
  | binary m op l r => exact hzero.trans_le (Nat.zero_le _)
  | unary m op e => exact hzero.trans_le (Nat.zero_le _)
  | cond m c y n => exact ⟨hzero, h.noElse⟩
  | select m t arms => exact ⟨hzero, h.noElse rfl, h.noBar rfl⟩
  | construct m n es =>
    cases es with
    | nil =>
      show Surface.binds x ts ≠ Precedence.call
      rw [hzero]
      decide
    | cons e es => trivial
  | _ => trivial

end Expr

namespace Parser

variable {fits : Prop} {depth : Nat}

/-! ### The loop -/

/-- One round of putting something behind an expression. -/
def spineRound (expr : Nat → Parser Expr) (q : Nat) (left : Expr) : Parser (Round Expr Expr) := do
  let t ← current
  let n ← next
  if q < (← nextPrecedence) && !(n.kind = .lparen && n.line ≠ t.line) then
    advance
    let e ← extended expr left
    return .again e
  else return .done left

theorem exprBody_eq (expr : Nat → Parser Expr) (pattern : Parser Pattern) (q : Nat) :
    exprBody expr pattern q = atom expr pattern >>= fun first => iterate (spineRound expr q) first :=
  rfl

section Rounds

variable {expr : Nat → Parser Expr} {q : Nat} {left : Expr} {x t : Token} {ts : List Token}
  {post : Round Expr Expr → List Token → Prop}

theorem runs_nextPrecedence {α : Type} {f : Nat → Parser α} {post : α → List Token → Prop}
    (h : Runs fits depth (f (bindingOf (kindOf ts))) (x :: ts) post) :
    Runs fits depth (nextPrecedence >>= f) (x :: ts) post := by
  refine Runs.observe (fun s heof hs => ?_) h
  rw [Runs.next_kind heof hs]
  rfl

/-- The loop ends before what does not bind tightly enough. -/
theorem runs_stop_spine (hb : binds x ts ≤ q) (h : post (.done left) (x :: ts)) :
    Runs fits depth (spineRound expr q left) (x :: ts) post := by
  refine Runs.current (Runs.next fun n hn hfirst => runs_nextPrecedence ?_)
  rw [if_neg ?_]
  · exact Runs.pure h
  · intro hcond
    simp only [Bool.and_eq_true, decide_eq_true_eq, Bool.not_eq_true', Bool.and_eq_false_imp] at hcond
    cases ts with
    | nil => exact absurd hcond.1 (Nat.not_lt_zero q)
    | cons t ts =>
      have hnt := hfirst t ts rfl
      rw [hnt] at hcond
      rw [binds] at hb
      split at hb
      · rename_i hparen
        simp only [Bool.and_eq_true, decide_eq_true_eq] at hparen
        exact absurd hparen.2 (by simpa using hcond.2 hparen.1)
      · exact absurd hcond.1 (Nat.not_lt.mpr hb)

/-- The loop goes on with what binds tightly enough. -/
theorem runs_extend_spine (hb : q < binds x (t :: ts))
    (h : Runs fits depth (extended expr left) (t :: ts) fun e ts' => post (.again e) ts') :
    Runs fits depth (spineRound expr q left) (x :: t :: ts) post := by
  refine Runs.current (Runs.next fun n hn hfirst => runs_nextPrecedence ?_)
  rw [hfirst t ts rfl]
  rw [binds] at hb
  split at hb
  · exact absurd hb (Nat.not_lt_zero q)
  · rename_i hparen
    rw [if_pos ?_]
    · refine Runs.advance (Runs.bind h fun e ts' _ he => Runs.pure he)
    · rw [Bool.and_eq_true]
      refine ⟨decide_eq_true hb, ?_⟩
      rw [Bool.not_eq_true', ← Bool.not_eq_true]
      exact hparen

end Rounds

/-- **An expression is read from words `ws`, and the loop goes on behind it.**  Reading takes
`levels` levels of nesting, in a loop at a precedence that it `admits`, before what `ends` it. -/
def ReadsSpine (fits : Prop) (e : Expr) (ws : List Word) (levels : Nat) (admits : Nat → Prop)
    (ends : Rest) : Prop :=
  ∀ (depth room q : Nat) (K : Rest) (ts : List Token) (post : Expr → List Token → Prop),
    (fits → levels ≤ room) → q ≤ Precedence.unary → admits q → (∀ y ts, K y ts → ends y ts) →
    Begins ws K ts →
    (∀ e' ts', e'.erase = e.erase → At K ts' →
      Loops fits depth (spineRound (exprWithin room) q) e' ts' post) →
    Runs fits depth (atom (exprWithin room) (orWithin room) >>= fun first =>
      iterate (spineRound (exprWithin room) q) first) ts post

/-- An expression is read from its words. -/
def ReadsExpr (fits : Prop) (e : Expr) : Prop :=
  ReadsSpine fits e e.words e.levels e.Admits e.Ends

section Spines

variable {e : Expr} {ws : List Word} {levels : Nat} {admits : Nat → Prop} {ends : Rest}

/-- A whole expression, where the loop ends behind it. -/
theorem ReadsSpine.runs (h : ReadsSpine fits e ws levels admits ends) {room q : Nat}
    (hroom : fits → levels + 1 ≤ room) (hq : q ≤ Precedence.unary) (hadmits : admits q) {K : Rest}
    (hK : ∀ y ts, K y ts → ends y ts ∧ binds y ts ≤ q) {ts : List Token} (hts : Begins ws K ts) :
    Runs fits depth (exprWithin room q) ts fun e' ts' => e'.erase = e.erase ∧ At K ts' := by
  cases room with
  | zero => exact Runs.tooDeep fun hfits => absurd (hroom hfits) (by omega)
  | succ room =>
    refine Runs.nested ?_
    rw [exprBody_eq]
    refine h (depth + 1) room q K ts _ (fun hfits => Nat.le_of_succ_le_succ (hroom hfits))
      hq hadmits (fun y ts hy => (hK y ts hy).1) hts ?_
    rintro e' ts' herase ⟨y, ts, rfl, hy⟩
    exact Loops.step (runs_stop_spine (hK y ts hy).2 ⟨herase, y, ts, rfl, hy⟩)

/-- A whole expression that starts no loop, whatever it is read as. -/
theorem runs_aloneOf {R : Expr → Prop} {K : Rest} {room q : Nat} {ts : List Token}
    (h : Runs fits (depth + 1) (atom (exprWithin room) (orWithin room)) ts fun e ts' => R e ∧ At K ts')
    (hK : ∀ y ts, K y ts → binds y ts ≤ q) :
    Runs fits depth (exprWithin (room + 1) q) ts fun e ts' => R e ∧ At K ts' := by
  refine Runs.nested ?_
  rw [exprBody_eq]
  refine Runs.bind h ?_
  rintro e ts' - ⟨he, y, ts, rfl, hy⟩
  exact Runs.iterate (Loops.step (runs_stop_spine (hK y ts hy) ⟨he, y, ts, rfl, hy⟩))

/-- An expression that starts no loop. -/
theorem readsSpine_of_atom
    (h : ∀ (depth room : Nat) (K : Rest) (ts : List Token), (fits → levels ≤ room) →
      (∀ y ts, K y ts → ends y ts) → Begins ws K ts →
      Runs fits depth (atom (exprWithin room) (orWithin room)) ts
        fun e' ts' => e'.erase = e.erase ∧ At K ts') : ReadsSpine fits e ws levels admits ends := by
  intro depth room q K ts post hroom hq hadmits hK hts hrest
  refine Runs.bind (h depth room K ts hroom hK hts) ?_
  rintro e' ts' - ⟨herase, hat⟩
  exact Runs.iterate (hrest e' ts' herase hat)

end Spines

/-! ### Expressions in parentheses -/

theorem binds_of_kind {x : Token} {ts : List Token} {k : TokenKind} (hk : kindOf ts = k)
    (hparen : k ≠ .lparen) : binds x ts = bindingOf k := by
  cases ts with
  | nil =>
    rw [← hk]
    rfl
  | cons t ts =>
    have hkind : t.kind = k := hk
    rw [binds, hkind, if_neg]
    simp [hparen]

/-- The kinds of token that end every expression. -/
def closers : List TokenKind :=
  [.comma, .rparen, .rbracket, .rbrace, .semicolon, .kwThen, .kwWith, .arrow]

theorem closers_facts : ∀ k ∈ closers, k ≠ .lparen ∧ bindingOf k = 0 ∧ k ≠ .kwElse ∧ k ≠ .pipe := by
  decide

theorem closes_of_closers {e : Expr} {x : Token} {ts : List Token} (h : kindOf ts ∈ closers) :
    e.Closes x ts := by
  obtain ⟨hparen, hbinds, helse, hbar⟩ := closers_facts _ h
  exact ⟨(binds_of_kind rfl hparen).trans hbinds, fun _ => helse, fun _ => hbar⟩

section Groups

variable {e : Expr} {es : List Expr} {words : Expr → List Word} {K : Rest} {x : Token}
  {ts : List Token} {room : Nat}

/-- Expressions in parentheses: one is itself, more are a tuple. -/
theorem runs_group (hne : es ≠ [])
    (hwords : ∀ e ∈ es, ∃ w ws, words e = w :: ws ∧ w.kind ∈ Expr.starters)
    (h : ∀ e ∈ es, ReadsItem fits depth (exprWithin room Precedence.lowest) .rparen words Expr.erase e)
    (hx : x.kind = .lparen) (hts : After (commaWords (es.map words) ++ [Word.sign .rparen]) K x ts) :
    Runs fits depth (atom (exprWithin room) (orWithin room)) (x :: ts) fun e' ts' =>
      (∀ e, es = [e] → e'.erase = e.erase) ∧
      (2 ≤ es.length → e'.erase = .tuple default (es.map Expr.erase)) ∧ At K ts' := by
  have hother : ∀ k ∈ Expr.starters, k ≠ .rparen := by decide
  have hclose : ∀ e ∈ es, ∃ w ws, words e = w :: ws ∧ w.kind ≠ .rparen := by
    intro e he
    obtain ⟨w, ws, hw, hmem⟩ := hwords e he
    exact ⟨w, ws, hw, hother _ hmem⟩
  have hlist : Runs fits depth (exprList (exprWithin room) .rparen) (x :: ts)
      fun as ts' => as.map Expr.erase = es.map Expr.erase ∧ At K ts' :=
    runs_commaListOrNone _ hclose h hts rfl (by decide)
  have hfirst : kindOf ts ≠ .rparen := by
    obtain ⟨e, rest, rfl⟩ := List.exists_cons_of_ne_nil hne
    obtain ⟨w, ws, hw, hkind⟩ := hclose e List.mem_cons_self
    obtain ⟨more, hmore⟩ := commaWords_cons (words e) (rest.map words)
    rw [List.map_cons, hmore, hw] at hts
    rw [kindOf_of_after hts]
    exact hkind
  refine Runs.current ?_
  simp only [hx]
  refine Runs.current (Runs.stay hfirst (Runs.bind hlist ?_))
  rintro as ts' - ⟨herase, hat⟩
  have hlengths : as.length = es.length := by simpa using congrArg List.length herase
  match as, hlengths, herase with
  | [], hnone, _ => exact absurd (List.eq_nil_of_length_eq_zero hnone.symm) hne
  | [a], hone, herase =>
    refine Runs.pure ⟨?_, fun hlength => absurd hlength (by rw [← hone]; simp), hat⟩
    rintro e rfl
    exact (List.cons.inj herase).1
  | a :: b :: as, hmany, herase =>
    refine Runs.mark fun m => Runs.pure ⟨?_, fun _ => ?_, hat⟩
    · rintro e rfl
      cases hmany
    · rw [Expr.erase, Expr.eraseAll_eq, herase]

/-- A whole expression, with nothing around it. -/
theorem runs_plain (h : ReadsExpr fits e) (hroom : fits → e.levels + 1 ≤ room)
    (hK : ∀ y ts, K y ts → e.Closes y ts) (hts : Begins e.words K ts) :
    Runs fits depth (exprWithin room Precedence.lowest) ts
      fun e' ts' => e'.erase = e.erase ∧ At K ts' :=
  h.runs hroom (Nat.zero_le _) e.admits_lowest
    (fun y ts hy => ⟨(hK y ts hy).ends, (hK y ts hy).binds.le⟩) hts

theorem closers_of_endsItem {close : TokenKind} (hclose : close ∈ closers) (hK : EndsItem close K) :
    ∀ y ts, K y ts → kindOf ts ∈ closers := by
  intro y ts hy
  rcases hK y ts hy with hkind | hkind
  · rw [hkind]
    decide
  · rw [hkind]
    exact hclose

/-- **Parentheses around an expression** leave it as it is, whatever stands around them. -/
theorem ReadsExpr.parenthesized (hw : e.Writable) (h : ReadsExpr fits e) (b : Bool) :
    ReadsSpine fits e (parenthesizedWords b e.words) (if b then e.levels + 1 else e.levels)
      (fun q => b = false → e.Admits q) (fun y ts => b = false → e.Ends y ts) := by
  cases b with
  | false =>
    intro depth room q K ts post hroom hq hadmits hK hts hrest
    exact h depth room q K ts post hroom hq (hadmits rfl) (fun y ts hy => hK y ts hy rfl) hts hrest
  | true =>
    refine readsSpine_of_atom fun depth room K ts hroom _ hts => ?_
    have hwords : parenthesizedWords true e.words
        = Word.sign .lparen :: (commaWords ([e].map Expr.words) ++ [Word.sign .rparen]) := by
      rw [List.map_singleton, commaWords, List.intercalate_singleton]
      rfl
    rw [hwords] at hts
    obtain ⟨x, ts, rfl, hx, hrest⟩ := hts
    obtain ⟨w, ws, hw, hkind, -⟩ := Expr.opening_words hw
    refine (runs_group (List.cons_ne_nil e []) ?_ ?_ hx.kind hrest).mono ?_
    · simp only [List.mem_singleton, forall_eq]
      exact ⟨w, ws, hw, hkind⟩
    · simp only [List.mem_singleton, forall_eq]
      intro K ts hK hts
      have hclosers := closers_of_endsItem (by decide) hK
      exact runs_plain h hroom (fun y ts hy => closes_of_closers (hclosers y ts hy)) hts
    · rintro e' ts' - ⟨herase, -, hat⟩
      exact ⟨herase e rfl, hat⟩

end Groups

/-! ### Operands, and expressions that text follows -/

/-- What follows an operand that stands without parentheses may end it. -/
theorem ends_operand {e : Expr} {p : Nat} {x : Token} {ts : List Token} (hpos : 0 < p)
    (hp : p ≤ e.precedence) (hb : binds x ts ≤ p ∨ Precedence.call ≤ p)
    (hbare : e.isBare = true → binds x ts ≠ Precedence.call) : e.Ends x ts := by
  cases e with
  | binary m op l r =>
    have hop := precedence_lt_unary op
    have hle : p ≤ op.precedence := hp
    have hcall : Precedence.unary < Precedence.call := by decide
    show binds x ts ≤ op.precedence
    omega
  | unary m op e =>
    have hle : p ≤ Precedence.unary := hp
    have hcall : Precedence.unary < Precedence.call := by decide
    show binds x ts ≤ Precedence.unary
    omega
  | cond m c y n => exact absurd hp (Nat.not_le.mpr hpos)
  | select m t arms => exact absurd hp (Nat.not_le.mpr hpos)
  | construct m n es =>
    cases es with
    | nil => exact hbare rfl
    | cons e es => trivial
  | _ => trivial

theorem admits_operand {e : Expr} {p q : Nat} (hp : p ≤ e.precedence)
    (hq : q < p ∨ Precedence.unary ≤ p) : e.Admits q := by
  cases e with
  | binary m op l r =>
    have hop := precedence_lt_unary op
    have hle : p ≤ op.precedence := hp
    show q < op.precedence
    omega
  | _ => trivial

section Positions

variable {e : Expr} {K : Rest} {ts : List Token} {room : Nat}

/-- An operand is read from its words. -/
theorem ReadsExpr.operand (hw : e.Writable) (h : ReadsExpr fits e) {p : Nat} (hpos : 0 < p) :
    ReadsSpine fits e (Expr.operandWords p e e.words) (Expr.operandLevels p e e.levels)
      (fun q => q < p ∨ Precedence.unary ≤ p)
      (fun y ts => (binds y ts ≤ p ∨ Precedence.call ≤ p) ∧
        (e.isBare = true → binds y ts ≠ Precedence.call)) := by
  intro depth room q K ts post hroom hq hadmits hK hts hrest
  refine h.parenthesized hw (e.precedence < p) depth room q K ts post (fun hfits => ?_) hq
    (fun hb => ?_) (fun y ts hy hb => ?_) hts hrest
  · simpa only [Expr.operandLevels, decide_eq_true_eq] using hroom hfits
  · exact admits_operand (Nat.not_lt.mp (of_decide_eq_false hb)) hadmits
  · obtain ⟨hbinds, hbare⟩ := hK y ts hy
    exact ends_operand hpos (Nat.not_lt.mp (of_decide_eq_false hb)) hbinds hbare

/-- What may follow an expression that stands in parentheses if it is a match. -/
structure Follows (e : Expr) (x : Token) (ts : List Token) : Prop where
  binds : binds x ts = 0
  noElse : e.isSelect = false → e.takesElse = true → kindOf ts ≠ .kwElse

theorem follows_of_closers {x : Token} (h : kindOf ts ∈ closers) : Follows e x ts := by
  have hcloses : e.Closes x ts := closes_of_closers h
  exact ⟨hcloses.binds, fun _ => hcloses.noElse⟩

/-- An expression that text follows is read from its words. -/
theorem ReadsExpr.followed (hw : e.Writable) (h : ReadsExpr fits e) :
    ReadsSpine fits e (Expr.followedWords e e.words) (Expr.followedLevels e e.levels)
      (fun q => q = Precedence.lowest) (Follows e) := by
  intro depth room q K ts post hroom hq hadmits hK hts hrest
  refine h.parenthesized hw e.isSelect depth room q K ts post hroom hq (fun _ => ?_)
    (fun y ts hy hselect => ?_) hts hrest
  · rw [show q = Precedence.lowest from hadmits]
    exact e.admits_lowest
  · obtain ⟨hbinds, helse⟩ := hK y ts hy
    refine Expr.Closes.ends ⟨hbinds, helse hselect, fun hselects => ?_⟩
    rw [hselect] at hselects
    cases hselects

theorem runs_followed (hw : e.Writable) (h : ReadsExpr fits e)
    (hroom : fits → Expr.followedLevels e e.levels + 1 ≤ room)
    (hK : ∀ y ts, K y ts → Follows e y ts) (hts : Begins (Expr.followedWords e e.words) K ts) :
    Runs fits depth (exprWithin room Precedence.lowest) ts
      fun e' ts' => e'.erase = e.erase ∧ At K ts' :=
  (h.followed hw).runs hroom (Nat.zero_le _) rfl
    (fun y ts hy => ⟨hK y ts hy, (hK y ts hy).binds.le⟩) hts

theorem followed_cons (hw : e.Writable) :
    ∃ w ws, Expr.followedWords e e.words = w :: ws ∧ w.kind ∈ Expr.starters := by
  obtain ⟨w, ws, hwords, hkind, -⟩ := (Expr.opening_words hw).parenthesized e.isSelect
  exact ⟨w, ws, hwords, hkind⟩

theorem followed_ne (hw : e.Writable) : Expr.followedWords e e.words ≠ [] := by
  obtain ⟨w, ws, hwords, -⟩ := followed_cons hw
  rw [hwords]
  exact List.cons_ne_nil w ws

theorem operand_ne (hw : e.Writable) (p : Nat) : Expr.operandWords p e e.words ≠ [] := by
  obtain ⟨w, ws, hwords, -⟩ := (Expr.opening_words hw).parenthesized (e.precedence < p)
  rw [Expr.operandWords, hwords]
  exact List.cons_ne_nil w ws

/-- One of several expressions with commas between them. -/
theorem readsItem_followed (hw : e.Writable) (h : ReadsExpr fits e)
    (hroom : fits → Expr.followedLevels e e.levels + 1 ≤ room) {close : TokenKind}
    (hclose : close ∈ closers) :
    ReadsItem fits depth (exprWithin room Precedence.lowest) close
      (fun e => Expr.followedWords e e.words) Expr.erase e := by
  intro K ts hK hts
  have hclosers := closers_of_endsItem hclose hK
  exact runs_followed hw h hroom (fun y ts hy => follows_of_closers (hclosers y ts hy)) hts

/-- Expressions up to a closing token. -/
theorem runs_exprs {es : List Expr} (hw : ∀ e ∈ es, e.Writable) (h : ∀ e ∈ es, ReadsExpr fits e)
    (hroom : fits → Expr.levelsAll es ≤ room) {close : TokenKind} (hclose : close ∈ closers)
    (hstart : close ∉ Expr.starters) (hcomma : close ≠ .comma) {x : Token}
    (hts : After (commaWords (Expr.wordsAll es) ++ [Word.sign close]) K x ts) :
    Runs fits depth (exprList (exprWithin room) close) (x :: ts)
      fun as ts' => as.map Expr.erase = es.map Expr.erase ∧ At K ts' := by
  rw [Expr.wordsAll_eq] at hts
  refine runs_commaListOrNone _ (fun e he => ?_) (fun e he => ?_) hts rfl hcomma
  · obtain ⟨w, ws, hwords, hkind⟩ := followed_cons (hw e he)
    exact ⟨w, ws, hwords, fun hk => hstart (hk ▸ hkind)⟩
  · exact readsItem_followed (hw e he) (h e he)
      (fun hfits => (Expr.levels_le_all he).trans (hroom hfits)) hclose

end Positions

/-! ### Expressions that start no loop -/

section Atoms

variable {mark : Mark}

theorem readsExpr_ident {name : String} (hname : isLowerName name = true) :
    ReadsExpr fits (.ident mark name) := by
  refine readsSpine_of_atom fun depth room K ts _ _ hts => ?_
  obtain ⟨x, ts, rfl, hx, hrest⟩ := hts
  refine Runs.current ?_
  simp only [hx.kind.trans (kind_of_isLowerName hname)]
  refine Runs.pure ⟨?_, x, ts, rfl, hrest⟩
  rw [Expr.erase, Expr.erase, hx.text]
  rfl

/-- A constant that is one word. -/
theorem runs_value {x : Token} {w : Word} (hx : x.Spells w) {v : Literal} (hv : w.value = v)
    (hkind : w.kind ∈ [.int, .float, .string, .kwTrue, .kwFalse]) {expr : Nat → Parser Expr}
    {pattern : Parser Pattern} {K : Rest} {ts : List Token} (hK : K x ts) :
    Runs fits depth (atom expr pattern) (x :: ts) fun e' ts' =>
      e'.erase = Expr.erase (.literal mark v) ∧ At K ts' := by
  have hvalue : x.value.getD .unit = v := by
    rw [hx.value, hv]
    rfl
  rw [← hx.kind] at hkind
  simp only [List.mem_cons, List.not_mem_nil, or_false] at hkind
  refine Runs.current ?_
  rcases hkind with hk | hk | hk | hk | hk <;> simp only [hk, hvalue] <;>
    exact Runs.pure ⟨by rw [Expr.erase, Expr.erase], x, ts, rfl, hK⟩

theorem readsExpr_literal {v : Literal} (hv : v.Unsigned) : ReadsExpr fits (.literal mark v) := by
  refine readsSpine_of_atom fun depth room K ts _ _ hts => ?_
  rw [Expr.words] at hts
  cases v with
  | int i =>
    have hrange : 0 ≤ i ∧ i < 2 ^ 63 := hv
    rw [Literal.words, if_neg (by omega)] at hts
    obtain ⟨x, ts, rfl, hx, hrest⟩ := hts
    refine runs_value hx ?_ (by decide : TokenKind.int ∈ _) hrest
    show Literal.int (i.natAbs : Int) = _
    congr 1
    omega
  | float d =>
    rw [Literal.words, if_neg (by rw [hv.2]; decide)] at hts
    obtain ⟨x, ts, rfl, hx, hrest⟩ := hts
    exact runs_value hx rfl (by decide : TokenKind.float ∈ _) hrest
  | text s =>
    obtain ⟨x, ts, rfl, hx, hrest⟩ := hts
    exact runs_value hx rfl (by decide : TokenKind.string ∈ _) hrest
  | bool b =>
    obtain ⟨x, ts, rfl, hx, hrest⟩ := hts
    cases b with
    | true => exact runs_value hx (by decide) (by decide) hrest
    | false => exact runs_value hx (by decide) (by decide) hrest
  | unit =>
    obtain ⟨x, ts, rfl, hx, y, ts, rfl, hy, -, hrest⟩ := hts
    refine Runs.current ?_
    simp only [show x.kind = .lparen from hx.kind]
    refine Runs.current (Runs.skip hy.kind (Runs.mark fun m => Runs.pure ⟨?_, y, ts, rfl, hrest⟩))
    rw [Expr.erase, Expr.erase]

theorem readsExpr_construct {name : String} {es : List Expr} (hname : isUpperName name = true)
    (hw : ∀ e ∈ es, e.Writable) (h : ∀ e ∈ es, ReadsExpr fits e) :
    ReadsExpr fits (.construct mark name es) := by
  refine readsSpine_of_atom fun depth room K ts hroom hK hts => ?_
  have hkind := kind_of_isUpperName hname
  cases es with
  | nil =>
    obtain ⟨x, ts, rfl, hx, hrest⟩ := hts
    refine Runs.current ?_
    simp only [hx.kind.trans hkind]
    refine Runs.current (Runs.next fun n hn hfirst => ?_)
    have hends : binds x ts ≠ Precedence.call := hK x ts hrest
    -- a parenthesis on this line would bind as a call does
    have hother : (n.kind = .lparen && n.line = x.line) = false := by
      cases ts with
      | nil =>
        rw [hn]
        rfl
      | cons t ts =>
        rw [hfirst t ts rfl]
        refine Bool.eq_false_iff.mpr fun hparen => hends ?_
        rw [Bool.and_eq_true, decide_eq_true_eq, decide_eq_true_eq] at hparen
        rw [binds, hparen.1, hparen.2, if_neg (by simp)]
        rfl
    rw [hother]
    refine Runs.given (Runs.mark fun m => Runs.pure ⟨?_, x, ts, rfl, hrest⟩)
    rw [Expr.erase, Expr.erase, hx.text]
    rfl
  | cons e es =>
    rw [Expr.words] at hts
    simp only [List.append_assoc] at hts
    obtain ⟨x, ts, rfl, hx, y, ts, rfl, hy, hline, hlist⟩ := hts
    refine Runs.current ?_
    simp only [hx.kind.trans hkind]
    refine Runs.current (Runs.next fun n hn hfirst => ?_)
    have hparen : (y.kind = .lparen && y.line = x.line) = true := by
      rw [Bool.and_eq_true]
      exact ⟨decide_eq_true hy.kind, decide_eq_true (hline rfl)⟩
    rw [hfirst y ts rfl, hparen]
    refine Runs.advance (Runs.bind (runs_exprs hw h hroom (by decide) (by decide) (by decide) hlist) ?_)
    rintro as ts' - ⟨herase, hat⟩
    refine Runs.mark fun m => Runs.pure ⟨?_, hat⟩
    rw [Expr.erase, Expr.erase, Expr.eraseAll_eq, Expr.eraseAll_eq, herase, hx.text]
    rfl

theorem readsExpr_unary {op : UnaryOp} {e : Expr} (hw : e.Writable) (h : ReadsExpr fits e) :
    ReadsExpr fits (.unary mark op e) := by
  refine readsSpine_of_atom fun depth room K ts hroom hK hts => ?_
  rw [Expr.words] at hts
  rw [Expr.levels] at hroom
  obtain ⟨x, ts, rfl, hx, hrest⟩ := hts
  have hends : ∀ y ts, K y ts → ((binds y ts ≤ Precedence.unary ∨ Precedence.call ≤ Precedence.unary) ∧
      (e.isBare = true → binds y ts ≠ Precedence.call)) ∧ binds y ts ≤ Precedence.unary := by
    intro y ts hy
    have hle : binds y ts ≤ Precedence.unary := hK y ts hy
    have hcall : Precedence.unary < Precedence.call := by decide
    exact ⟨⟨.inl hle, fun _ => by omega⟩, hle⟩
  have hoperand : Runs fits depth (unaryWith (exprWithin room) op) (x :: ts)
      fun e' ts' => e'.erase = Expr.erase (.unary mark op e) ∧ At K ts' := by
    refine Runs.current (Runs.advance (Runs.bind ((h.operand hw (by decide)).runs hroom le_rfl
      (.inr le_rfl) hends (begins_of_after (operand_ne hw _) hrest)) ?_))
    rintro e' ts' - ⟨herase, hat⟩
    refine Runs.mark fun m => Runs.pure ⟨?_, hat⟩
    rw [Expr.erase, Expr.erase, herase]
  refine Runs.current ?_
  cases op with
  | negate =>
    simp only [show x.kind = .minus from hx.kind]
    exact hoperand
  | not =>
    simp only [show x.kind = .bang from hx.kind]
    exact hoperand

theorem readsExpr_tuple {es : List Expr} (hlength : 2 ≤ es.length) (hw : ∀ e ∈ es, e.Writable)
    (h : ∀ e ∈ es, ReadsExpr fits e) : ReadsExpr fits (.tuple mark es) := by
  refine readsSpine_of_atom fun depth room K ts hroom hK hts => ?_
  rw [Expr.words, Expr.wordsAll_eq, List.append_assoc] at hts
  obtain ⟨x, ts, rfl, hx, hrest⟩ := hts
  have hne : es ≠ [] := by
    rintro rfl
    exact absurd hlength (by decide)
  refine (runs_group hne (fun e he => followed_cons (hw e he)) (fun e he => ?_) hx.kind hrest).mono ?_
  · exact readsItem_followed (hw e he) (h e he)
      (fun hfits => (Expr.levels_le_all he).trans (hroom hfits)) (by decide)
  · rintro e' ts' - ⟨-, herase, hat⟩
    refine ⟨?_, hat⟩
    rw [herase hlength, Expr.erase, Expr.eraseAll_eq]

theorem readsExpr_array {es : List Expr} (hw : ∀ e ∈ es, e.Writable)
    (h : ∀ e ∈ es, ReadsExpr fits e) : ReadsExpr fits (.array mark es) := by
  refine readsSpine_of_atom fun depth room K ts hroom hK hts => ?_
  rw [Expr.words, List.append_assoc] at hts
  obtain ⟨x, ts, rfl, hx, hrest⟩ := hts
  refine Runs.current ?_
  simp only [show x.kind = .lbracket from hx.kind]
  refine Runs.bind (runs_exprs hw h hroom (by decide) (by decide) (by decide) hrest) ?_
  rintro as ts' - ⟨herase, hat⟩
  refine Runs.mark fun m => Runs.pure ⟨?_, hat⟩
  rw [Expr.erase, Expr.erase, Expr.eraseAll_eq, Expr.eraseAll_eq, herase]

theorem readsExpr_perform {name : String} {es : List Expr} (hname : isUpperName name = true)
    (hw : ∀ e ∈ es, e.Writable) (h : ∀ e ∈ es, ReadsExpr fits e) :
    ReadsExpr fits (.perform mark name es) := by
  refine readsSpine_of_atom fun depth room K ts hroom hK hts => ?_
  rw [Expr.words] at hts
  simp only [List.append_assoc] at hts
  obtain ⟨x, ts, rfl, hx, y, ts, rfl, hy, -, z, ts, rfl, hz, -, hrest⟩ := hts
  have hperform : x.kind = .kwPerform := hx.kind.trans (by decide)
  refine Runs.current ?_
  simp only [hperform]
  refine Runs.current (Runs.expect (hy.kind.trans (kind_of_isUpperName hname)) (Runs.current ?_))
  refine Runs.skipped hz.kind ?_
  rw [if_pos rfl]
  refine Runs.bind (runs_exprs hw h hroom (by decide) (by decide) (by decide) hrest) ?_
  rintro as ts' - ⟨herase, hat⟩
  refine Runs.mark fun m => Runs.pure ⟨?_, hat⟩
  rw [Expr.erase, Expr.erase, Expr.eraseAll_eq, Expr.eraseAll_eq, herase, hy.text]
  rfl

theorem readsExpr_cond {c y : Expr} {n : Option Expr} (hwc : c.Writable) (hwy : y.Writable)
    (hwn : ∀ e, n = some e → e.Writable) (hc : ReadsExpr fits c) (hy : ReadsExpr fits y)
    (hn : ∀ e, n = some e → ReadsExpr fits e)
    (helse : n.isSome = true → y.isSelect = false → y.takesElse = false) :
    ReadsExpr fits (.cond mark c y n) := by
  refine readsSpine_of_atom fun depth room K ts hroom hK hts => ?_
  have hthen : (Word.name "then").kind = .kwThen := by decide
  have hkwElse : (Word.name "else").kind = .kwElse := by decide
  have hroomc : fits → Expr.followedLevels c c.levels + 1 ≤ room := fun hfits => by
    have hle := hroom hfits
    rw [Expr.levels] at hle
    omega
  have hroomy : fits → Expr.followedLevels y y.levels + 1 ≤ room := fun hfits => by
    have hle := hroom hfits
    rw [Expr.levels] at hle
    omega
  rw [Expr.words_cond] at hts
  simp only [List.append_assoc] at hts
  obtain ⟨x, ts, rfl, hx, hrest⟩ := hts
  replace hrest : After (Expr.followedWords c c.words ++ ([Word.name "then"]
      ++ (Expr.followedWords y y.words ++ Expr.elseWords n))) K x ts := hrest
  rw [after_append] at hrest
  refine Runs.current ?_
  simp only [hx.kind.trans (by decide : (Word.name "if").kind = .kwIf)]
  refine Runs.current (Runs.advance (Runs.bind (runs_followed hwc hc hroomc (fun z ts hz => ?_)
    (begins_of_after (followed_ne hwc) hrest)) ?_))
  · refine follows_of_closers ?_
    rw [kindOf_of_after hz, hthen]
    decide
  rintro c' ts' - ⟨hec, z, ts, rfl, t, ts, rfl, ht, -, hyes⟩
  replace hyes : After (Expr.followedWords y y.words ++ Expr.elseWords n) K t ts := hyes
  rw [after_append] at hyes
  refine Runs.expect (ht.kind.trans hthen) (Runs.advance ?_)
  cases n with
  | none =>
    have hends : ∀ z ts, K z ts → binds z ts = 0 ∧ kindOf ts ≠ .kwElse := fun z ts hz =>
      ⟨(hK z ts hz).1, (hK z ts hz).2 rfl⟩
    refine Runs.bind (runs_followed hwy hy hroomy
      (fun z ts hz => ⟨(hends z ts hz).1, fun _ _ => (hends z ts hz).2⟩)
      (begins_of_after (followed_ne hwy) hyes)) ?_
    rintro y' ts' - ⟨hey, z, ts, rfl, hz⟩
    refine Runs.stayed (hends z ts hz).2 (Runs.given (Runs.mark fun m => Runs.pure ⟨?_, z, ts, rfl, hz⟩))
    rw [Expr.erase, Expr.erase, hec, hey, Expr.eraseOption]
  | some e =>
    have hroome : fits → Expr.followedLevels e e.levels + 1 ≤ room := fun hfits => by
      have hle := hroom hfits
      rw [Expr.levels, Expr.levelsOption] at hle
      omega
    refine Runs.bind (runs_followed hwy hy hroomy (fun z ts hz => ?_)
      (begins_of_after (followed_ne hwy) hyes)) ?_
    · have hkind : kindOf ts = .kwElse := (kindOf_of_after hz).trans hkwElse
      refine ⟨binds_of_kind hkind (by decide), fun hselect htakes => ?_⟩
      rw [helse rfl hselect] at htakes
      cases htakes
    rintro y' ts' - ⟨hey, z, ts, rfl, t, ts, rfl, ht, -, hno⟩
    refine Runs.skipped (ht.kind.trans hkwElse) ?_
    rw [if_pos rfl]
    refine Runs.advance (Runs.bind (runs_followed (hwn e rfl) (hn e rfl) hroome (fun z ts hz => ?_)
      (begins_of_after (followed_ne (hwn e rfl)) hno)) ?_)
    · refine ⟨(hK z ts hz).1, fun hselect htakes => (hK z ts hz).2 ?_⟩
      rw [Expr.takesElse, hselect, htakes]
      rfl
    rintro e' ts' - ⟨hee, hat⟩
    refine Runs.given (Runs.mark fun m => Runs.pure ⟨?_, hat⟩)
    rw [Expr.erase, Expr.erase, hec, hey, Expr.eraseOption, Expr.eraseOption, hee]

/-- The words of a field of a record. -/
def memberWords (f : String × Expr) : List Word :=
  [Word.name f.1] ++ [Word.sign .colon] ++ Expr.followedWords f.2 f.2.words

/-- One round of reading the fields of a record. -/
def memberRound (expr : Nat → Parser Expr) (fields : List (String × Expr)) :
    Parser (Round (List (String × Expr)) (List (String × Expr))) := do
  expect .lower "field name"
  let name := (← current).text
  expect .colon ":"
  advance
  let e ← expr Precedence.lowest
  let fields := fields ++ [(name, e)]
  if ← skip .comma then
    if ← nextIs .rbrace then return .done fields else return .again fields
  else return .done fields

theorem recordLiteral_eq (expr : Nat → Parser Expr) : recordLiteral expr = (do
    let start ← current
    let fields ← iterate (memberRound expr) []
    expect .rbrace "\x7d"
    return .record (← markFrom start) fields) := rfl

theorem runs_memberRound {room : Nat} {f : String × Expr} {K : Rest} {x : Token} {ts : List Token}
    (hname : isLowerName f.1 = true) (hw : f.2.Writable) (h : ReadsExpr fits f.2)
    (hroom : fits → Expr.followedLevels f.2 f.2.levels + 1 ≤ room)
    {done fields : List (String × Expr)} (hdone : fields.map Expr.eraseField = done.map Expr.eraseField)
    (hK : ∀ y ts, K y ts → kindOf ts ∈ closers) (hts : After (memberWords f) K x ts)
    {post : Round (List (String × Expr)) (List (String × Expr)) → List Token → Prop}
    (hrest : ∀ fields, fields.map Expr.eraseField = (done ++ [f]).map Expr.eraseField →
      ∀ y ts, K y ts → Runs fits depth (do
        if ← skip .comma then
          if ← nextIs .rbrace then return .done fields else return .again fields
        else return .done fields) (y :: ts) post) :
    Runs fits depth (memberRound (exprWithin room) fields) (x :: ts) post := by
  rw [memberWords, List.append_assoc] at hts
  obtain ⟨y, ts, rfl, hy, -, z, ts, rfl, hz, -, hvalue⟩ := hts
  refine Runs.expect (hy.kind.trans (kind_of_isLowerName hname)) (Runs.current ?_)
  refine Runs.expect hz.kind (Runs.advance (Runs.bind (runs_followed hw h hroom
    (fun y ts hy => follows_of_closers (hK y ts hy)) (begins_of_after (followed_ne hw) hvalue)) ?_))
  rintro e' ts' - ⟨herase, t, ts, rfl, ht⟩
  refine hrest _ (map_snoc hdone ?_) t ts ht
  rw [Expr.eraseField, Expr.eraseField, herase, hy.text]
  rfl

/-- **The fields of a record** are read up to its end. -/
theorem runs_members {front : List (String × Expr)} {last : String × Expr} {room : Nat} {K : Rest}
    (hnames : ∀ f ∈ front ++ [last], isLowerName f.1 = true) (hw : ∀ f ∈ front ++ [last], f.2.Writable)
    (h : ∀ f ∈ front ++ [last], ReadsExpr fits f.2)
    (hroom : ∀ f ∈ front ++ [last], fits → Expr.followedLevels f.2 f.2.levels + 1 ≤ room) {x : Token}
    {ts : List Token}
    (hts : After (commaWords ((front ++ [last]).map memberWords) ++ [Word.sign .rbrace]) K x ts) :
    Runs fits depth (iterate (memberRound (exprWithin room)) []) (x :: ts) fun fields ts' =>
      fields.map Expr.eraseField = (front ++ [last]).map Expr.eraseField ∧
        At (After [.sign .rbrace] K) ts' := by
  have hlast : last ∈ front ++ [last] := List.mem_append_right _ List.mem_cons_self
  rw [commaWords_concat, List.append_assoc] at hts
  refine Runs.iterate (Loops.commas (I := fun (done fields : List (String × Expr)) =>
    fields.map Expr.eraseField = done.map Expr.eraseField) ?_ ?_ rfl hts)
  · intro done f hf fields hfields K' y ts hnext hts
    have hf : f ∈ front ++ [last] := List.mem_append_left _ hf
    rw [after_append] at hts
    refine runs_memberRound (hnames f hf) (hw f hf) (h f hf) (hroom f hf) hfields
      (fun y ts hy => by rw [kindOf_of_after hy]; decide) hts ?_
    rintro fields hfields y ts ⟨z, ts, rfl, hz, -, hK'⟩
    -- behind the comma stands the name of another field
    have hname : kindOf ts ≠ .rbrace := by
      obtain ⟨left, hleft, hafter⟩ := hnext z ts hK'
      obtain ⟨g, hg, more, hmore⟩ : ∃ g ∈ front ++ [last], ∃ more,
          commaEnded memberWords left ++ (memberWords last ++ [Word.sign .rbrace]) =
            Word.name g.1 :: more := by
        cases left with
        | nil => exact ⟨last, hlast, _, rfl⟩
        | cons g left =>
          exact ⟨g, List.mem_append_left _ (hleft List.mem_cons_self), _, rfl⟩
      rw [hmore] at hafter
      rw [kindOf_of_after hafter, kind_of_isLowerName (hnames g hg)]
      decide
    refine Runs.skip hz.kind (Runs.refuse hname (Runs.pure ?_))
    exact ⟨fields, rfl, hfields, z, ts, rfl, hK'⟩
  · intro fields hfields y ts hts
    rw [after_append] at hts
    refine runs_memberRound (hnames last hlast) (hw last hlast) (h last hlast) (hroom last hlast)
      hfields (fun y ts hy => by rw [kindOf_of_after hy]; decide) hts ?_
    intro fields hfields y ts hy
    have hkind : kindOf ts = .rbrace := kindOf_of_after hy
    refine Runs.stay (by rw [hkind]; decide) (Runs.pure ?_)
    exact ⟨fields, rfl, hfields, y, ts, rfl, hy⟩

theorem readsExpr_record {fs : List (String × Expr)} (hne : fs ≠ [])
    (hnames : ∀ f ∈ fs, isLowerName f.1 = true) (hw : ∀ f ∈ fs, f.2.Writable)
    (h : ∀ f ∈ fs, ReadsExpr fits f.2) : ReadsExpr fits (.record mark fs) := by
  refine readsSpine_of_atom fun depth room K ts hroom hK hts => ?_
  rw [Expr.levels] at hroom
  have hlevels : ∀ f ∈ fs, fits → Expr.followedLevels f.2 f.2.levels + 1 ≤ room := fun f hf hfits =>
    (Expr.levels_le_fields hf).trans (hroom hfits)
  have hwords : Expr.words (.record mark fs)
      = Word.sign .lbrace :: (commaWords (fs.map memberWords) ++ [Word.sign .rbrace]) := by
    rw [Expr.words, Expr.wordsFields_eq]
    rfl
  rw [hwords] at hts
  obtain ⟨x, ts, rfl, hx, hrest⟩ := hts
  have hcolon : ∃ f ∈ fs, ∃ more, commaWords (fs.map memberWords) ++ [Word.sign .rbrace]
      = Word.name f.1 :: .sign .colon :: more := by
    obtain ⟨f, fs, rfl⟩ := List.exists_cons_of_ne_nil hne
    obtain ⟨more, hmore⟩ := commaWords_cons (memberWords f) (fs.map memberWords)
    rw [List.map_cons, hmore]
    exact ⟨f, List.mem_cons_self, _, rfl⟩
  obtain ⟨front, last, rfl⟩ := (List.eq_nil_or_concat' fs).resolve_left hne
  have hfields : Runs fits depth (iterate (memberRound (exprWithin room)) []) (x :: ts)
      fun fields ts' => fields.map Expr.eraseField = (front ++ [last]).map Expr.eraseField ∧
        At (After [.sign .rbrace] K) ts' := runs_members hnames hw h hlevels hrest
  obtain ⟨f, hf, more, hmore⟩ := hcolon
  have hstart := hrest
  rw [hmore] at hstart
  obtain ⟨y, ts, rfl, hy, -, z, ts, rfl, hz, -⟩ := hstart
  refine Runs.current ?_
  simp only [show x.kind = .lbrace from hx.kind]
  refine Runs.current (Runs.observe (b := true) (fun s _ hs => ?_) ?_)
  · rw [State.next, State.afterNext, hs]
    show (decide (y.kind = .lower) && decide (z.kind = .colon)) = true
    rw [hy.kind, hz.kind, kind_of_isLowerName (hnames f hf)]
    rfl
  rw [if_pos rfl, recordLiteral_eq]
  refine Runs.current (Runs.bind hfields ?_)
  rintro fields ts' - ⟨herase, t, ts, rfl, u, ts, rfl, hu, -, hat⟩
  refine Runs.expect hu.kind (Runs.mark fun m => Runs.pure ⟨?_, u, ts, rfl, hat⟩)
  rw [Expr.erase, Expr.erase, Expr.eraseFields_eq, Expr.eraseFields_eq, herase]

/-- One round of reading a block. -/
def blockRound (expr : Nat → Parser Expr) (lets : List (String × Expr)) :
    Parser (Round (List (String × Expr)) (List (String × Expr) × Option Expr)) := do
  if ← skip .rbrace then return .done (lets, none)
  else
    advance
    if ← currentIs .kwLet then
      expect .lower "binding name"
      let name := (← current).text
      expect .assign "="
      advance
      let e ← expr Precedence.lowest
      let _ ← skip .semicolon
      return .again (lets ++ [(name, e)])
    else
      let e ← expr Precedence.lowest
      let _ ← skip .semicolon
      expect .rbrace "\x7d"
      return .done (lets, some e)

theorem blockBody_eq (expr : Nat → Parser Expr) : blockBody expr = iterate (blockRound expr) [] := rfl

/-- The result of a block and its end, behind the bindings. -/
theorem runs_blockEnd {r : Option Expr} {room : Nat} {K : Rest} (hwr : ∀ e, r = some e → e.Writable)
    (hr : ∀ e, r = some e → ReadsExpr fits e) (hroomr : fits → ∀ e, r = some e → e.levels + 1 ≤ room)
    (before : List (String × Expr)) {x : Token} {ts : List Token}
    (hts : After (Expr.resultWords r ++ [Word.sign .rbrace]) K x ts) :
    Runs fits depth (blockRound (exprWithin room) before) (x :: ts) fun b ts' =>
      ∃ r', b = .done (before, r') ∧ r'.map Expr.erase = r.map Expr.erase ∧ At K ts' := by
  cases r with
  | none =>
    obtain ⟨y, ts, rfl, hy, -, hrest⟩ := hts
    exact Runs.skip hy.kind (Runs.pure ⟨none, rfl, rfl, y, ts, rfl, hrest⟩)
  | some e =>
    have hstarters : ∀ k ∈ Expr.starters, k ≠ .rbrace ∧ k ≠ .kwLet := by decide
    obtain ⟨w, ws, hwords, hkind, -⟩ := Expr.opening_words (hwr e rfl)
    replace hts : After (e.words ++ [Word.sign .rbrace]) K x ts := hts
    have hts' := hts
    rw [after_append] at hts
    rw [hwords] at hts'
    obtain ⟨y, ts, rfl, hy, -⟩ := hts'
    rw [← hy.kind] at hkind
    refine Runs.stay (hstarters _ hkind).1 (Runs.advance (Runs.currentIs ?_))
    rw [decide_eq_false (hstarters _ hkind).2]
    refine Runs.bind (runs_plain (hr e rfl) (fun hfits => hroomr hfits e rfl)
      (fun z ts hz => closes_of_closers ?_) (begins_of_after ?_ hts)) ?_
    · rw [kindOf_of_after hz]
      decide
    · rw [hwords]
      exact List.cons_ne_nil w ws
    rintro e' ts' - ⟨herase, z, ts, rfl, t, ts, rfl, ht, -, hrest⟩
    have hclose : kindOf (t :: ts) = .rbrace := ht.kind
    refine Runs.stayed (by rw [hclose]; decide) (Runs.expect hclose (Runs.pure ?_))
    exact ⟨some e', rfl, congrArg some herase, t, ts, rfl, hrest⟩

/-- A binding of a block. -/
theorem runs_blockLet {l : String × Expr} {room : Nat} {K : Rest} (hname : isLowerName l.1 = true)
    (hw : l.2.Writable) (h : ReadsExpr fits l.2)
    (hroom : fits → Expr.followedLevels l.2 l.2.levels + 1 ≤ room) (before : List (String × Expr))
    {x : Token} {ts : List Token}
    (hts : After ([Word.name "let"] ++ ([Word.name l.1] ++ ([Word.sign .assign]
      ++ (Expr.followedWords l.2 l.2.words ++ [Word.sign .semicolon])))) K x ts) :
    Runs fits depth (blockRound (exprWithin room) before) (x :: ts) fun b ts' =>
      ∃ l', b = .again (before ++ [l']) ∧ Expr.eraseField l' = Expr.eraseField l ∧
        ts'.length < (x :: ts).length ∧ At K ts' := by
  have hlet : (Word.name "let").kind = .kwLet := by decide
  obtain ⟨y, ts, rfl, hy, -, z, ts, rfl, hz, -, t, ts, rfl, ht, -, hvalue⟩ := hts
  replace hvalue : After (Expr.followedWords l.2 l.2.words ++ [Word.sign .semicolon]) K t ts := hvalue
  rw [after_append] at hvalue
  have hkind : y.kind = .kwLet := hy.kind.trans hlet
  have hother : kindOf (y :: z :: t :: ts) ≠ .rbrace := by
    rw [show kindOf (y :: z :: t :: ts) = .kwLet from hkind]
    decide
  refine Runs.stay hother (Runs.advance (Runs.currentIs ?_))
  rw [decide_eq_true hkind]
  refine Runs.expect (hz.kind.trans (kind_of_isLowerName hname)) (Runs.current ?_)
  refine Runs.expect ht.kind (Runs.advance (Runs.bind (runs_followed hw h hroom
    (fun y ts hy => follows_of_closers ?_) (begins_of_after (followed_ne hw) hvalue)) ?_))
  · rw [kindOf_of_after hy]
    decide
  rintro e' ts' hlength ⟨herase, u, ts, rfl, v, ts, rfl, hv, -, hrest⟩
  refine Runs.skipped hv.kind (Runs.pure ⟨(z.text, e'), rfl, ?_, ?_, v, ts, rfl, hrest⟩)
  · rw [Expr.eraseField, Expr.eraseField, herase, hz.text]
    rfl
  · simp only [List.length_cons] at hlength ⊢
    omega

/-- **The bindings and the result of a block**, behind the bindings read so far. -/
theorem loops_block {lets : List (String × Expr)} {r : Option Expr} {room : Nat} {K : Rest}
    (hnames : ∀ l ∈ lets, isLowerName l.1 = true) (hw : ∀ l ∈ lets, l.2.Writable)
    (h : ∀ l ∈ lets, ReadsExpr fits l.2)
    (hroom : fits → ∀ l ∈ lets, Expr.followedLevels l.2 l.2.levels + 1 ≤ room)
    (hwr : ∀ e, r = some e → e.Writable) (hr : ∀ e, r = some e → ReadsExpr fits e)
    (hroomr : fits → ∀ e, r = some e → e.levels + 1 ≤ room) (before : List (String × Expr)) {x : Token}
    {ts : List Token}
    (hts : After (Expr.wordsLets lets ++ (Expr.resultWords r ++ [Word.sign .rbrace])) K x ts) :
    Loops fits depth (blockRound (exprWithin room)) before (x :: ts) fun b ts' =>
      b.1.map Expr.eraseField = (before ++ lets).map Expr.eraseField ∧
        b.2.map Expr.erase = r.map Expr.erase ∧ At K ts' := by
  induction lets generalizing before x ts with
  | nil =>
    refine Loops.step ((runs_blockEnd hwr hr hroomr before hts).mono ?_)
    rintro b ts' - ⟨r', rfl, hresult, hat⟩
    exact ⟨by rw [List.append_nil], hresult, hat⟩
  | cons l lets ih =>
    rw [List.forall_mem_cons] at hnames hw h
    have hl : fits → Expr.followedLevels l.2 l.2.levels + 1 ≤ room := fun hfits =>
      hroom hfits l List.mem_cons_self
    have hwords : Expr.wordsLets (l :: lets) = ([Word.name "let"] ++ ([Word.name l.1]
        ++ ([Word.sign .assign] ++ (Expr.followedWords l.2 l.2.words ++ [Word.sign .semicolon]))))
        ++ Expr.wordsLets lets := by
      rw [Expr.wordsLets]
      simp only [List.append_assoc]
    rw [hwords, List.append_assoc, after_append] at hts
    refine Loops.step ((runs_blockLet hnames.1 hw.1 h.1 hl before hts).mono ?_)
    rintro b ts' - ⟨l', rfl, hfield, hlength, u, ts, rfl, hrest⟩
    have hloop := ih hnames.2 hw.2 h.2 (fun hfits l hl => hroom hfits l (List.mem_cons_of_mem _ hl))
      (before ++ [l']) hrest
    rw [List.append_assoc, List.map_append, List.singleton_append, List.map_cons, hfield,
      ← List.map_cons, ← List.map_append] at hloop
    exact ⟨hlength, hloop⟩

/-- No name with a colon stands behind the brace of a block. -/
theorem exists_blockStart (lets : List (String × Expr)) {r : Option Expr}
    (hwr : ∀ e, r = some e → e.Writable) :
    ∃ w ws, Expr.wordsLets lets ++ (Expr.resultWords r ++ [Word.sign .rbrace]) = w :: ws ∧
      (w.kind = .lower → ∃ v more, ws = v :: more ∧ v.kind ≠ .colon) := by
  have hlet : (Word.name "let").kind ≠ .lower := by decide
  cases lets with
  | cons l lets =>
    rw [Expr.wordsLets]
    exact ⟨.name "let", _, rfl, fun hk => absurd hk hlet⟩
  | nil =>
    cases r with
    | none => exact ⟨.sign .rbrace, [], rfl, fun hk => absurd hk (by decide)⟩
    | some e =>
      obtain ⟨w, ws, hwords, -, hcolon⟩ := Expr.opening_words (hwr e rfl)
      refine ⟨w, ws ++ [Word.sign .rbrace], ?_, fun _ => ?_⟩
      · rw [Expr.wordsLets, Expr.resultWords, hwords]
        rfl
      · cases ws with
        | nil => exact ⟨.sign .rbrace, [], rfl, by decide⟩
        | cons v ws => exact ⟨v, ws ++ [Word.sign .rbrace], rfl, hcolon v rfl⟩

theorem readsExpr_block {lets : List (String × Expr)} {r : Option Expr}
    (hnames : ∀ l ∈ lets, isLowerName l.1 = true) (hw : ∀ l ∈ lets, l.2.Writable)
    (h : ∀ l ∈ lets, ReadsExpr fits l.2) (hwr : ∀ e, r = some e → e.Writable)
    (hr : ∀ e, r = some e → ReadsExpr fits e) : ReadsExpr fits (.block mark lets r) := by
  refine readsSpine_of_atom fun depth room K ts hroom hK hts => ?_
  rw [Expr.words_block] at hts
  simp only [List.append_assoc] at hts
  obtain ⟨x, ts, rfl, hx, hrest⟩ := hts
  replace hrest : After (Expr.wordsLets lets ++ (Expr.resultWords r ++ [Word.sign .rbrace])) K x ts := hrest
  have hroomr : fits → ∀ e, r = some e → e.levels + 1 ≤ room := by
    rintro hfits e rfl
    have hle := hroom hfits
    rw [Expr.levels] at hle
    exact (le_max_right _ _).trans hle
  have hrooml : fits → ∀ l ∈ lets, Expr.followedLevels l.2 l.2.levels + 1 ≤ room := by
    intro hfits l hl
    have hle : Expr.levelsFields lets ≤ room := by
      refine le_trans ?_ (hroom hfits)
      cases r <;> rw [Expr.levels] <;> exact le_max_left _ _
    exact (Expr.levels_le_fields hl).trans hle
  have hbody : Runs fits depth (blockBody (exprWithin room)) (x :: ts) fun b ts' =>
      b.1.map Expr.eraseField = lets.map Expr.eraseField ∧ b.2.map Expr.erase = r.map Expr.erase ∧
        At K ts' := by
    rw [blockBody_eq]
    exact Runs.iterate (loops_block hnames hw h hrooml hwr hr hroomr [] hrest)
  refine Runs.current ?_
  simp only [show x.kind = .lbrace from hx.kind]
  refine Runs.current (Runs.observe (b := false) (fun s _ hs => ?_) ?_)
  · obtain ⟨w, ws, hwords, hcolon⟩ := exists_blockStart lets hwr
    rw [hwords] at hrest
    obtain ⟨y, ts, rfl, hy, -, hmore⟩ := hrest
    rw [State.next, State.afterNext, hs, Bool.and_eq_false_imp, decide_eq_true_eq]
    intro hlower
    obtain ⟨v, more, rfl, hv⟩ := hcolon (hy.kind.symm.trans hlower)
    obtain ⟨z, ts, rfl, hz, -⟩ := hmore
    refine decide_eq_false ?_
    show z.kind ≠ .colon
    rw [hz.kind]
    exact hv
  refine Runs.bind hbody ?_
  rintro ⟨lets', r'⟩ ts' - ⟨hlets, hresult, hat⟩
  refine Runs.mark fun m => Runs.pure ⟨?_, hat⟩
  rw [Expr.erase, Expr.erase, Expr.eraseFields_eq, Expr.eraseFields_eq, Expr.eraseOption_eq,
    Expr.eraseOption_eq, hlets, hresult]

/-! Matches. -/

/-- One round of reading what stands between a pattern and its arrow. -/
def headRound (expr : Nat → Parser Expr) (h : ArmHead) : Parser (Round ArmHead ArmHead) := do
  let n ← next
  if n.kind = .kwAs && h.asName.isNone then
    advance
    expect .lower "alias name"
    let name ← current
    return .again { h with asName := some ⟨name.text, name.span⟩ }
  else if (n.kind = .kwWhen || n.kind = .kwIf) && h.guard.isNone then
    advance
    advance
    let g ← expr Precedence.lowest
    return .again { h with guard := some g, usedIf := n.kind = .kwIf }
  else return .done h

theorem armHead_eq (expr : Nat → Parser Expr) : armHead expr = iterate (headRound expr) {} := rfl

section Heads

variable {room : Nat} {K : Rest} {x : Token} {ts : List Token}

/-- The arrow ends what stands between a pattern and it. -/
theorem loops_head_done {head : ArmHead} {expr : Nat → Parser Expr}
    {post : ArmHead → List Token → Prop} (hts : kindOf ts = .arrow) (h : post head (x :: ts)) :
    Loops fits depth (headRound expr) head (x :: ts) post := by
  refine Loops.step (Runs.next fun n hn _ => ?_)
  have hkind : n.kind = .arrow := hn.trans hts
  simp only [hkind]
  exact Runs.pure h

/-- A guard, if there is one, and the arrow. -/
theorem loops_head_guard {given : Option Alias} {guard : Option Expr} {usedIf : Bool}
    (head : ArmHead) (hgiven : head.asName.map eraseAlias = given.map eraseAlias)
    (hw : ∀ g, guard = some g → g.Writable) (h : ∀ g, guard = some g → ReadsExpr fits g)
    (hroom : fits → Expr.levelsOption guard ≤ room) (hplain : guard = none → usedIf = false)
    (hhead : head.guard = none ∧ head.usedIf = false)
    (hts : After (Expr.guardWords usedIf guard ++ [Word.sign .arrow]) K x ts) :
    Loops fits depth (headRound (exprWithin room)) head (x :: ts) fun head' ts' =>
      head'.asName.map eraseAlias = given.map eraseAlias ∧
        head'.guard.map Expr.erase = guard.map Expr.erase ∧ head'.usedIf = usedIf ∧
        At (After [.sign .arrow] K) ts' := by
  cases guard with
  | none =>
    have harrow : After [.sign .arrow] K x ts := hts
    refine loops_head_done (kindOf_of_after harrow) ⟨hgiven, ?_, ?_, x, ts, rfl, harrow⟩
    · rw [hhead.1]
    · rw [hhead.2, hplain rfl]
  | some g =>
    have hif : (Word.name "if").kind = .kwIf := by decide
    have hwhen : (Word.name "when").kind = .kwWhen := by decide
    rw [Expr.guardWords, List.append_assoc] at hts
    obtain ⟨y, ts, rfl, hy, -, hvalue⟩ := hts
    replace hvalue : After (Expr.followedWords g g.words ++ [Word.sign .arrow]) K y ts := hvalue
    rw [after_append] at hvalue
    have hkinds : (y.kind = .kwIf ∧ usedIf = true) ∨ (y.kind = .kwWhen ∧ usedIf = false) := by
      cases usedIf with
      | true => exact .inl ⟨hy.kind.trans hif, rfl⟩
      | false => exact .inr ⟨hy.kind.trans hwhen, rfl⟩
    have has : (y.kind = .kwAs && head.asName.isNone) = false := by
      rcases hkinds with ⟨hk, -⟩ | ⟨hk, -⟩ <;> rw [hk] <;> rfl
    have hguard : ((y.kind = .kwWhen || y.kind = .kwIf) && head.guard.isNone) = true := by
      rcases hkinds with ⟨hk, -⟩ | ⟨hk, -⟩ <;> rw [hk, hhead.1] <;> rfl
    have hused : decide (y.kind = .kwIf) = usedIf := by
      rcases hkinds with ⟨hk, hu⟩ | ⟨hk, hu⟩ <;> rw [hk, hu] <;> rfl
    refine Loops.step (Runs.next fun n _ hfirst => ?_)
    rw [hfirst y ts rfl, has, hguard, hused]
    refine Runs.advance (Runs.advance (Runs.bind (runs_followed (hw g rfl) (h g rfl) hroom
      (fun z ts hz => follows_of_closers ?_) (begins_of_after (followed_ne (hw g rfl)) hvalue)) ?_))
    · rw [kindOf_of_after hz]
      decide
    rintro g' ts' hlength ⟨herase, z, ts, rfl, hz⟩
    refine Runs.pure ⟨?_, loops_head_done (kindOf_of_after hz) ?_⟩
    · simp only [List.length_cons] at hlength ⊢
      omega
    · exact ⟨hgiven, congrArg some herase, rfl, z, ts, rfl, hz⟩

/-- **What stands between a pattern and its arrow.** -/
theorem runs_armHead {given : Option Alias} {guard : Option Expr} {usedIf : Bool}
    (hname : ∀ a, given = some a → isLowerName a.name = true)
    (hw : ∀ g, guard = some g → g.Writable) (h : ∀ g, guard = some g → ReadsExpr fits g)
    (hroom : fits → Expr.levelsOption guard ≤ room) (hplain : guard = none → usedIf = false)
    (hts : After (Expr.aliasWords given ++ (Expr.guardWords usedIf guard ++ [Word.sign .arrow])) K x ts) :
    Runs fits depth (armHead (exprWithin room)) (x :: ts) fun head ts' =>
      head.asName.map eraseAlias = given.map eraseAlias ∧
        head.guard.map Expr.erase = guard.map Expr.erase ∧ head.usedIf = usedIf ∧
        At (After [.sign .arrow] K) ts' := by
  rw [armHead_eq]
  refine Runs.iterate ?_
  cases given with
  | none =>
    exact loops_head_guard {} rfl hw h hroom hplain ⟨rfl, rfl⟩ hts
  | some a =>
    have has : (Word.name "as").kind = .kwAs := by decide
    obtain ⟨y, ts, rfl, hy, -, z, ts, rfl, hz, -, hrest⟩ := hts
    refine Loops.step (Runs.next fun n _ hfirst => ?_)
    have hkind : y.kind = .kwAs := hy.kind.trans has
    rw [hfirst y (z :: ts) rfl, hkind]
    refine Runs.advance (Runs.expect (hz.kind.trans (kind_of_isLowerName (hname a rfl))) ?_)
    refine Runs.current (Runs.pure ⟨by simp, ?_⟩)
    refine loops_head_guard _ ?_ hw h hroom hplain ⟨rfl, rfl⟩ hrest
    show some (eraseAlias ⟨z.text, z.span⟩) = some (eraseAlias a)
    rw [eraseAlias, eraseAlias, hz.text]
    rfl

end Heads

/-- One round of reading the arms of a match. -/
def armRound (expr : Nat → Parser Expr) (pattern : Parser Pattern) (arms : List (Arm Pattern Expr)) :
    Parser (Round (List (Arm Pattern Expr)) (List (Arm Pattern Expr))) := do
  if ← skip .pipe then
    let a ← arm expr pattern
    return .again (arms ++ [a])
  else return .done arms

/-- What reading an arm needs to know. -/
structure ReadsArmParts (fits : Prop) (room : Nat) (a : Arm Pattern Expr) : Prop where
  writable : ArmWritable a
  pattern : ReadsPattern fits a.pattern
  guardWritable : ∀ g, a.guard = some g → g.Writable
  guard : ∀ g, a.guard = some g → ReadsExpr fits g
  bodyWritable : a.body.Writable
  body : ReadsExpr fits a.body
  patternRoom : fits → a.pattern.levels .arm ≤ room
  guardRoom : fits → Expr.levelsOption a.guard ≤ room
  bodyRoom : fits → Expr.followedLevels a.body a.body.levels + 1 ≤ room

/-- What follows the pattern of an arm. -/
theorem follows_armPattern {given : Option Alias} {guard : Option Expr} {usedIf : Bool}
    {bodyWords : List Word} {K : Rest} {y : Token} {ts : List Token}
    (hy : After (Expr.aliasWords given ++ (Expr.guardWords usedIf guard ++ ([Word.sign .arrow] ++ bodyWords)))
      K y ts) : kindOf ts ∈ Pattern.followers .arm := by
  have hif : (Word.name "if").kind ∈ Pattern.followers .arm := by decide
  have hwhen : (Word.name "when").kind ∈ Pattern.followers .arm := by decide
  have has : (Word.name "as").kind ∈ Pattern.followers .arm := by decide
  cases given with
  | some given =>
    rw [Expr.aliasWords] at hy
    rw [kindOf_of_after hy]
    exact has
  | none =>
    cases guard with
    | none =>
      replace hy : After ([Word.sign .arrow] ++ bodyWords) K y ts := hy
      rw [kindOf_of_after hy]
      decide
    | some g =>
      rw [Expr.guardWords] at hy
      rw [kindOf_of_after hy]
      cases usedIf
      · exact hwhen
      · exact hif

/-- **One arm**, given how its pattern and its body are read. -/
theorem runs_armOf {room : Nat} {given : Option Alias} {guard : Option Expr} {usedIf : Bool}
    (hname : ∀ a, given = some a → isLowerName a.name = true)
    (hw : ∀ g, guard = some g → g.Writable) (h : ∀ g, guard = some g → ReadsExpr fits g)
    (hroom : fits → Expr.levelsOption guard ≤ room) (hplain : guard = none → usedIf = false)
    {patternWords bodyWords : List Word} (hpne : patternWords ≠ []) (hbne : bodyWords ≠ []) {K : Rest}
    {pattern : Parser Pattern} {P : Pattern → Prop} {B : Expr → Prop}
    (hpattern : ∀ K ts, (∀ y ts, K y ts → kindOf ts ∈ Pattern.followers .arm) →
      Begins patternWords K ts → Runs fits depth pattern ts fun p ts' => P p ∧ At K ts')
    (hbody : ∀ ts, Begins bodyWords K ts → Runs fits depth (exprWithin room Precedence.lowest) ts
      fun e ts' => B e ∧ At K ts')
    {x : Token} {ts : List Token}
    (hts : After (patternWords ++ (Expr.aliasWords given
      ++ (Expr.guardWords usedIf guard ++ ([Word.sign .arrow] ++ bodyWords)))) K x ts) :
    Runs fits depth (arm (exprWithin room) pattern) (x :: ts) fun b ts' =>
      (P b.pattern ∧ b.asName.map eraseAlias = given.map eraseAlias ∧
        b.guard.map Expr.erase = guard.map Expr.erase ∧ b.usedIf = usedIf ∧ B b.body) ∧ At K ts' := by
  rw [after_append] at hts
  refine Runs.current (Runs.advance (Runs.bind (hpattern _ ts (fun y ts hy => follows_armPattern hy)
    (begins_of_after hpne hts)) ?_))
  rintro p ts' - ⟨hp, y, ts, rfl, hy⟩
  rw [← List.append_assoc (Expr.guardWords _ _), ← List.append_assoc (Expr.aliasWords _),
    after_append] at hy
  refine Runs.bind (runs_armHead hname hw h hroom hplain hy) ?_
  rintro head ts' - ⟨hgiven, hguard, hused, z, ts, rfl, t, ts, rfl, ht, -, hrest⟩
  refine Runs.expect ht.kind (Runs.advance (Runs.bind (hbody ts (begins_of_after hbne hrest)) ?_))
  rintro e ts' - ⟨he, hat⟩
  exact Runs.span fun m => Runs.pure ⟨⟨hp, hgiven, hguard, hused, he⟩, hat⟩

/-- One arm, given how its body is read. -/
theorem runs_arm {room : Nat} {a : Arm Pattern Expr} (h : ReadsArmParts fits room a)
    {bodyWords : List Word} (hne : bodyWords ≠ []) {K : Rest}
    (hbody : ∀ ts, Begins bodyWords K ts → Runs fits depth (exprWithin room Precedence.lowest) ts
      fun e ts' => e.erase = a.body.erase ∧ At K ts')
    {x : Token} {ts : List Token}
    (hts : After (a.pattern.words .arm ++ (Expr.aliasWords a.asName
      ++ (Expr.guardWords a.usedIf a.guard ++ ([Word.sign .arrow] ++ bodyWords)))) K x ts) :
    Runs fits depth (arm (exprWithin room) (orWithin room)) (x :: ts) fun b ts' =>
      Expr.eraseArm b = Expr.eraseArm a ∧ At K ts' := by
  have hdepth : fits → a.pattern.depth .arm ≤ room := fun hfits =>
    (Pattern.depth_le_levels h.writable.pattern .arm).trans (h.patternRoom hfits)
  refine (runs_armOf h.writable.name h.guardWritable h.guard h.guardRoom h.writable.plain
    (Pattern.words_ne h.writable.pattern .arm) hne
    (fun K ts hK hts => h.pattern.arm depth room K ts hdepth hK hts) hbody hts).mono ?_
  rintro b ts' - ⟨⟨hpattern, hgiven, hguard, hused, hbody⟩, hat⟩
  refine ⟨?_, hat⟩
  rw [Expr.eraseArm, Expr.eraseArm, hpattern, hguard, hused, hgiven, hbody]

/-- **The arms of a match**, behind the arms read so far. -/
theorem loops_arms {room : Nat} {arms : List (Arm Pattern Expr)}
    (h : ∀ a ∈ arms, ReadsArmParts fits room a) {K : Rest}
    (hK : ∀ y ts, K y ts → binds y ts = 0 ∧ kindOf ts ≠ .kwElse ∧ kindOf ts ≠ .pipe)
    (before : List (Arm Pattern Expr)) {x : Token} {ts : List Token}
    (hts : After (Expr.wordsArms arms) K x ts) :
    Loops fits depth (armRound (exprWithin room) (orWithin room)) before (x :: ts) fun as ts' =>
      as.map Expr.eraseArm = (before ++ arms).map Expr.eraseArm ∧ At K ts' := by
  induction arms generalizing before x ts with
  | nil =>
    rw [List.append_nil]
    exact Loops.step (Runs.stay (hK x ts hts).2.2 (Runs.pure ⟨rfl, x, ts, rfl, hts⟩))
  | cons a arms ih =>
    rw [List.forall_mem_cons] at h
    -- the body of the last arm may be a match; another one stands before a bar
    have hbody : ∃ bodyWords, bodyWords ≠ [] ∧ (if arms.isEmpty then a.body.words
          else Expr.followedWords a.body a.body.words) = bodyWords ∧
        ∀ ts, Begins bodyWords (After (Expr.wordsArms arms) K) ts →
          Runs fits depth (exprWithin room Precedence.lowest) ts
            fun e ts' => e.erase = a.body.erase ∧ At (After (Expr.wordsArms arms) K) ts' := by
      cases arms with
      | nil =>
        obtain ⟨w, ws, hwords, -⟩ := Expr.opening_words h.1.bodyWritable
        refine ⟨a.body.words, by rw [hwords]; exact List.cons_ne_nil w ws, rfl, fun ts hts => ?_⟩
        refine runs_plain h.1.body (fun hfits => ?_) (fun y ts hy => ?_) hts
        · refine le_trans (Nat.succ_le_succ ?_) (h.1.bodyRoom hfits)
          rw [Expr.followedLevels]
          split
          · exact Nat.le_succ _
          · exact le_rfl
        · obtain ⟨hbinds, helse, hbar⟩ := hK y ts hy
          exact ⟨hbinds, fun _ => helse, fun _ => hbar⟩
      | cons b arms =>
        refine ⟨_, followed_ne h.1.bodyWritable, rfl, fun ts hts => ?_⟩
        refine runs_followed h.1.bodyWritable h.1.body h.1.bodyRoom (fun y ts hy => ?_) hts
        rw [Expr.wordsArms_cons] at hy
        simp only [List.append_assoc] at hy
        have hkind : kindOf ts = .pipe := kindOf_of_after hy
        refine ⟨binds_of_kind hkind (by decide), fun _ _ => ?_⟩
        rw [hkind]
        decide
    obtain ⟨bodyWords, hne, hwords, hbody⟩ := hbody
    rw [Expr.wordsArms_cons, hwords, after_append] at hts
    simp only [List.append_assoc] at hts
    obtain ⟨y, ts, rfl, hy, -, hrest⟩ := hts
    refine Loops.step (Runs.skip hy.kind (Runs.bind (runs_arm h.1 hne hbody hrest) ?_))
    rintro b ts' hlength ⟨herase, z, ts, rfl, hz⟩
    have hloop := ih h.2 (before ++ [b]) hz
    refine Runs.pure ⟨?_, ?_⟩
    · simp only [List.length_cons] at hlength ⊢
      omega
    · rw [List.append_assoc, List.map_append, List.singleton_append, List.map_cons, herase,
        ← List.map_cons, ← List.map_append] at hloop
      exact hloop

theorem selection_eq (expr : Nat → Parser Expr) (pattern : Parser Pattern) :
    selection expr pattern = (do
      let start ← current
      advance
      let target ← expr Precedence.lowest
      expect .kwWith "with"
      if ← nextIs .pipe then
        let arms ← iterate (armRound expr pattern) []
        return .select (← markFrom start) target arms
      else rejectNext "| to start a match arm") := rfl

/-- **A match**, given how its target and its arms are read. -/
theorem runs_selectionOf {room : Nat} {targetWords armWords : List Word} {T : Expr → Prop}
    {A : List (Arm Pattern Expr) → Prop} (hne : targetWords ≠ []) {K : Rest}
    (htarget : ∀ K ts, (∀ y ts, K y ts → kindOf ts = .kwWith) → Begins targetWords K ts →
      Runs fits depth (exprWithin room Precedence.lowest) ts fun e ts' => T e ∧ At K ts')
    (hbar : ∃ ws, armWords = Word.sign .pipe :: ws)
    (harms : ∀ x ts, After armWords K x ts →
      Loops fits depth (armRound (exprWithin room) (orWithin room)) [] (x :: ts)
        fun as ts' => A as ∧ At K ts')
    {ts : List Token}
    (hts : Begins ([Word.name "match"] ++ (targetWords ++ ([Word.name "with"] ++ armWords))) K ts) :
    Runs fits depth (atom (exprWithin room) (orWithin room)) ts fun e ts' =>
      (∃ m t as, e = .select m t as ∧ T t ∧ A as) ∧ At K ts' := by
  have hwith : (Word.name "with").kind = .kwWith := by decide
  obtain ⟨x, ts, rfl, hx, hrest⟩ := hts
  replace hrest : After (targetWords ++ ([Word.name "with"] ++ armWords)) K x ts := hrest
  rw [after_append] at hrest
  refine Runs.current ?_
  simp only [hx.kind.trans (by decide : (Word.name "match").kind = .kwMatch), selection_eq]
  refine Runs.current (Runs.advance (Runs.bind (htarget _ ts (fun z ts hz => ?_)
    (begins_of_after hne hrest)) ?_))
  · rw [kindOf_of_after hz, hwith]
  rintro t ts' - ⟨ht, z, ts, rfl, y, ts, rfl, hy, -, hrest⟩
  replace hrest : After armWords K y ts := hrest
  have hpipe : kindOf ts = .pipe := by
    obtain ⟨ws, rfl⟩ := hbar
    exact kindOf_of_after hrest
  refine Runs.expect (hy.kind.trans hwith) (Runs.choose hpipe (Runs.bind (Runs.iterate
    (harms y ts hrest)) ?_))
  rintro as ts' - ⟨has, hat⟩
  exact Runs.mark fun m => Runs.pure ⟨⟨m, t, as, rfl, ht, has⟩, hat⟩

theorem readsExpr_select {t : Expr} {arms : List (Arm Pattern Expr)} (hwt : t.Writable)
    (ht : ReadsExpr fits t) (hne : arms ≠ [])
    (h : ∀ a ∈ arms, ∀ room, (fits → Expr.levelsArms arms ≤ room) → ReadsArmParts fits room a) :
    ReadsExpr fits (.select mark t arms) := by
  refine readsSpine_of_atom fun depth room K ts hroom hK hts => ?_
  have hroomt : fits → Expr.followedLevels t t.levels + 1 ≤ room := fun hfits => by
    have hle := hroom hfits
    rw [Expr.levels] at hle
    exact (le_max_left _ _).trans hle
  have hrooma : fits → Expr.levelsArms arms ≤ room := fun hfits => by
    have hle := hroom hfits
    rw [Expr.levels] at hle
    exact (le_max_right _ _).trans hle
  have hbar : ∃ ws, Expr.wordsArms arms = Word.sign .pipe :: ws := by
    obtain ⟨a, arms, rfl⟩ := List.exists_cons_of_ne_nil hne
    rw [Expr.wordsArms_cons]
    simp only [List.append_assoc]
    exact ⟨_, rfl⟩
  rw [Expr.words] at hts
  simp only [List.append_assoc] at hts
  refine (runs_selectionOf (followed_ne hwt) (fun K ts hK hts => runs_followed hwt ht hroomt
    (fun y ts hy => follows_of_closers ?_) hts) hbar
    (fun x ts hts => loops_arms (fun a ha => h a ha room hrooma) hK [] hts) hts).mono ?_
  · rw [hK y ts hy]
    decide
  rintro e ts' - ⟨⟨m, t', as, rfl, htarget, harms⟩, hat⟩
  refine ⟨?_, hat⟩
  rw [Expr.erase, Expr.erase, Expr.eraseArms_eq, Expr.eraseArms_eq, htarget, harms, List.nil_append]

end Atoms

/-! ### Expressions with something behind them -/

section Extensions

variable {mark : Mark}

theorem bindingOf_binary (op : BinaryOp) : bindingOf (Expr.binaryKind op) = op.precedence := by
  cases op <;> rfl

theorem binaryKind_ne (op : BinaryOp) : Expr.binaryKind op ≠ .lparen := by cases op <;> decide

/-- An operator and its right operand. -/
theorem runs_extended_binary {op : BinaryOp} {l : Expr} {expr : Nat → Parser Expr} {t : Token}
    {ts : List Token} (ht : t.kind = Expr.binaryKind op) {post : Expr → List Token → Prop}
    (h : Runs fits depth (expr op.precedence) ts fun r ts' => ∀ m, post (.binary m op l r) ts') :
    Runs fits depth (extended expr l) (t :: ts) post := by
  have hright : Runs fits depth (do
      advance
      let r ← expr op.precedence
      return .binary ⟨t, l.span.join r.span⟩ op l r) (t :: ts) post :=
    Runs.advance (Runs.bind h fun r ts' _ hr => Runs.pure (hr _))
  refine Runs.current ?_
  cases op <;> simp only [show t.kind = _ from ht, Expr.binaryKind, BinaryOp.ofKind?] <;> exact hright

theorem readsExpr_binary {op : BinaryOp} {l r : Expr} (hwl : l.Writable) (hwr : r.Writable)
    (hl : ReadsExpr fits l) (hr : ReadsExpr fits r) : ReadsExpr fits (.binary mark op l r) := by
  intro depth room q K ts post hroom hq hadmits hK hts hrest
  have hop := precedence_lt_unary op
  have hpos := precedence_pos op
  have hcall : Precedence.unary < Precedence.call := by decide
  rw [Expr.levels] at hroom
  rw [Expr.words, List.append_assoc, begins_append (operand_ne hwl _)] at hts
  refine (hl.operand hwl hpos) depth room q _ ts post (fun hfits => (le_max_left _ _).trans (hroom hfits))
    hq (.inl hadmits) ?_ hts ?_
  · intro y ts hy
    have hbinds : binds y ts = op.precedence :=
      (binds_of_kind (kindOf_of_after hy) (binaryKind_ne op)).trans (bindingOf_binary op)
    rw [hbinds]
    exact ⟨.inl le_rfl, fun _ => by omega⟩
  rintro l' ts' hel ⟨y, ts, rfl, t, ts, rfl, ht, -, hright⟩
  have hkind : kindOf (t :: ts) = Expr.binaryKind op := ht.kind
  have hbinds : q < binds y (t :: ts) := by
    rw [binds_of_kind hkind (binaryKind_ne op), bindingOf_binary]
    exact hadmits
  refine Loops.step (runs_extend_spine hbinds (runs_extended_binary ht.kind ?_))
  refine ((hr.operand hwr (Nat.succ_pos _)).runs (fun hfits => (le_max_right _ _).trans (hroom hfits))
    hop.le (.inl (Nat.lt_succ_self _)) (fun y ts hy => ?_) (begins_of_after (operand_ne hwr _) hright)).mono ?_
  · have hle : binds y ts ≤ op.precedence := hK y ts hy
    exact ⟨⟨.inl (hle.trans (Nat.le_succ _)), fun _ => by omega⟩, hle⟩
  · rintro r' ts' hlength ⟨her, hat⟩ m
    refine ⟨Nat.lt_succ_of_le (Nat.le_succ_of_le hlength), hrest _ ts' ?_ hat⟩
    rw [Expr.erase, Expr.erase, hel, her]

theorem readsExpr_call {f : Expr} {es : List Expr} (hwf : f.Writable) (hf : ReadsExpr fits f)
    (hbare : f.isBare = false) (hw : ∀ e ∈ es, e.Writable) (h : ∀ e ∈ es, ReadsExpr fits e) :
    ReadsExpr fits (.call mark f es) := by
  intro depth room q K ts post hroom hq hadmits hK hts hrest
  rw [Expr.levels] at hroom
  rw [Expr.words] at hts
  simp only [List.append_assoc] at hts
  rw [begins_append (operand_ne hwf _)] at hts
  refine (hf.operand hwf (by decide)) depth room q _ ts post
    (fun hfits => (le_max_left _ _).trans (hroom hfits)) hq (.inl (Nat.lt_succ_of_le hq)) ?_ hts ?_
  · intro y ts _
    refine ⟨.inr le_rfl, fun hbare' => ?_⟩
    rw [hbare] at hbare'
    cases hbare'
  rintro f' ts' hef ⟨y, ts, rfl, t, ts, rfl, ht, hline, hargs⟩
  have hkind : t.kind = .lparen := ht.kind
  have hbinds : q < binds y (t :: ts) := by
    rw [binds, if_neg (by simp [hline rfl]), hkind]
    exact Nat.lt_succ_of_le hq
  refine Loops.step (runs_extend_spine hbinds (Runs.current ?_))
  simp only [hkind]
  refine Runs.bind (runs_exprs hw h (fun hfits => (le_max_right _ _).trans (hroom hfits)) (by decide)
    (by decide) (by decide) hargs) ?_
  rintro as ts' hlength ⟨herase, z, ts, rfl, hz⟩
  refine Runs.current (Runs.pure ⟨Nat.lt_succ_of_le hlength, hrest _ _ ?_ ⟨z, ts, rfl, hz⟩⟩)
  rw [Expr.erase, Expr.erase, Expr.eraseAll_eq, Expr.eraseAll_eq, hef, herase]

theorem readsExpr_field {e : Expr} {name : String} (hw : e.Writable) (h : ReadsExpr fits e)
    (hname : isLowerName name = true) : ReadsExpr fits (.field mark e name) := by
  intro depth room q K ts post hroom hq hadmits hK hts hrest
  have hdot : ∀ y ts, kindOf ts = .dot → binds y ts = Precedence.field := fun y ts hk =>
    binds_of_kind hk (by decide)
  rw [Expr.levels] at hroom
  rw [Expr.words, List.append_assoc, begins_append (operand_ne hw _)] at hts
  refine (h.operand hw (by decide)) depth room q _ ts post hroom hq (.inl (Nat.lt_succ_of_le hq)) ?_
    hts ?_
  · intro y ts hy
    refine ⟨.inr le_rfl, fun _ => ?_⟩
    rw [hdot y ts (kindOf_of_after hy)]
    decide
  rintro e' ts' hee ⟨y, ts, rfl, t, ts, rfl, ht, -, z, ts, rfl, hz, -, hat⟩
  have hkind : t.kind = .dot := ht.kind
  have hbinds : q < binds y (t :: z :: ts) := by
    rw [hdot y (t :: z :: ts) hkind]
    exact Nat.lt_of_le_of_lt hq (by decide)
  refine Loops.step (runs_extend_spine hbinds (Runs.current ?_))
  simp only [hkind]
  refine Runs.expect (hz.kind.trans (kind_of_isLowerName hname)) (Runs.current (Runs.pure ⟨?_, ?_⟩))
  · simp
  · refine hrest _ _ ?_ ⟨z, ts, rfl, hat⟩
    rw [Expr.erase, Expr.erase, hee, hz.text]
    rfl

end Extensions

/-- **Every expression that is written faithfully is read from its words.** -/
theorem readsExpr {e : Expr} (h : e.Writable) (hfaithful : e.faithful = true) : ReadsExpr fits e := by
  induction h with
  | ident hname => exact readsExpr_ident hname
  | literal hvalue => exact readsExpr_literal hvalue
  | construct hname hw ih =>
    rw [Expr.faithful, Expr.allFaithful_iff] at hfaithful
    exact readsExpr_construct hname hw fun e he => ih e he (hfaithful e he)
  | call hwf hw ihf ih =>
    rw [Expr.faithful, Bool.and_eq_true, Bool.and_eq_true, Bool.not_eq_true', Expr.allFaithful_iff]
      at hfaithful
    obtain ⟨⟨hbare, hf⟩, hes⟩ := hfaithful
    exact readsExpr_call hwf (ihf hf) hbare hw fun e he => ih e he (hes e he)
  | unary hw ih =>
    rw [Expr.faithful] at hfaithful
    exact readsExpr_unary hw (ih hfaithful)
  | binary hwl hwr ihl ihr =>
    rw [Expr.faithful, Bool.and_eq_true] at hfaithful
    exact readsExpr_binary hwl hwr (ihl hfaithful.1) (ihr hfaithful.2)
  | cond hwc hwy hwn ihc ihy ihn =>
    rw [Expr.faithful, Bool.and_eq_true, Bool.and_eq_true, Bool.and_eq_true, Expr.optionFaithful_iff]
      at hfaithful
    obtain ⟨⟨⟨hc, hy⟩, hn⟩, helse⟩ := hfaithful
    refine readsExpr_cond hwc hwy hwn (ihc hc) (ihy hy) (fun e he => ihn e he (hn e he)) ?_
    intro hsome hselect
    rw [Bool.or_eq_true, Bool.or_eq_true, Option.isNone_iff_eq_none, hselect, Bool.not_eq_true'] at helse
    rcases helse with (hnone | hfalse) | htakes
    · rw [hnone] at hsome
      cases hsome
    · cases hfalse
    · exact htakes
  | select hwt hne harms hwg hwb iht ihg ihb =>
    rw [Expr.faithful, Bool.and_eq_true, Expr.armsFaithful_iff] at hfaithful
    refine readsExpr_select hwt (iht hfaithful.1) hne fun a ha room hroom => ?_
    obtain ⟨hp, hg, hb⟩ := hfaithful.2 a ha
    have hlevels := Expr.levels_le_arms ha
    exact {
      writable := harms a ha
      pattern := readsPattern (harms a ha).pattern hp
      guardWritable := hwg a ha
      guard := fun g hguard => ihg a ha g hguard (hg g hguard)
      bodyWritable := hwb a ha
      body := ihb a ha hb
      patternRoom := fun hfits => hlevels.1.trans (hroom hfits)
      guardRoom := fun hfits => hlevels.2.1.trans (hroom hfits)
      bodyRoom := fun hfits => hlevels.2.2.trans (hroom hfits) }
  | block hnames hw hwr ih ihr =>
    rw [Expr.faithful, Bool.and_eq_true, Expr.fieldsFaithful_iff, Expr.optionFaithful_iff] at hfaithful
    exact readsExpr_block hnames hw (fun l hl => ih l hl (hfaithful.1 l hl)) hwr
      fun e he => ihr e he (hfaithful.2 e he)
  | perform hname hw ih =>
    rw [Expr.faithful, Expr.allFaithful_iff] at hfaithful
    exact readsExpr_perform hname hw fun e he => ih e he (hfaithful e he)
  | tuple hlength hw ih =>
    rw [Expr.faithful, Expr.allFaithful_iff] at hfaithful
    exact readsExpr_tuple hlength hw fun e he => ih e he (hfaithful e he)
  | array hw ih =>
    rw [Expr.faithful, Expr.allFaithful_iff] at hfaithful
    exact readsExpr_array hw fun e he => ih e he (hfaithful e he)
  | record hne hnames hw ih =>
    rw [Expr.faithful, Expr.fieldsFaithful_iff] at hfaithful
    exact readsExpr_record hne hnames hw fun f hf => ih f hf (hfaithful f hf)
  | field hw hname ih =>
    rw [Expr.faithful] at hfaithful
    exact readsExpr_field hw (ih hfaithful) hname

end Parser

end PatternPlan.Surface
