import PatternPlan.Proofs.Surface.ExprRead
import PatternPlan.Proofs.Surface.ParsedWritable
import PatternPlan.Proofs.Surface.TypeRead

/-!
# Files are read back

* `alike_print` — the text of an expression and its words start alike;
* `Decl.Ends`, `ends_of_lines` — what may follow a declaration, and that the next line of a file
  that is written faithfully may;
* `runs_declaration` — **a declaration is read from its words**;
* `reads_declarations`, `reads_program` — the same for the lines of a file: either the file is read
  back, or the nesting limit is reported, and that only where the file does not fit.
-/

namespace PatternPlan.Surface

/-! ### How written expressions start -/

/-- The text starts with a minus sign or a parenthesis where the words do. -/
structure Alike (ws : List Word) (cs : List Char) : Prop where
  minus : ∀ w, ws.head? = some w → w.kind = .minus → cs.head? = some '-'
  paren : ∀ w, ws.head? = some w → w.kind = .lparen → cs.head? = some '('

namespace Alike

variable {w : Word} {ws : List Word} {cs : List Char} {k : TokenKind}

/-- The first word is no such sign. -/
theorem other (hw : w.kind = k) (hk : k ≠ .minus ∧ k ≠ .lparen) : Alike (w :: ws) cs := by
  refine ⟨fun v hv hkind => ?_, fun v hv hkind => ?_⟩
  · cases hv
    exact absurd (hw.symm.trans hkind) hk.1
  · cases hv
    exact absurd (hw.symm.trans hkind) hk.2

theorem opened : Alike (.sign .lparen :: ws) ('(' :: cs) := by
  refine ⟨fun v hv hkind => ?_, fun _ _ _ => rfl⟩
  cases hv
  cases hkind

theorem append (h : Alike ws cs) (hws : ws ≠ []) (hcs : cs ≠ []) (more : List Word)
    (rest : List Char) : Alike (ws ++ more) (cs ++ rest) := by
  obtain ⟨w, ws, rfl⟩ := List.exists_cons_of_ne_nil hws
  obtain ⟨c, cs, rfl⟩ := List.exists_cons_of_ne_nil hcs
  exact ⟨h.minus, h.paren⟩

end Alike

theorem alike_literal {v : Literal} (h : v.Unsigned) : Alike v.words v.source.toList := by
  cases v with
  | int i =>
    have hrange : 0 ≤ i ∧ i < 2 ^ 63 := h
    rw [Literal.words, if_neg (by omega)]
    exact .other (k := .int) rfl (by decide)
  | float d =>
    rw [Literal.words, if_neg (by rw [h.2]; decide)]
    exact .other (k := .float) rfl (by decide)
  | text s => exact .other (k := .string) rfl (by decide)
  | bool b =>
    cases b with
    | true => exact .other (k := .kwTrue) (by decide) (by decide)
    | false => exact .other (k := .kwFalse) (by decide) (by decide)
  | unit => exact .opened

/-- An operand that something stands behind. -/
theorem alike_operand {e : Expr} {level : Nat} (hw : e.Writable)
    (h : Alike e.words (e.print level).toList) (parent : Nat) (more : List Word) (rest : List Char) :
    Alike (Expr.operandWords parent e e.words ++ more)
      ((Expr.operand parent e (e.print level)).toList ++ rest) := by
  rw [Expr.operandWords, Expr.operand]
  cases decide (e.precedence < parent) with
  | true =>
    show Alike _ (("(" ++ e.print level ++ ")").toList ++ rest)
    simp only [String.toList_append, List.append_assoc]
    exact .opened
  | false =>
    obtain ⟨c, cs, hcs, -⟩ := Expr.opens_print hw level
    obtain ⟨w, ws, hws, -⟩ := Expr.opening_words hw
    exact h.append (by rw [hws]; simp) (by rw [hcs]; simp) more rest

/-- **The text of an expression and its words start alike.** -/
theorem alike_print {e : Expr} (h : e.Writable) (level : Nat) :
    Alike e.words (e.print level).toList := by
  induction h with
  | ident hname => exact .other (kind_of_isLowerName hname) (by decide)
  | literal hvalue => exact alike_literal hvalue
  | @construct mark n es hname _ _ =>
    cases es <;> exact .other (kind_of_isUpperName hname) (by decide)
  | call hwf _ ih _ =>
    rw [Expr.words, Expr.print]
    simp only [String.toList_append, List.append_assoc]
    exact alike_operand hwf ih _ _ _
  | @unary mark op e _ _ =>
    rw [Expr.words, Expr.print, String.toList_append]
    cases op with
    | negate => exact ⟨fun _ _ _ => rfl, fun v hv hkind => by cases hv; cases hkind⟩
    | not => exact .other (k := .bang) rfl (by decide)
  | binary hwl _ ih _ =>
    rw [Expr.words, Expr.print]
    simp only [String.toList_append, List.append_assoc]
    exact alike_operand hwl ih _ _ _
  | cond =>
    rw [Expr.words_cond]
    exact .other (k := .kwIf) (by decide) (by decide)
  | select =>
    rw [Expr.words]
    exact .other (k := .kwMatch) (by decide) (by decide)
  | block =>
    rw [Expr.words_block]
    exact .other (k := .lbrace) rfl (by decide)
  | perform =>
    rw [Expr.words]
    exact .other (k := .kwPerform) (by decide) (by decide)
  | tuple =>
    rw [Expr.words, Expr.print]
    simp only [String.toList_append, List.append_assoc]
    exact .opened
  | array =>
    rw [Expr.words]
    exact .other (k := .lbracket) rfl (by decide)
  | record =>
    rw [Expr.words]
    exact .other (k := .lbrace) rfl (by decide)
  | field hw _ ih =>
    rw [Expr.words, Expr.print]
    simp only [String.toList_append, List.append_assoc]
    exact alike_operand hw ih _ _ _

/-! ### How declarations start -/

/-- The words in front of what a declaration declares. -/
def frontWords (names : List String) (isPublic : Bool) (keyword : String) : List Word :=
  names.flatMap (fun a => [Word.sign .atSign] ++ [Word.name a]) ++ publicWords isPublic ++ [Word.name keyword]

/-- The words behind the name of a function or a recognizer. -/
def definitionWords (params : List Param) (returns : Option TypeExpr) (body : Expr) : List Word :=
  paramWords params ++ (resultWords returns ++ ([Word.sign .assign] ++ body.words))

theorem Function.words_eq (f : Function) : f.words = frontWords f.annotations f.isPublic "fn"
    ++ (.name f.name :: definitionWords f.params f.returns f.body) := by
  rw [Function.words, frontWords, definitionWords]
  simp only [List.append_assoc]
  rfl

theorem Recognizer.words_eq (r : Recognizer) :
    r.words = frontWords (if r.isPure then ["pure"] else []) r.isPublic "pattern"
      ++ (r.kind.words r.name ++ definitionWords r.params r.returns r.body) := by
  rw [Recognizer.words, frontWords, definitionWords]
  cases r.isPure <;> simp only [List.append_assoc] <;> rfl

theorem TypeDecl.words_eq (d : TypeDecl) : d.words = frontWords [] d.isPublic "type" ++ Parser.typeWords d := by
  rw [Parser.words_typeDecl, frontWords]
  simp

/-- The kinds of token that a declaration starts with. -/
def Decl.starters : List TokenKind :=
  [.atSign, .kwPub, .kwFn, .kwPattern, .kwType] ++ Expr.starters

theorem front_cons (names : List String) (isPublic : Bool) {keyword : String} {k : TokenKind}
    (hk : (Word.name keyword).kind = k) (more : List Word) :
    ∃ w ws, frontWords names isPublic keyword ++ more = w :: ws ∧ w.kind ∈ [.atSign, .kwPub, k] := by
  cases names with
  | cons a names => exact ⟨_, _, rfl, by simp [Word.sign, Word.symbol]⟩
  | nil =>
    cases isPublic with
    | true => exact ⟨_, _, rfl, by rw [show (Word.name "pub").kind = .kwPub by decide]; simp⟩
    | false => exact ⟨_, _, rfl, by rw [hk]; simp⟩

/-- A declaration starts with a minus sign or a parenthesis only if it is an expression that does. -/
theorem Decl.words_cons {d : Decl} (h : d.Writable) : ∃ w ws, d.words = w :: ws ∧
    w.kind ∈ Decl.starters ∧ (w.kind = .minus → ∃ m e, d = .expr m e ∧ e.opensWith '-' = true) ∧
    (w.kind = .lparen → ∃ m e, d = .expr m e ∧ e.opensWith '(' = true) := by
  have hfront : ∀ k ∈ [TokenKind.kwFn, .kwPattern, .kwType], ∀ l ∈ [.atSign, .kwPub, k],
      l ∈ Decl.starters ∧ l ≠ .minus ∧ l ≠ .lparen := by decide
  have hdeclared : ∀ (k : TokenKind) {names : List String} {isPublic : Bool} {keyword : String}
      {more : List Word}, (Word.name keyword).kind = k → k ∈ [TokenKind.kwFn, .kwPattern, .kwType] →
      d.words = frontWords names isPublic keyword ++ more → ∃ w ws, d.words = w :: ws ∧
        w.kind ∈ Decl.starters ∧ (w.kind = .minus → ∃ m e, d = .expr m e ∧ e.opensWith '-' = true) ∧
        (w.kind = .lparen → ∃ m e, d = .expr m e ∧ e.opensWith '(' = true) := by
    intro k names isPublic keyword more hkeyword hk hwords
    obtain ⟨w, ws, hw, hkind⟩ := front_cons names isPublic hkeyword more
    obtain ⟨hstarts, hminus, hparen⟩ := hfront k hk _ hkind
    exact ⟨w, ws, hwords.trans hw, hstarts, fun h => absurd h hminus, fun h => absurd h hparen⟩
  cases d with
  | function f => exact hdeclared .kwFn (by decide) (by decide) (Function.words_eq f)
  | recognizer r => exact hdeclared .kwPattern (by decide) (by decide) (Recognizer.words_eq r)
  | type t => exact hdeclared .kwType (by decide) (by decide) (TypeDecl.words_eq t)
  | expr m e =>
    obtain ⟨w, ws, hwords, hw, -⟩ := Expr.opening_words h
    have halike : Alike e.words e.text.toList := alike_print h 0
    have hhead : e.words.head? = some w := by rw [hwords]; rfl
    refine ⟨w, ws, hwords, List.mem_append_right _ hw, fun hk => ⟨m, e, rfl, ?_⟩, fun hk => ⟨m, e, rfl, ?_⟩⟩
    · exact decide_eq_true (halike.minus w hhead hk)
    · exact decide_eq_true (halike.paren w hhead hk)

/-! ### What follows a declaration -/

/-- What may follow a declaration without being taken for a part of it. -/
structure Decl.Ends (d : Decl) (x : Token) (ts : List Token) : Prop where
  body : ∀ e, d.body? = some e → e.Closes x ts
  bar : kindOf ts ≠ .pipe
  paren : ∀ t, d = .type t → t.endsBare = true → kindOf ts ≠ .lparen

theorem starters_facts : ∀ k ∈ Decl.starters, k ≠ .kwElse ∧ k ≠ .pipe ∧ k ≠ .dot ∧ k ≠ .kwUse ∧
    k ≠ .kwModule ∧ k ≠ .eof ∧ (k ≠ .minus → k ≠ .lparen → bindingOf k = 0) := by decide

/-- **The next line does not continue a declaration** in a file that is written faithfully. -/
theorem ends_of_lines {d : Decl} {ds : List Decl} (h : ∀ d ∈ ds, d.Writable)
    (hfaithful : Program.declsFaithful (d :: ds) = true) {x : Token} {ts : List Token}
    (hts : Lines (ds.map Decl.words) x ts) : d.Ends x ts := by
  cases ds with
  | nil =>
    rw [show ts = [] from hts]
    exact ⟨fun e _ => ⟨rfl, fun _ => by decide, fun _ => by decide⟩, by decide, fun _ _ _ => by decide⟩
  | cons d' ds =>
    have htakes : d.takes d' = false := by
      rw [Program.declsFaithful, Bool.and_eq_true, Bool.and_eq_true, Bool.not_eq_true'] at hfaithful
      exact hfaithful.1.2
    obtain ⟨hbegins, hline⟩ := hts
    obtain ⟨w, ws, hwords, hw, hminus, hparen⟩ := Decl.words_cons (h d' List.mem_cons_self)
    rw [hwords] at hbegins
    obtain ⟨t, ts, rfl, ht, -⟩ := hbegins
    obtain ⟨helse, hbar, -, -, -, -, hbinds⟩ := starters_facts _ hw
    rw [← ht.kind] at helse hbar hbinds hminus hparen
    refine ⟨fun e he => ⟨?_, fun _ => helse, fun _ => hbar⟩, hbar, ?_⟩
    · rw [binds]
      split
      · rfl
      · rename_i hsame
        refine hbinds (fun hk => ?_) fun hk => ?_
        · obtain ⟨m, e', rfl, hopens⟩ := hminus hk
          cases d with
          | type t => cases he
          | _ =>
            have hopens' : e'.opensWith '-' = false := htakes
            rw [hopens] at hopens'
            cases hopens'
        · refine hsame ?_
          rw [Bool.and_eq_true, decide_eq_true_eq, decide_eq_true_eq]
          exact ⟨hk, (hline t rfl).symm⟩
    · rintro u rfl hbare hk
      obtain ⟨m, e', rfl, hopens⟩ := hparen hk
      rw [Decl.takes, hbare, hopens] at htakes
      cases htakes

namespace Parser

variable {fits : Prop} {depth : Nat}

/-! ### The parts of a declaration -/

theorem Runs.withRoom {α : Type} {p : Nat → Parser α} {ts : List Token} {post : α → List Token → Prop}
    (h : Runs fits depth (p (maxNesting - depth)) ts post) :
    Runs fits depth (Parser.withRoom p) ts post := by
  intro s heof hdepth hs
  subst hdepth
  exact h s heof rfl hs

theorem runs_expression {e : Expr} (hw : e.Writable) (hfaithful : e.faithful = true)
    (hroom : fits → e.levels + 1 ≤ maxNesting) {K : Rest} (hK : ∀ y ts, K y ts → e.Closes y ts)
    {ts : List Token} (hts : Begins e.words K ts) :
    Runs fits 0 expression ts fun e' ts' => e'.erase = e.erase ∧ At K ts' :=
  Runs.withRoom (runs_plain (readsExpr hw hfaithful) hroom hK hts)

/-- The words of a parameter. -/
def wordsOfParam (p : Param) : List Word :=
  match p.ty with
  | some t => [Word.name p.name] ++ [Word.sign .colon] ++ t.words
  | none => [Word.name p.name]

theorem paramWords_eq (ps : List Param) : paramWords ps
    = [Word.sign .lparen] ++ commaWords (ps.map wordsOfParam) ++ [Word.sign .rparen] := rfl

theorem runs_param {p : Param} (h : p.Writable) {K : Rest}
    (hK : ∀ y ts, K y ts → kindOf ts ≠ .less ∧ kindOf ts ≠ .colon) {x : Token} {ts : List Token}
    (hts : After (wordsOfParam p) K x ts) :
    Runs fits depth param (x :: ts) fun p' ts' => p'.erase = p.erase ∧ At K ts' := by
  have hkind := kind_of_isLowerName h.name
  have hty := h.ty
  rw [wordsOfParam] at hts
  cases htype : p.ty with
  | none =>
    rw [htype] at hts
    obtain ⟨y, ts, rfl, hy, -, hrest⟩ := hts
    refine Runs.expect (hy.kind.trans hkind) (Runs.current (Runs.stay (hK y ts hrest).2 (Runs.pure ?_)))
    refine ⟨?_, y, ts, rfl, hrest⟩
    rw [Param.erase, Param.erase, htype, hy.text]
    rfl
  | some t =>
    rw [htype] at hts
    obtain ⟨y, ts, rfl, hy, -, z, ts, rfl, hz, -, hrest⟩ := hts
    have hw := hty t htype
    refine Runs.expect (hy.kind.trans hkind) (Runs.current (Runs.skip hz.kind (Runs.advance ?_)))
    refine Runs.bind (runs_type hw (fun y ts hy => (hK y ts hy).1)
      (begins_of_after (TypeExpr.words_ne hw) hrest)) ?_
    rintro u ts' - ⟨herase, hat⟩
    refine Runs.pure ⟨?_, hat⟩
    rw [Param.erase, Param.erase, htype, hy.text]
    exact congrArg (fun u => Param.mk p.name (some u)) herase

theorem runs_params {ps : List Param} (h : ∀ p ∈ ps, p.Writable) {K : Rest} {x : Token}
    {ts : List Token} (hts : After (paramWords ps) K x ts) :
    Runs fits depth params (x :: ts) fun ps' ts' =>
      ps'.map Param.erase = ps.map Param.erase ∧ At K ts' := by
  rw [paramWords_eq, List.append_assoc] at hts
  obtain ⟨o, ts, rfl, ho, -, hrest⟩ := hts
  replace hrest : After (commaWords (ps.map wordsOfParam) ++ [Word.sign .rparen]) K o ts := hrest
  refine Runs.expect ho.kind ?_
  by_cases hne : ps = []
  · subst hne
    obtain ⟨c, ts, rfl, hc, -, hat⟩ := hrest
    exact Runs.skip hc.kind (Runs.pure ⟨rfl, c, ts, rfl, hat⟩)
  have hfirst : kindOf ts ≠ .rparen := by
    obtain ⟨p, rest, rfl⟩ := List.exists_cons_of_ne_nil hne
    obtain ⟨more, hmore⟩ := commaWords_cons (wordsOfParam p) (rest.map wordsOfParam)
    have hname := kind_of_isLowerName (h p List.mem_cons_self).name
    have hwords : ∃ ws, wordsOfParam p = Word.name p.name :: ws := by
      rw [wordsOfParam]
      split
      · exact ⟨_, rfl⟩
      · exact ⟨_, rfl⟩
    obtain ⟨ws, hwords⟩ := hwords
    rw [List.map_cons, hmore, hwords] at hrest
    rw [kindOf_of_after hrest, hname]
    decide
  refine Runs.stay hfirst ?_
  obtain ⟨front, last, rfl⟩ := (List.eq_nil_or_concat' ps).resolve_left hne
  rw [commaWords_concat, List.append_assoc] at hrest
  refine Runs.iterate (Loops.commas (I := fun (done ps : List Param) =>
    ps.map Param.erase = done.map Param.erase) ?_ ?_ rfl hrest)
  · intro done p hp ps hdone K' x ts _ hts
    rw [after_append] at hts
    refine Runs.bind (runs_param (h p (List.mem_append_left _ hp)) (fun y ts hy => ?_) hts) ?_
    · rw [kindOf_of_after hy]
      decide
    rintro p' ts' - ⟨herase, y, ts₁, rfl, hy⟩
    refine Runs.skip (kindOf_of_after hy) (Runs.pure ?_)
    obtain ⟨z, ts₂, rfl, -, -, hz⟩ := hy
    exact ⟨_, rfl, map_snoc hdone herase, z, ts₂, rfl, hz⟩
  · intro ps hdone x ts hts
    rw [after_append] at hts
    refine Runs.bind (runs_param (h last (List.mem_append_right _ List.mem_cons_self))
      (fun y ts hy => ?_) hts) ?_
    · rw [kindOf_of_after hy]
      decide
    rintro p' ts' - ⟨herase, y, ts₁, rfl, hy⟩
    have hkind := kindOf_of_after hy
    refine Runs.stay (by rw [hkind]; decide) (Runs.expect hkind (Runs.pure ?_))
    obtain ⟨z, ts₂, rfl, -, -, hz⟩ := hy
    exact ⟨_, rfl, map_snoc hdone herase, z, ts₂, rfl, hz⟩

theorem runs_resultType {t : Option TypeExpr} (h : WritableType t) {K : Rest}
    (hK : ∀ y ts, K y ts → kindOf ts ≠ .less ∧ kindOf ts ≠ .arrow) {x : Token} {ts : List Token}
    (hts : After (resultWords t) K x ts) :
    Runs fits depth resultType (x :: ts) fun u ts' =>
      u.map TypeExpr.erase = t.map TypeExpr.erase ∧ At K ts' := by
  cases t with
  | none => exact Runs.stay (hK x ts hts).2 (Runs.pure ⟨rfl, x, ts, rfl, hts⟩)
  | some t =>
    obtain ⟨y, ts, rfl, hy, -, hrest⟩ := hts
    have hw := h t rfl
    refine Runs.skip hy.kind (Runs.advance (Runs.bind (runs_type hw (fun y ts hy => (hK y ts hy).1)
      (begins_of_after (TypeExpr.words_ne hw) hrest)) ?_))
    rintro u ts' - ⟨herase, hat⟩
    exact Runs.pure ⟨congrArg some herase, hat⟩

/-- Parameters, result type and body, given how the body is read, whatever is made of them. -/
theorem runs_definitionOf {α : Type} {ps : List Param} {t : Option TypeExpr} {bodyWords : List Word}
    {R : Expr → Prop} (hps : ∀ p ∈ ps, p.Writable) (ht : WritableType t) (hne : bodyWords ≠ []) {K : Rest}
    (hbody : ∀ ts, Begins bodyWords K ts → Runs fits 0 expression ts fun e ts' => R e ∧ At K ts')
    {x : Token} {ts : List Token}
    (hts : After (paramWords ps ++ (resultWords t ++ ([.sign .assign] ++ bodyWords))) K x ts)
    {rest : List Param → Option TypeExpr → Expr → Parser α} {post : α → List Token → Prop}
    (hrest : ∀ ps' t' e ts', ps'.map Param.erase = ps.map Param.erase →
      t'.map TypeExpr.erase = t.map TypeExpr.erase → R e → At K ts' →
      Runs fits 0 (rest ps' t' e) ts' post) :
    Runs fits 0 (do
      let ps ← params
      let t ← resultType
      let e ← definition
      rest ps t e) (x :: ts) post := by
  rw [after_append, after_append] at hts
  refine Runs.bind (runs_params hps hts) ?_
  rintro ps' ts' - ⟨hparams, y, ts, rfl, hy⟩
  refine Runs.bind (runs_resultType ht (fun z ts hz => ?_) hy) ?_
  · rw [kindOf_of_after hz]
    decide
  rintro t' ts' - ⟨hresult, z, ts, rfl, o, ts, rfl, ho, -, hrestWords⟩
  have hdefinition : Runs fits 0 definition (z :: o :: ts) fun e ts' => R e ∧ At K ts' :=
    Runs.expect ho.kind (Runs.advance (hbody ts (begins_of_after hne hrestWords)))
  refine Runs.bind hdefinition ?_
  rintro e ts' - ⟨he, hat⟩
  exact hrest ps' t' e ts' hparams hresult he hat

/-- Parameters, result type and body, whatever is made of them. -/
theorem runs_definition {α : Type} {ps : List Param} {t : Option TypeExpr} {e : Expr}
    (hps : ∀ p ∈ ps, p.Writable) (ht : WritableType t) (he : e.Writable)
    (hfaithful : e.faithful = true) (hroom : fits → e.levels + 1 ≤ maxNesting) {K : Rest}
    (hK : ∀ y ts, K y ts → e.Closes y ts) {x : Token} {ts : List Token}
    (hts : After (definitionWords ps t e) K x ts)
    {rest : List Param → Option TypeExpr → Expr → Parser α} {post : α → List Token → Prop}
    (hrest : ∀ ps' t' e' ts', ps'.map Param.erase = ps.map Param.erase →
      t'.map TypeExpr.erase = t.map TypeExpr.erase → e'.erase = e.erase → At K ts' →
      Runs fits 0 (rest ps' t' e') ts' post) :
    Runs fits 0 (do
      let ps ← params
      let t ← resultType
      let e ← definition
      rest ps t e) (x :: ts) post := by
  have hne : e.words ≠ [] := by
    obtain ⟨w, ws, hwords, -⟩ := Expr.opening_words he
    rw [hwords]
    exact List.cons_ne_nil w ws
  exact runs_definitionOf hps ht hne (fun ts hts => runs_expression he hfaithful hroom hK hts) hts hrest

theorem runs_annotationNames {names : List String} (hnames : ∀ a ∈ names, isLowerName a = true)
    {w : Word} (hw : w.kind ≠ .atSign) {more : List Word} {K : Rest} {ts : List Token}
    (hts : Begins (names.flatMap (fun a => [Word.sign .atSign] ++ [Word.name a]) ++ w :: more) K ts) :
    Runs fits depth annotationNames ts fun names' ts' => names' = names ∧ Begins (w :: more) K ts' := by
  refine Runs.iterate ?_
  suffices hloop : ∀ (names before : List String) (ts : List Token), (∀ a ∈ names, isLowerName a = true) →
      Begins (names.flatMap (fun a => [Word.sign .atSign] ++ [Word.name a]) ++ w :: more) K ts →
      Loops fits depth (fun names => do
        if ← currentIs .atSign then
          expect .lower "annotation name"
          let name := (← current).text
          advance
          return .again (names ++ [name])
        else return .done names) before ts fun names' ts' =>
          names' = before ++ names ∧ Begins (w :: more) K ts' from hloop names [] ts hnames hts
  intro names
  induction names with
  | nil =>
    intro before ts _ hts
    obtain ⟨t, ts, rfl, ht, hrest⟩ := hts
    refine Loops.step (Runs.currentIs ?_)
    rw [decide_eq_false (by rw [ht.kind]; exact hw)]
    exact Runs.pure ⟨by simp, t, ts, rfl, ht, hrest⟩
  | cons a names ih =>
    intro before ts hnames hts
    rw [List.forall_mem_cons] at hnames
    rw [List.flatMap_cons, List.append_assoc, List.append_assoc] at hts
    obtain ⟨x, ts, rfl, hx, y, ts, rfl, hy, -, hrest⟩ := hts
    refine Loops.step (Runs.currentIs ?_)
    rw [decide_eq_true (show x.kind = .atSign from hx.kind)]
    refine Runs.expect (hy.kind.trans (kind_of_isLowerName hnames.1)) (Runs.current (Runs.advance ?_))
    have hnext := ih (before ++ [y.text]) ts hnames.2 (begins_of_after (by simp) hrest)
    have htext : y.text = a := hy.text
    rw [htext, List.append_assoc, List.singleton_append] at hnext
    rw [htext]
    refine Runs.pure ⟨?_, hnext⟩
    rw [List.length_cons, List.length_cons]
    omega

/-- Annotations, `pub` and the keyword of a declaration, whatever is done behind them. -/
theorem runs_front {α : Type} {names : List String} (hnames : ∀ a ∈ names, isLowerName a = true)
    {isPublic : Bool} {keyword : String} {k : TokenKind} (hkeyword : (Word.name keyword).kind = k)
    (hk : k ≠ .atSign ∧ k ≠ .kwPub) {more : List Word} {K : Rest} {ts : List Token}
    (hts : Begins (frontWords names isPublic keyword ++ more) K ts)
    {rest : Token → List String → Bool → Token → Parser α} {post : α → List Token → Prop}
    (hrest : ∀ start t ts', t.kind = k → After more K t ts' →
      Runs fits depth (rest start names isPublic t) (t :: ts') post) :
    Runs fits depth (do
      let start ← current
      let annotations ← annotationNames
      let isPublic ← currentIs .kwPub
      if isPublic then advance
      let t ← current
      rest start annotations isPublic t) ts post := by
  have hpub : (Word.name "pub").kind = .kwPub := by decide
  obtain ⟨start, ts, rfl⟩ : ∃ start ts', ts = start :: ts' := by
    obtain ⟨w, ws, hwords, -⟩ := front_cons names isPublic hkeyword more
    rw [hwords] at hts
    obtain ⟨t, ts, rfl, -⟩ := hts
    exact ⟨t, ts, rfl⟩
  refine Runs.current ?_
  rw [frontWords, List.append_assoc, List.append_assoc] at hts
  cases isPublic with
  | false =>
    refine Runs.bind (runs_annotationNames hnames (by rw [hkeyword]; exact hk.1) hts) ?_
    rintro names' ts' - ⟨rfl, t, ts, rfl, ht, hmore⟩
    have hkind : t.kind = k := ht.kind.trans hkeyword
    refine Runs.currentIs ?_
    rw [decide_eq_false (by rw [hkind]; exact hk.2)]
    exact Runs.current (hrest start t ts hkind hmore)
  | true =>
    refine Runs.bind (runs_annotationNames hnames (by rw [hpub]; decide) hts) ?_
    rintro names' ts' - ⟨rfl, u, ts, rfl, hu, t, ts, rfl, ht, -, hmore⟩
    refine Runs.currentIs ?_
    rw [decide_eq_true (show u.kind = .kwPub from hu.kind.trans hpub)]
    refine Runs.advance (Runs.current ?_)
    exact hrest start t ts (ht.kind.trans hkeyword) hmore

/-- A function, given how its body is read. -/
theorem runs_functionOf {name : String} {ps : List Param} {t : Option TypeExpr} {isPublic : Bool}
    {annotations : List String} {bodyWords : List Word} {R : Expr → Prop}
    (hname : isLowerName name = true ∨ isUpperName name = true) (hps : ∀ p ∈ ps, p.Writable)
    (ht : WritableType t) (hne : bodyWords ≠ []) {K : Rest}
    (hbody : ∀ ts, Begins bodyWords K ts → Runs fits 0 expression ts fun e ts' => R e ∧ At K ts')
    (start : Token) {x : Token} {ts : List Token}
    (hts : After (.name name :: (paramWords ps ++ (resultWords t ++ ([.sign .assign] ++ bodyWords)))) K x
      ts) :
    Runs fits 0 (function start isPublic annotations) (x :: ts) fun f ts' =>
      (∃ m ps' t' e, f = ⟨m, name, ps', t', e, isPublic, annotations⟩ ∧
        ps'.map Param.erase = ps.map Param.erase ∧ t'.map TypeExpr.erase = t.map TypeExpr.erase ∧ R e) ∧
      At K ts' := by
  obtain ⟨y, ts, rfl, hy, -, hrest⟩ := hts
  have htext : y.text = name := hy.text
  have hdefinition : Runs fits 0 (do
      let ps ← params
      let t ← resultType
      let e ← definition
      let span ← spanFrom start
      return (⟨⟨x, span⟩, y.text, ps, t, e, isPublic, annotations⟩ : Function)) (y :: ts)
        fun f ts' => (∃ m ps' t' e, f = ⟨m, name, ps', t', e, isPublic, annotations⟩ ∧
          ps'.map Param.erase = ps.map Param.erase ∧ t'.map TypeExpr.erase = t.map TypeExpr.erase ∧
          R e) ∧ At K ts' := by
    refine runs_definitionOf hps ht hne hbody hrest ?_
    intro ps' t' e ts' hps ht he hat
    rw [htext]
    exact Runs.span fun span => Runs.pure ⟨⟨_, ps', t', e, rfl, hps, ht, he⟩, hat⟩
  refine Runs.current ?_
  rcases hname with hname | hname
  · exact Runs.skipFirst (hy.kind.trans (kind_of_isLowerName hname)) (Runs.current hdefinition)
  · have hkind : kindOf (y :: ts) = .upper := hy.kind.trans (kind_of_isUpperName hname)
    exact Runs.skipSecond (by rw [hkind]; decide) hkind (Runs.current hdefinition)

theorem runs_function {f : Function} (h : f.Writable) (hfaithful : f.body.faithful = true)
    (hroom : fits → f.body.levels + 1 ≤ maxNesting) {K : Rest}
    (hK : ∀ y ts, K y ts → f.body.Closes y ts) (start : Token) {x : Token} {ts : List Token}
    (hts : After (.name f.name :: definitionWords f.params f.returns f.body) K x ts) :
    Runs fits 0 (function start f.isPublic f.annotations) (x :: ts)
      fun f' ts' => f'.erase = f.erase ∧ At K ts' := by
  have hne : f.body.words ≠ [] := by
    obtain ⟨w, ws, hwords, -⟩ := Expr.opening_words h.body
    rw [hwords]
    exact List.cons_ne_nil w ws
  refine (runs_functionOf h.name h.params h.returns hne
    (fun ts hts => runs_expression h.body hfaithful hroom hK hts) start hts).mono ?_
  rintro f' ts' - ⟨⟨m, ps, t, e, rfl, hps, ht, he⟩, hat⟩
  refine ⟨?_, hat⟩
  rw [Function.erase, Function.erase]
  dsimp only
  rw [hps, ht, he]

theorem runs_recognizer {r : Recognizer} (h : r.Writable) (hfaithful : r.body.faithful = true)
    (hroom : fits → r.body.levels + 1 ≤ maxNesting) {K : Rest}
    (hK : ∀ y ts, K y ts → r.body.Closes y ts) (start : Token) {x : Token} {ts : List Token}
    (hts : After (r.kind.words r.name ++ definitionWords r.params r.returns r.body) K x ts) :
    Runs fits 0 (recognizer start r.isPublic (if r.isPure then ["pure"] else [])) (x :: ts)
      fun r' ts' => r'.erase = r.erase ∧ At K ts' := by
  have hpure : checkAnnotations start (if r.isPure then ["pure"] else []) = pure () := by
    cases r.isPure <;> simp [checkAnnotations]
  have hcontains : (if r.isPure then ["pure"] else []).contains "pure" = r.isPure := by
    cases r.isPure <;> rfl
  have hopen : ∃ ws, r.kind.words r.name = Word.sign .lparen :: ws := by
    cases r.kind <;> exact ⟨_, rfl⟩
  obtain ⟨ws, hws⟩ := hopen
  rw [hws] at hts
  obtain ⟨o, ts, rfl, ho, -, hrest⟩ := hts
  replace hrest : After (r.kind.words r.name).tail (After (definitionWords r.params r.returns r.body) K)
      o ts := by
    rw [hws, ← after_append]
    exact hrest
  refine Runs.current ?_
  rw [hpure]
  refine Runs.given (Runs.expect ho.kind (runs_recognizerName h.name hrest ?_))
  rintro ts' ⟨y, ts, rfl, hy⟩
  refine runs_definition h.params h.returns h.body hfaithful hroom hK hy ?_
  intro ps' t' e' ts' hps ht he hat
  refine Runs.span fun span => Runs.pure ⟨?_, hat⟩
  rw [Recognizer.erase, Recognizer.erase]
  dsimp only
  rw [hps, ht, he, hcontains]

/-- **A declaration is read from its words**, before what does not continue it. -/
theorem runs_declaration {d : Decl} (h : d.Writable) (hfaithful : d.faithful = true)
    (hroom : fits → d.levels ≤ maxNesting) {K : Rest} (hK : ∀ y ts, K y ts → d.Ends y ts)
    {ts : List Token} (hts : Begins d.words K ts) :
    Runs fits 0 declaration ts fun d' ts' => d'.erase = d.erase ∧ At K ts' := by
  cases d with
  | function f =>
    rw [Decl.words, Function.words_eq] at hts
    refine runs_front h.annotations (k := .kwFn) (by decide) (by decide) hts ?_
    intro start t ts' ht hmore
    simp only [ht]
    refine Runs.bind (runs_function h hfaithful hroom (fun y ts hy => (hK y ts hy).body _ rfl) start hmore) ?_
    rintro f' ts'' - ⟨herase, hat⟩
    exact Runs.pure ⟨congrArg Decl.function herase, hat⟩
  | recognizer r =>
    rw [Decl.words, Recognizer.words_eq] at hts
    have hnames : ∀ a ∈ (if r.isPure then ["pure"] else []), isLowerName a = true := by
      cases r.isPure
      · simp
      · exact List.forall_mem_singleton.mpr (by decide)
    refine runs_front hnames (k := .kwPattern) (by decide) (by decide) hts ?_
    intro start t ts' ht hmore
    simp only [ht]
    refine Runs.bind (runs_recognizer h hfaithful hroom (fun y ts hy => (hK y ts hy).body _ rfl) start
      hmore) ?_
    rintro r' ts'' - ⟨herase, hat⟩
    exact Runs.pure ⟨congrArg Decl.recognizer herase, hat⟩
  | type t =>
    rw [Decl.words, TypeDecl.words_eq] at hts
    refine runs_front (by simp) (k := .kwType) (by decide) (by decide) hts ?_
    intro start u ts' hu hmore
    simp only [hu]
    refine Runs.bind (runs_typeDeclaration h (fun y ts hy => (hK y ts hy).bar)
      (fun hbare y ts hy => (hK y ts hy).paren t rfl hbare) start hmore) ?_
    rintro d' ts'' - ⟨herase, hat⟩
    exact Runs.pure ⟨congrArg Decl.type herase, hat⟩
  | expr m e =>
    obtain ⟨w, ws, hwords, hw, -⟩ := Expr.opening_words (e := e) h
    have hother : ∀ k ∈ Expr.starters, k ≠ .atSign ∧ k ≠ .kwPub ∧ k ≠ .kwFn ∧ k ≠ .kwPattern ∧
        k ≠ .kwType := by decide
    obtain ⟨hat, hpub, hfn, hpattern, htype⟩ := hother _ hw
    have hbegins : Begins (([] : List String).flatMap (fun a => [Word.sign .atSign] ++ [Word.name a])
        ++ w :: ws) K ts := by
      rw [← hwords]
      exact hts
    obtain ⟨start, ts, rfl⟩ : ∃ start ts', ts = start :: ts' := by
      obtain ⟨t, ts, rfl, -⟩ := hbegins
      exact ⟨t, ts, rfl⟩
    refine Runs.current (Runs.bind (runs_annotationNames (by simp) hat hbegins) ?_)
    rintro names ts' - ⟨rfl, hbegins⟩
    have hexpr := runs_expression (e := e) h hfaithful hroom (fun y ts hy => (hK y ts hy).body e rfl)
      (hwords ▸ hbegins)
    obtain ⟨t, ts, rfl, ht, -⟩ := hbegins
    rw [← ht.kind] at hpub hfn hpattern htype
    refine Runs.currentIs ?_
    rw [decide_eq_false hpub]
    refine Runs.current ?_
    split
    · exact absurd ‹_› hfn
    · exact absurd ‹_› hpattern
    · exact absurd ‹_› htype
    · rw [if_neg (by simp)]
      refine Runs.bind hexpr ?_
      rintro e' ts' - ⟨herase, hat⟩
      exact Runs.mark fun m => Runs.pure ⟨congrArg (Decl.expr default) herase, hat⟩

/-! ### Lines -/

theorem current_kind {s : State} (heof : s.eof.kind = .eof) : s.current.kind = kindOf s.tokens := by
  rw [State.current]
  cases s.tokens with
  | nil => exact heof
  | cons t ts => rfl

theorem starts_of_begins {d : Decl} (h : d.Writable) {K : Rest} {ts : List Token}
    (hts : Begins d.words K ts) : kindOf ts ∈ Decl.starters := by
  obtain ⟨w, ws, hwords, hw, -⟩ := Decl.words_cons h
  rw [hwords] at hts
  rw [kindOf_of_begins hts]
  exact hw

theorem starts_of_lines {ds : List Decl} (h : ∀ d ∈ ds, d.Writable) {x : Token} {ts : List Token}
    (hts : Lines (ds.map Decl.words) x ts) : kindOf ts ∈ .eof :: Decl.starters := by
  cases ds with
  | nil =>
    rw [show ts = [] from hts]
    exact List.mem_cons_self
  | cons d ds => exact List.mem_cons_of_mem _ (starts_of_begins (h d List.mem_cons_self) hts.1)

theorem TooDeep.grow {s s' : State} (h : s.TooDeep) (hgrows : s.errors <+: s'.errors) : s'.TooDeep := by
  obtain ⟨d, hd, hcode⟩ := h
  exact ⟨d, hgrows.subset hd, hcode⟩

theorem declsFaithful_cons {d : Decl} {ds : List Decl} (h : Program.declsFaithful (d :: ds) = true) :
    d.faithful = true ∧ Program.declsFaithful ds = true := by
  cases ds with
  | nil => exact ⟨h, rfl⟩
  | cons d' ds =>
    rw [Program.declsFaithful, Bool.and_eq_true, Bool.and_eq_true] at h
    exact ⟨h.1.1, h.2⟩

/-- One round of reading declarations. -/
theorem step_run {R : Decl → Prop} {K : Rest} {s : State} (heof : s.eof.kind = .eof)
    (hdepth : s.depth = 0)
    (h : Runs fits 0 declaration s.tokens fun d ts' => R d ∧ At K ts') :
    (∃ d y ts', step s = (some d, { s with tokens := ts' }) ∧ R d ∧
      ts'.length < s.tokens.length ∧ K y ts') ∨ (¬ fits ∧ (step s).2.TooDeep) := by
  rcases h s heof hdepth rfl with ⟨d, ts', hrun, hlength, hd, y, ts, rfl, hy⟩ | ⟨hfits, s', hrun, hdeep⟩
  · refine .inl ⟨d, y, ts, ?_, hd, hlength, hy⟩
    rw [step, hrun]
    dsimp only
    rw [if_pos (by simp)]
    rfl
  · refine .inr ⟨hfits, ?_⟩
    rw [step, hrun]
    exact hdeep

/-- Each of some lines is read as a declaration with the property `R`, in front of the lines behind
it. -/
def ReadsEach {γ : Type} (fits : Prop) (words : γ → List Word) (R : γ → Decl → Prop) : List γ → Prop
  | [] => True
  | c :: cs => (∀ ts, Begins (words c) (Lines (cs.map words)) ts → kindOf ts ≠ .eof ∧
      Runs fits 0 declaration ts fun d ts' => R c d ∧ At (Lines (cs.map words)) ts') ∧
    ReadsEach fits words R cs

/-- **Lines are read one by one**, unless the nesting limit is met. -/
theorem reads_declarationsOf {γ : Type} {words : γ → List Word} {R : γ → Decl → Prop} {cs : List γ}
    (h : ReadsEach fits words R cs) :
    ∀ (fuel : Nat) (s : State) (x : Token), s.Sound → s.depth = 0 → s.tokens.length < fuel →
      Lines (cs.map words) x s.tokens →
      (∃ ds, declarations fuel s = (ds, { s with tokens := [] }) ∧ List.Forall₂ R cs ds) ∨
        (¬ fits ∧ (declarations fuel s).2.TooDeep) := by
  induction cs with
  | nil =>
    intro fuel s x hs hdepth hfuel hts
    obtain ⟨fuel, rfl⟩ := Nat.exists_eq_succ_of_ne_zero (Nat.ne_zero_of_lt hfuel)
    have htokens : s.tokens = [] := hts
    refine .inl ⟨[], ?_, .nil⟩
    rw [declarations, if_pos (by rw [State.current, htokens]; exact hs.eof), ← htokens]
  | cons c cs ih =>
    intro fuel s x hs hdepth hfuel hts
    obtain ⟨fuel, rfl⟩ := Nat.exists_eq_succ_of_ne_zero (Nat.ne_zero_of_lt hfuel)
    obtain ⟨hstart, hline⟩ := h.1 s.tokens hts.1
    have hrun : declarations (fuel + 1) s = ((step s).1.toList ++ (declarations fuel (step s).2).1,
        (declarations fuel (step s).2).2) := by
      rw [declarations, if_neg (by rw [current_kind hs.eof]; exact hstart)]
    have hsound : (step s).2.Sound := (gives_step s hs).sound
    rcases step_run hs.eof hdepth hline with ⟨d, y, ts', hstep, hd, hlength, hy⟩ | ⟨hfits, hdeep⟩
    · rw [hstep] at hrun hsound
      have hrest := ih h.2 fuel { s with tokens := ts' } y hsound hdepth
        (by show ts'.length < fuel; omega) hy
      rw [hrun]
      rcases hrest with ⟨ds, hds, hrest⟩ | ⟨hfits, hdeep⟩
      · refine .inl ⟨d :: ds, ?_, .cons hd hrest⟩
        rw [hds]
        rfl
      · exact .inr ⟨hfits, hdeep⟩
    · refine .inr ⟨hfits, ?_⟩
      rw [hrun]
      exact TooDeep.grow hdeep ((gives_declarations fuel) (step s).2 hsound).grows

theorem readsEach_decls {ds : List Decl} (h : ∀ d ∈ ds, d.Writable)
    (hfaithful : Program.declsFaithful ds = true) (hroom : fits → ∀ d ∈ ds, d.levels ≤ maxNesting) :
    ReadsEach fits Decl.words (fun d d' => d'.erase = d.erase) ds := by
  induction ds with
  | nil => trivial
  | cons d ds ih =>
    have hd := h d List.mem_cons_self
    have htail : ∀ d ∈ ds, d.Writable := fun e he => h e (List.mem_cons_of_mem d he)
    have hparts := declsFaithful_cons hfaithful
    refine ⟨fun ts hts => ⟨?_, ?_⟩, ih htail hparts.2 fun hfits e he =>
      hroom hfits e (List.mem_cons_of_mem d he)⟩
    · exact (starters_facts _ (starts_of_begins hd hts)).2.2.2.2.2.1
    · exact runs_declaration hd hparts.1 (fun hfits => hroom hfits d List.mem_cons_self)
        (fun y ts hy => ends_of_lines htail hfaithful hy) hts

theorem reads_declarations {ds : List Decl} (h : ∀ d ∈ ds, d.Writable)
    (hfaithful : Program.declsFaithful ds = true) (hroom : fits → ∀ d ∈ ds, d.levels ≤ maxNesting) :
    ∀ (fuel : Nat) (s : State) (x : Token), s.Sound → s.depth = 0 → s.tokens.length < fuel →
      Lines (ds.map Decl.words) x s.tokens →
      (∃ ds', declarations fuel s = (ds', { s with tokens := [] }) ∧
        ds'.map Decl.erase = ds.map Decl.erase) ∨ (¬ fits ∧ (declarations fuel s).2.TooDeep) := by
  intro fuel s x hs hdepth hfuel hts
  refine (reads_declarationsOf (readsEach_decls h hfaithful hroom) fuel s x hs hdepth hfuel hts).imp_left ?_
  rintro ⟨ds', hrun, hds⟩
  exact ⟨ds', hrun, map_erase_eq hds⟩

/-! ### Paths -/

theorem path_run {K : Rest} (hK : ∀ y ts, K y ts → kindOf ts ≠ .dot) {names : List String}
    (hnames : ∀ n ∈ names, isLowerName n = true ∨ isUpperName n = true) (hne : names ≠ []) :
    ∀ (fuel : Nat) (s : State) (x : Token) (ts : List Token), s.eof.kind = .eof → s.tokens = x :: ts →
      ts.length < fuel → After ([Word.sign .dot].intercalate (names.map fun n => [.name n])) K x ts →
      ∃ y ts', path fuel s = (names, { s with tokens := y :: ts' }) ∧ K y ts' := by
  induction names with
  | nil => exact absurd rfl hne
  | cons n names ih =>
    intro fuel s x ts heof hs hfuel hts
    obtain ⟨fuel, rfl⟩ := Nat.exists_eq_succ_of_ne_zero (Nat.ne_zero_of_lt hfuel)
    rw [List.forall_mem_cons] at hnames
    have hname : ∀ t ts', ts = t :: ts' → t.Spells (.name n) →
        path (fuel + 1) s = if kindOf ts' = .dot then
            (n :: (path fuel { s with tokens := ts' }).1, (path fuel { s with tokens := ts' }).2)
          else ([n], { s with tokens := t :: ts' }) := by
      rintro t ts' rfl ht
      have hnext : s.next = t := by
        rw [State.next, hs]
        rfl
      have hkind : s.next.kind = .upper ∨ s.next.kind = .lower := by
        rw [hnext, ht.kind]
        exact (hnames.1.imp kind_of_isLowerName kind_of_isUpperName).symm
      have hadvance : (advance s).2 = { s with tokens := t :: ts' } := by
        show { s with tokens := s.tokens.tail } = _
        rw [hs]
        rfl
      have hafter : (advance s).2.next.kind = kindOf ts' := by
        rw [hadvance]
        exact Runs.next_kind heof rfl
      have htext : (advance s).2.current.text = n := by
        rw [hadvance]
        exact ht.text
      rw [path, if_pos (by simpa using hkind)]
      dsimp only
      rw [hafter, htext, hadvance]
      rfl
    cases names with
    | nil =>
      rw [List.map_singleton, List.intercalate_singleton] at hts
      obtain ⟨t, ts, rfl, ht, -, hrest⟩ := hts
      refine ⟨t, ts, ?_, hrest⟩
      rw [hname t ts rfl ht, if_neg (hK t ts hrest)]
    | cons m names =>
      rw [List.map_cons, List.map_cons, List.intercalate_cons_cons, List.append_assoc] at hts
      obtain ⟨t, ts, rfl, ht, -, o, ts, rfl, ho, -, hrest⟩ := hts
      obtain ⟨y, ts', hpath, hy⟩ := ih hnames.2 (List.cons_ne_nil m names) fuel
        { s with tokens := o :: ts } o ts heof rfl (by simp only [List.length_cons] at hfuel; omega) hrest
      refine ⟨y, ts', ?_, hy⟩
      rw [hname t _ rfl ht, if_pos (show kindOf (o :: ts) = .dot from ho.kind), hpath]

theorem pathLine_run {l : PathLine} (h : l.Writable) (keyword : String) {K : Rest}
    (hK : ∀ y ts, K y ts → kindOf ts ≠ .dot) {s : State} (heof : s.eof.kind = .eof)
    (hts : Begins (l.words keyword) K s.tokens) :
    ∃ l' y ts', pathLine s = (l', { s with tokens := ts' }) ∧ l'.erase = l.erase ∧
      ts'.length < s.tokens.length ∧ K y ts' := by
  obtain ⟨x, ts, hs, -, hrest⟩ := hts
  have hwords : [Word.sign .dot].intercalate (l.path.map fun n => [.name n]) ≠ [] := by
    obtain ⟨n, names, hpath⟩ := List.exists_cons_of_ne_nil h.ne_nil
    rw [hpath]
    cases names <;> simp [List.intercalate]
  obtain ⟨y, ts', hpath, hy, hlength⟩ := path_run (fun y ts hy => hK y ts hy.1) h.names h.ne_nil
    (s.tokens.length + 1) s x ts heof hs (by rw [hs, List.length_cons]; omega)
    (after_shorter hwords hrest)
  have hrun : pathLine s = (⟨⟨s.current, s.current.span.join y.span⟩, l.path⟩, { s with tokens := ts' }) := by
    rw [pathLine, hpath]
    rfl
  refine ⟨_, y, ts', hrun, rfl, ?_, hy⟩
  rw [hs, List.length_cons]
  omega

theorem useLines_run {ls : List PathLine} (h : ∀ l ∈ ls, l.Writable) {lines : List (List Word)}
    (hlines : ∀ x ts, Lines lines x ts → kindOf ts ≠ .dot ∧ kindOf ts ≠ .kwUse) :
    ∀ (fuel : Nat) (s : State) (x : Token), s.eof.kind = .eof → s.tokens.length < fuel →
      Lines (ls.map (PathLine.words "use") ++ lines) x s.tokens →
      ∃ ls' y ts', useLines fuel s = (ls', { s with tokens := ts' }) ∧
        ls'.map PathLine.erase = ls.map PathLine.erase ∧ Lines lines y ts' := by
  have hkeyword : (Word.name "use").kind = .kwUse := by decide
  induction ls with
  | nil =>
    intro fuel s x heof hfuel hts
    obtain ⟨fuel, rfl⟩ := Nat.exists_eq_succ_of_ne_zero (Nat.ne_zero_of_lt hfuel)
    refine ⟨[], x, s.tokens, ?_, rfl, hts⟩
    rw [useLines, if_neg (by rw [current_kind heof]; exact (hlines x s.tokens hts).2)]
  | cons l ls ih =>
    intro fuel s x heof hfuel hts
    obtain ⟨fuel, rfl⟩ := Nat.exists_eq_succ_of_ne_zero (Nat.ne_zero_of_lt hfuel)
    rw [List.forall_mem_cons] at h
    have hnext : ∀ y ts, Lines (ls.map (PathLine.words "use") ++ lines) y ts → kindOf ts ≠ .dot := by
      intro y ts hy
      cases ls with
      | nil => exact (hlines y ts hy).1
      | cons l' ls =>
        rw [kindOf_of_begins hy.1, hkeyword]
        decide
    have huse : s.current.kind = .kwUse := by
      rw [current_kind heof, kindOf_of_begins hts.1, hkeyword]
    obtain ⟨l', y, ts', hline, herase, hlength, hy⟩ := pathLine_run h.1 "use" hnext heof hts.1
    obtain ⟨ls', z, ts'', hrest, herases, hz⟩ := ih h.2 fuel { s with tokens := ts' } y heof
      (by show ts'.length < fuel; omega) hy
    refine ⟨l' :: ls', z, ts'', ?_, ?_, hz⟩
    · rw [useLines, if_pos huse, hline]
      dsimp only
      rw [hrest]
    · rw [List.map_cons, List.map_cons, herase, herases]

/-- What is read behind the header of a file. -/
def body (header : Option PathLine) (s : State) : Program × State :=
  let uses := useLines (s.tokens.length + 1) s
  let decls := declarations (uses.2.tokens.length + 1) uses.2
  (⟨header, uses.1, decls.1⟩, decls.2)

theorem program_eq (s : State) : program s = if s.current.kind = .kwModule then
    body (some (pathLine s).1) (pathLine s).2 else body none s := by
  rw [program]
  by_cases hk : s.current.kind = .kwModule
  · rw [if_pos hk, if_pos hk]
    rfl
  · rw [if_neg hk, if_neg hk]
    rfl

/-- A file that starts with neither a header nor a `use` line. -/
theorem program_of_declarations {s : State} (heof : s.eof.kind = .eof)
    (hmodule : kindOf s.tokens ≠ .kwModule) (huse : kindOf s.tokens ≠ .kwUse) :
    program s = (⟨none, [], (declarations (s.tokens.length + 1) s).1⟩,
      (declarations (s.tokens.length + 1) s).2) := by
  have huses : useLines (s.tokens.length + 1) s = ([], s) := by
    rw [useLines, if_neg (by rw [current_kind heof]; exact huse)]
  rw [program_eq, if_neg (by rw [current_kind heof]; exact hmodule), body, huses]

theorem decls_start {ds : List Decl} (h : ∀ d ∈ ds, d.Writable) {x : Token} {ts : List Token}
    (hts : Lines (ds.map Decl.words) x ts) :
    kindOf ts ≠ .dot ∧ kindOf ts ≠ .kwUse ∧ kindOf ts ≠ .kwModule := by
  have hstarters : ∀ k ∈ TokenKind.eof :: Decl.starters, k ≠ .dot ∧ k ≠ .kwUse ∧ k ≠ .kwModule := by
    decide
  exact hstarters _ (starts_of_lines h hts)

theorem uses_start {p : Program} (h : p.Writable) {x : Token} {ts : List Token}
    (hts : Lines (p.uses.map (PathLine.words "use") ++ p.decls.map Decl.words) x ts) :
    kindOf ts ≠ .dot ∧ kindOf ts ≠ .kwModule := by
  cases hlines : p.uses with
  | nil =>
    rw [hlines] at hts
    have hstart := decls_start h.decls hts
    exact ⟨hstart.1, hstart.2.2⟩
  | cons l ls =>
    rw [hlines] at hts
    rw [kindOf_of_begins hts.1, show (Word.name "use").kind = .kwUse by decide]
    decide

theorem reads_body {p : Program} (h : p.Writable) (hfaithful : p.faithful = true)
    {header : Option PathLine} (hheader : header.map PathLine.erase = p.header.map PathLine.erase)
    {s : State} (hs : s.Sound) (hdepth : s.depth = 0) {x : Token}
    (hts : Lines (p.uses.map (PathLine.words "use") ++ p.decls.map Decl.words) x s.tokens) :
    (∃ p', body header s = (p', { s with tokens := [] }) ∧ p'.erase = p.erase) ∨
      (¬ p.Fits ∧ (body header s).2.TooDeep) := by
  obtain ⟨uses, y, ts, huses, herase, hy⟩ := useLines_run h.uses (fun x ts hts =>
    ⟨(decls_start h.decls hts).1, (decls_start h.decls hts).2.1⟩) (s.tokens.length + 1) s x hs.eof
    (Nat.lt_succ_self _) hts
  have hsound : State.Sound { s with tokens := ts } := by
    have hsound : (useLines (s.tokens.length + 1) s).2.Sound := (gives_useLines _ s hs).sound
    rw [huses] at hsound
    exact hsound
  have hroom : p.Fits → ∀ d ∈ p.decls, d.levels ≤ maxNesting := fun hfits => hfits
  have hdecls := reads_declarations h.decls hfaithful hroom
    (ts.length + 1) { s with tokens := ts } y hsound hdepth (Nat.lt_succ_self _) hy
  rw [body, huses]
  dsimp only
  rcases hdecls with ⟨ds, hrun, hds⟩ | ⟨hfits, hdeep⟩
  · rw [hrun]
    refine .inl ⟨_, rfl, ?_⟩
    rw [Program.erase, Program.erase]
    dsimp only
    rw [hheader, herase, hds]
  · exact .inr ⟨hfits, hdeep⟩

/-- **A file is read from its lines**; only where it does not fit, the nesting limit may be reported
instead. -/
theorem reads_program {p : Program} (h : p.Writable) (hfaithful : p.faithful = true) {s : State}
    (hs : s.Sound) (hdepth : s.depth = 0) {x : Token} (hts : Lines p.lines x s.tokens) :
    (∃ p', program s = (p', { s with tokens := [] }) ∧ p'.erase = p.erase) ∨
      (¬ p.Fits ∧ (program s).2.TooDeep) := by
  have hmodule : (Word.name "module").kind = .kwModule := by decide
  rw [Program.lines, List.append_assoc] at hts
  rw [program_eq, current_kind hs.eof]
  cases hheader : p.header with
  | none =>
    rw [hheader] at hts
    rw [if_neg (uses_start h hts).2]
    exact reads_body h hfaithful (by rw [hheader]) hs hdepth hts
  | some l =>
    rw [hheader] at hts
    have hkind : kindOf s.tokens = .kwModule := by
      rw [kindOf_of_begins hts.1, hmodule]
    obtain ⟨l', y, ts, hline, herase, -, hy⟩ := pathLine_run (h.header l hheader) "module"
      (fun y ts hy => (uses_start h hy).1) hs.eof hts.1
    have hsound : State.Sound { s with tokens := ts } := by
      have hsound : (pathLine s).2.Sound := (gives_pathLine s hs).sound
      rw [hline] at hsound
      exact hsound
    rw [if_pos hkind, hline]
    exact reads_body h hfaithful (by rw [hheader, Option.map_some, Option.map_some, herase]) hsound
      hdepth hy

end Parser

end PatternPlan.Surface
