import PatternPlan.Proofs.Surface.ExprRead
import PatternPlan.Proofs.Surface.PatternPrinted

/-!
# Printed expressions are read back

The printer puts parentheses around an operand by one table of precedences, and the parser goes on
behind an operand by another.

* `Expr.Formula` — expressions of names, constants, constructors, arrays, tuples, operators, calls and
  fields;
* `Expr.Stands` — the printed form of an expression in front of tokens that are no part of it;
* `Expr.ReadsBack` — what is read is the expression that was printed, and no token more or less;
* `Stands.reads` — what is written faithfully is read back;
* `Formula.eq_of_text` — formulas that are printed alike are alike, places aside;
* `formula_reads_back` — **formulas are read back**.
-/

namespace PatternPlan.Surface.Expr

variable {e e' : Expr} {s : State} {rest : List Token}

/-! ### Formulas -/

/-- An expression without keywords, blocks and records in it, and without a call of a constructor that
has no arguments: such a call is written like the constructor with arguments. -/
inductive Formula : Expr → Prop
  | ident {mark : Mark} {name : String} (hname : isLowerName name = true) :
      Formula (.ident mark name)
  | literal {mark : Mark} {value : Literal} (hvalue : value.Unsigned) :
      Formula (.literal mark value)
  | construct {mark : Mark} {name : String} {args : List Expr} (hname : isUpperName name = true)
      (hargs : ∀ e ∈ args, Formula e) : Formula (.construct mark name args)
  | array {mark : Mark} {elements : List Expr} (helements : ∀ e ∈ elements, Formula e) :
      Formula (.array mark elements)
  | tuple {mark : Mark} {elements : List Expr} (hlength : 2 ≤ elements.length)
      (helements : ∀ e ∈ elements, Formula e) : Formula (.tuple mark elements)
  | unary {mark : Mark} {op : UnaryOp} {operand : Expr} (hoperand : Formula operand) :
      Formula (.unary mark op operand)
  | binary {mark : Mark} {op : BinaryOp} {left right : Expr} (hleft : Formula left)
      (hright : Formula right) : Formula (.binary mark op left right)
  | call {mark : Mark} {callee : Expr} {args : List Expr} (hcallee : Formula callee)
      (hbare : callee.isBare = false) (hargs : ∀ e ∈ args, Formula e) :
      Formula (.call mark callee args)
  | field {mark : Mark} {record : Expr} {name : String} (hrecord : Formula record)
      (hname : isLowerName name = true) : Formula (.field mark record name)

theorem Formula.writable (h : e.Formula) : e.Writable := by
  induction h with
  | ident hname => exact .ident hname
  | literal hvalue => exact .literal hvalue
  | construct hname _ ih => exact .construct hname ih
  | array _ ih => exact .array ih
  | tuple hlength _ ih => exact .tuple hlength ih
  | unary _ ih => exact .unary ih
  | binary _ _ ihl ihr => exact .binary ihl ihr
  | call _ _ _ ihf ih => exact .call ihf ih
  | field _ hname ih => exact .field ih hname

theorem Formula.faithful (h : e.Formula) : e.faithful = true := by
  induction h with
  | ident | literal => rw [Expr.faithful]
  | construct _ _ ih | array _ ih | tuple _ _ ih =>
    rw [Expr.faithful]
    exact allFaithful_iff.mpr ih
  | unary _ ih | field _ _ ih => rwa [Expr.faithful]
  | binary _ _ ihl ihr => rw [Expr.faithful, ihl, ihr, Bool.and_self]
  | call _ hbare _ ihf ih =>
    rw [Expr.faithful, hbare, ihf, allFaithful_iff.mpr ih]
    rfl

/-- Behind a formula an `else` or a bar is no part of it. -/
theorem Formula.closes (h : e.Formula) {x : Token} (hbinds : Surface.binds x rest = 0) :
    e.Closes x rest := by
  cases h <;> exact ⟨hbinds, nofun, nofun⟩

/-! ### Printed expressions -/

/-- The tokens of the printed form of an expression. -/
def printed (e : Expr) : List Token := (lex (.ofString e.text)).tokens

theorem after_printed (h : e.Writable) :
    After e.words (fun _ more => more = []) ⟨.eof, [], none, 1, 0, 0⟩ e.printed :=
  after_lexed ((legible_of_writable h 0 rfl).loosen)

theorem words_ne (h : e.Writable) : e.words ≠ [] := by
  obtain ⟨w, ws, hwords, -⟩ := opening_words h
  rw [hwords]
  exact List.cons_ne_nil w ws

theorem printed_ne (h : e.Writable) : e.printed ≠ [] := by
  have hlength := length_of_after (after_printed h)
  have hwords := List.length_pos_iff.mpr (words_ne h)
  rw [← hlength] at hwords
  exact List.length_pos_iff.mp hwords

/-- A state on the printed form of an expression, behind which nothing stands that is a part of it. -/
structure Stands (e : Expr) (rest : List Token) (s : State) : Prop where
  eof : s.eof.kind = .eof
  tokens : s.tokens = e.printed ++ rest
  closes : ∀ last, e.printed.getLast? = some last → e.Closes last rest

/-- A parser reads the printed expression, places aside, and the last printed token is current then. -/
def ReadsBack (parser : Parser Expr) (e : Expr) (rest : List Token) (s : State) : Prop :=
  ∃ e' last, parser s = (some e', { s with tokens := last :: rest }) ∧ e'.erase = e.erase ∧
    e.printed.getLast? = some last

/-- **What is written faithfully is read back**, or it nests too deep. -/
theorem Stands.reads (hs : e.Stands rest s) (h : e.Writable) (hfaithful : e.faithful = true)
    (room : Nat) : e.ReadsBack (Parser.exprWithin room Precedence.lowest) rest s ∨
      ¬ e.levels + 1 ≤ room ∧
        ∃ t, Parser.exprWithin room Precedence.lowest s = (none, t) ∧ t.TooDeep := by
  have hlast : (⟨.eof, [], none, 1, 0, 0⟩ :: e.printed).getLast? = e.printed.getLast? :=
    List.getLast?_cons_of_ne_nil (printed_ne h)
  have hbegins := begins_of_after (words_ne h) (after_snoc rest (after_printed h))
  rw [hlast] at hbegins
  have hreads : Parser.ReadsExpr (e.levels + 1 ≤ room) e := Parser.readsExpr h hfaithful
  have hcloses : ∀ y ts, ts = rest ∧ e.printed.getLast? = some y → e.Closes y ts := by
    rintro y ts ⟨rfl, hy⟩
    exact hs.closes y hy
  rcases Parser.runs_plain hreads id hcloses hbegins s hs.eof rfl hs.tokens with
    ⟨e', ts, hrun, -, herase, y, _, rfl, rfl, hlast⟩ | hdeep
  · exact .inl ⟨e', y, hrun, herase, hlast⟩
  · exact .inr hdeep

/-- The printed form of a formula on its own. -/
def alone (e : Expr) : State := { tokens := e.printed, eof := ⟨.eof, [], none, 0, 0, 0⟩ }

theorem Formula.stands_alone (h : e.Formula) : e.Stands [] e.alone where
  eof := rfl
  tokens := (List.append_nil _).symm
  closes := fun _ _ => h.closes rfl

/-- **Formulas that are printed alike are alike**, places aside. -/
theorem Formula.eq_of_text (h : e.Formula) (h' : e'.Formula) (htext : e.text = e'.text) :
    e.erase = e'.erase := by
  have halone : e.alone = e'.alone := by rw [alone, alone, printed, printed, htext]
  have hread : ∀ {f : Expr}, f.Formula → f.levels + 1 ≤ max e.levels e'.levels + 1 →
      ∃ g t, Parser.exprWithin (max e.levels e'.levels + 1) Precedence.lowest f.alone = (some g, t) ∧
        g.erase = f.erase := by
    intro f hf hroom
    rcases hf.stands_alone.reads hf.writable hf.faithful (max e.levels e'.levels + 1) with
      ⟨g, last, hrun, herase, -⟩ | ⟨hdeep, -⟩
    · exact ⟨g, _, hrun, herase⟩
    · exact absurd hroom hdeep
  obtain ⟨g, t, hrun, herase⟩ := hread h (Nat.succ_le_succ (le_max_left _ _))
  obtain ⟨g', t', hrun', herase'⟩ := hread h' (Nat.succ_le_succ (le_max_right _ _))
  rw [halone, hrun'] at hrun
  cases hrun
  rw [← herase, herase']

/-- **Formulas are read back.**  The printed form of a formula, in front of tokens that are no part of
it or of none, is read as the formula, places aside, and exactly the printed tokens have been read.
Only where it nests deeper than there are levels left, the limit is reported instead. -/
theorem formula_reads_back (h : e.Formula) (hs : e.Stands rest s) :
    e.ReadsBack Parser.expression rest s ∨ ¬ e.levels + 1 ≤ maxNesting - s.depth ∧
      ∃ t, Parser.expression s = (none, t) ∧ t.TooDeep :=
  hs.reads h.writable h.faithful (maxNesting - s.depth)

/-- The formula `(a - (b - a)) * -(a + b).f == (!a && Some)((a, "s"), [1])`. -/
def mixedFormula : Expr :=
  .binary default .eq
    (.binary default .mul
      (.binary default .sub (.ident default "a")
        (.binary default .sub (.ident default "b") (.ident default "a")))
      (.unary default .negate
        (.field default (.binary default .add (.ident default "a") (.ident default "b")) "f")))
    (.call default
      (.binary default .and (.unary default .not (.ident default "a")) (.construct default "Some" []))
      [.tuple default [.ident default "a", .literal default (.text "s")],
       .array default [.literal default (.int 1)]])

theorem formula_reads_back_mixed :
    mixedFormula.Formula ∧ mixedFormula.Stands [] mixedFormula.alone ∧
    (mixedFormula.ReadsBack Parser.expression [] mixedFormula.alone ∨
      ¬ mixedFormula.levels + 1 ≤ maxNesting - mixedFormula.alone.depth ∧
        ∃ t, Parser.expression mixedFormula.alone = (none, t) ∧ t.TooDeep) := by
  have hname : ∀ n ∈ ["a", "b", "f"], isLowerName n = true := by decide +kernel
  have ha : Formula (.ident default "a") := .ident (hname "a" (by decide))
  have hb : Formula (.ident default "b") := .ident (hname "b" (by decide))
  have hone : Formula (.literal default (.int 1)) := .literal ⟨by decide, by decide⟩
  have htext : Formula (.literal default (.text "s")) := .literal trivial
  have hformula : mixedFormula.Formula := by
    refine .binary (.binary (.binary ha (.binary hb ha))
      (.unary (.field (.binary ha hb) (hname "f" (by decide))))) (.call ?_ rfl ?_)
    · exact .binary (.unary ha) (.construct (by decide +kernel) (List.forall_mem_nil _))
    · rw [List.forall_mem_cons, List.forall_mem_singleton]
      refine ⟨.tuple le_rfl ?_, .array (List.forall_mem_singleton.mpr hone)⟩
      rw [List.forall_mem_cons, List.forall_mem_singleton]
      exact ⟨ha, htext⟩
  exact ⟨hformula, hformula.stands_alone, formula_reads_back hformula hformula.stands_alone⟩

/-- Its parentheses are those that it needs. -/
example : mixedFormula.text = "(a - (b - a)) * -(a + b).f == (!a && Some)((a, \"s\"), [1])" := by
  decide +kernel

end PatternPlan.Surface.Expr
