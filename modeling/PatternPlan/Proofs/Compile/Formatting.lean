import PatternPlan.Compile.Compilation
import PatternPlan.Proofs.Source.Positions
import PatternPlan.Proofs.Surface.Parsed
import PatternPlan.Proofs.Surface.ProgramRead

/-!
# Formatting keeps the program

Reading, printing and reading again.

* `Collector.mem_codes_addAll` — collecting diagnostics loses no code and makes up none;
* `print?_of_writable` — what can be written is printed;
* `Reading.of_print` — the printed form of a tree that is written faithfully is read back;
* `formatting_keeps_program` — **a source in which nothing is wrong is printed, and what is printed
  is read as the same program**, if its written form is its alone;
* `formatting_joins_lines` — a file whose written form is not its alone.
-/

namespace PatternPlan

/-! ### Collected diagnostics -/

namespace Collector

theorem mem_codes_insert {d : Diagnostic} {es : List Diagnostic} {k : Code} :
    k ∈ (insert d es).map Diagnostic.code ↔ k = d.code ∨ k ∈ es.map Diagnostic.code := by
  induction es with
  | nil => simp [insert]
  | cons e es ih =>
    rw [insert]
    split
    · rename_i hmerges
      have hcode : e.code = d.code := by
        simp only [merges, Bool.and_eq_true, decide_eq_true_eq] at hmerges
        exact hmerges.1.1.2
      rw [List.map_cons, List.map_cons, List.mem_cons, List.mem_cons,
        show (addNotes e d.notes).code = e.code from rfl, hcode]
      tauto
    · rw [List.map_cons, List.map_cons, List.mem_cons, List.mem_cons, ih]
      tauto

/-- **The codes of collected diagnostics** are those that were collected. -/
theorem mem_codes_addAll {c : Collector} {ds : List Diagnostic} {k : Code} :
    k ∈ (c.addAll ds).items.map Diagnostic.code ↔
      k ∈ c.items.map Diagnostic.code ∨ k ∈ ds.map Diagnostic.code := by
  induction ds generalizing c with
  | nil => simp [addAll]
  | cons d ds ih =>
    have hcode : (if d.file = "" then d.withFile c.file else d).code = d.code := by
      split <;> rfl
    show k ∈ ((c.add d).addAll ds).items.map Diagnostic.code ↔ _
    rw [ih, List.map_cons, List.mem_cons]
    show k ∈ (insert (if d.file = "" then d.withFile c.file else d) c.items).map Diagnostic.code ∨ _ ↔ _
    rw [mem_codes_insert, hcode]
    tauto

end Collector

namespace Reading

/-- Lexing finds nothing wrong where no token is illegal. -/
theorem illegalTokens_eq_nil {l : Lexed} : illegalTokens l = [] ↔ ∀ t ∈ l.tokens, t.kind ≠ .illegal := by
  rw [illegalTokens, List.map_eq_nil_iff, List.filter_eq_nil_iff]
  simp only [decide_eq_true_eq]

/-- The codes of what is reported about a source. -/
theorem mem_codes_of {file : String} {source : Text} {k : Code} :
    k ∈ (of file source).diagnostics.items.map Diagnostic.code ↔
      k ∈ (illegalTokens (lex source)).map Diagnostic.code ∨
      k ∈ (Surface.parse (lex source)).errors.map Diagnostic.code := by
  show k ∈ (Collector.addAll (Collector.addAll { file := file } _) _).items.map Diagnostic.code ↔ _
  rw [Collector.mem_codes_addAll, Collector.mem_codes_addAll]
  simp

/-- Nothing is reported about a source exactly if neither lexing nor parsing found anything. -/
theorem clean_iff {file : String} {source : Text} : (of file source).diagnostics.items = [] ↔
    illegalTokens (lex source) = [] ∧ (Surface.parse (lex source)).errors = [] := by
  have hnil : ∀ ds : List Diagnostic, ds = [] ↔ ∀ k, k ∉ ds.map Diagnostic.code := by
    intro ds
    rw [← List.eq_nil_iff_forall_not_mem, List.map_eq_nil_iff]
  rw [hnil, hnil, hnil]
  simp only [mem_codes_of, not_or]
  exact forall_and

end Reading

namespace Surface

/-! ### What can be written is printed -/

namespace Pattern

theorem hasMissingBound_of_writable {p : Pattern} (h : p.Writable) : p.hasMissingBound = false := by
  have hall : ∀ ps : List Pattern, (∀ p ∈ ps, p.hasMissingBound = false) →
      anyMissingBound ps = false := by
    intro ps hps
    induction ps with
    | nil => rfl
    | cons p ps ih =>
      rw [List.forall_mem_cons] at hps
      rw [anyMissingBound, hps.1, ih hps.2]
      rfl
  induction h with
  | wildcard | var | literal | regex => rfl
  | tuple _ _ ih | construct _ _ ih | or _ _ ih =>
    rw [hasMissingBound]
    exact hall _ ih
  | @record mark fields hasRest _ _ ih =>
    rw [hasMissingBound]
    clear * - ih
    induction fields with
    | nil => rfl
    | cons f fs ihf =>
      rw [List.forall_mem_cons] at ih
      rw [anyFieldMissingBound, ih.1, ihf ih.2]
      rfl
  | binding _ _ ih => exact ih
  | @slice mark items _ _ ih =>
    rw [hasMissingBound]
    clear * - ih
    induction items with
    | nil => rfl
    | cons item items ihi =>
      have hrest := ihi fun p hp => ih p (List.mem_cons_of_mem _ hp)
      cases item with
      | element p =>
        rw [anyItemMissingBound, ih p List.mem_cons_self, hrest]
        rfl
      | rest n span => exact hrest
  | @range mark start stop inclusive hsome _ _ _ =>
    rw [hasMissingBound]
    rcases hsome with h | h
    · rw [Option.isNone_eq_false_iff.mpr h]
      rfl
    · rw [Option.isNone_eq_false_iff.mpr h, Bool.and_false]
  | @active mark name kind arg _ _ ih =>
    cases arg with
    | none => rfl
    | some p => exact ih p rfl

end Pattern

/-- The patterns of all matches inside an expression that can be written can be written. -/
theorem Expr.matches_writable {e : Expr} (h : e.Writable) :
    ∀ m ∈ e.allMatches, ∀ a ∈ m.arms, a.pattern.Writable := by
  induction h with
  | ident | literal => simp [allMatches]
  | construct _ _ ih | perform _ _ ih | tuple _ _ ih | array _ ih =>
    rw [allMatches]
    intro m hm
    obtain ⟨e, he, hm⟩ := mem_allMatchesOfList.mp hm
    exact ih e he m hm
  | call _ _ ihf ih =>
    rw [allMatches]
    refine List.forall_mem_append.mpr ⟨ihf, fun m hm => ?_⟩
    obtain ⟨e, he, hm⟩ := mem_allMatchesOfList.mp hm
    exact ih e he m hm
  | unary _ ih | field _ _ ih => exact ih
  | binary _ _ ihl ihr => exact List.forall_mem_append.mpr ⟨ihl, ihr⟩
  | cond _ _ _ ihc ihy ihn =>
    rw [allMatches]
    refine List.forall_mem_append.mpr ⟨List.forall_mem_append.mpr ⟨ihc, ihy⟩, fun m hm => ?_⟩
    obtain ⟨e, he, hm⟩ := mem_allMatchesOfOption.mp hm
    exact ihn e he m hm
  | select _ _ harms _ _ iht ihg ihb =>
    rw [allMatches]
    refine List.forall_mem_cons.mpr ⟨fun a ha => (harms a ha).pattern, ?_⟩
    refine List.forall_mem_append.mpr ⟨iht, fun m hm => ?_⟩
    obtain ⟨a, ha, ⟨g, hg, hm⟩ | hm⟩ := mem_allMatchesOfArms.mp hm
    · exact ihg a ha g hg m hm
    · exact ihb a ha m hm
  | block _ _ _ ih ihr =>
    rw [allMatches]
    refine List.forall_mem_append.mpr ⟨fun m hm => ?_, fun m hm => ?_⟩
    · obtain ⟨l, hl, hm⟩ := mem_allMatchesOfFields.mp hm
      exact ih l hl m hm
    · obtain ⟨e, he, hm⟩ := mem_allMatchesOfOption.mp hm
      exact ihr e he m hm
  | record _ _ _ ih =>
    rw [allMatches]
    intro m hm
    obtain ⟨f, hf, hm⟩ := mem_allMatchesOfFields.mp hm
    exact ih f hf m hm

theorem Decl.body_writable {d : Decl} (h : d.Writable) {e : Expr} (he : d.body? = some e) :
    e.Writable := by
  cases d with
  | function f =>
    cases he
    exact Function.Writable.body h
  | recognizer r =>
    cases he
    exact Recognizer.Writable.body h
  | type t => cases he
  | expr m e' =>
    cases he
    exact h

theorem print?_of_writable {p : Program} (h : p.Writable) : p.print? = some p.print := by
  have hbounds : p.hasMissingBound = false := by
    rw [Program.hasMissingBound, List.any_eq_false]
    intro m hm
    rw [List.any_eq_true]
    rintro ⟨a, ha, hmissing⟩
    obtain ⟨d, hd, hm⟩ := List.mem_flatMap.mp hm
    cases he : d.body? with
    | none =>
      rw [he] at hm
      cases hm
    | some e =>
      rw [he] at hm
      have hwritable := Expr.matches_writable (Decl.body_writable (h.decls d hd) he) m hm a ha
      rw [Pattern.hasMissingBound_of_writable hwritable] at hmissing
      cases hmissing
  rw [Program.print?, hbounds]
  rfl

end Surface

/-! ### Reading again -/

section Lexing

variable {text : String} {lines : List (List Word)}

/-- The tokens of a text that is read as some lines. -/
theorem ReadsLines.lexed (h : ReadsLines text.toList lines) :
    Lines lines ⟨.eof, [], none, 0, 0, 0⟩ (lex (.ofString text)).tokens := by
  show Lines _ _ (tokensFrom {} (Source.visible (.ofString text))).1
  rw [visible_ofString h.clean]
  exact h.tokens {} _ Nat.zero_lt_one

theorem ReadsLines.illegalTokens (h : ReadsLines text.toList lines) :
    Reading.illegalTokens (lex (.ofString text)) = [] :=
  Reading.illegalTokens_eq_nil.mpr (lines_legal h.lexed h.legal)

end Lexing

namespace Reading

open Surface

/-- The printed form of a program that is written faithfully is read as that program; the nesting
limit may be reported instead where the program does not fit. -/
theorem of_print {p : Program} (h : p.Writable) (hfaithful : p.faithful = true) (file : String) :
    ((of file (.ofString p.print)).diagnostics.items = [] ∧
      (of file (.ofString p.print)).program.erase = p.erase) ∨
    (¬ p.Fits ∧ ∃ d ∈ (of file (.ofString p.print)).diagnostics.items, d.code = .nestingTooDeep) := by
  have hlines := readsLines_print h
  have hread := Parser.reads_program h hfaithful
    (s := { tokens := (lex (.ofString p.print)).tokens, eof := (lex (.ofString p.print)).eof })
    ⟨sound_lex _, rfl⟩ rfl hlines.lexed
  rcases hread with ⟨p', hrun, herase⟩ | ⟨hfits, d, hd, hcode⟩
  · refine .inl ⟨clean_iff.mpr ⟨hlines.illegalTokens, ?_⟩, ?_⟩
    · rw [parse, hrun]
    · show (parse (lex (.ofString p.print))).program.erase = p.erase
      rw [parse, hrun]
      exact herase
  · refine .inr ⟨hfits, ?_⟩
    have hmem : Code.nestingTooDeep ∈ (of file (.ofString p.print)).diagnostics.items.map
        Diagnostic.code := mem_codes_of.mpr (.inr (List.mem_map.mpr ⟨d, hd, hcode⟩))
    exact List.mem_map.mp hmem

/-- **Formatting keeps the program.**  A source in which nothing is wrong is printed, and what is
printed is read without complaint as the same program, places aside, if the written form of the
program is its alone.  Only a program that does not fit may reach the nesting limit. -/
theorem formatting_keeps_program {file : String} {source : Text}
    (hclean : (of file source).diagnostics.items = [])
    (hfaithful : (of file source).program.faithful = true) :
    ∃ text, (of file source).program.print? = some text ∧
      (((of file (.ofString text)).diagnostics.items = [] ∧
        (of file (.ofString text)).program.erase = (of file source).program.erase) ∨
      (¬ (of file source).program.Fits ∧
        ∃ d ∈ (of file (.ofString text)).diagnostics.items, d.code = .nestingTooDeep)) := by
  have hwritable : (of file source).program.Writable := writable_parse (clean_iff.mp hclean).2
  exact ⟨_, print?_of_writable hwritable, of_print hwritable hfaithful file⟩

/-- A match with alternatives, a range, a name, a guard and an `if` inside. -/
def stepsSource : Text := .ofString ("fn steps(n: Int) -> Int = match n - 1 with\n"
  ++ "  | 0 | 1..=9 as k when (k + 1) * 2 > n -> if k == 1 then -k else k\n  | _ -> 0")

theorem formatting_keeps_steps :
    ((of "steps.mc" stepsSource).diagnostics.items = [] ∧
      (of "steps.mc" stepsSource).program.faithful = true) ∧
    ∃ text, (of "steps.mc" stepsSource).program.print? = some text ∧
      (((of "steps.mc" (.ofString text)).diagnostics.items = [] ∧
        (of "steps.mc" (.ofString text)).program.erase = (of "steps.mc" stepsSource).program.erase) ∨
      (¬ (of "steps.mc" stepsSource).program.Fits ∧
        ∃ d ∈ (of "steps.mc" (.ofString text)).diagnostics.items, d.code = .nestingTooDeep)) :=
  ⟨⟨by decide +kernel, by decide +kernel⟩,
    formatting_keeps_program (by decide +kernel) (by decide +kernel)⟩

/-- **Not every written form is its program's alone**: of two expressions on lines of their own, the
second a negative number, printing makes one subtraction. -/
theorem formatting_joins_lines : ¬ ∀ source : Text, (of "sum.mc" source).diagnostics.items = [] →
    ∃ text, (of "sum.mc" source).program.print? = some text ∧
      (((of "sum.mc" (.ofString text)).diagnostics.items = [] ∧
        (of "sum.mc" (.ofString text)).program.erase = (of "sum.mc" source).program.erase) ∨
      ∃ d ∈ (of "sum.mc" (.ofString text)).diagnostics.items, d.code = .nestingTooDeep) := by
  intro h
  have hprint : (of "sum.mc" (.ofString "1\n(-2)")).program.print? = some "1\n\n-2\n" := by
    decide +kernel
  obtain ⟨text, htext, hagain⟩ := h (.ofString "1\n(-2)") (by decide +kernel)
  cases Option.some.inj (hprint.symm.trans htext)
  rcases hagain with ⟨-, herase⟩ | ⟨d, hd, -⟩
  · have hcount : ∀ p : Program, p.erase.decls.length = p.decls.length := fun p => List.length_map _
    have hlengths := congrArg (fun p => p.decls.length) herase
    rw [hcount, hcount] at hlengths
    exact absurd hlengths (by decide +kernel)
  · have hclean : (of "sum.mc" (.ofString "1\n\n-2\n")).diagnostics.items = [] := by decide +kernel
    rw [hclean] at hd
    cases hd

end Reading

end PatternPlan
