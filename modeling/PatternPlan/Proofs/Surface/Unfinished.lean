import PatternPlan.Proofs.Surface.Tiling

/-!
# Input that is not finished

What is reported of the beginning of a file in which nothing is wrong.

* `State.Settles` — how reading may end there: nothing is recorded, the early end is marked, or one
  diagnostic at the end of input stands in its place;
* `settles_declarations`, `settles_program` — declarations and files, by the rounds up to the cut;
* `parse_unfinished` — **the beginning of a file without errors is accepted or marked as incomplete,
  except for one diagnostic out of four**;
* `parse_unmarked` — beginnings that are rejected and not marked.
-/

namespace PatternPlan.Surface

/-- How reading ends on the beginning of a file: the early end is marked, or nothing is recorded, or
one diagnostic that stands at the end of input. -/
def State.Settles (s t : State) : Prop :=
  t.incomplete = true ∨ t.errors = s.errors ∨ ∃ d ∈ Parser.unmarked s.eof, t.errors = s.errors ++ [d]

namespace Parser

variable {s : State} {n : Nat} {e : Token}

theorem declarations_done {fuel : Nat} (hs : s.Whole) (htokens : s.tokens = []) :
    declarations fuel s = ([], s) := by
  cases fuel with
  | zero => rfl
  | succ fuel =>
    have hend : s.current.kind = .eof := by
      rw [State.current_eq_eof (List.length_eq_zero_iff.mpr htokens)]
      exact hs.eof
    rw [declarations, if_pos hend]

/-- A round at the end of input is the last one. -/
theorem settles_last {fuel : Nat} (hs : s.Whole) (hends : Ends 1 s (declaration s)) :
    s.Settles (declarations fuel (step s).2).2 := by
  have hrest := reaches_declarations fuel (step s).2
  have hwhole := (reaches_step s).whole hs
  rcases step_cases s with ⟨d, t, hrun, hlength, hstep⟩ | ⟨hlost, hstep⟩
  · rw [hrun] at hends
    rcases hends with hmarked | ⟨hnone, -⟩ | ⟨-, hone, hsame⟩
    · refine .inl (hrest.incomplete ?_)
      rw [hstep]
      exact hmarked
    · cases hnone
    · have hempty : (step s).2.tokens = [] := by
        rw [hstep]
        refine List.length_eq_zero_iff.mp ?_
        show (advance t).2.tokens.length = 0
        rw [State.length_advance, hone]
      rw [declarations_done hwhole hempty, hstep]
      exact .inr (.inl hsame)
  · rcases hends with hmarked | ⟨-, htokens, d, hd, herrors⟩ | ⟨hsome, -, hsame⟩
    · refine .inl (hrest.incomplete ?_)
      rw [hstep]
      exact hmarked
    · have hempty : (step s).2.tokens = [] := by
        rw [hstep]
        refine List.length_eq_zero_iff.mp (Nat.le_zero.mp ?_)
        have hle := length_synchronize (declaration s).2
        rw [htokens] at hle
        exact hle
      rw [declarations_done hwhole hempty, hstep]
      exact .inr (.inr ⟨d, hd, herrors⟩)
    · rcases hlost with hnone | hmore
      · rw [hnone] at hsome
        cases hsome
      · exact absurd (congrArg List.length hsame) hmore

/-- **Declarations on a cut input**: the same rounds are run up to the cut. -/
theorem settles_declarations {fuel fuel' : Nat} (hs : s.Whole) (he : e.kind = .eof)
    (hn : n ≤ s.tokens.length) (hfuel : s.tokens.length < fuel) (hfuel' : n < fuel')
    (herrors : (declarations fuel s).2.errors = s.errors) :
    (s.cut n e).Settles (declarations fuel' (s.cut n e)).2 := by
  induction fuel generalizing fuel' s n with
  | zero => exact absurd hfuel (Nat.not_lt_zero _)
  | succ fuel ih =>
    obtain ⟨fuel', rfl⟩ : ∃ m, fuel' = m + 1 := ⟨fuel' - 1, by omega⟩
    have hcut : (s.cut n e).Whole := hs.cut he n
    have hcutlength : (s.cut n e).tokens.length = n := State.length_cut hn
    by_cases hzero : n = 0
    · rw [declarations_done hcut (List.length_eq_zero_iff.mp (hcutlength.trans hzero))]
      exact .inr (.inl rfl)
    · have hreach := reaches_step s
      rw [declarations, if_neg (hs.current_kind (by omega))] at herrors
      rw [declarations, if_neg (hcut.current_kind (by omega))]
      have hsame := hreach.errors_eq (reaches_declarations fuel (step s).2) herrors
      obtain ⟨d, t, hrun, htsame, hleft, hstep⟩ := step_clean hs hsame
      rcases reads_declaration.cuts s n e hs he (Nat.zero_le _) hn (Nat.lt_succ_self _) d t hrun htsame
        with ⟨m, hecho, hm, hlength⟩ | hends
      · -- the declaration ends before the cut, and the next round starts with what is left
        have hless := length_step (s := s) (by omega)
        have hcutstep : (step (s.cut n e)).2 = (step s).2.cut (m - 1) e := by
          rw [hstep, step, hecho]
          have hclean : (t.cut m e).errors.length = (s.cut n e).errors.length :=
            congrArg List.length htsame
          simp only [hclean, Option.isSome_some, decide_true, Bool.and_self, if_true]
          exact State.cut_advance t m e
        have hadvance := State.length_advance t
        have hsteplength : (step s).2.tokens.length = t.tokens.length - 1 := by
          rw [hstep]
          exact hadvance
        have hlater : ((step s).2.cut (m - 1) e).Settles (declarations fuel' ((step s).2.cut (m - 1) e)).2 :=
          ih (hreach.whole hs) (by omega) (by omega) (by omega) (herrors.trans hsame.symm)
        show (s.cut n e).Settles (declarations fuel' (step (s.cut n e)).2).2
        rw [hcutstep]
        unfold State.Settles at hlater ⊢
        rw [show ((step s).2.cut (m - 1) e).errors = (s.cut n e).errors from hsame] at hlater
        exact hlater
      · exact settles_last hcut hends

/-- **Files on a cut input.** -/
theorem settles_program (hs : s.Whole) (he : e.kind = .eof) (hn : n ≤ s.tokens.length)
    (herrors : (program s).2.errors = s.errors) : (s.cut n e).Settles (program (s.cut n e)).2 := by
  obtain ⟨header, uses, t, hopening, hprogram⟩ := program_opening s
  obtain ⟨header', uses', t', hopening', hprogram'⟩ := program_opening (s.cut n e)
  have hreach := (reads_opening (N := 0)).moves s
  have hreach' := (reads_opening (N := 0)).moves (s.cut n e)
  rw [hopening] at hreach
  rw [hopening'] at hreach'
  rw [hprogram] at herrors
  rw [hprogram']
  have hsame := hreach.errors_eq (reaches_declarations (t.tokens.length + 1) t) herrors
  rcases reads_opening.cuts s n e hs he (Nat.zero_le _) hn (Nat.lt_succ_self _) _ t hopening hsame
    with ⟨m, hecho, -, hlength⟩ | hends
  · rw [hopening'] at hecho
    cases hecho
    have hm : m ≤ t.tokens.length := by omega
    have hcutlength : (t.cut m e).tokens.length = m := State.length_cut hm
    have hlater : (t.cut m e).Settles (declarations ((t.cut m e).tokens.length + 1) (t.cut m e)).2 :=
      settles_declarations (hreach.whole hs) he hm (Nat.lt_succ_self _) (by omega)
        (herrors.trans hsame.symm)
    unfold State.Settles at hlater ⊢
    rw [show (t.cut m e).errors = (s.cut n e).errors from hsame] at hlater
    exact hlater
  · rw [hopening'] at hends
    rcases hends with hmarked | ⟨hnone, -⟩ | ⟨-, hempty, hclean⟩
    · exact .inl ((reaches_declarations (t'.tokens.length + 1) t').incomplete hmarked)
    · cases hnone
    · have htokens : t'.tokens = [] := List.length_eq_zero_iff.mp hempty
      have hdone : declarations (t'.tokens.length + 1) t' = ([], t') :=
        declarations_done (hreach'.whole (hs.cut he n)) htokens
      rw [hdone]
      exact .inr (.inl hclean)

end Parser

/-- **Input that is not finished.**  Whatever file without errors it is the beginning of, it is
accepted, or its early end is marked, or the only diagnostic is one of the four that do not mark it. -/
theorem parse_unfinished (l part : Lexed) (htokens : ∀ t ∈ l.tokens, t.kind ≠ .eof)
    (heof : l.eof.kind = .eof) (heof' : part.eof.kind = .eof) (hpart : part.tokens <+: l.tokens)
    (h : (parse l).errors = []) :
    (parse part).errors = [] ∨ (parse part).incomplete = true ∨
      ∃ d ∈ Parser.unmarked part.eof, (parse part).errors = [d] := by
  have hs : (State.of l).Whole := ⟨htokens, heof⟩
  have hcut : State.of part = (State.of l).cut part.tokens.length part.eof := by
    show State.of part = { State.of l with tokens := l.tokens.take part.tokens.length, eof := part.eof }
    rw [← List.prefix_iff_eq_take.mp hpart]
    rfl
  have hsettles := Parser.settles_program (n := part.tokens.length) hs heof' hpart.length_le h
  rw [← hcut] at hsettles
  rcases hsettles with hmarked | hsame | hunmarked
  · exact .inr (.inl hmarked)
  · exact .inl hsame
  · exact .inr (.inr hunmarked)

/-- A function of which the last token is missing. -/
theorem parse_unfinished_function :
    (lex (.ofString "fn f(x) =")).tokens <+: (lex (.ofString "fn f(x) = x")).tokens ∧
    (parse (lex (.ofString "fn f(x) = x"))).errors = [] ∧
    ((parse (lex (.ofString "fn f(x) ="))).errors = [] ∨
      (parse (lex (.ofString "fn f(x) ="))).incomplete = true ∨
      ∃ d ∈ Parser.unmarked (lex (.ofString "fn f(x) =")).eof,
        (parse (lex (.ofString "fn f(x) ="))).errors = [d]) := by
  have hpart : (lex (.ofString "fn f(x) =")).tokens <+: (lex (.ofString "fn f(x) = x")).tokens := by
    decide +kernel
  have hclean : (parse (lex (.ofString "fn f(x) = x"))).errors = [] := by decide +kernel
  exact ⟨hpart, hclean, parse_unfinished _ _ (by decide +kernel) (by decide +kernel) (by decide +kernel)
    hpart hclean⟩

/-- Files without errors, each with a beginning of it. -/
def unmarkedParts : List (Text × Text) :=
  [("pub fn f() = 1", "pub"), ("@pure fn f() = 1", "@pure"), ("fn f(x: Int) = x", "fn f(x:"),
    ("match r with | \x7ba: x\x7d -> x", "match r with | \x7b")].map fun p => (.ofString p.1, .ofString p.2)

/-- **Not every early end is marked**: these beginnings are rejected like text that is wrong. -/
theorem parse_unmarked : unmarkedParts.all (fun p =>
    (parse (lex p.1)).errors = [] ∧ (lex p.2).tokens <+: (lex p.1).tokens ∧
      (parse (lex p.2)).errors ≠ [] ∧ (parse (lex p.2)).incomplete = false) = true := by
  decide +kernel

end PatternPlan.Surface
