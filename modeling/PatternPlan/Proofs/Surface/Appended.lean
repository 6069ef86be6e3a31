import PatternPlan.Proofs.Surface.Extended

/-!
# Files that more is appended to

* `Resumes` — what reading an input to its end gives, and what it gives when more is appended: the same,
  or the parser has crossed over;
* `useLines_extend`, `declarations_extend` — the lines in front of the declarations, and the
  declarations;
* `program_extend` — **a file without errors is read as before when more is appended, or the parser goes
  on with what was appended**.
-/

namespace PatternPlan.Surface

namespace Parser

variable {α β γ : Type} {I : State → Prop} {T : Token → Prop} {more : List Token} {e : Token} {s : State}

/-- What is read of an input, and what is read when more is appended: **the same, or the input was read to
its end and the parser has crossed over**. -/
def Resumes (I : State → Prop) (more : List Token) (e : Token) (r r' : α × State) : Prop :=
  r' = (r.1, r.2.extend more e) ∨ (r.2.tokens = [] ∧ I r'.2)

/-- One reader after another: what has crossed over keeps the invariant. -/
theorem Resumes.next {r r' : α × State} {q q' : State → β × State} (f : α → β → γ) (hr : Resumes I more e r r')
    (hmoves : ∀ s : State, s.Reaches (q s).2) (hI : ∀ s, I s → I (q' s).2)
    (hq : Resumes I more e (q r.2) (q' (r.2.extend more e))) :
    Resumes I more e (f r.1 (q r.2).1, (q r.2).2) (f r'.1 (q' r'.2).1, (q' r'.2).2) := by
  rcases hr with rfl | ⟨hend, hcrossed⟩
  · rcases hq with hsame | hcrossed
    · left
      rw [hsame]
    · exact .inr hcrossed
  · have hsuffix := (hmoves r.2).tokens
    rw [hend] at hsuffix
    exact .inr ⟨List.suffix_nil.mp hsuffix, hI _ hcrossed⟩

theorem useLines_none (h : s.current.kind ≠ .kwUse) (fuel : Nat) : useLines fuel s = ([], s) := by
  cases fuel with
  | zero => rfl
  | succ fuel => rw [useLines, if_neg h]

theorem declarations_none (h : s.current.kind = .eof) (fuel : Nat) : declarations fuel s = ([], s) := by
  cases fuel with
  | zero => rfl
  | succ fuel => rw [declarations, if_pos h]

/-- The `module` line, if there is one. -/
def header (s : State) : Option PathLine × State :=
  if s.current.kind = .kwModule then (some (pathLine s).1, (pathLine s).2) else (none, s)

theorem reaches_header (s : State) : s.Reaches (header s).2 := by
  rw [header]
  split
  · exact reaches_pathLine s
  · exact .refl s

/-- All `use` lines. -/
def allLines (s : State) : List PathLine × State := useLines (s.tokens.length + 1) s

/-- All declarations. -/
def allDeclarations (s : State) : List Decl × State := declarations (s.tokens.length + 1) s

/-- A file is its header, its `use` lines and its declarations, one after the other. -/
theorem program_parts (s : State) : program s =
    let lines := allLines (header s).2
    let decls := allDeclarations lines.2
    (⟨(header s).1, lines.1, decls.1⟩, decls.2) := by
  rw [program, header]
  rfl

section Invariant

variable [Invariant I T] (hI : Upheld I)

include T

theorem invariant_step (hs : I (declaration s).2) : I (step s).2 := by
  rcases step_cases s with ⟨d, t, hrun, -, hstep⟩ | ⟨-, hstep⟩
  · rw [hrun] at hs
    rw [hstep]
    exact (maintains_advance _ hs).1
  · rw [hstep]
    exact Invariant.suffix hs (reaches_synchronize _).tokens rfl rfl

include hI

theorem invariant_declarations (fuel : Nat) (hs : I s) : I (declarations fuel s).2 := by
  induction fuel generalizing s with
  | zero => exact hs
  | succ fuel ih =>
    rw [declarations]
    split
    · exact hs
    · exact ih (invariant_step (hI.declaration s hs).1)

end Invariant

variable [Crossed I more e]

section Crossed

include I

/-- Where nothing is left, more is there or the input ends as before. -/
theorem crossed_empty (hempty : s.tokens = []) (hbefore : s.errors = []) :
    (s.extend more e).current.kind = .eof ∨ I (s.extend more e) := by
  have htokens : (s.extend more e).tokens = more := by
    show s.tokens ++ more = more
    rw [hempty, List.nil_append]
  by_cases hmore : more = []
  · left
    rw [State.current_eq_eof (by rw [htokens, hmore]; rfl)]
    exact show e.kind = .eof from Crossed.eof I more
  · exact .inr (Crossed.enter (e := e) htokens hmore rfl hbefore)

theorem extends_pathRound (names : List String) : Extends I more e (pathRound names) := by
  show Extends I more e (observe (fun s => decide (s.next.kind = .upper) || decide (s.next.kind = .lower)) >>=
    fun b => if b = true then (do
      advance
      let name := (← current).text
      if ← skip .dot then return .again (names ++ [name]) else return .done (names ++ [name]))
    else (do
      missingPath
      return (.done names : Round (List String) (List String))))
  have hmissing : ∀ s : State, s.Reaches (missingPath s).2 ∧ (missingPath s).2.errors ≠ s.errors := fun s =>
    have hrefuses : Refuses (rejectNext "module path" : Parser Unit) := refuses_rejectNext _
    ⟨hrefuses.moves s, (hrefuses.gives s).2⟩
  refine (Beyond.choice (fun s s' hnext => by rw [hnext]) (fun s hs => by rw [hs]; rfl) ?_ ?_ ?_).toExtends
  · refine .advance fun _ => .look fun name => ?_
    exact .skipIf (by decide) .pure (.pure trivial) .pure
  · exact fun s => (hmissing s).1
  · intro s a t h
    have herrors := (hmissing s).2
    have hrun : (missingPath s).2 = t := congrArg Prod.snd h.run
    rw [hrun] at herrors
    exact herrors (h.after.trans h.before.symm)

end Crossed

variable [Invariant I T]

include T

/-! ### Lines in front of the declarations -/

theorem maintains_missingPath : Maintains I missingPath := fun s hs =>
  ⟨(ensures_rejectNext (P := fun _ : Unit => True) _ s hs).1, fun _ _ => trivial⟩

theorem maintains_pathRound (names : List String) : Maintains I (pathRound names) := by
  refine .seq (maintains_observe _) fun t => .ite (fun _ => ?_) fun _ => .seq maintains_missingPath fun _ => .pure trivial
  refine .seq maintains_advance fun _ => .seq (maintains_observe _) fun name => ?_
  exact .seq (maintains_skip _) fun b => .ite (fun _ => .pure trivial) fun _ => .pure trivial

variable (more) in
/-- **A path** is read in the same way in front of more tokens, or it goes on behind a dot. -/
theorem path_extend (hs : s.Whole) (hlength : 1 ≤ s.tokens.length) (hbefore : s.errors = [])
    (hafter : (path (s.tokens.length + 1) s).2.errors = []) :
    let u := s.extend more e
    path (u.tokens.length + 1) u =
        ((path (s.tokens.length + 1) s).1, (path (s.tokens.length + 1) s).2.extend more e) ∨
      ((path (s.tokens.length + 1) s).2.tokens.length = 1 ∧ I (path (u.tokens.length + 1) u).2) := by
  intro u
  have hrun : ∀ {v : State}, v.Whole → iterate pathRound [] v =
      (some (path (v.tokens.length + 1) v).1, (path (v.tokens.length + 1) v).2) := fun hv =>
    gathers_path.run_eq (fun names => (accounts_pathRound (N := 0) names).moves) _ [] hv (Nat.lt_succ_self _)
  have hu : u.Whole := hs.extend (Crossed.tokens I e) (Crossed.eof I more)
  obtain ⟨-, -, hleft, -⟩ := reads_path.clean s hs hlength (Nat.lt_succ_self _) (hafter.trans hbefore.symm)
  have hloop : Extends I more e (iterate pathRound []) :=
    .iterate extends_pathRound maintains_pathRound []
  rcases hloop.same ⟨hrun hs, hs, hbefore, hafter⟩ hleft with hsame | ⟨hlast, hcrossed⟩
  · left
    rw [hrun hu] at hsame
    injection hsame with hnames hstate
    exact Prod.ext (Option.some.inj hnames) hstate
  · right
    rw [hrun hu] at hcrossed
    exact ⟨hlast, hcrossed⟩

theorem pathLine_extend (hs : s.Whole) (hlength : 1 ≤ s.tokens.length) (hbefore : s.errors = [])
    (hafter : (pathLine s).2.errors = []) :
    Resumes I more e (pathLine s) (pathLine (s.extend more e)) := by
  have htail := State.length_advance (path (s.tokens.length + 1) s).2
  obtain ⟨-, -, hleft, -⟩ := reads_path.clean s hs hlength (Nat.lt_succ_self _) (hafter.trans hbefore.symm)
  have hone : 1 ≤ (path (s.tokens.length + 1) s).2.tokens.length := hleft
  have hpath := path_extend (I := I) (e := e) more hs hlength hbefore hafter
  rcases hpath with hsame | ⟨hlast, hcrossed⟩
  · left
    rw [pathLine, hsame]
    dsimp only
    rw [State.current_extend hlength, State.current_extend hone, State.advance_extend hone]
    rfl
  · refine .inr ⟨List.length_eq_zero_iff.mp ?_, (maintains_advance _ hcrossed).1⟩
    show (advance (path (s.tokens.length + 1) s).2).2.tokens.length = 0
    omega

/-- Once the lines have come to the end, they may go on with what was appended. -/
theorem useLines_extend {fuel fuel' : Nat} (hfuel : s.tokens.length < fuel) (hle : fuel ≤ fuel') (hs : s.Whole)
    (hbefore : s.errors = []) (hafter : (useLines fuel s).2.errors = []) :
    Resumes I more e (useLines fuel s) (useLines fuel' (s.extend more e)) := by
  induction fuel generalizing s fuel' with
  | zero => exact absurd hfuel (Nat.not_lt_zero _)
  | succ fuel ih =>
    obtain ⟨fuel', rfl⟩ : ∃ n, fuel' = n + 1 := ⟨fuel' - 1, by omega⟩
    by_cases hempty : s.tokens = []
    · have hnone : s.current.kind ≠ .kwUse := by
        rw [State.current_eq_eof (by rw [hempty]; rfl), hs.eof]
        decide
      rw [useLines_none hnone]
      have hcross : (s.extend more e).current.kind = .eof ∨ I (s.extend more e) := crossed_empty hempty hbefore
      rcases hcross with hend | hcrossed
      · exact .inl (useLines_none (by rw [hend]; decide) _)
      · exact .inr ⟨hempty, invariant_useLines _ hcrossed⟩
    · have hlength : 1 ≤ s.tokens.length := List.length_pos_iff.mpr hempty
      by_cases huse : s.current.kind = .kwUse
      · rw [useLines, if_pos huse] at hafter ⊢
        rw [useLines.eq_def (fuel' + 1)]
        dsimp only
        rw [State.current_extend hlength, if_pos huse]
        have hless := length_pathLine hlength
        have herrors : (pathLine s).2.errors = [] :=
          List.prefix_nil.mp (hafter ▸ (reaches_useLines fuel (pathLine s).2).errors)
        refine (pathLine_extend hs hlength hbefore herrors).next (· :: ·) (reaches_useLines fuel)
          (fun _ => invariant_useLines fuel') ?_
        exact ih (by omega) (Nat.le_of_succ_le_succ hle) ((reaches_pathLine s).whole hs) herrors hafter
      · rw [useLines_none huse, useLines_none (by rw [State.current_extend hlength]; exact huse)]
        exact .inl rfl

theorem header_extend (hs : s.Whole) (hbefore : s.errors = []) (hafter : (header s).2.errors = []) :
    Resumes I more e (header s) (header (s.extend more e)) := by
  rw [header] at hafter ⊢
  rw [header]
  by_cases hempty : s.tokens = []
  · have hnone : s.current.kind ≠ .kwModule := by
      rw [State.current_eq_eof (by rw [hempty]; rfl), hs.eof]
      decide
    rw [if_neg hnone]
    have hcross : (s.extend more e).current.kind = .eof ∨ I (s.extend more e) := crossed_empty hempty hbefore
    rcases hcross with hend | hcrossed
    · left
      rw [if_neg (by rw [hend]; decide)]
    · refine .inr ⟨hempty, ?_⟩
      split
      · exact invariant_pathLine hcrossed
      · exact hcrossed
  · have hlength : 1 ≤ s.tokens.length := List.length_pos_iff.mpr hempty
    rw [State.current_extend hlength]
    by_cases hmodule : s.current.kind = .kwModule
    · rw [if_pos hmodule] at hafter ⊢
      rw [if_pos hmodule]
      have hline : Resumes I more e (pathLine s) (pathLine (s.extend more e)) :=
        pathLine_extend hs hlength hbefore hafter
      rcases hline with hsame | hcrossed
      · left
        rw [hsame]
      · exact .inr hcrossed
    · rw [if_neg hmodule, if_neg hmodule]
      exact .inl rfl

/-! ### Declarations -/

section Declarations

variable (hI : Upheld I)

include hI

/-- A round without an error is the same, or the declaration goes on. -/
theorem step_extend (hs : s.Whole) (hbefore : s.errors = []) (hafter : (step s).2.errors = []) :
    Resumes I more e (step s) (step (s.extend more e)) := by
  obtain ⟨d, t, hrun, herrors, hone, hstep⟩ := step_clean hs (hafter.trans hbefore.symm)
  have htail := State.length_advance t
  have hclean : Clean declaration s d t := ⟨hrun, hs, hbefore, herrors.trans hbefore⟩
  rw [hstep]
  have hdecl : Extends I more e declaration := extends_declaration hI
  rcases hdecl.same hclean hone with hsame | ⟨hlast, hcrossed⟩
  · left
    have hlength : (t.extend more e).errors.length = (s.extend more e).errors.length :=
      congrArg List.length herrors
    rw [step, hsame]
    dsimp only
    rw [if_pos (by simpa using hlength), State.advance_extend hone]
  · refine .inr ⟨List.length_eq_zero_iff.mp ?_, invariant_step hcrossed⟩
    show (advance t).2.tokens.length = 0
    omega

/-- **Declarations without an error** are the same, or what was appended goes on with them. -/
theorem declarations_extend {fuel fuel' : Nat} (hfuel : s.tokens.length < fuel) (hle : fuel ≤ fuel')
    (hs : s.Whole) (hbefore : s.errors = []) (hafter : (declarations fuel s).2.errors = []) :
    Resumes I more e (declarations fuel s) (declarations fuel' (s.extend more e)) := by
  induction fuel generalizing s fuel' with
  | zero => exact absurd hfuel (Nat.not_lt_zero _)
  | succ fuel ih =>
    obtain ⟨fuel', rfl⟩ : ∃ n, fuel' = n + 1 := ⟨fuel' - 1, by omega⟩
    by_cases hempty : s.tokens = []
    · rw [declarations_none (State.current_eq_eof (by rw [hempty]; rfl) ▸ hs.eof)]
      have hcross : (s.extend more e).current.kind = .eof ∨ I (s.extend more e) := crossed_empty hempty hbefore
      rcases hcross with hend | hcrossed
      · exact .inl (declarations_none hend _)
      · exact .inr ⟨hempty, invariant_declarations hI _ hcrossed⟩
    · have hlength : 1 ≤ s.tokens.length := List.length_pos_iff.mpr hempty
      have hmore : s.current.kind ≠ .eof := hs.current_kind hlength
      rw [declarations, if_neg hmore] at hafter ⊢
      rw [declarations.eq_def (fuel' + 1)]
      dsimp only
      rw [State.current_extend hlength, if_neg hmore]
      have hless := length_step hlength
      have herrors : (step s).2.errors = [] :=
        List.prefix_nil.mp (hafter ▸ (reaches_declarations fuel (step s).2).errors)
      have hround : Resumes I more e (step s) (step (s.extend more e)) := step_extend hI hs hbefore herrors
      refine hround.next (·.toList ++ ·) (reaches_declarations fuel)
        (fun _ => invariant_declarations hI fuel') ?_
      exact ih (by omega) (Nat.le_of_succ_le_succ hle) ((reaches_step s).whole hs) herrors hafter

/-- **A file without errors, when more is appended**: it is read as before, or the parser goes on with what
was appended. -/
theorem program_extend (hs : s.Whole) (hbefore : s.errors = []) (hafter : (program s).2.errors = []) :
    Resumes I more e (program s) (program (s.extend more e)) := by
  have hfuel (u : State) : u.tokens.length + 1 ≤ (u.extend more e).tokens.length + 1 := by
    rw [State.length_extend]
    omega
  have hfirst := (reaches_header s).whole hs
  have hlines (u : State) : u.Reaches (allLines u).2 := reaches_useLines _ u
  have hdecls (u : State) : u.Reaches (allDeclarations u).2 := reaches_declarations _ u
  have hkeepLines (u : State) (hu : I u) : I (allLines u).2 := invariant_useLines _ hu
  have hkeepDecls (u : State) (hu : I u) : I (allDeclarations u).2 := invariant_declarations hI _ hu
  rw [program_parts] at hafter
  have hopened : (allLines (header s).2).2.errors = [] := List.prefix_nil.mp (hafter ▸ (hdecls _).errors)
  have hheader : (header s).2.errors = [] := List.prefix_nil.mp (hopened ▸ (hlines _).errors)
  have hmodule : Resumes I more e (header s) (header (s.extend more e)) := header_extend hs hbefore hheader
  have huses : Resumes I more e (allLines (header s).2) (allLines ((header s).2.extend more e)) :=
    useLines_extend (Nat.lt_succ_self _) (hfuel _) hfirst hheader hopened
  have hbody : Resumes I more e (allDeclarations (allLines (header s).2).2)
      (allDeclarations ((allLines (header s).2).2.extend more e)) :=
    declarations_extend hI (Nat.lt_succ_self _) (hfuel _) ((hlines _).whole hfirst) hopened hafter
  have hopening := hmodule.next Prod.mk hlines hkeepLines huses
  rw [program_parts, program_parts]
  exact hopening.next (fun a b => (⟨a.1, a.2, b⟩ : Program)) hdecls hkeepDecls hbody

end Declarations

end Parser

/-! ### Parsing -/

instance : Invariant (fun _ => False) (fun _ => False) where
  suffix hs _ _ _ := hs
  tokens hs := hs.elim
  eof hs := hs
  record hs _ _ _ := hs

theorem Parser.upheld_never : Parser.Upheld fun _ => False :=
  ⟨fun _ => Parser.maintains_never _, fun _ _ => Parser.maintains_never _, Parser.maintains_never _⟩

theorem Parser.upheld_meets (L : Limits) : Parser.Upheld (State.Meets L) :=
  ⟨fun room => (Parser.respects_pattern room).2.maintains,
    fun room precedence => (Parser.respects_exprWithin room precedence).maintains,
    Parser.respects_declaration.maintains⟩

variable {l : Lexed} {e : Token}

theorem parse_eq (l : Lexed) : parse l = ⟨(Parser.program (State.of l)).1,
    (Parser.program (State.of l)).2.errors, (Parser.program (State.of l)).2.incomplete⟩ := rfl

/-- **A file without errors does not depend on where it ends.** -/
theorem parse_end (hl : (State.of l).Whole) (he : e.kind = .eof) (h : (parse l).errors = []) :
    parse ⟨l.tokens, e⟩ = parse l := by
  have : Crossed (fun _ => False) [] e := ⟨List.forall_mem_nil _, he, fun _ hne => absurd rfl hne⟩
  have hresumes : Parser.Resumes (fun _ => False) [] e (Parser.program (State.of l)) _ :=
    Parser.program_extend Parser.upheld_never hl rfl h
  have hsame := hresumes.resolve_right fun hcross => hcross.2
  have hstate : (State.of l).extend [] e = State.of ⟨l.tokens, e⟩ := by
    rw [State.extend, State.of, State.of, List.append_nil]
  rw [hstate] at hsame
  rw [parse_eq, parse_eq, hsame]
  rfl

/-- **What is wrong with a file to which something was appended is wrong with what was appended**, if
nothing was wrong before: it is recorded at places that keep to the limits of the tokens appended. -/
theorem parse_appended {L : Limits} {more : List Token} (hl : (State.of l).Whole) (h : (parse l).errors = [])
    (hmore : ∀ t ∈ more, t.kind ≠ .eof ∧ t.Meets L) (hend : e.kind = .eof) (he : e.Meets L)
    (hcount : more.length < L.count) :
    ∀ d ∈ (parse ⟨l.tokens ++ more, e⟩).errors, d.Registered L.place := by
  have : Crossed (State.Meets L) more e := by
    refine ⟨fun t ht => (hmore t ht).1, hend, fun {s} htokens _ heof herrors => ?_⟩
    refine ⟨fun t ht => (hmore t (htokens ▸ ht)).2, heof ▸ he, htokens ▸ hcount, ?_, ?_⟩
    · rw [herrors]
      exact List.forall_mem_nil _
    · rw [herrors]
      exact List.forall_mem_nil _
  have hresumes : Parser.Resumes (State.Meets L) more e (Parser.program (State.of l)) _ :=
    Parser.program_extend (Parser.upheld_meets L) hl rfl h
  rcases hresumes with hsame | ⟨-, hcrossed⟩
  · have herrors : (parse ⟨l.tokens ++ more, e⟩).errors = [] := by
      show (Parser.program ((State.of l).extend more e)).2.errors = []
      rw [hsame]
      exact h
    rw [herrors]
    exact List.forall_mem_nil _
  · exact hcrossed.errors

end PatternPlan.Surface
