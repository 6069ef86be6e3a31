import PatternPlan.Proofs.Surface.Opening

/-!
# A parse without errors covers the tokens

* `SpansFrom` — what a parser returns covers a token through the one it stops at;
* `step_clean`, `step_none` — one round of declarations: it records an error or reads a declaration;
* `rounds` — the states in which a declaration is begun;
* `Tiles` — spans that lie next to one another and cover all of the tokens;
* `parse_accounts` — **every file is read to its end, a declaration that is dropped leaves an error
  behind, and without errors the items of a file tile its tokens**.
-/

namespace PatternPlan.Surface

/-- The spans of the items of a file, in order. -/
def Program.spans (p : Program) : List Span :=
  p.header.toList.map (·.mark.span) ++ (p.uses.map (·.mark.span) ++ p.decls.map (·.mark.span))

/-- Spans of items that lie next to one another, and that together have all of the tokens: each span
runs from the first token of its item to the last. -/
inductive Tiles : List Token → List Span → Prop
  | nil : Tiles [] []
  | cons {first last : Token} {item rest : List Token} {spans : List Span}
      (hfirst : item.head? = some first) (hlast : item.getLast? = some last) (h : Tiles rest spans) :
      Tiles (item ++ rest) (first.span.join last.span :: spans)

namespace Parser

/-! ### What a declaration covers -/

section Spans

variable {α β : Type} {start : Token} {f : α → Span}

/-- What is returned covers the tokens from `start` through the one at which the parser stops. -/
def SpansFrom (start : Token) (f : α → Span) (p : Parser α) : Prop :=
  ∀ s a t, p s = (some a, t) → f a = start.span.join t.current.span

namespace SpansFrom

theorem bind {p : Parser β} {q : β → Parser α} (h : ∀ b, SpansFrom start f (q b)) :
    SpansFrom start f (p >>= q) := by
  intro s a t hrun
  cases hfirst : p s with
  | mk r u =>
    cases r with
    | none =>
      rw [run_bind_none hfirst] at hrun
      cases hrun
    | some b =>
      rw [run_bind_some hfirst] at hrun
      exact h b u a t hrun

theorem map {g : β → Span} {p : Parser β} {wrap : β → α} (h : SpansFrom start g p)
    (hwrap : ∀ b, f (wrap b) = g b) : SpansFrom start f (p >>= fun b => pure (wrap b)) := by
  intro s a t hrun
  cases hfirst : p s with
  | mk r u =>
    cases r with
    | none =>
      rw [run_bind_none hfirst] at hrun
      cases hrun
    | some b =>
      rw [run_bind_some hfirst] at hrun
      cases hrun
      rw [hwrap]
      exact h s b t hfirst

theorem ite {c : Prop} [Decidable c] {p q : Parser α} (hp : SpansFrom start f p)
    (hq : SpansFrom start f q) : SpansFrom start f (if c then p else q) := by
  split
  · exact hp
  · exact hq

theorem span : SpansFrom start id (spanFrom start) := by
  intro s a t hrun
  cases hrun
  rfl

theorem mark : SpansFrom start Mark.span (markFrom start) :=
  span.map fun _ => rfl

theorem refused {p : Parser α} (h : Refuses p) : SpansFrom start f p := by
  intro s a t hrun
  have hnone := (h.gives s).1
  rw [hrun] at hnone
  cases hnone

end SpansFrom

theorem spansFrom_function (isPublic : Bool) (annotations : List String) :
    SpansFrom start (·.mark.span) (function start isPublic annotations) := by
  refine .bind fun keyword => .bind fun named => .ite ?_ (.refused (refuses_rejectNext _))
  refine .bind fun name => .bind fun ps => .bind fun returns => .bind fun body => ?_
  exact SpansFrom.span.map fun _ => rfl

theorem spansFrom_recognizer (isPublic : Bool) (annotations : List String) :
    SpansFrom start (·.mark.span) (recognizer start isPublic annotations) := by
  refine .bind fun keyword => .bind fun _ => .bind fun _ => .bind fun name => .bind fun ps => ?_
  exact .bind fun returns => .bind fun body => SpansFrom.span.map fun _ => rfl

theorem spansFrom_typeDeclaration (isPublic : Bool) :
    SpansFrom start (·.mark.span) (typeDeclaration start isPublic) := by
  refine .bind fun keyword => .bind fun _ => .bind fun name => .bind fun _ => .bind fun braced => ?_
  refine .ite (.bind fun fields => .bind fun _ => ?_) (.bind fun _ => .bind fun variants => ?_)
  · exact SpansFrom.span.map fun _ => rfl
  · exact SpansFrom.span.map fun _ => rfl

theorem spansFrom_declarationBody (isPublic : Bool) (annotations : List String) :
    SpansFrom start (·.mark.span) (declarationBody start isPublic annotations) := by
  refine .bind fun t => ?_
  split
  · exact (spansFrom_function isPublic annotations).map fun _ => rfl
  · exact (spansFrom_recognizer isPublic annotations).map fun _ => rfl
  · exact (spansFrom_typeDeclaration isPublic).map fun _ => rfl
  · exact .ite (.refused (refuses_reject _ _ _)) (.bind fun e => SpansFrom.mark.map fun _ => rfl)

/-- **A declaration covers its tokens**, from the one at which it is begun. -/
theorem span_declaration {s t : State} {d : Decl} (h : declaration s = (some d, t)) :
    d.mark.span = s.current.span.join t.current.span := by
  have hrest : SpansFrom s.current (fun d : Decl => d.mark.span) (do
      let annotations ← annotationNames
      let isPublic ← currentIs .kwPub
      if isPublic then
        advance
        declarationBody s.current isPublic annotations
      else declarationBody s.current isPublic annotations) := by
    refine .bind fun annotations => .bind fun isPublic => .ite ?_ ?_
    · exact .bind fun _ => spansFrom_declarationBody isPublic annotations
    · exact spansFrom_declarationBody isPublic annotations
  rw [declaration_eq] at h
  exact hrest s d t h

end Spans

/-! ### One round -/

variable {s : State}

theorem reaches_advance (s : State) : s.Reaches (advance s).2 :=
  ⟨List.tail_suffix _, rfl, List.prefix_refl _, id⟩

theorem reaches_synchronize (s : State) : s.Reaches (synchronize s).2 :=
  ⟨(List.dropWhile_suffix _).trans (List.tail_suffix _), rfl, List.prefix_refl _, id⟩

theorem length_synchronize (s : State) :
    (synchronize s).2.tokens.length ≤ s.tokens.length - 1 := by
  have hle := (List.dropWhile_suffix (l := s.tokens.tail) fun t => !t.kind.startsDeclaration).length_le
  rw [List.length_tail] at hle
  exact hle

/-- What is left after a round is what moving on or skipping leaves. -/
theorem step_cases (s : State) :
    (∃ d t, declaration s = (some d, t) ∧ t.errors.length = s.errors.length ∧
      step s = (some d, (advance t).2)) ∨
    (((declaration s).1 = none ∨ (declaration s).2.errors.length ≠ s.errors.length) ∧
      step s = ((declaration s).1, (synchronize (declaration s).2).2)) := by
  cases hrun : declaration s with
  | mk r t =>
    cases r with
    | none =>
      refine .inr ⟨.inl rfl, ?_⟩
      rw [step, hrun]
      rfl
    | some d =>
      by_cases hsame : t.errors.length = s.errors.length
      · refine .inl ⟨d, t, rfl, hsame, ?_⟩
        rw [step, hrun]
        simp [hsame]
      · refine .inr ⟨.inr hsame, ?_⟩
        rw [step, hrun]
        simp [hsame]

theorem reaches_step (s : State) : s.Reaches (step s).2 := by
  have hreach := (reads_declaration (N := 0)).moves s
  rcases step_cases s with ⟨d, t, hrun, -, hstep⟩ | ⟨-, hstep⟩
  · rw [hrun] at hreach
    rw [hstep]
    exact hreach.trans (reaches_advance t)
  · rw [hstep]
    exact hreach.trans (reaches_synchronize _)

/-- Each round uses up a token. -/
theorem length_step (h : 1 ≤ s.tokens.length) : (step s).2.tokens.length < s.tokens.length := by
  have hle := ((reads_declaration (N := 0)).moves s).length_le
  rcases step_cases s with ⟨d, t, hrun, -, hstep⟩ | ⟨-, hstep⟩
  · have hadvance := State.length_advance t
    have hlength : t.tokens.length ≤ s.tokens.length := by
      rw [hrun] at hle
      exact hle
    rw [hstep]
    show (advance t).2.tokens.length < s.tokens.length
    omega
  · have hskip := length_synchronize (declaration s).2
    rw [hstep]
    show (synchronize (declaration s).2).2.tokens.length < s.tokens.length
    omega

/-- **A round that records nothing reads a declaration**, and moves on behind its last token. -/
theorem step_clean (hs : s.Whole) (herrors : (step s).2.errors = s.errors) :
    ∃ d t, declaration s = (some d, t) ∧ t.errors = s.errors ∧ 1 ≤ t.tokens.length ∧
      step s = (some d, (advance t).2) := by
  have hclean := reads_declaration.clean s hs (Nat.zero_le _) (Nat.lt_succ_self _)
  rcases step_cases s with ⟨d, t, hrun, -, hstep⟩ | ⟨hlost, hstep⟩
  · rw [hstep] at herrors
    rw [hrun] at hclean
    obtain ⟨-, -, hlength, -⟩ := hclean herrors
    exact ⟨d, t, hrun, herrors, hlength, hstep⟩
  · rw [hstep] at herrors
    have hsame : (declaration s).2.errors = s.errors := herrors
    obtain ⟨d, hd, -⟩ := hclean hsame
    rcases hlost with hnone | hmore
    · rw [hnone] at hd
      cases hd
    · exact absurd (congrArg List.length hsame) hmore

/-- **A declaration that is dropped leaves an error behind.** -/
theorem step_none (hs : s.Whole) (h : (step s).1 = none) :
    s.errors.length < (step s).2.errors.length := by
  have hreach := reaches_step s
  refine Nat.lt_of_le_of_ne hreach.errors.length_le fun hlength => ?_
  have hsame := (hreach.errors.eq_of_length hlength).symm
  obtain ⟨d, t, -, -, -, hstep⟩ := step_clean hs hsame
  rw [hstep] at h
  cases h

/-! ### All rounds -/

/-- The states in which a declaration is begun. -/
def rounds : (fuel : Nat) → State → List State
  | 0, _ => []
  | fuel + 1, s => if s.current.kind = .eof then [] else s :: rounds fuel (step s).2

theorem declarations_eq (fuel : Nat) (s : State) :
    (declarations fuel s).1 = (rounds fuel s).filterMap fun u => (step u).1 := by
  induction fuel generalizing s with
  | zero => rfl
  | succ fuel ih =>
    rw [declarations, rounds]
    split
    · rfl
    · show (step s).1.toList ++ (declarations fuel (step s).2).1 = _
      rw [List.filterMap_cons, ih]
      cases (step s).1 with
      | none => rfl
      | some d => rfl

theorem reaches_declarations (fuel : Nat) (s : State) : s.Reaches (declarations fuel s).2 := by
  induction fuel generalizing s with
  | zero => exact .refl s
  | succ fuel ih =>
    rw [declarations]
    split
    · exact .refl s
    · exact (reaches_step s).trans (ih (step s).2)

/-- What is recorded in a round stays. -/
theorem reaches_round {fuel : Nat} {u : State} (h : u ∈ rounds fuel s) :
    s.Reaches u ∧ (step u).2.Reaches (declarations fuel s).2 := by
  induction fuel generalizing s with
  | zero => cases h
  | succ fuel ih =>
    rw [rounds] at h
    rw [declarations]
    by_cases hend : s.current.kind = .eof
    · rw [if_pos hend] at h
      cases h
    · rw [if_neg hend] at h ⊢
      rcases List.mem_cons.mp h with rfl | hlater
      · exact ⟨.refl u, reaches_declarations fuel (step u).2⟩
      · obtain ⟨hbefore, hafter⟩ := ih hlater
        exact ⟨(reaches_step s).trans hbefore, hafter⟩

/-- **There are rounds for all of the tokens.** -/
theorem tokens_declarations {fuel : Nat} (hs : s.Whole) (hfuel : s.tokens.length < fuel) :
    (declarations fuel s).2.tokens = [] := by
  induction fuel generalizing s with
  | zero => exact absurd hfuel (Nat.not_lt_zero _)
  | succ fuel ih =>
    rw [declarations]
    by_cases hempty : s.tokens.length = 0
    · rw [if_pos (State.current_eq_eof hempty ▸ hs.eof)]
      exact List.length_eq_zero_iff.mp hempty
    · have hlength : 1 ≤ s.tokens.length := by omega
      have hless := length_step hlength
      rw [if_neg (hs.current_kind hlength)]
      exact ih ((reaches_step s).whole hs) (by omega)

/-! ### Tiling -/

/-- An item in front of a tiling. -/
theorem tiles_item {t : State} {spans : List Span} (hreach : s.Reaches t) (hlength : 1 ≤ t.tokens.length)
    (h : Tiles (advance t).2.tokens spans) :
    Tiles s.tokens (s.current.span.join t.current.span :: spans) := by
  obtain ⟨before, hbefore⟩ := hreach.tokens
  obtain ⟨last, rest, hrest⟩ : ∃ last rest, t.tokens = last :: rest :=
    List.exists_cons_of_length_pos hlength
  have htokens : s.tokens = (before ++ [last]) ++ rest := by
    rw [← hbefore, hrest, List.append_assoc, List.singleton_append]
  have hcurrent : t.current = last := by rw [State.current, hrest, List.headD_cons]
  have hfirst : (before ++ [last]).head? = some s.current := by
    rw [State.current, htokens]
    cases before with
    | nil => rfl
    | cons first before => rfl
  have htail : (advance t).2.tokens = rest := by
    show t.tokens.tail = rest
    rw [hrest, List.tail_cons]
  rw [htail] at h
  rw [htokens, hcurrent]
  exact .cons hfirst List.getLast?_concat h

theorem tiles_pathLine {spans : List Span} (hs : s.Whole) (hlength : 1 ≤ s.tokens.length)
    (herrors : (pathLine s).2.errors = s.errors) (h : Tiles (pathLine s).2.tokens spans) :
    Tiles s.tokens ((pathLine s).1.mark.span :: spans) := by
  obtain ⟨-, -, hleft, -⟩ := reads_path.clean s hs hlength (Nat.lt_succ_self _) herrors
  exact tiles_item (reads_path (N := 0).moves s) hleft h

theorem reaches_pathLine (s : State) : s.Reaches (pathLine s).2 :=
  (accounts_pathLine (N := 0) (V := fun _ => False)).moves s

theorem reaches_useLines (fuel : Nat) (s : State) : s.Reaches (useLines fuel s).2 := by
  induction fuel generalizing s with
  | zero => exact .refl s
  | succ fuel ih =>
    rw [useLines]
    split
    · exact (reaches_pathLine s).trans (ih (pathLine s).2)
    · exact .refl s

/-- A line is not begun where the input ends. -/
theorem length_of_current {kind : TokenKind} (hs : s.Whole) (hkind : kind ≠ .eof)
    (h : s.current.kind = kind) : 1 ≤ s.tokens.length := by
  refine Nat.not_lt.mp fun hempty => hkind ?_
  rw [← h, State.current_eq_eof (Nat.lt_one_iff.mp hempty)]
  exact hs.eof

theorem tiles_useLines {fuel : Nat} {spans : List Span} (hs : s.Whole)
    (herrors : (useLines fuel s).2.errors = s.errors) (h : Tiles (useLines fuel s).2.tokens spans) :
    Tiles s.tokens ((useLines fuel s).1.map (·.mark.span) ++ spans) := by
  induction fuel generalizing s with
  | zero => exact h
  | succ fuel ih =>
    rw [useLines] at herrors h ⊢
    by_cases huse : s.current.kind = .kwUse
    · rw [if_pos huse] at herrors h ⊢
      have hline := reaches_pathLine s
      have hsame := hline.errors_eq (reaches_useLines fuel (pathLine s).2) herrors
      have hlater := ih (hline.whole hs) (herrors.trans hsame.symm) h
      exact tiles_pathLine hs (length_of_current hs (by decide) huse) hsame hlater
    · rw [if_neg huse] at h ⊢
      exact h

theorem tiles_headerLine {header : Option PathLine} {t : State} {spans : List Span} (hs : s.Whole)
    (hrun : headerLine s = (some header, t)) (herrors : t.errors = s.errors) (h : Tiles t.tokens spans) :
    Tiles s.tokens (header.toList.map (·.mark.span) ++ spans) := by
  rw [headerLine_run] at hrun
  by_cases hmodule : s.current.kind = .kwModule
  · rw [if_pos hmodule] at hrun
    cases hrun
    exact tiles_pathLine hs (length_of_current hs (by decide) hmodule) herrors h
  · rw [if_neg hmodule] at hrun
    cases hrun
    exact h

theorem tiles_declarations {fuel : Nat} (hs : s.Whole) (hfuel : s.tokens.length < fuel)
    (herrors : (declarations fuel s).2.errors = s.errors) :
    Tiles s.tokens ((declarations fuel s).1.map (·.mark.span)) := by
  induction fuel generalizing s with
  | zero => exact absurd hfuel (Nat.not_lt_zero _)
  | succ fuel ih =>
    rw [declarations] at herrors ⊢
    by_cases hempty : s.tokens.length = 0
    · rw [if_pos (State.current_eq_eof hempty ▸ hs.eof), List.length_eq_zero_iff.mp hempty]
      exact .nil
    · have hlength : 1 ≤ s.tokens.length := by omega
      have hless := length_step hlength
      have hreach := reaches_step s
      rw [if_neg (hs.current_kind hlength)] at herrors ⊢
      have hsame := hreach.errors_eq (reaches_declarations fuel (step s).2) herrors
      have hlater := ih (hreach.whole hs) (by omega) (herrors.trans hsame.symm)
      obtain ⟨d, t, hrun, -, hleft, hstep⟩ := step_clean hs hsame
      have hdecl := (reads_declaration (N := 0)).moves s
      rw [hrun] at hdecl
      rw [hstep] at hlater
      show Tiles s.tokens (((step s).1.toList ++ (declarations fuel (step s).2).1).map (·.mark.span))
      rw [hstep]
      show Tiles s.tokens (d.mark.span :: _)
      rw [span_declaration hrun]
      exact tiles_item hdecl hleft hlater

theorem tiles_opening {header : Option PathLine} {uses : List PathLine} {t : State} {spans : List Span}
    (hs : s.Whole) (hrun : opening s = (some (header, uses), t)) (herrors : t.errors = s.errors)
    (h : Tiles t.tokens spans) :
    Tiles s.tokens (header.toList.map (·.mark.span) ++ (uses.map (·.mark.span) ++ spans)) := by
  have hreach := (reads_headerLine (N := 0)).moves s
  cases hheader : headerLine s with
  | mk r u =>
    rw [hheader] at hreach
    cases r with
    | none =>
      rw [opening, run_bind_none hheader] at hrun
      cases hrun
    | some line =>
      rw [opening, run_bind_some hheader] at hrun
      cases hrun
      have hsame := hreach.errors_eq (reaches_useLines (u.tokens.length + 1) u) herrors
      have hlines := tiles_useLines (hreach.whole hs) (herrors.trans hsame.symm) h
      exact tiles_headerLine hs hheader hsame hlines

/-! ### Files -/

/-- The states in which a declaration of a file is begun. -/
def programRounds (s : State) : List State :=
  rounds ((opening s).2.tokens.length + 1) (opening s).2

theorem decls_program (s : State) :
    (program s).1.decls = (programRounds s).filterMap fun u => (step u).1 := by
  obtain ⟨header, uses, t, hopening, hprogram⟩ := program_opening s
  rw [programRounds, hopening, hprogram]
  exact declarations_eq _ t

/-- A file is read to its end. -/
theorem tokens_program (hs : s.Whole) : (program s).2.tokens = [] ∧ (program s).2.eof = s.eof := by
  obtain ⟨header, uses, t, hopening, hprogram⟩ := program_opening s
  have hreach := (reads_opening (N := 0)).moves s
  rw [hopening] at hreach
  rw [hprogram]
  refine ⟨tokens_declarations (hreach.whole hs) (Nat.lt_succ_self _), ?_⟩
  rw [(reaches_declarations (t.tokens.length + 1) t).eof, hreach.eof]

/-- Where a declaration is dropped, an error is recorded that stays. -/
theorem errors_dropped (hs : s.Whole) {u : State} (hu : u ∈ programRounds s)
    (hnone : (step u).1 = none) :
    u.errors.length < (step u).2.errors.length ∧ (step u).2.errors <+: (program s).2.errors := by
  obtain ⟨header, uses, t, hopening, hprogram⟩ := program_opening s
  have hreach := (reads_opening (N := 0)).moves s
  rw [hopening] at hreach
  rw [programRounds, hopening] at hu
  rw [hprogram]
  obtain ⟨hbefore, hafter⟩ := reaches_round hu
  exact ⟨step_none (hbefore.whole (hreach.whole hs)) hnone, hafter.errors⟩

/-- Where nothing is recorded, the items of a file tile its tokens. -/
theorem tiles_program (hs : s.Whole) (herrors : (program s).2.errors = s.errors) :
    Tiles s.tokens (program s).1.spans := by
  obtain ⟨header, uses, t, hopening, hprogram⟩ := program_opening s
  have hreach := (reads_opening (N := 0)).moves s
  rw [hopening] at hreach
  rw [hprogram] at herrors ⊢
  have hrest := reaches_declarations (t.tokens.length + 1) t
  have hsame : t.errors = s.errors := hreach.errors_eq hrest herrors
  have hdecls := tiles_declarations (hreach.whole hs) (Nat.lt_succ_self _) (herrors.trans hsame.symm)
  exact tiles_opening hs hopening hsame hdecls

end Parser

/-- The state in which a file is begun. -/
def State.of (l : Lexed) : State := { tokens := l.tokens, eof := l.eof }

/-- **Every token is accounted for.**  A file is read to its end; its declarations are those of the
rounds, and a round that drops one leaves an error behind; and if there is no error, the header, the
`use` lines and the declarations tile the tokens. -/
theorem parse_accounts (l : Lexed) (htokens : ∀ t ∈ l.tokens, t.kind ≠ .eof) (heof : l.eof.kind = .eof) :
    (Parser.program (.of l)).2.current = l.eof ∧
    (parse l).program.decls = (Parser.programRounds (.of l)).filterMap (fun u => (Parser.step u).1) ∧
    (∀ u ∈ Parser.programRounds (.of l), (Parser.step u).1 = none →
      u.errors.length < (Parser.step u).2.errors.length ∧
        (Parser.step u).2.errors <+: (parse l).errors) ∧
    ((parse l).errors = [] → Tiles l.tokens (parse l).program.spans) := by
  have hs : (State.of l).Whole := ⟨htokens, heof⟩
  refine ⟨?_, Parser.decls_program (.of l), ?_, ?_⟩
  · obtain ⟨hend, hsame⟩ := Parser.tokens_program hs
    rw [State.current_eq_eof (List.length_eq_zero_iff.mpr hend), hsame]
    rfl
  · intro u hu hnone
    exact Parser.errors_dropped hs hu hnone
  · intro herrors
    exact Parser.tiles_program hs herrors

/-- A file with a header, a `use` line and two declarations. -/
def linesSource : Text := .ofString "module A\nuse b.C\nfn f(x) = x\nf(1)"

theorem parse_accounts_lines : (parse (lex linesSource)).errors = [] ∧
    Tiles (lex linesSource).tokens
      [⟨0, 8, 1, 1⟩, ⟨9, 16, 2, 1⟩, ⟨17, 28, 3, 1⟩, ⟨29, 33, 4, 1⟩] := by
  have hclean : (parse (lex linesSource)).errors = [] := by decide +kernel
  have hspans : (parse (lex linesSource)).program.spans
      = [⟨0, 8, 1, 1⟩, ⟨9, 16, 2, 1⟩, ⟨17, 28, 3, 1⟩, ⟨29, 33, 4, 1⟩] := by decide +kernel
  obtain ⟨-, -, -, htiles⟩ := parse_accounts (lex linesSource) (by decide +kernel) (by decide +kernel)
  exact ⟨hclean, hspans ▸ htiles hclean⟩

end PatternPlan.Surface
