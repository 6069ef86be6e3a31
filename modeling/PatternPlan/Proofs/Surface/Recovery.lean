import PatternPlan.Proofs.Source.Joined
import PatternPlan.Proofs.Source.Positions
import PatternPlan.Proofs.Surface.Repeated
import PatternPlan.Proofs.Surface.Stopped
import PatternPlan.Proofs.Surface.Tiling

/-!
# Going on behind an error

A function that is not well formed stands in front of a declaration that is.

* `rounds_front` — the rounds over what stands in front of an edge end at the edge, or they eat what
  stands there;
* `declarations_moved` — declarations without errors are read the same way further down;
* `marked_of_clean` — what stands behind an `@` in front of a declaration;
* `moved_lex` — the tokens of a source, read on the line behind another one;
* `parse_resumes` — **the declarations behind an error are read as they are on their own, unless a
  diagnostic tells that a parser went too far**;
* `parse_swallows` — it gives up at the first token of the next declaration, and skips it.
-/

namespace PatternPlan.Surface

namespace Parser

variable {e : Edge} {s t : State}

/-! ### In front of the edge -/

/-- Where the edge is reached. -/
def Reached (e : Edge) (s : State) : Prop := s.Whole ∧ s.tokens = e.first :: e.later

/-- Where a round may begin: it is eaten, or the edge is reached, or something stands in front of it. -/
def Open (e : Edge) (s : State) : Prop := e.Eaten s ∨ Reached e s ∨ e.Inside s ∧ BeginsItem s

/-- Tokens none of which begins a declaration stand in front of the edge. -/
theorem open_of_plain (ys : List Token) (hs : s.Whole) (htokens : s.tokens = ys ++ e.first :: e.later)
    (hys : ∀ y ∈ ys, y.kind.startsDeclaration = false) : Open e s := by
  cases ys with
  | nil => exact .inr (.inl ⟨hs, htokens⟩)
  | cons y ys =>
    refine .inr (.inr ⟨.inr ⟨hs, y :: ys, htokens, Nat.succ_le_succ (Nat.zero_le _), ?_⟩, .inr ?_⟩)
    · exact fun z hz => hys z (List.mem_cons_of_mem _ hz)
    · rw [State.current, htokens]
      exact hys y List.mem_cons_self

theorem open_advance (h : e.Inside s) : Open e (advance s).2 := by
  rcases h with heaten | ⟨hs, ys, htokens, hlength, hys⟩
  · exact .inl heaten
  · cases ys with
    | nil => exact absurd hlength (Nat.not_succ_le_zero 0)
    | cons y ys =>
      refine open_of_plain ys (whole_advance hs) ?_ hys
      show s.tokens.tail = _
      rw [htokens]
      rfl

/-- Skipping ends at the edge. -/
theorem open_synchronize (h : e.Inside s) : Open e (synchronize s).2 := by
  rcases h with heaten | ⟨hs, ys, htokens, hlength, hys⟩
  · exact .inl heaten
  · cases ys with
    | nil => exact absurd hlength (Nat.not_succ_le_zero 0)
    | cons y ys =>
      refine .inr (.inl ⟨(reaches_synchronize s).whole hs, ?_⟩)
      show s.tokens.tail.dropWhile _ = _
      rw [htokens]
      show (ys ++ e.first :: e.later).dropWhile _ = _
      rw [List.dropWhile_append_of_pos (fun z hz => by simpa using hys z hz), List.dropWhile_cons_of_neg]
      simp [e.starts]

theorem open_step (h : e.Inside s ∧ BeginsItem s) : Open e (step s).2 := by
  obtain ⟨hsome, hnone⟩ := stops_declaration s h
  have hinside : e.Inside (declaration s).2 := by
    cases hrun : declaration s with
    | mk r t =>
      cases r with
      | none => exact hnone t hrun
      | some d => exact hsome d t hrun
  rcases step_cases s with ⟨d, t, hrun, -, hstep⟩ | ⟨-, hstep⟩
  · rw [hrun] at hinside
    rw [hstep]
    exact open_advance hinside
  · rw [hstep]
    exact open_synchronize hinside

/-- **The rounds in front of the edge** end there, or they eat what stands there. -/
theorem rounds_front (fuel : Nat) (h : Open e s) (hfuel : s.tokens.length < fuel) :
    ∃ (front : List Decl) (fuel' : Nat) (t : State), (e.Eaten t ∨ Reached e t) ∧ t.tokens.length < fuel' ∧
      s.Reaches t ∧ declarations fuel s = (front ++ (declarations fuel' t).1, (declarations fuel' t).2) := by
  induction fuel generalizing s with
  | zero => exact absurd hfuel (Nat.not_lt_zero _)
  | succ fuel ih =>
    have hstay (hend : e.Eaten s ∨ Reached e s) : ∃ (front : List Decl) (fuel' : Nat) (t : State),
        (e.Eaten t ∨ Reached e t) ∧ t.tokens.length < fuel' ∧ s.Reaches t ∧
        declarations (fuel + 1) s = (front ++ (declarations fuel' t).1, (declarations fuel' t).2) :=
      ⟨[], fuel + 1, s, hend, hfuel, .refl s, rfl⟩
    rcases h with heaten | hreached | hitem
    · exact hstay (.inl heaten)
    · exact hstay (.inr hreached)
    · rcases hitem.1 with heaten | ⟨hs, ys, htokens, hlength, -⟩
      · exact hstay (.inl heaten)
      · have hpos : 1 ≤ s.tokens.length := by
          rw [htokens, List.length_append]
          omega
        have hless := length_step hpos
        obtain ⟨front, fuel', t, hend, hfuel', hreach, hrest⟩ := ih (open_step hitem) (by omega)
        refine ⟨(step s).1.toList ++ front, fuel', t, hend, hfuel', (reaches_step s).trans hreach, ?_⟩
        rw [declarations, if_neg (hs.current_kind hpos)]
        show ((step s).1.toList ++ (declarations fuel (step s).2).1, (declarations fuel (step s).2).2) = _
        rw [hrest, List.append_assoc]

/-! ### Behind the edge -/

/-- Rounds that record nothing begin with a declaration that records nothing. -/
theorem declarations_clean {fuel : Nat} (hs : s.Whole) (hkind : s.current.kind ≠ .eof)
    (hclean : (declarations (fuel + 1) s).2.errors = s.errors) :
    ∃ d u, declaration s = (some d, u) ∧ u.errors = s.errors ∧ 1 ≤ u.tokens.length ∧
      (declarations fuel (advance u).2).2.errors = (advance u).2.errors ∧
      declarations (fuel + 1) s =
        (d :: (declarations fuel (advance u).2).1, (declarations fuel (advance u).2).2) := by
  have hround : declarations (fuel + 1) s =
      ((step s).1.toList ++ (declarations fuel (step s).2).1, (declarations fuel (step s).2).2) := by
    rw [declarations, if_neg hkind]
  rw [hround] at hclean
  have hsame := (reaches_step s).errors_eq (reaches_declarations fuel (step s).2) hclean
  obtain ⟨d, u, hrun, herrors, hlength, hstep⟩ := step_clean hs hsame
  rw [hstep] at hround hclean
  exact ⟨d, u, hrun, herrors, hlength, hclean.trans herrors.symm, hround⟩

/-- **A round over a declaration that is fine further up** reads the same declaration, unless it meets
the nesting limit. -/
theorem step_moved {k : Nat} {d : Decl} {u : State} (hst : s.Moved k t)
    (hrun : declaration s = (some d, u)) (herrors : u.errors = s.errors) :
    (∃ x ∈ t.tokens ++ [t.eof], tooDeepAt x ∈ (step t).2.errors) ∨
      ∃ d' v, step t = (some d', (advance v).2) ∧ d'.erase = d.erase ∧ (advance u).2.Moved k (advance v).2 := by
  rcases repeats_declaration s t hst with ⟨-, href⟩ | hm
  · obtain ⟨es, x, hes, hx, -⟩ := href.errors
    left
    refine ⟨x, hx, ?_⟩
    rcases step_cases t with ⟨d', v, hrun', -, -⟩ | ⟨-, hstep⟩
    · have hgave := href.gave
      rw [hrun'] at hgave
      cases hgave
    · rw [hstep]
      show tooDeepAt x ∈ (declaration t).2.errors
      rw [hes]
      exact List.mem_append_right _ (List.mem_singleton_self _)
  · right
    rw [hrun] at hm
    obtain ⟨es, fs, hes, hfs, hcodes, -⟩ := hm.errors
    obtain rfl : es = [] := List.append_right_eq_self.mp (hes.symm.trans herrors)
    obtain rfl : fs = [] := List.map_eq_nil_iff.mp hcodes.symm
    rw [List.append_nil] at hfs
    rcases step_cases t with ⟨d', v, hrun', -, hstep⟩ | ⟨hlost, -⟩
    · rw [hrun'] at hm
      have herase : d'.erase = d.erase := by
        have hresult := hm.result
        cases hresult with
        | some h => exact h.symm
      have hmoved := (repeats_advance (F := False) u v hm.moved).resolve_left fun h => h.1
      exact ⟨d', v, hstep, herase, hmoved.moved⟩
    · rcases hlost with hnone | hmore
      · have hresult := hm.result
        rw [hnone] at hresult
        cases hresult
      · exact absurd (congrArg List.length hfs) hmore

/-- **Declarations that record nothing are read the same way further down**, unless they meet the
nesting limit there. -/
theorem declarations_moved {k : Nat} (fuel fuel' : Nat) (hst : s.Moved k t) (hs : s.Whole)
    (hfuel : s.tokens.length < fuel) (hfuel' : s.tokens.length < fuel')
    (hclean : (declarations fuel s).2.errors = s.errors) :
    (declarations fuel' t).1.map Decl.erase = (declarations fuel s).1.map Decl.erase ∨
      ∃ x ∈ t.tokens ++ [t.eof], tooDeepAt x ∈ (declarations fuel' t).2.errors := by
  induction fuel generalizing s t fuel' with
  | zero => exact absurd hfuel (Nat.not_lt_zero _)
  | succ fuel ih =>
    obtain ⟨fuel', rfl⟩ : ∃ n, fuel' = n + 1 := ⟨fuel' - 1, by omega⟩
    by_cases hend : s.current.kind = .eof
    · left
      rw [declarations, declarations, hst.current.kind, if_pos hend, if_pos hend]
    · have hround : declarations (fuel' + 1) t =
          ((step t).1.toList ++ (declarations fuel' (step t).2).1, (declarations fuel' (step t).2).2) := by
        rw [declarations, hst.current.kind, if_neg hend]
      obtain ⟨d, u, hrun, herrors, hlength, hclean', hrounds⟩ := declarations_clean hs hend hclean
      have hreach : s.Reaches u := by
        have hmoves := (reads_declaration (N := 0)).moves s
        rwa [hrun] at hmoves
      have hless : (advance u).2.tokens.length < s.tokens.length := by
        have hle := hreach.length_le
        rw [State.length_advance]
        omega
      rw [hround, hrounds]
      rcases step_moved hst hrun herrors with ⟨x, hx, hmem⟩ | ⟨d', v, hstep, herase, hmoved⟩
      · exact .inr ⟨x, hx, (reaches_declarations fuel' (step t).2).errors.subset hmem⟩
      · have htail := reaches_step t
        rw [hstep] at htail ⊢
        rcases ih fuel' hmoved (whole_advance (hreach.whole hs)) (by omega) (by omega) hclean' with hrest | ⟨x, hx, hmem⟩
        · left
          show (d' :: (declarations fuel' (advance v).2).1).map Decl.erase = _
          rw [List.map_cons, List.map_cons, hrest, herase]
        · refine .inr ⟨x, ?_, hmem⟩
          rcases List.mem_append.mp hx with hx | hx
          · exact List.mem_append_left _ (htail.tokens.subset hx)
          · exact List.mem_append_right _ (htail.eof ▸ hx)

/-! ### Behind an `@` -/

/-- One annotation, if there is one. -/
def annotationRound (names : List String) : Parser (Round (List String) (List String)) := do
  if ← currentIs .atSign then
    expect .lower "annotation name"
    let name := (← current).text
    advance
    return .again (names ++ [name])
  else return .done names

/-- What follows the annotations. -/
def annotated (start : Token) (annotations : List String) : Parser Decl := do
  let isPublic ← currentIs .kwPub
  if isPublic then
    advance
    declarationBody start isPublic annotations
  else declarationBody start isPublic annotations

theorem declaration_rounds (s : State) :
    declaration s = (iterate annotationRound [] >>= annotated s.current) s := rfl

/-- A declaration follows its annotations. -/
theorem starts_of_annotated {start : Token} {annotations : List String} {d : Decl}
    (hne : annotations ≠ []) (h : annotated start annotations s = (some d, t)) :
    s.current.kind.startsDeclaration = true := by
  by_cases hpub : s.current.kind = .kwPub
  · rw [hpub]
    rfl
  · have hrun : declarationBody start false annotations s = (some d, t) := by
      have hpublic : currentIs .kwPub s = (some false, s) := by
        show (some (decide (s.current.kind = .kwPub)), s) = _
        rw [decide_eq_false hpub]
      rw [annotated, run_bind_some hpublic] at h
      exact h
    by_contra hplain
    rw [Bool.not_eq_true] at hplain
    have hreject : declarationBody start false annotations s =
        reject .unexpectedToken s.current [.str "fn, pattern or type", .str s.current.described] s := by
      rw [declarationBody, run_bind_some (show current s = (some s.current, s) from rfl)]
      refine congrFun ?_ s
      split
      · rename_i hkind
        rw [hkind] at hplain
        cases hplain
      · rename_i hkind
        rw [hkind] at hplain
        cases hplain
      · rename_i hkind
        rw [hkind] at hplain
        cases hplain
      · exact if_pos (by simp [hne])
    rw [hreject] at hrun
    cases hrun

theorem annotationRound_eq (names : List String) (hat : s.current.kind = .atSign) :
    annotationRound names s =
      (expect .lower "annotation name" >>= fun _ => current >>= fun x => advance >>= fun _ =>
        pure (.again (names ++ [x.text]))) s := by
  have hcurrent : currentIs .atSign s = (some true, s) := by
    show (some (decide (s.current.kind = .atSign)), s) = _
    rw [decide_eq_true hat]
  rw [annotationRound, run_bind_some hcurrent]
  rfl

/-- Two sequences whose first parsers end in the same way. -/
theorem run_bind_same {α β : Type} {p q : Parser β} {f : β → Parser α} (h : p s = q t) :
    (p >>= f) s = (q >>= f) t := by
  dsimp only [Bind.bind]
  rw [h]

/-- A token of a kind that is not the end of input is one of those left. -/
theorem tokens_of_kind {kind : TokenKind} (hs : s.Whole) (hkind : kind ≠ .eof) (h : s.current.kind = kind) :
    s.tokens = s.current :: s.tokens.tail := by
  have hpos := length_of_current hs hkind h
  rw [State.current]
  cases htokens : s.tokens with
  | nil =>
    rw [htokens] at hpos
    exact absurd hpos (Nat.not_succ_le_zero 0)
  | cons x xs => rfl

theorem marked_loop {start : Token} {d : Decl} (fuel : Nat) (names : List String) (hs : s.Whole)
    (h : (loop annotationRound fuel names >>= annotated start) s = (some d, t)) :
    (s.current.kind = .atSign → Marked s.tokens.tail) ∧
      (s.current.kind ≠ .atSign → names ≠ [] → s.current.kind.startsDeclaration = true) := by
  induction fuel generalizing names s with
  | zero => cases h
  | succ fuel ih =>
    constructor
    · intro hat
      have hround := annotationRound_eq names hat
      have hexpect := expect_run .lower "annotation name" s
      by_cases hname : s.next.kind = .lower
      · rw [if_pos hname] at hexpect
        rw [run_bind_some (show expect .lower "annotation name" s = (some (), (advance s).2) from hexpect)] at hround
        have hagain : annotationRound names s =
            (some (.again (names ++ [(advance s).2.current.text])), (advance (advance s).2).2) := hround
        rw [run_bind_same (loop_again hagain)] at h
        have hfirst : (advance s).2.Whole := whole_advance hs
        obtain ⟨hmore, hlast⟩ := ih _ (whole_advance hfirst) h
        have hx : (advance s).2.current.kind = .lower := by rwa [current_advance]
        have htail : s.tokens.tail = (advance s).2.current :: (advance (advance s).2).2.tokens :=
          tokens_of_kind hfirst (by decide) hx
        rw [htail]
        by_cases hagain : (advance (advance s).2).2.current.kind = .atSign
        · rw [tokens_of_kind (whole_advance hfirst) (by decide) hagain]
          exact .more hx hagain (hmore hagain)
        · have hstarts := hlast hagain (by simp)
          have hkind : (advance (advance s).2).2.current.kind ≠ .eof := by
            intro heof
            rw [heof] at hstarts
            cases hstarts
          rw [tokens_of_kind (whole_advance hfirst) hkind rfl]
          exact .last hx hstarts hagain
      · rw [if_neg hname] at hexpect
        obtain ⟨u, hu⟩ := rejectNext_run "annotation name" s
        rw [run_bind_none (hexpect.trans (hu Unit))] at hround
        rw [run_bind_none (loop_none hround)] at h
        cases h
    · intro hat hne
      have hdone : annotationRound names s = (some (.done names), s) := by
        have hcurrent : currentIs .atSign s = (some false, s) := by
          show (some (decide (s.current.kind = .atSign)), s) = _
          rw [decide_eq_false hat]
        rw [annotationRound, run_bind_some hcurrent]
        rfl
      rw [run_bind_some (loop_done hdone)] at h
      exact starts_of_annotated hne h

/-- **What stands behind an `@` that begins a declaration**, if one is read there. -/
theorem marked_of_declaration {d : Decl} (hs : s.Whole) (h : declaration s = (some d, t))
    (hat : s.current.kind = .atSign) : Marked s.tokens.tail := by
  rw [declaration_rounds] at h
  exact (marked_loop _ [] hs h).1 hat

/-- What stands behind an `@` where the rounds record nothing. -/
theorem marked_of_clean {fuel : Nat} (hs : s.Whole) (hat : s.current.kind = .atSign)
    (hclean : (declarations (fuel + 1) s).2.errors = s.errors) : Marked s.tokens.tail := by
  have hkind : s.current.kind ≠ .eof := by
    rw [hat]
    nofun
  obtain ⟨d, u, hrun, -⟩ := declarations_clean hs hkind hclean
  exact marked_of_declaration hs hrun hat

/-- A file without a header and without `use` lines. -/
theorem program_items (h : s.current.kind.startsDeclaration = true) :
    program s = (⟨none, [], (declarations (s.tokens.length + 1) s).1⟩, (declarations (s.tokens.length + 1) s).2) := by
  have hmodule : s.current.kind ≠ .kwModule := by
    intro hkind
    rw [hkind] at h
    cases h
  have huse : s.current.kind ≠ .kwUse := by
    intro hkind
    rw [hkind] at h
    cases h
  have hlines : useLines (s.tokens.length + 1) s = ([], s) := by
    rw [useLines, if_neg huse]
  rw [program, if_neg hmodule]
  dsimp only
  rw [hlines]

end Parser

/-! ### Two sources -/

/-- Two places that are `k` lines apart. -/
theorem moved_advance {k : Nat} {c c' : Cursor} (h : c'.line = c.line + k) (t : Text) :
    (c'.advance t).line = (c.advance t).line + k := by
  rw [Cursor.line_advance, Cursor.line_advance, h]
  omega

/-- A text that is read from a place further down. -/
theorem moved_tokensFrom (k : Nat) (c : Cursor) (t : Text) : ∀ c' : Cursor, c'.line = c.line + k →
    List.Forall₂ (Token.Moved k) (tokensFrom c t).1 (tokensFrom c' t).1 ∧
      (tokensFrom c' t).2.line = (tokensFrom c t).2.line + k := by
  fun_induction tokensFrom c t with
  | case1 c t trivia start hsplit =>
    intro c' h
    rw [tokensFrom_last hsplit]
    exact ⟨.nil, moved_advance h _⟩
  | case2 c t trivia start g rest hsplit l token r ih =>
    intro c' h
    have hstart : (c'.advance trivia).line = start.line + k := moved_advance h trivia
    obtain ⟨hmore, hend⟩ := ih _ (moved_advance hstart (g :: rest.take l.extra))
    rw [tokensFrom_next hsplit]
    exact ⟨.cons ⟨rfl, rfl, rfl, hstart⟩ hmore, hend⟩

theorem kind_tokensFrom (c : Cursor) (t : Text) : ∀ x ∈ (tokensFrom c t).1, x.kind ≠ .eof := by
  fun_induction tokensFrom c t with
  | case1 c t trivia start hsplit => exact fun x hx => absurd hx List.not_mem_nil
  | case2 c t trivia start g rest hsplit l token r ih =>
    intro x hx
    rcases List.mem_cons.mp hx with rfl | hx
    · exact kind_lexeme_ne g rest
    · exact ih x hx

theorem whole_lex (source : Text) : (State.of (lex source)).Whole :=
  ⟨kind_tokensFrom {} (Source.visible source), rfl⟩

/-- **The tokens of a source on the line behind another one**: those that it has on its own, further
down and one behind the other. -/
theorem moved_lex {a : Text} (h : Source.Closed a) (b : Text) :
    ∃ (k : Nat) (ys : List Token), (lex (a ++ .char '\n' :: b)).tokens = (lex a).tokens ++ ys ∧
      List.Forall₂ (Token.Moved k) (lex b).tokens ys ∧ (lex b).eof.Moved k (lex (a ++ .char '\n' :: b)).eof ∧
      (ys ++ [(lex (a ++ .char '\n' :: b)).eof]).Pairwise fun x y => x.offset < y.offset := by
  obtain ⟨htokens, heof⟩ := lex_joined h b
  have hline : (Cursor.advance {} (a ++ [Glyph.char '\n'])).line =
      ({} : Cursor).line + (a ++ [Glyph.char '\n']).count (.char '\n') := Cursor.line_advance _ _
  obtain ⟨hmoved, hend⟩ := moved_tokensFrom _ _ (Source.visible b) _ hline
  obtain ⟨hbefore, hpairwise⟩ := offsets_tokensFrom (Cursor.advance {} (a ++ [Glyph.char '\n']))
    (Source.visible b)
  refine ⟨_, _, htokens, hmoved, ?_, ?_⟩
  · rw [heof]
    exact ⟨rfl, rfl, rfl, hend⟩
  · refine List.pairwise_append.mpr ⟨hpairwise, List.pairwise_singleton _ _, ?_⟩
    intro x hx y hy
    obtain rfl := List.mem_singleton.mp hy
    have hlast := (hbefore x hx).2
    have hvisible : Text.width (Source.visible b) ≤ Text.width b := by
      obtain ⟨unread, hsplit, -⟩ := exists_unread b
      have hwidth := congrArg Text.width hsplit
      rw [Text.width_append] at hwidth
      omega
    rw [Cursor.offset_advance, Text.width_append, show ({} : Cursor).offset = 0 from rfl] at hlast
    rw [heof]
    show x.offset < Text.width (a ++ .char '\n' :: b)
    rw [Text.width_append, ← List.singleton_append, Text.width_append]
    omega

/-! ### A declaration behind an error -/

/-- A source in which a declaration starts at once. -/
theorem parse_items {l : Lexed} {x : Token} {xs : List Token} (htokens : l.tokens = x :: xs)
    (hstarts : x.kind.startsDeclaration = true) :
    (parse l).program.decls = (Parser.declarations (l.tokens.length + 1) (.of l)).1 ∧
      (parse l).errors = (Parser.declarations (l.tokens.length + 1) (.of l)).2.errors := by
  have hcurrent : (State.of l).current.kind.startsDeclaration = true := by
    rw [State.current, State.of, htokens]
    exact hstarts
  have hprogram := Parser.program_items hcurrent
  have hparse : parse l = ⟨(Parser.program (.of l)).1, (Parser.program (.of l)).2.errors,
    (Parser.program (.of l)).2.incomplete⟩ := rfl
  rw [hparse, hprogram]
  exact ⟨rfl, rfl⟩

theorem Marked.moved {k : Nat} {xs ys : List Token} (h : List.Forall₂ (Token.Moved k) xs ys)
    (hmarked : Marked xs) : Marked ys := by
  induction hmarked generalizing ys with
  | last hx hc hat =>
    obtain ⟨x', zs, hx', hzs, rfl⟩ := List.forall₂_cons_left_iff.mp h
    obtain ⟨c', more, hc', -, rfl⟩ := List.forall₂_cons_left_iff.mp hzs
    refine .last (hx'.kind.trans hx) ?_ ?_
    · rwa [hc'.kind]
    · rwa [hc'.kind]
  | more hx hc _ ih =>
    obtain ⟨x', zs, hx', hzs, rfl⟩ := List.forall₂_cons_left_iff.mp h
    obtain ⟨c', more, hc', hmore, rfl⟩ := List.forall₂_cons_left_iff.mp hzs
    exact .more (hx'.kind.trans hx) (hc'.kind.trans hc) (ih hmore)

/-- The edge in front of a source that records nothing on its own, read further down. -/
theorem exists_edge {k : Nat} {l : Lexed} {x y : Token} {xs later : List Token} (hs : (State.of l).Whole)
    (htokens : l.tokens = x :: xs) (hstarts : x.kind.startsDeclaration = true)
    (hclean : (parse l).errors = []) (hxy : x.Moved k y) (hlater : List.Forall₂ (Token.Moved k) xs later)
    (hbehind : ∀ z ∈ later, y.offset < z.offset) : ∃ e : Edge, e.first = y ∧ e.later = later := by
  have hmarked : y.kind = .atSign → Marked later := by
    intro hat
    have hcurrent : (State.of l).current.kind = .atSign := by
      rw [State.current, State.of, htokens]
      exact hxy.kind.symm.trans hat
    rw [(parse_items htokens hstarts).2] at hclean
    have hxs := Parser.marked_of_clean hs hcurrent hclean
    rw [State.of, htokens] at hxs
    exact hxs.moved hlater
  exact ⟨⟨y, later, hxy.kind ▸ hstarts, hmarked, hbehind⟩, rfl, rfl⟩

/-- A parser that meets the nesting limit behind the edge went too far. -/
theorem eats_tooDeep {first : Token} {later : List Token}
    (h : (first :: later).Pairwise fun x y => x.offset < y.offset) :
    ∀ x ∈ first :: later, Eats first (Parser.tooDeepAt x) := by
  intro x hx
  rcases List.mem_cons.mp hx with rfl | hx
  · left
    simp [givenUp, Parser.tooDeepAt]
  · exact .inr (Int.ofNat_lt.mpr (List.rel_of_pairwise_cons h hx))

/-- **The next declaration.**  A source that starts with `fn`, and in which no other declaration starts,
stands on the line in front of declarations that record nothing on their own.  Whatever it is, and
wherever it breaks off, these declarations are the last ones that are read, as they are on their own;
or a diagnostic tells that a parser went too far: it gave up at the token that begins the next
declaration, or behind it. -/
theorem parse_resumes {a b : Text} (hclosed : Source.Closed a)
    (hfirst : (lex a).tokens.head?.map (·.kind) = some .kwFn)
    (honly : ∀ x ∈ (lex a).tokens.tail, x.kind.startsDeclaration = false)
    (hnext : (lex b).tokens.head?.any (·.kind.startsDeclaration) = true)
    (hclean : (parse (lex b)).errors = []) :
    ∃ k first later, (lex (a ++ .char '\n' :: b)).tokens = (lex a).tokens ++ first :: later ∧
      List.Forall₂ (Token.Moved k) (lex b).tokens (first :: later) ∧
      ((parse (lex b)).program.decls.map Decl.erase <:+
          (parse (lex (a ++ .char '\n' :: b))).program.decls.map Decl.erase ∨
        ∃ d ∈ (parse (lex (a ++ .char '\n' :: b))).errors, Eats first d) := by
  obtain ⟨k, ys, htokens, hmoved, heof, hbehind⟩ := moved_lex hclosed b
  obtain ⟨f, rest, ha⟩ : ∃ f rest, (lex a).tokens = f :: rest := by
    cases hlex : (lex a).tokens with
    | nil => simp [hlex] at hfirst
    | cons f rest => exact ⟨f, rest, rfl⟩
  obtain ⟨x, xs, hb⟩ : ∃ x xs, (lex b).tokens = x :: xs := by
    cases hlex : (lex b).tokens with
    | nil => simp [hlex] at hnext
    | cons x xs => exact ⟨x, xs, rfl⟩
  have hf : f.kind = .kwFn := by simpa [ha] using hfirst
  have hx : x.kind.startsDeclaration = true := by simpa [hb] using hnext
  rw [hb] at hmoved
  obtain ⟨first, later, hxy, hlater, rfl⟩ := List.forall₂_cons_left_iff.mp hmoved
  rw [← hb] at hmoved
  refine ⟨k, first, later, htokens, hmoved, ?_⟩
  obtain ⟨e, rfl, rfl⟩ := exists_edge (whole_lex b) hb hx hclean hxy hlater fun z hz =>
    List.rel_of_pairwise_cons hbehind (List.mem_append_left _ hz)
  generalize hl : lex (a ++ .char '\n' :: b) = l at htokens heof hbehind ⊢
  have hs : (State.of l).Whole := hl ▸ whole_lex _
  rw [ha] at htokens honly
  -- the rounds over the first source
  have hopen : Parser.Open e (.of l) := by
    right
    right
    refine ⟨.inr ⟨hs, f :: rest, htokens, Nat.succ_le_succ (Nat.zero_le _), honly⟩, .inl ?_⟩
    rw [State.current, State.of, htokens]
    exact hf
  obtain ⟨front, fuel, t, hend, hfuel, hreach, hrounds⟩ :=
    Parser.rounds_front (l.tokens.length + 1) hopen (Nat.lt_succ_self _)
  obtain ⟨hdecls, herrors⟩ := parse_items htokens (by rw [hf]; rfl)
  rw [hdecls, herrors, hrounds]
  rcases hend with ⟨d, hd, heats⟩ | ⟨ht, hrest⟩
  · right
    exact ⟨d, (Parser.reaches_declarations fuel t).errors.subset hd, heats⟩
  · -- and those over the second
    have hst : State.Moved k (.of (lex b)) t := by
      refine ⟨hrest ▸ hmoved.imp fun _ _ hxy => hxy.shifted, ?_, Nat.zero_le _⟩
      rw [hreach.eof]
      exact heof.shifted
    obtain ⟨hdecls', herrors'⟩ := parse_items hb hx
    rw [herrors'] at hclean
    have hlength : (lex b).tokens.length < fuel := hst.length.trans_lt hfuel
    rcases Parser.declarations_moved _ fuel hst (whole_lex b) (Nat.lt_succ_self _) hlength hclean with
      hsame | ⟨z, hz, hmem⟩
    · left
      rw [hdecls', List.map_append, hsame]
      exact List.suffix_append _ _
    · right
      rw [hrest, hreach.eof, List.cons_append] at hz
      exact ⟨_, hmem, eats_tooDeep hbehind z hz⟩

/-- A function that breaks off in the arguments of a call. -/
def brokenCall : Text := .ofString "fn f(x: Int) -> Int = match x with | 0 -> g(1, (2"

/-- An annotated function. -/
def annotatedConstant : Text := .ofString "@pure\nfn g() = 1"

/-- Behind arguments that nothing closes, a function is read with its annotation. -/
theorem parse_resumes_arguments :
    (parse (lex (brokenCall ++ .char '\n' :: annotatedConstant))).errors ≠ [] ∧
      (parse (lex annotatedConstant)).program.decls.length = 1 ∧
      (parse (lex annotatedConstant)).program.decls.map Decl.erase <:+
        (parse (lex (brokenCall ++ .char '\n' :: annotatedConstant))).program.decls.map Decl.erase := by
  have hplain : ∀ first ∈ (lex (brokenCall ++ .char '\n' :: annotatedConstant)).tokens[(lex brokenCall).tokens.length]?,
      ∀ d ∈ (parse (lex (brokenCall ++ .char '\n' :: annotatedConstant))).errors, ¬ Eats first d := by
    decide +kernel
  obtain ⟨k, first, later, htokens, -, hsuffix | ⟨d, hd, heats⟩⟩ :=
    parse_resumes (a := brokenCall) (b := annotatedConstant) (by decide +kernel) (by decide +kernel)
      (by decide +kernel) (by decide +kernel) (by decide +kernel)
  · exact ⟨by decide +kernel, by decide +kernel, hsuffix⟩
  · refine absurd heats (hplain first ?_ d hd)
    rw [htokens]
    simp

/-- **The next declaration is skipped**: an expression is given up at the token that begins it, and
what is skipped there starts with that token. -/
theorem parse_swallows :
    (lex (.ofString "fn f() =")).tokens.head?.map (·.kind) = some .kwFn ∧
      (∀ x ∈ (lex (.ofString "fn f() =")).tokens.tail, x.kind.startsDeclaration = false) ∧
      (lex (.ofString "fn g() = 1")).tokens.head?.map (·.kind) = some .kwFn ∧
      (parse (lex (.ofString "fn g() = 1"))).errors = [] ∧
      (parse (lex (.ofString "fn g() = 1"))).program.decls.length = 1 ∧
      (parse (lex (.ofString "fn f() =\nfn g() = 1"))).program.decls.length = 0 := by
  decide +kernel

end PatternPlan.Surface
