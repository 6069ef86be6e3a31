import PatternPlan.Proofs.Surface.Repeated
import PatternPlan.Proofs.Surface.Tiling

/-!
# Levels of nesting

Every parser closes the levels it opens, with one exception: where the nesting limit is met, the
level that was refused stays open, and everything that is read later has one level less.

* `Settled`, `Levels` — a run that closes its levels; a parser each of whose runs does, or meets the
  limit and leaves one level open;
* `nestingParsers` — the parsers of patterns, expressions and declarations;
* `parse_nesting` — **each of them keeps its levels, or meets the limit once; so the levels that are
  open where a declaration starts are the declarations that met the limit before**;
* `parse_overnested` — a declaration that is refused because of the one in front of it.
-/

namespace PatternPlan.Surface

/-- The same tokens, as a file of their own. -/
def State.fresh (s : State) : State := { tokens := s.tokens, eof := s.eof }

namespace Parser

variable {α β : Type} {s t : State}

/-- A run that closes the levels it opens, and does not meet the nesting limit. -/
structure Settled (s : State) (r : Option α × State) : Prop where
  depth : r.2.depth = s.depth
  errors : ∃ es, r.2.errors = s.errors ++ es ∧ Shallow es

/-- **A parser that closes the levels it opens**, unless it meets the nesting limit and leaves one
open. -/
def Levels (p : Parser α) : Prop := ∀ s : State, Settled s (p s) ∨ Refused s (p s)

theorem Matched.settled {k : Nat} {R : α → β → Prop} {r : Option α × State} {r' : Option β × State}
    (h : Matched k R s t r r') : Settled t r' := by
  obtain ⟨es, fs, -, hfs, -, hshallow⟩ := h.errors
  exact ⟨h.depth.2, fs, hfs, hshallow⟩

/-- A parser that repeats itself closes its levels. -/
theorem Repeats.levels {R : α → α → Prop} {p : Parser α} (h : Repeats True 0 R p p) : Levels p := by
  intro s
  rcases h s s (.refl s) with ⟨-, href⟩ | hm
  · exact .inr href
  · exact .inl hm.settled

/-! ### Parsers that nest -/

section Parsers

variable (room precedence : Nat) (op : UnaryOp) (left : Expr) (close : TokenKind) (start : Token)
variable (isPublic : Bool) (annotations : List String)

/-- The parsers of patterns, with `room` levels left for the patterns inside. -/
def patternParsers : List (Σ α : Type, Parser α) :=
  let inner := nestedPattern (orWithin room)
  [⟨_, primaryWithin room⟩, ⟨_, orWithin room⟩, ⟨_, inner⟩, ⟨_, slicePattern inner⟩,
    ⟨_, recordFields inner⟩, ⟨_, recordPattern inner⟩, ⟨_, groupPattern inner⟩,
    ⟨_, activePattern (primaryWithin room)⟩, ⟨_, primaryBody (orWithin room) (primaryWithin room)⟩,
    ⟨_, alternativesBody (primaryWithin room)⟩]

/-- The parsers of expressions, with `room` levels left for the expressions inside. -/
def exprParsers : List (Σ α : Type, Parser α) :=
  let expr := exprWithin room
  [⟨_, expr precedence⟩, ⟨_, expression⟩, ⟨_, exprList expr close⟩, ⟨_, constructor expr⟩,
    ⟨_, group expr⟩, ⟨_, recordLiteral expr⟩, ⟨_, blockBody expr⟩, ⟨_, recordOrBlock expr⟩,
    ⟨_, conditional expr⟩, ⟨_, performance expr⟩, ⟨_, armHead expr⟩, ⟨_, arm expr (orWithin room)⟩,
    ⟨_, selection expr (orWithin room)⟩, ⟨_, unaryWith expr op⟩, ⟨_, atom expr (orWithin room)⟩,
    ⟨_, extended expr left⟩, ⟨_, exprBody expr (orWithin room) precedence⟩]

/-- The parsers of declarations. -/
def declarationParsers : List (Σ α : Type, Parser α) :=
  [⟨_, definition⟩, ⟨_, function start isPublic annotations⟩,
    ⟨_, recognizer start isPublic annotations⟩, ⟨_, declarationBody start isPublic annotations⟩,
    ⟨_, declaration⟩]

/-- The parsers that open levels, and those that call one of them. -/
def nestingParsers : List (Σ α : Type, Parser α) :=
  patternParsers room ++ exprParsers room precedence op left close ++
    declarationParsers start isPublic annotations

theorem levels_patternParsers : ∀ p ∈ patternParsers room, Levels p.2 := by
  obtain ⟨hprimary, halternatives⟩ := repeats_pattern (k := 0) room room (Nat.le_refl _)
  have hinner := repeats_nestedPattern halternatives
  simp only [patternParsers, List.forall_mem_cons]
  refine ⟨hprimary.levels, halternatives.levels, hinner.levels, (repeats_slicePattern hinner).levels,
    (repeats_recordFields hinner).levels, (repeats_recordPattern hinner).levels,
    (repeats_groupPattern hinner).levels, (repeats_activePattern hprimary).levels,
    (repeats_primaryBody halternatives hprimary).levels, (repeats_alternativesBody hprimary).levels, ?_⟩
  intro p hp
  cases hp

theorem levels_exprParsers : ∀ p ∈ exprParsers room precedence op left close, Levels p.2 := by
  have hexpr := repeats_exprWithin (k := 0) room room (Nat.le_refl _)
  have hpattern := (repeats_pattern (k := 0) room room (Nat.le_refl _)).2
  simp only [exprParsers, List.forall_mem_cons]
  refine ⟨(hexpr _).levels, repeats_expression.levels, (repeats_exprList hexpr close).levels,
    (repeats_constructor hexpr).levels, (repeats_group hexpr).levels,
    (repeats_recordLiteral hexpr).levels, (repeats_blockBody hexpr).levels,
    (repeats_recordOrBlock hexpr).levels, (repeats_conditional hexpr).levels,
    (repeats_performance hexpr).levels, (repeats_armHead hexpr).levels,
    (repeats_arm hexpr hpattern).levels, (repeats_selection hexpr hpattern).levels,
    (repeats_unaryWith hexpr op).levels, (repeats_atom hexpr hpattern).levels,
    (repeats_extended hexpr (e := left) (f := left) rfl).levels,
    (repeats_exprBody hexpr hpattern precedence).levels, ?_⟩
  intro p hp
  cases hp

theorem levels_declarationParsers :
    ∀ p ∈ declarationParsers start isPublic annotations, Levels p.2 := by
  simp only [declarationParsers, List.forall_mem_cons]
  refine ⟨repeats_definition.levels, (repeats_function start start isPublic annotations).levels,
    (repeats_recognizer start start isPublic annotations).levels,
    (repeats_declarationBody start start isPublic annotations).levels, repeats_declaration.levels, ?_⟩
  intro p hp
  cases hp

/-- **Parsers close the levels they open**, unless they meet the nesting limit. -/
theorem levels_nestingParsers : ∀ p ∈ nestingParsers room precedence op left close start isPublic
    annotations, Levels p.2 := by
  intro p hp
  rcases List.mem_append.mp hp with hp | hp
  · rcases List.mem_append.mp hp with hp | hp
    · exact levels_patternParsers room p hp
    · exact levels_exprParsers room precedence op left close p hp
  · exact levels_declarationParsers start isPublic annotations p hp

end Parsers

/-! ### Declarations, one after the other -/

/-- How many declarations have met the nesting limit. -/
def refusals (s : State) : Nat := (s.errors.filter fun d => d.code = .nestingTooDeep).length

theorem Shallow.filter {es : List Diagnostic} (h : Shallow es) :
    es.filter (fun d => d.code = .nestingTooDeep) = [] := by
  rw [List.filter_eq_nil_iff]
  intro d hd
  simpa using h d hd

theorem Settled.refusals {r : Option α × State} (h : Settled s r) :
    refusals r.2 = refusals s := by
  obtain ⟨es, hes, hshallow⟩ := h.errors
  rw [Parser.refusals, hes, List.filter_append, hshallow.filter, List.append_nil]
  rfl

theorem Refused.refusals {r : Option α × State} (h : Refused s r) :
    refusals r.2 = refusals s + 1 := by
  obtain ⟨es, x, hes, -, hshallow⟩ := h.errors
  rw [Parser.refusals, hes, List.filter_append, List.filter_append, hshallow.filter, List.append_nil]
  exact List.length_append

/-- One level is open for each refusal. -/
def Counted (s : State) : Prop := s.depth = refusals s

theorem counted_advance (h : Counted s) : Counted (advance s).2 := h

theorem counted_synchronize (h : Counted s) : Counted (synchronize s).2 := h

theorem Levels.counted {p : Parser α} (hp : Levels p) (h : Counted s) : Counted (p s).2 := by
  unfold Counted at h ⊢
  rcases hp s with hsettled | href
  · rw [hsettled.depth, hsettled.refusals, h]
  · rw [href.depth, href.refusals, h]

/-- One round opens a level if its declaration meets the limit, and none if it does not. -/
theorem counted_step (h : Counted s) : Counted (step s).2 := by
  have hdeclaration := repeats_declaration.levels.counted h
  rcases step_cases s with ⟨d, t, hrun, -, hstep⟩ | ⟨-, hstep⟩
  · rw [hrun] at hdeclaration
    rw [hstep]
    exact counted_advance hdeclaration
  · rw [hstep]
    exact counted_synchronize hdeclaration

/-- **Where a declaration starts, one level is open for each one that met the limit before.** -/
theorem counted_rounds (fuel : Nat) (h : Counted s) : ∀ u ∈ rounds fuel s, Counted u := by
  induction fuel generalizing s with
  | zero =>
    intro u hu
    cases hu
  | succ fuel ih =>
    rw [rounds]
    intro u hu
    split at hu
    · cases hu
    · rcases List.mem_cons.mp hu with rfl | hu
      · exact h
      · exact ih (counted_step h) u hu

/-! The lines in front of the declarations do not nest. -/

theorem repeats_missingPath : RepeatsAny False 0 missingPath missingPath := by
  intro s t hst
  have hm := (repeats_rejectNext (F := False) (R := fun (_ _ : Unit) => True) "module path" s t
    hst).resolve_left fun h => h.1
  exact .inr ⟨.some trivial, hm.moved, hm.depth, hm.tokens, hm.eof, hm.errors⟩

theorem repeats_pathRound (names names' : List String) :
    Repeats False 0 (Round.Rel (fun _ _ => True) fun _ _ => True) (pathRound names) (pathRound names') := by
  refine .bind repeats_next fun x y hxy => ?_
  rw [hxy.kind]
  refine .ite (fun _ => ?_) fun _ => .seq repeats_missingPath fun _ _ => .pure (.done trivial)
  refine .seq repeats_advance fun _ _ => .bind repeats_current fun n m hnm => ?_
  exact .skipIf (.pure (.again trivial)) (.pure (.done trivial))

theorem counted_path (fuel : Nat) (h : Counted s) : Counted (path fuel s).2 := by
  have hloop : RepeatsAny False 0 (loop pathRound fuel []) (loop pathRound fuel []) :=
    .loop (fun names names' _ => repeats_pathRound names names') fuel trivial
  rw [← gathers_path.state_eq fuel [] s]
  exact (hloop.mono False.elim fun _ _ => id).levels.counted h

theorem counted_pathLine (h : Counted s) : Counted (pathLine s).2 :=
  counted_advance (counted_path _ h)

theorem counted_useLines (fuel : Nat) (h : Counted s) : Counted (useLines fuel s).2 := by
  induction fuel generalizing s with
  | zero => exact h
  | succ fuel ih =>
    rw [useLines]
    split
    · exact ih (counted_pathLine h)
    · exact h

theorem counted_opening (h : Counted s) : Counted (opening s).2 := by
  have hheader := headerLine_run s
  by_cases hmodule : s.current.kind = .kwModule
  · rw [if_pos hmodule] at hheader
    rw [opening, run_bind_some hheader]
    exact counted_useLines _ (counted_pathLine h)
  · rw [if_neg hmodule] at hheader
    rw [opening, run_bind_some hheader]
    exact counted_useLines _ h

/-! ### Declarations on their own -/

theorem Refused.not_matched {k : Nat} {R : α → β → Prop} {r : Option α × State} {r' : Option β × State}
    (h : Refused s r) : ¬ Matched k R s t r r' := by
  intro hm
  have hdepth := hm.depth.1
  rw [h.depth] at hdepth
  omega

/-- **A declaration that starts with no level open** is read as if it stood on its own. -/
theorem declaration_fresh (h : s.depth = 0) :
    (Refused s (declaration s) ↔ Refused s.fresh (declaration s.fresh)) ∧
      (declaration s).1.map Decl.erase = (declaration s.fresh).1.map Decl.erase := by
  have hforth : State.Moved 0 s s.fresh :=
    ⟨(State.Moved.refl s).tokens, (State.Moved.refl s).eof, Nat.le_of_eq h⟩
  have hback : State.Moved 0 s.fresh s :=
    ⟨(State.Moved.refl s).tokens, (State.Moved.refl s).eof, Nat.zero_le _⟩
  rcases repeats_declaration s s.fresh hforth with ⟨-, href⟩ | hm
  · have hback := (repeats_declaration s.fresh s hback).resolve_right href.not_matched
    exact ⟨⟨fun _ => href, fun _ => hback.2⟩, by rw [href.gave, hback.2.gave]⟩
  · refine ⟨⟨fun href => absurd hm href.not_matched, fun href => ?_⟩, ?_⟩
    · have hdepth := hm.depth.2
      rw [href.depth] at hdepth
      omega
    · have hresult := hm.result
      generalize (declaration s).1 = o, (declaration s.fresh).1 = o' at hresult ⊢
      cases hresult with
      | some h => exact congrArg some h
      | none => rfl

end Parser

/-- **Levels of nesting.**  Every parser of patterns, expressions and declarations closes the levels
it opens, unless it meets the nesting limit: then it gives up, one diagnostic says so and exactly one
level stays open.  So where a declaration starts, one level is open for each declaration that met the
limit before; and as long as none did, a declaration is read as if it stood on its own. -/
theorem parse_nesting (l : Lexed) :
    (∀ room precedence op left close start isPublic annotations,
      ∀ p ∈ Parser.nestingParsers room precedence op left close start isPublic annotations,
        Parser.Levels p.2) ∧
    ∀ u ∈ Parser.programRounds (.of l), u.depth = Parser.refusals u ∧
      (u.depth = 0 →
        (Parser.Refused u (Parser.declaration u) ↔
          Parser.Refused u.fresh (Parser.declaration u.fresh)) ∧
        (Parser.declaration u).1.map Decl.erase = (Parser.declaration u.fresh).1.map Decl.erase) := by
  refine ⟨Parser.levels_nestingParsers, ?_⟩
  intro u hu
  have hopening : Parser.Counted (Parser.opening (.of l)).2 := Parser.counted_opening rfl
  exact ⟨Parser.counted_rounds _ hopening u hu, Parser.declaration_fresh⟩

/-- A declaration behind one that records an error is read as if it stood on its own: no level is
open. -/
theorem parse_nesting_behind_error :
    ∃ u ∈ Parser.programRounds (.of (lex (.ofString "fn f(\nfn g() = 1"))),
      u.errors ≠ [] ∧ u.depth = Parser.refusals u ∧
        (Parser.declaration u).1.map Decl.erase = (Parser.declaration u.fresh).1.map Decl.erase := by
  have hsome : ∃ u ∈ Parser.programRounds (.of (lex (.ofString "fn f(\nfn g() = 1"))),
      u.errors ≠ [] ∧ u.depth = 0 := by
    decide +kernel
  obtain ⟨u, hmem, herrors, hdepth⟩ := hsome
  have hround := (parse_nesting _).2 u hmem
  exact ⟨u, hmem, herrors, hround.1, (hround.2 hdepth).2⟩

/-- The number `1` in `n` pairs of parentheses. -/
def enclosedOne (n : Nat) : Text :=
  List.replicate n (.char '(') ++ .char '1' :: List.replicate n (.char ')')

/-- A function whose body nests exactly as deep as the limit allows. -/
def deepest : Text := .ofString "fn f() = " ++ enclosedOne 255

set_option maxRecDepth 10000 in
/-- **The limit leaves a level open**: behind an expression that nests too deep, a function that is
fine on its own is refused. -/
theorem parse_overnested :
    (Parser.declaration (.of (lex (enclosedOne 256)))).2.depth = 1 ∧
      (parse (lex deepest)).errors = [] ∧ (parse (lex deepest)).program.decls.length = 1 ∧
      (parse (lex (enclosedOne 256 ++ .char '\n' :: deepest))).program.decls.length = 0 := by
  decide +kernel

end PatternPlan.Surface
