import PatternPlan.Proofs.Surface.Constructs

/-!
# The lines in front of the declarations account for their tokens

Paths and `use` lines are read by recursions that cannot give up.  Each of them is the loop that
gathers the same items, so that the rule for loops applies.

* `Gathers` — a loop and the recursion that gathers its items;
* `accounts_pathLine`, `reads_useLines` — a `module` or `use` line, and all of the latter;
* `opening`, `reads_opening` — **all lines in front of the declarations**;
* `program_opening` — a file is its opening and its declarations.
-/

namespace PatternPlan.Surface.Parser

variable {α : Type} {N k : Nat} {U : α → Prop}

/-! ### Gathering -/

/-- A recursion that gathers the items that a loop puts behind one another.  Where there is another
round, a token is used up. -/
structure Gathers (round : List α → Parser (Round (List α) (List α)))
    (g : (fuel : Nat) → State → List α × State) : Prop where
  zero : ∀ s, g 0 s = ([], s)
  succ : ∀ s : State,
    (∃ items t, (∀ xs, round xs s = (some (.done (xs ++ items)), t)) ∧
      ∀ fuel, g (fuel + 1) s = (items, t)) ∨
    (∃ item t, (∀ xs, round xs s = (some (.again (xs ++ [item])), t)) ∧
      (s.Whole → t.tokens.length < s.tokens.length) ∧
      ∀ fuel, g (fuel + 1) s = (item :: (g fuel t).1, (g fuel t).2))

namespace Gathers

variable {round : List α → Parser (Round (List α) (List α))} {g : (fuel : Nat) → State → List α × State}

theorem state_eq (h : Gathers round g) (fuel : Nat) (xs : List α) (s : State) :
    (loop round fuel xs s).2 = (g fuel s).2 := by
  induction fuel generalizing xs s with
  | zero =>
    rw [h.zero]
    rfl
  | succ fuel ih =>
    rcases h.succ s with ⟨items, t, hround, hg⟩ | ⟨item, t, hround, -, hg⟩
    · rw [loop_done (hround xs), hg]
    · rw [loop_again (hround xs), hg]
      exact ih _ t

/-- With enough fuel the loop returns what is gathered. -/
theorem run_eq (h : Gathers round g) (hmoves : ∀ xs (s : State), s.Reaches (round xs s).2) (fuel : Nat)
    (xs : List α) {s : State} (hs : s.Whole) (hfuel : s.tokens.length < fuel) :
    loop round fuel xs s = (some (xs ++ (g fuel s).1), (g fuel s).2) := by
  induction fuel generalizing xs s with
  | zero => exact absurd hfuel (Nat.not_lt_zero _)
  | succ fuel ih =>
    rcases h.succ s with ⟨items, t, hround, hg⟩ | ⟨item, t, hround, hless, hg⟩
    · rw [loop_done (hround xs), hg]
    · have hreach := hmoves xs s
      rw [hround xs] at hreach
      have ht : t.Whole := hreach.whole hs
      have hlt := hless hs
      rw [loop_again (hround xs), hg, ih (xs ++ [item]) ht (by omega),
        List.append_assoc, List.singleton_append]

/-- **What is gathered in a loop accounts for tokens** as the loop does. -/
theorem reads (h : Gathers round g) (hround : ∀ xs, Accounts N k k Round.Continues (round xs)) :
    Reads N k k (reader fun s => g (s.tokens.length + 1) s) := by
  have hloop : Reads N k k (iterate round []) := .iterate hround []
  have hstate : ∀ s, (reader (fun s => g (s.tokens.length + 1) s) s).2 = (iterate round [] s).2 :=
    fun s => (h.state_eq _ [] s).symm
  have hrun : ∀ s : State, s.Whole →
      reader (fun s => g (s.tokens.length + 1) s) s = iterate round [] s := by
    intro s hs
    exact (h.run_eq (fun xs => (hround xs).moves) _ [] hs (Nat.lt_succ_self _)).symm
  refine ⟨⟨?_, ?_, ?_⟩, ?_⟩
  · intro s
    rw [hstate]
    exact hloop.moves s
  · intro s hs
    rw [hrun s hs]
    exact hloop.clean s hs
  · intro s n e hs he
    unfold Echoes
    rw [hrun s hs, hrun (s.cut n e) (hs.cut he n)]
    exact hloop.cuts s n e hs he
  · intro s hs
    rw [hrun s hs]
    exact hloop.closes s hs

end Gathers

/-! ### Paths -/

/-- Records that no path follows. -/
def missingPath : Parser Unit := fun s => (some (), (rejectNext "module path" s : Option Unit × State).2)

theorem accounts_missingPath {j : Nat} {p : Parser α} (hp : ∀ s : State, s.Reaches (p s).2) :
    Accounts N 1 j U (missingPath >>= fun _ => p) := by
  have hrefuses : Refuses (rejectNext "module path" : Parser Unit) := refuses_rejectNext _
  refine ⟨.recording (fun s => ⟨hrefuses.moves s, (hrefuses.gives s).2⟩) fun _ => hp, ?_⟩
  intro s hs hk hN
  have hmarked : (missingPath s).2.incomplete = true := by
    rw [missingPath, rejectNext_eq, State.next_eq_eof (Nat.le_of_eq hk), if_pos hs.eof]
    rfl
  exact .inl ((hp (missingPath s).2).incomplete hmarked)

/-- One name of a path, and the dot behind it. -/
def pathRound (names : List String) : Parser (Round (List String) (List String)) := do
  let t ← next
  if t.kind = .upper || t.kind = .lower then
    advance
    let name := (← current).text
    if ← skip .dot then return .again (names ++ [name]) else return .done (names ++ [name])
  else
    missingPath
    return .done names

theorem accounts_pathRound (names : List String) :
    Accounts N 1 1 Round.Continues (pathRound names) := by
  have hmissing : Accounts N 1 1 Round.Continues (missingPath >>= fun _ =>
      (pure (.done names) : Parser (Round (List String) (List String)))) :=
    accounts_missingPath State.Reaches.refl
  refine .peek (fun t _ => .ite (fun _ => ?_) fun _ => ?_) fun t ht => ?_
  · refine accounts_advance.toTracks.moved fun _ => .look fun name => ?_
    exact .skipIf (by decide) (.pure id) (.pure id)
  · exact hmissing.toTracks.later (Nat.le_succ 1)
  · rw [ht, if_neg (by decide)]
    exact hmissing

theorem gathers_path : Gathers pathRound path := by
  refine ⟨fun s => rfl, fun s => ?_⟩
  by_cases hname : (s.next.kind = .upper || s.next.kind = .lower) = true
  · have hround : ∀ names, pathRound names s = (skip .dot >>= fun b =>
        (if b = true then pure (.again (names ++ [(advance s).2.current.text]))
          else pure (.done (names ++ [(advance s).2.current.text])) :
          Parser (Round (List String) (List String)))) (advance s).2 := by
      intro names
      show (if (s.next.kind = .upper || s.next.kind = .lower) = true then _ else _ :
        Parser (Round (List String) (List String))) s = _
      rw [if_pos hname]
      rfl
    by_cases hdot : (advance s).2.next.kind = .dot
    · refine .inr ⟨(advance s).2.current.text, (advance (advance s).2).2, ?_, ?_, ?_⟩
      · intro names
        have hskip : skip .dot (advance s).2 = (some true, (advance (advance s).2).2) := by
          show (if decide ((advance s).2.next.kind = .dot) = true then _ else _ : Parser Bool) _ = _
          rw [if_pos (decide_eq_true hdot)]
          rfl
        rw [hround, run_bind_some hskip]
        rfl
      · intro hs
        have hlength : 2 ≤ s.tokens.length := by
          refine Nat.not_lt.mp fun hless => ?_
          rw [State.next_eq_eof (Nat.lt_succ_iff.mp hless), hs.eof] at hname
          exact absurd hname (by decide)
        have hfirst := State.length_advance s
        have hsecond := State.length_advance (advance s).2
        omega
      · intro fuel
        rw [path, if_pos hname]
        dsimp only
        rw [if_pos hdot]
    · refine .inl ⟨[(advance s).2.current.text], (advance s).2, ?_, ?_⟩
      · intro names
        have hskip : skip .dot (advance s).2 = (some false, (advance s).2) := by
          show (if decide ((advance s).2.next.kind = .dot) = true then _ else _ : Parser Bool) _ = _
          rw [if_neg (by simpa using hdot)]
          rfl
        rw [hround, run_bind_some hskip]
        rfl
      · intro fuel
        rw [path, if_pos hname]
        dsimp only
        rw [if_neg hdot]
  · refine .inl ⟨[], (missingPath s).2, ?_, ?_⟩
    · intro names
      show (if (s.next.kind = .upper || s.next.kind = .lower) = true then _ else _ :
        Parser (Round (List String) (List String))) s = _
      rw [if_neg hname, List.append_nil]
      rfl
    · intro fuel
      rw [path, if_neg hname]
      rfl

theorem reads_path : Reads N 1 1 (reader fun s => path (s.tokens.length + 1) s) :=
  Gathers.reads gathers_path accounts_pathRound

/-! ### Lines -/

theorem reader_pathLine : reader pathLine = (do
    let start ← current
    let names ← reader fun s => path (s.tokens.length + 1) s
    let mark ← markFrom start
    advance
    return ⟨mark, names⟩) := rfl

/-- A line uses up its tokens. -/
theorem accounts_pathLine {V : PathLine → Prop} : Accounts N 1 0 V (reader pathLine) := by
  rw [reader_pathLine]
  exact .look fun start => .seq reads_path fun names => .mark fun mark => .advance fun _ => .pure id

theorem length_pathLine {s : State} (h : 1 ≤ s.tokens.length) :
    (pathLine s).2.tokens.length < s.tokens.length := by
  have hpath := (reads_path (N := 0)).moves s
  have hle := hpath.length_le
  have hadvance := State.length_advance (path (s.tokens.length + 1) s).2
  show (advance (path (s.tokens.length + 1) s).2).2.tokens.length < s.tokens.length
  rw [hadvance]
  have hle' : (path (s.tokens.length + 1) s).2.tokens.length ≤ s.tokens.length := hle
  omega

/-- One `use` line, or the end of them. -/
def useRound (lines : List PathLine) : Parser (Round (List PathLine) (List PathLine)) := do
  if ← currentIs .kwUse then
    let line ← reader pathLine
    return .again (lines ++ [line])
  else return .done lines

theorem accounts_useRound (lines : List PathLine) :
    Accounts N 0 0 Round.Continues (useRound lines) :=
  .currentIf (by decide) ((Accounts.toTracks accounts_pathLine).moved fun _ => .pure id) (.pure id)

theorem gathers_useLines : Gathers useRound useLines := by
  refine ⟨fun s => rfl, fun s => ?_⟩
  have hround : ∀ lines, useRound lines s = (if s.current.kind = .kwUse then
      reader pathLine >>= fun line => pure (.again (lines ++ [line])) else pure (.done lines) :
      Parser (Round (List PathLine) (List PathLine))) s := by
    intro lines
    show (if decide (s.current.kind = .kwUse) = true then _ else _ :
      Parser (Round (List PathLine) (List PathLine))) s = _
    by_cases huse : s.current.kind = .kwUse
    · rw [if_pos (decide_eq_true huse), if_pos huse]
    · rw [if_neg (by simpa using huse), if_neg huse]
  by_cases huse : s.current.kind = .kwUse
  · refine .inr ⟨(pathLine s).1, (pathLine s).2, ?_, ?_, ?_⟩
    · intro lines
      rw [hround, if_pos huse]
      rfl
    · intro hs
      refine length_pathLine (Nat.not_lt.mp fun hempty => ?_)
      rw [State.current_eq_eof (Nat.lt_one_iff.mp hempty), hs.eof] at huse
      cases huse
    · intro fuel
      rw [useLines, if_pos huse]
  · refine .inl ⟨[], s, ?_, ?_⟩
    · intro lines
      rw [hround, if_neg huse, List.append_nil]
      rfl
    · intro fuel
      rw [useLines, if_neg huse]

theorem reads_useLines : Reads N 0 0 (reader fun s => useLines (s.tokens.length + 1) s) :=
  Gathers.reads gathers_useLines accounts_useRound

/-! ### The opening of a file -/

/-- The `module` line, if there is one. -/
def headerLine : Parser (Option PathLine) := do
  if ← currentIs .kwModule then return some (← reader pathLine) else return none

theorem reads_headerLine : Reads N 0 0 headerLine :=
  .currentIf (by decide) ((Accounts.toTracks accounts_pathLine).moved fun _ => .pure id) (.pure id)

/-- The lines in front of the declarations. -/
def opening : Parser (Option PathLine × List PathLine) := do
  let header ← headerLine
  let uses ← reader fun s => useLines (s.tokens.length + 1) s
  return (header, uses)

/-- **The lines in front of the declarations account for their tokens.** -/
theorem reads_opening : Reads N 0 0 opening :=
  .seq reads_headerLine fun _ => .seq reads_useLines fun _ => .pure id

theorem headerLine_run (s : State) : headerLine s = if s.current.kind = .kwModule then
    (some (some (pathLine s).1), (pathLine s).2) else (some none, s) := by
  show (if decide (s.current.kind = .kwModule) = true then _ else _ : Parser (Option PathLine)) s = _
  by_cases hmodule : s.current.kind = .kwModule
  · rw [if_pos (decide_eq_true hmodule), if_pos hmodule]
    rfl
  · rw [if_neg (by simpa using hmodule), if_neg hmodule]
    rfl

/-- A file is its opening, and then declarations. -/
theorem program_opening (s : State) : ∃ header uses t, opening s = (some (header, uses), t) ∧
    program s = (⟨header, uses, (declarations (t.tokens.length + 1) t).1⟩,
      (declarations (t.tokens.length + 1) t).2) := by
  have hopening : ∀ header u, headerLine s = (some header, u) → opening s
      = (some (header, (useLines (u.tokens.length + 1) u).1), (useLines (u.tokens.length + 1) u).2) := by
    intro header u hheader
    rw [opening, run_bind_some hheader]
    rfl
  have hheader := headerLine_run s
  by_cases hmodule : s.current.kind = .kwModule
  · rw [if_pos hmodule] at hheader
    refine ⟨_, _, _, hopening _ _ hheader, ?_⟩
    rw [program, if_pos hmodule]
  · rw [if_neg hmodule] at hheader
    refine ⟨_, _, _, hopening _ _ hheader, ?_⟩
    rw [program, if_neg hmodule]

end PatternPlan.Surface.Parser
