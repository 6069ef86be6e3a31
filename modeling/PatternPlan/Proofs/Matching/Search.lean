import PatternPlan.Proofs.Matching.Genuine

/-!
# The search ends

The search for values that no row matches, as one recursion on matrices: it looks at the first
column, and goes on with the rows that match everything there, or with one matrix for each shape of
the values.  A matrix for a shape may have more rows, and more columns of the same recursive types.
Every access to a cell of a row or to a part of a description is checked here.

* `Matrix.step` — what a search does with a matrix before it goes on with others;
* `Calls` — the matrices that it goes on with;
* `Searches` — what a search comes to, and `Outcome.outside` if it reads a cell or a part that is not
  there;
* `Settled` — no chain of calls from a matrix is infinite, and the search comes to a given result;
* `missing_terminates` — **the search ends on every matrix whose rows have a cell for each column**,
  reads nothing outside of a row or a description, and finds what `missing` finds.

The rows of a matrix are bounded column by column, since a shape replaces a column by columns of less
deep patterns, and a column of patterns that all match everything is never replaced.
-/

namespace PatternPlan.Typed

variable {types : TypeTable}

/-! ### The recursion -/

/-- Rows of cells, with the types of the columns. -/
structure Matrix where
  rows : List Row
  columns : List Ty

/-- What a search comes to: a cell or a part that is not there is read, all values are matched, or a
description of values that are not. -/
inductive Outcome where
  | outside
  | covered
  | missing (found : List String)

/-- What a search does with a matrix before it goes on with others. -/
inductive Step where
  | outside
  | done (found : Option (List String))
  | pass (rest : Matrix)
  | split (cases : List (Shape × Matrix))

/-- The rows, their first cell replaced by each of its alternatives, if every row has a first cell. -/
def expand? : List Row → Option (List (Cell × Row))
  | [] => some []
  | [] :: _ => none
  | (c :: row) :: rows => (expand? rows).map ((normalize c).map (·, row) ++ ·)

/-- The shapes to tell apart in a column of a type; a column whose cells all match everything has
none. -/
def columnShapes (types : TypeTable) (t : Ty) (cells : List Cell) : Option (List Shape) :=
  if cells.all Option.isNone then none else shapes types t cells

/-- The matrix for the values of a shape in the first column. -/
def Shape.matrix (s : Shape) (expanded : List (Cell × Row)) (columns : List Ty) : Matrix :=
  ⟨specializedRows s expanded, s.fields ++ columns⟩

def Matrix.step (types : TypeTable) : Matrix → Step
  | ⟨rows, []⟩ => .done (if rows.isEmpty then some [] else none)
  | ⟨rows, t :: columns⟩ => match expand? rows with
    | none => .outside
    | some expanded => match columnShapes types t (expanded.map (·.1)) with
      | none => .pass ⟨defaultRows expanded, columns⟩
      | some ss => .split (ss.map fun s => (s, s.matrix expanded columns))

/-- The search through one matrix goes on with another one. -/
inductive Calls (types : TypeTable) : Matrix → Matrix → Prop
  | pass {m m' : Matrix} : m.step types = .pass m' → Calls types m' m
  | split {m m' : Matrix} {s : Shape} {cases : List (Shape × Matrix)} :
      m.step types = .split cases → (s, m') ∈ cases → Calls types m' m

namespace Outcome

def ofOption : Option (List String) → Outcome
  | none => covered
  | some found => missing found

/-- A description with something done to it. -/
def map (f : List String → List String) : Outcome → Outcome
  | missing found => missing (f found)
  | o => o

theorem map_ofOption (f : List String → List String) (found : Option (List String)) :
    (ofOption found).map f = ofOption (found.map f) := by
  cases found <;> rfl

end Outcome

/-- Puts the parts of a shape together, if a description has that many. -/
def gather? (s : Shape) (found : List String) : Outcome :=
  if found.length < s.fields.length then .outside else .missing (gather s found)

/-- A search through one matrix, or through the matrices of some shapes until one has a value that no
row matches. -/
inductive Search where
  | through (m : Matrix)
  | first (cases : List (Shape × Matrix))

/-- What a search comes to. -/
inductive Searches (types : TypeTable) : Search → Outcome → Prop
  | outside {m : Matrix} : m.step types = .outside → Searches types (.through m) .outside
  | done {m : Matrix} {found : Option (List String)} :
      m.step types = .done found → Searches types (.through m) (.ofOption found)
  | pass {m rest : Matrix} {o : Outcome} : m.step types = .pass rest →
      Searches types (.through rest) o → Searches types (.through m) (o.map ("_" :: ·))
  | split {m : Matrix} {cases : List (Shape × Matrix)} {o : Outcome} :
      m.step types = .split cases → Searches types (.first cases) o →
      Searches types (.through m) o
  | none : Searches types (.first []) .covered
  | next {s : Shape} {m : Matrix} {cases : List (Shape × Matrix)} {o : Outcome} :
      Searches types (.through m) .covered → Searches types (.first cases) o →
      Searches types (.first ((s, m) :: cases)) o
  | found {s : Shape} {m : Matrix} {cases : List (Shape × Matrix)} {found : List String} :
      Searches types (.through m) (.missing found) →
      Searches types (.first ((s, m) :: cases)) (gather? s found)
  | broken {s : Shape} {m : Matrix} {cases : List (Shape × Matrix)} :
      Searches types (.through m) .outside → Searches types (.first ((s, m) :: cases)) .outside

/-- A search comes to one thing only. -/
theorem Searches.unique {q : Search} {o o' : Outcome} (h : Searches types q o)
    (h' : Searches types q o') : o = o' := by
  induction h generalizing o' with
  | outside hstep => cases h' <;> simp_all
  | done hstep => cases h' <;> simp_all
  | pass hstep _ ih =>
    cases h' with
    | pass hstep' h' =>
      obtain rfl := Step.pass.inj (hstep.symm.trans hstep')
      rw [ih h']
    | _ => simp_all
  | split hstep _ ih =>
    cases h' with
    | split hstep' h' =>
      obtain rfl := Step.split.inj (hstep.symm.trans hstep')
      exact ih h'
    | _ => simp_all
  | none =>
    cases h'
    rfl
  | next _ _ ih ihs =>
    cases h' with
    | next _ h' => exact ihs h'
    | found h' => cases ih h'
    | broken h' => cases ih h'
  | found _ ih =>
    cases h' with
    | next h' => cases ih h'
    | found h' =>
      cases ih h'
      rfl
    | broken h' => cases ih h'
  | broken _ ih =>
    cases h' with
    | next h' => cases ih h'
    | found h' => cases ih h'
    | broken h' => rfl

/-! ### Settled matrices -/

/-- No chain of calls from a matrix is infinite, and the search comes to a result with one description
for each column. -/
structure Settled (types : TypeTable) (m : Matrix) (found : Option (List String)) : Prop where
  acc : Acc (Calls types) m
  searches : Searches types (.through m) (.ofOption found)
  length : ∀ w, found = some w → w.length = m.columns.length

theorem settled_done (rows : List Row) :
    Settled types ⟨rows, []⟩ (if rows.isEmpty then some [] else none) where
  acc := ⟨_, fun m' h => by rcases h with h | ⟨h, -⟩ <;> cases h⟩
  searches := .done rfl
  length w hw := by
    split at hw <;> cases hw
    rfl

theorem settled_pass {m rest : Matrix} {found : Option (List String)}
    (hstep : m.step types = .pass rest) (hcolumns : m.columns.length = rest.columns.length + 1)
    (h : Settled types rest found) : Settled types m (found.map ("_" :: ·)) where
  acc := by
    refine ⟨_, fun m' hcall => ?_⟩
    rcases hcall with hstep' | ⟨hstep', -⟩ <;> cases hstep.symm.trans hstep'
    exact h.acc
  searches := by
    rw [← Outcome.map_ofOption]
    exact .pass hstep h.searches
  length w hw := by
    obtain ⟨w, hfound, rfl⟩ := Option.map_eq_some_iff.mp hw
    rw [List.length_cons, h.length w hfound, hcolumns]

theorem settled_split {m : Matrix} {ss : List Shape} {found : Shape → Option (List String)} {n : Nat}
    (next : Shape → Matrix)
    (hstep : m.step types = .split (ss.map fun s => (s, next s)))
    (hcolumns : m.columns.length = n + 1)
    (hnext : ∀ s ∈ ss, (next s).columns.length = s.fields.length + n)
    (h : ∀ s ∈ ss, Settled types (next s) (found s)) :
    Settled types m (ss.findSome? fun s => (found s).map (gather s)) where
  acc := by
    refine ⟨_, fun m' hcall => ?_⟩
    cases hcall with
    | pass hstep' => cases hstep.symm.trans hstep'
    | split hstep' hmem =>
      cases hstep.symm.trans hstep'
      obtain ⟨s, hs, heq⟩ := List.mem_map.mp hmem
      cases heq
      exact (h _ hs).acc
  searches := by
    refine .split hstep ?_
    clear hstep
    induction ss with
    | nil => exact .none
    | cons s ss ih =>
      obtain ⟨hs, hss⟩ := List.forall_mem_cons.mp h
      obtain ⟨hlen, hlens⟩ := List.forall_mem_cons.mp hnext
      have hsearches := hs.searches
      rw [List.findSome?_cons]
      cases hfound : found s with
      | none =>
        rw [hfound] at hsearches
        exact .next hsearches (ih hlens hss)
      | some w =>
        rw [hfound] at hsearches
        -- the description is long enough to take the parts from it
        have hle : ¬ w.length < s.fields.length := by
          rw [hs.length w hfound, hlen]
          omega
        have hgather : gather? s w = .missing (gather s w) := if_neg hle
        rw [Option.map_some, Outcome.ofOption, ← hgather]
        exact .found hsearches
  length w hw := by
    obtain ⟨s, hs, hw⟩ := List.exists_of_findSome?_eq_some hw
    obtain ⟨w, hfound, rfl⟩ := Option.map_eq_some_iff.mp hw
    rw [gather, List.length_cons, List.length_drop, (h s hs).length w hfound, hnext s hs, hcolumns]
    omega

/-! ### Rows with a cell for each column -/

/-- A row with one cell for each column, no deeper than the column. -/
def RowBounded (row : Row) (cols : List Column) : Prop :=
  List.Forall₂ (fun c col => cellDepth c ≤ col.depth) row cols

theorem expand?_eq {rows : List Row} (h : ∀ r ∈ rows, r ≠ []) : expand? rows = some (expand rows) := by
  induction rows with
  | nil => rfl
  | cons r rows ih =>
    obtain ⟨hr, hrows⟩ := List.forall_mem_cons.mp h
    cases r with
    | nil => exact absurd rfl hr
    | cons c row =>
      rw [expand?, ih hrows]
      rfl

theorem cellDepth_le_of_mem_normalize {c d : Cell} (h : d ∈ normalize c) :
    cellDepth d ≤ cellDepth c := by
  cases d with
  | none => exact Nat.zero_le _
  | some q =>
    cases c with
    | none => simp [normalize] at h
    | some p => exact (of_mem_normalizePattern h).1

section Expand

variable {col : Column} {cols : List Column} {rows : List Row}

theorem expand?_bounded (hrows : ∀ r ∈ rows, RowBounded r (col :: cols)) :
    expand? rows = some (expand rows) := by
  refine expand?_eq fun r hr hnil => ?_
  have hbounded := hrows r hr
  rw [hnil] at hbounded
  cases hbounded

theorem bounded_of_mem_expand (hrows : ∀ r ∈ rows, RowBounded r (col :: cols)) {e : Cell × Row}
    (he : e ∈ expand rows) : cellDepth e.1 ≤ col.depth ∧ RowBounded e.2 cols := by
  obtain ⟨c, row, hmem, hd, rfl⟩ := mem_expand.mp he
  cases hrows _ hmem with
  | cons hc hrest => exact ⟨(cellDepth_le_of_mem_normalize hd).trans hc, hrest⟩

theorem bounded_defaultRows (hrows : ∀ r ∈ rows, RowBounded r (col :: cols)) :
    ∀ r ∈ defaultRows (expand rows), RowBounded r cols := by
  intro r hr
  obtain ⟨e, he, hsome⟩ := List.mem_filterMap.mp hr
  split at hsome <;> cases hsome
  exact (bounded_of_mem_expand hrows he).2

/-- A shape replaces a column by columns of less deep patterns. -/
theorem bounded_specializedRows {depth : Nat} {t : Ty} (s : Shape)
    (hrows : ∀ r ∈ rows, RowBounded r (⟨depth + 1, t⟩ :: cols)) :
    ∀ r ∈ specializedRows s (expand rows), RowBounded r (s.fields.map (⟨depth, ·⟩) ++ cols) := by
  intro r hr
  obtain ⟨e, he, hsome⟩ := List.mem_filterMap.mp hr
  obtain ⟨row, hrow, rfl⟩ := Option.map_eq_some_iff.mp hsome
  obtain ⟨hdepth, hrest⟩ := bounded_of_mem_expand hrows he
  obtain ⟨hlen, hinside⟩ := specialize_inside hrow
  refine List.rel_append ?_ hrest
  rw [List.forall₂_map_right_iff, List.forall₂_iff_zip]
  refine ⟨hlen, fun {c u} hmem => ?_⟩
  cases c with
  | none => exact Nat.zero_le _
  | some q =>
    obtain ⟨p, hp, hlt, -⟩ := hinside q (List.of_mem_zip hmem).1
    rw [hp] at hdepth
    exact Nat.le_of_lt_succ (Nat.lt_of_lt_of_le hlt hdepth)

end Expand

/-! ### The search through the columns -/

/-- The search through columns of bounded depth. -/
def searchColumns (types : TypeTable) (cols : List Column) : List Row → Option (List String) :=
  cols.foldr (fun col after => missingIn types col.depth after col.type)
    fun rows => if rows.isEmpty then some [] else none

/-- The search through some columns ends, for all rows with a cell for each. -/
def Settles (types : TypeTable) (cols : List Column) : Prop :=
  ∀ rows, (∀ r ∈ rows, RowBounded r cols) →
    Settled types ⟨rows, cols.map Column.type⟩ (searchColumns types cols rows)

theorem settles_nil : Settles types [] := fun rows _ => settled_done rows

/-- A column without shapes to tell apart is passed over. -/
theorem settled_default {col : Column} {cols : List Column} {rows : List Row}
    (hcols : Settles types cols) (hrows : ∀ r ∈ rows, RowBounded r (col :: cols))
    (hshapes : columnShapes types col.type ((expand rows).map (·.1)) = none) :
    Settled types ⟨rows, (col :: cols).map Column.type⟩
      ((searchColumns types cols (defaultRows (expand rows))).map ("_" :: ·)) := by
  refine settled_pass ?_ rfl (hcols _ (bounded_defaultRows hrows))
  rw [List.map_cons, Matrix.step, expand?_bounded hrows]
  dsimp only
  rw [hshapes]

/-- **A column ends if the columns behind it do**, by induction on the depth of its patterns. -/
theorem settles_cons (depth : Nat) (t : Ty) {cols : List Column} (hcols : Settles types cols) :
    Settles types (⟨depth, t⟩ :: cols) := by
  induction depth generalizing t cols with
  | zero =>
    intro rows hrows
    refine settled_default hcols hrows (if_pos (List.all_eq_true.mpr fun c hc => ?_))
    -- no pattern is so little deep
    obtain ⟨e, he, rfl⟩ := List.mem_map.mp hc
    have hdepth := (bounded_of_mem_expand hrows he).1
    cases hcell : e.1 with
    | none => rfl
    | some p =>
      rw [hcell] at hdepth
      exact absurd hdepth (Nat.not_le.mpr (depth_pos p))
  | succ depth ih =>
    intro rows hrows
    show Settled types _ (missingIn types (depth + 1) (searchColumns types cols) t rows)
    rw [missingIn]
    split
    · rename_i hnone
      exact settled_default hcols hrows hnone
    · rename_i ss hsome
      have hfields : ∀ us : List Ty, Settles types (us.map (⟨depth, ·⟩) ++ cols) := by
        intro us
        induction us with
        | nil => exact hcols
        | cons u us ihs => exact ih u ihs
      have hsearch : ∀ s : Shape, searchColumns types (s.fields.map (⟨depth, ·⟩) ++ cols)
          = s.fields.foldr (fun u k => missingIn types depth k u) (searchColumns types cols) := by
        intro s
        rw [searchColumns, List.foldr_append, List.foldr_map]
        rfl
      have hcolumns : ∀ s : Shape, (s.fields.map (Column.mk depth) ++ cols).map Column.type
          = s.fields ++ cols.map Column.type := by
        intro s
        rw [List.map_append, List.map_map]
        exact congrArg (· ++ _) (List.map_id _)
      refine settled_split (fun s => s.matrix (expand rows) (cols.map Column.type)) ?_ rfl
        (fun s _ => List.length_append) fun s _ => ?_
      · rw [List.map_cons, Matrix.step, expand?_bounded hrows]
        dsimp only
        rw [show columnShapes types t ((expand rows).map (·.1)) = some ss from hsome]
      · have hsettled := hfields s.fields _ (bounded_specializedRows s hrows)
        rw [hsearch, hcolumns] at hsettled
        exact hsettled

/-- **The search ends on every matrix** whose rows have a cell for each column: there is no infinite
chain of calls, the search reads nothing outside of a row or a description, and it comes to what
`missing` finds, one description for each column. -/
theorem missing_terminates (types : TypeTable) (rows : List Row) (columns : List Ty)
    (hrows : ∀ r ∈ rows, r.length = columns.length) :
    Acc (Calls types) ⟨rows, columns⟩ ∧
      (∀ o, Searches types (.through ⟨rows, columns⟩) o ↔
        o = .ofOption (missing types rows columns)) ∧
      ∀ found, missing types rows columns = some found → found.length = columns.length := by
  let depth := (rows.flatMap fun r => r.map cellDepth).foldl max 0
  have hsettles : Settles types (columns.map (⟨depth, ·⟩)) := by
    clear hrows
    induction columns with
    | nil => exact settles_nil
    | cons t columns ih => exact settles_cons depth t ih
  have hbounded : ∀ r ∈ rows, RowBounded r (columns.map (⟨depth, ·⟩)) := by
    intro r hr
    rw [RowBounded, List.forall₂_map_right_iff, List.forall₂_iff_zip]
    refine ⟨hrows r hr, fun hmem => le_foldl_max 0 (.inl (List.mem_flatMap.mpr ⟨r, hr, ?_⟩))⟩
    exact List.mem_map_of_mem (List.of_mem_zip hmem).1
  have hsettled := hsettles rows hbounded
  have hsearch : searchColumns types (columns.map (⟨depth, ·⟩)) rows = missing types rows columns := by
    rw [searchColumns, List.foldr_map]
    rfl
  have hcolumns : (columns.map (Column.mk depth)).map Column.type = columns := by
    rw [List.map_map]
    exact List.map_id _
  rw [hsearch, hcolumns] at hsettled
  refine ⟨hsettled.acc, fun o => ⟨fun h => h.unique hsettled.searches, ?_⟩, hsettled.length⟩
  rintro rfl
  exact hsettled.searches

/-- Two types, each declared in terms of the other. -/
def mutualTypes : TypeTable :=
  let step : Variant := ⟨"Step", [.con "Rest"], "Path"⟩
  let more : Variant := ⟨"More", [.con "Path"], "Rest"⟩
  let stop : Variant := ⟨"Stop", [], "Rest"⟩
  { sums := [⟨"Path", [], [step]⟩, ⟨"Rest", [], [more, stop]⟩]
    constructors := [step, more, stop]
    names := ["Path", "Rest"] }

/-- The rows `Step(More(_)), _` and `Step(Stop), true`. -/
def mutualRows : List Row :=
  let variant (n : String) (ps : List Pattern) := Pattern.construct default n ps
  [[some (variant "Step" [variant "More" [.wildcard default]]), none],
   [some (variant "Step" [variant "Stop" []]), some (.literal default (.bool true))]]

/-- The last constructor of the two types is left, with the other truth value. -/
theorem missing_terminates_mutual :
    (∀ r ∈ mutualRows, r.length = [Ty.con "Path", .unknown].length) ∧
      Acc (Calls mutualTypes) ⟨mutualRows, [.con "Path", .unknown]⟩ ∧
      Searches mutualTypes (.through ⟨mutualRows, [.con "Path", .unknown]⟩)
        (.missing ["Step(Stop)", "false"]) := by
  have hrows : ∀ r ∈ mutualRows, r.length = [Ty.con "Path", .unknown].length := by decide
  obtain ⟨hacc, hsearches, -⟩ := missing_terminates mutualTypes mutualRows _ hrows
  refine ⟨hrows, hacc, (hsearches _).mpr ?_⟩
  rw [show missing mutualTypes mutualRows [.con "Path", .unknown] = some ["Step(Stop)", "false"] by
    decide]
  rfl

end PatternPlan.Typed
