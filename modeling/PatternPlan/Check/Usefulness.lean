import PatternPlan.Check.Coverage

/-!
# Values that no row of patterns matches

A matrix has one row per arm and one column per value.  `missing` looks for values that no row
matches, column by column, and describes them.

* `Cell`, `Row` — a cell is a pattern, or `none` for one that matches everything;
* `normalize` — the alternatives of a cell that the matrix can reason about; one that may fail for
  other reasons has none;
* `Shape` — a way in which a value of a type can be built, with the types of its parts;
* `shapes` — all shapes of a type, if there are finitely many that matter;
* `specialize` — the parts of a pattern under a shape;
* `missing` — a description of values that no row matches.
-/

namespace PatternPlan.Typed

/-- A pattern, or `none` for a cell that matches everything. -/
abbrev Cell := Option Pattern

abbrev Row := List Cell

/-! ### Cells -/

mutual

/-- The alternatives of a pattern that the matrix can reason about. -/
def normalizePattern : Pattern → List Cell
  | .wildcard _ | .var _ _ => [none]
  | .binding _ _ _ p => normalizePattern p
  | .or _ ps => normalizePatterns ps
  | .active i n k u arg => if (Pattern.active i n k u arg).irrefutable then [none] else []
  | .regex _ _ | .range _ _ _ _ => []
  | .literal i (.bool b) => [some (.literal i (.bool b))]
  | .literal i .unit => [some (.literal i .unit)]
  | .literal _ _ => []
  | p => [some p]

def normalizePatterns : List Pattern → List Cell
  | [] => []
  | p :: ps => normalizePattern p ++ normalizePatterns ps

end

/-- The alternatives of a cell. -/
def normalize : Cell → List Cell
  | none => [none]
  | some p => normalizePattern p

/-- How deep a cell nests. -/
def cellDepth : Cell → Nat
  | none => 0
  | some p => p.depth

/-! ### Shapes -/

/-- A way in which a value can be built. -/
inductive Shape where
  | variant (name : String) (fields : List Ty)
  | truth (value : Bool)
  | unit
  | tuple (fields : List Ty)
  | record (fields : List (String × Ty))
  /-- An array with the given element types; `isOpen` if it stands for all longer ones too. -/
  | slice (fields : List Ty) (isOpen : Bool)

namespace Shape

/-- The types of the parts. -/
def fields : Shape → List Ty
  | variant _ ts | tuple ts | slice ts _ => ts
  | truth _ | unit => []
  | record fs => fs.map (·.2)

/-- A value of the shape, given its parts. -/
def render (s : Shape) (parts : List String) : String :=
  match s with
  | variant n _ => if parts.isEmpty then n else n ++ "(" ++ ", ".intercalate parts ++ ")"
  | truth b => if b then "true" else "false"
  | unit => "()"
  | tuple _ => "(" ++ ", ".intercalate parts ++ ")"
  | record fs =>
    "\x7b" ++ ", ".intercalate (List.zipWith (fun f p => f.1 ++ ": " ++ p) fs parts) ++ "\x7d"
  | slice _ isOpen => "[" ++ ", ".intercalate (if isOpen then parts ++ [".."] else parts) ++ "]"

end Shape

/-- The type that the first pattern among some cells shows. -/
def inferType (types : TypeTable) : List Cell → Ty
  | [] => .unknown
  | none :: cs => inferType types cs
  | some p :: _ =>
    match p with
    | .construct _ n _ => match types.constructor? n with
      | some v => .con v.owner
      | none => .unknown
    | .literal _ (.bool _) => .bool
    | .literal _ _ => .unit
    | .tuple _ ps => .tuple (ps.map fun _ => .unknown)
    | .slice _ _ => .array .unknown
    | _ => .unknown

/-- The number of elements of a slice pattern with or without a rest marker. -/
def sliceLength (hasRest : Bool) : Cell → Option Nat
  | some (.slice _ items) => match sliceShape? items with
    | some s => if s.hasRest = hasRest then some (s.front.length + s.back.length) else none
    | none => none
  | _ => none

/-- The lengths of arrays that have to be told apart: one more than the longest slice without a
rest marker, or the longest with one. -/
def sliceShapes (element : Ty) (cells : List Cell) : List Shape :=
  let fixed := cells.filterMap (sliceLength false)
  let longestOpen := (cells.filterMap (sliceLength true)).foldl max 0
  let afterFixed := (fixed.map (· + 1)).foldl max 0
  let limit := max afterFixed longestOpen
  (List.range (limit + 1)).map fun n =>
    .slice (List.replicate n element) (n = limit && afterFixed ≤ n && 0 < n)

/-- The shapes of a type; if it is unknown, of the type that the cells show. -/
def shapes (types : TypeTable) (t : Ty) (cells : List Cell) : Option (List Shape) :=
  let t := types.resolve t
  let t := if t.isUnknown then inferType types cells else t
  let named : Option (List Shape) := (types.sumOf? t).map fun s =>
    s.variants.map fun v => .variant v.name (types.fieldTypes v t)
  match t with
  | .con n =>
    if n = "Bool" then some [.truth true, .truth false]
    else if n = "()" then some [.unit]
    else named
  | .tuple ts => some [.tuple ts]
  | .record _ fs => some [.record fs]
  | .array t => some (sliceShapes t cells)
  | _ => named

/-! ### Specialization -/

/-- `n` cells, the first ones given and the others matching everything. -/
def padded (n : Nat) (ps : List Pattern) : Row :=
  (ps.map some ++ List.replicate (n - ps.length) none).take n

/-- The parts of a pattern for a value of a shape; `none` if it matches no such value. -/
def specialize (s : Shape) : Cell → Option Row
  | none => some (s.fields.map fun _ => none)
  | some p =>
    match s, p with
    | .truth b, .literal _ (.bool c) => if b = c then some [] else none
    | .unit, .literal _ .unit => some []
    | .tuple ts, .tuple _ ps => if ps.length = ts.length then some (ps.map some) else none
    | .record fs, .record _ gs _ => some (fs.map fun f => Pattern.fieldPattern? f.1 gs)
    | .slice ts _, .slice _ items =>
      match sliceShape? items with
      | none => none
      | some sh =>
        if !sh.hasRest then
          if sh.front.length = ts.length then some (sh.front.map some) else none
        else if ts.length < sh.front.length + sh.back.length then none
        else some (sh.front.map some
          ++ List.replicate (ts.length - sh.front.length - sh.back.length) none
          ++ sh.back.map some)
    | .variant n ts, .construct _ m ps => if m = n then some (padded ts.length ps) else none
    | _, _ => none

/-! ### The search -/

/-- The rows, their first cell replaced by each of its alternatives, as first cell and rest. -/
def expand (rows : List Row) : List (Cell × Row) :=
  rows.flatMap fun
    | [] => []
    | c :: row => (normalize c).map fun h => (h, row)

/-- The rests of the rows whose first cell matches everything. -/
def defaultRows (rows : List (Cell × Row)) : List Row :=
  rows.filterMap fun r => if r.1.isNone then some r.2 else none

/-- The rows for values of a shape in the first column. -/
def specializedRows (s : Shape) (rows : List (Cell × Row)) : List Row :=
  rows.filterMap fun r => (specialize s r.1).map (· ++ r.2)

/-- Puts the parts of a shape, found in front of a description, together. -/
def gather (s : Shape) (found : List String) : List String :=
  s.render (found.take s.fields.length) :: found.drop s.fields.length

/-- A search through the first column, whose patterns nest at most `depth` deep; `after` searches
the columns behind it.  Going into a pattern leaves columns of smaller depth. -/
def missingIn (types : TypeTable) : (depth : Nat) → (after : List Row → Option (List String)) →
    Ty → List Row → Option (List String)
  | 0, after, _, rows => (after (defaultRows (expand rows))).map ("_" :: ·)
  | depth + 1, after, t, rows =>
    let expanded := expand rows
    let cells := expanded.map (·.1)
    let found := if cells.all Option.isNone then none else shapes types t cells
    match found with
    | none => (after (defaultRows expanded)).map ("_" :: ·)
    | some ss => ss.findSome? fun s =>
      (s.fields.foldr (fun u k => missingIn types depth k u) after (specializedRows s expanded)).map
        (gather s)

/-- A description of values, one for each column, that no row matches. -/
def missing (types : TypeTable) (rows : List Row) (columns : List Ty) : Option (List String) :=
  let depth := (rows.flatMap fun r => r.map cellDepth).foldl max 0
  columns.foldr (fun t k => missingIn types depth k t)
    (fun rows => if rows.isEmpty then some [] else none) rows

end PatternPlan.Typed
