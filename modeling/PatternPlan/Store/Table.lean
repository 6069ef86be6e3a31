import PatternPlan.Store.Basic

/-!
# Runs as a table

* `Timestamp.text` — a time in the form `YYYY-MM-DDThh:mm:ssZ`;
* `alignColumns` — rows of cells in columns, each as wide as its widest cell and two blanks; the
  last column is not filled up;
* `RunInfo.table` — the runs of a file.
-/

namespace PatternPlan

namespace Timestamp

/-- The year, month and day of a day counted from the start of 1970.  Years are counted from March,
so that a leap day is the last of its year; 400 of them have 146097 days. -/
def civil (day : Int) : Int × Int × Int :=
  let z := day + 719468
  let era := z / 146097
  let dayOfEra := z % 146097
  let yearOfEra := (dayOfEra - dayOfEra / 1460 + dayOfEra / 36524 - dayOfEra / 146096) / 365
  let dayOfYear := dayOfEra - (365 * yearOfEra + yearOfEra / 4 - yearOfEra / 100)
  let month := (5 * dayOfYear + 2) / 153
  let dayOfMonth := dayOfYear - (153 * month + 2) / 5 + 1
  let calendarMonth := if month < 10 then month + 3 else month - 9
  (yearOfEra + 400 * era + (if calendarMonth ≤ 2 then 1 else 0), calendarMonth, dayOfMonth)

/-- A number with at least `width` digits. -/
def padded (width : Nat) (n : Int) : String :=
  let digits := Decimal.digits n.natAbs
  (if n < 0 then "-" else "") ++ String.ofList (List.replicate (width - digits.length) '0' ++ digits)

/-- A time, in nanoseconds from the start of 1970, to the second. -/
def text (nanoseconds : Int) : String :=
  let seconds := nanoseconds / 1000000000
  let (year, month, day) := civil (seconds / 86400)
  let second := seconds % 86400
  padded 4 year ++ "-" ++ padded 2 month ++ "-" ++ padded 2 day ++ "T"
    ++ padded 2 (second / 3600) ++ ":" ++ padded 2 (second / 60 % 60) ++ ":"
    ++ padded 2 (second % 60) ++ "Z"

end Timestamp

/-! ### Columns -/

/-- The width of the widest text. -/
def widest (cells : List String) : Nat := cells.foldl (fun w c => max w c.length) 0

/-- A text filled up with blanks. -/
def fillUp (width : Nat) (s : String) : String :=
  s ++ String.ofList (List.replicate (width - s.length) ' ')

/-- Rows in columns; `columns` bounds how many of them are filled up. -/
def alignColumns : (columns : Nat) → List (List String) → List String
  | 0, rows => rows.map String.join
  | n + 1, rows =>
    let width := widest (rows.filterMap List.head?) + 2
    let rest := alignColumns n (rows.map fun r => r.drop 1)
    List.zipWith (fun r line => fillUp width (r.headD "") ++ line) rows rest

/-- The line of a run. -/
def RunInfo.cells (r : RunInfo) : List String :=
  [r.id, Timestamp.text r.created.toInt, r.schema, if r.hasErrors then "errors" else "ok"]

/-- Runs under their headings. -/
def RunInfo.table (runs : List RunInfo) : String :=
  String.join ((alignColumns 3 (["RUN", "CREATED", "SCHEMA", "STATUS"] :: runs.map RunInfo.cells)).map
    (· ++ "\n"))

end PatternPlan
