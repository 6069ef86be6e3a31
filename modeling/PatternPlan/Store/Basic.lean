import PatternPlan.Compile.Compilation
import PatternPlan.Document.Reader

/-!
# The store of runs

A run is one compilation of one file.  The store keeps the plans and the diagnostics of each run
under its id, in the tables of a database.

* `Run` — a run with its time, plans and diagnostics; `Run.stamped` gives an id and a time to one
  that has none;
* `RunInfo`, `PlanRow`, `DiagnosticRow` — the rows: a plan is kept as the text of its document, and so
  are the notes of a diagnostic;
* `Database` — what the store asks of a database: transactions, insertions, and three queries;
* `Run.rows`, `Store.insertAll` — the rows of a run, and inserting them up to the first that fails;
* `Store.save` — one transaction: it is rolled back if a row is refused or one of the plans breaks
  the contract;
* `Store.plans`, `Store.diagnostics` — what was saved under an id, read back from the rows;
* `Store.runsOf`, `Store.latest?` — the runs of a file, and the newest of them.
-/

namespace PatternPlan

/-- The time that counts as none: the start of the year 1. -/
def Run.noTime : Int := -62135596800000000000

/-- One compilation of one file.  The time counts nanoseconds from the start of 1970. -/
structure Run where
  id : String
  file : String
  created : Int := Run.noTime
  plans : List Plan
  diagnostics : List Diagnostic

/-- What a run is given if it has none: an id, and the present time. -/
structure Stamp where
  id : String
  time : Int

/-! ### Rows -/

/-- What is kept of a run itself.  The time is a machine word. -/
structure RunInfo where
  id : String
  file : String
  schema : String
  created : Int64
  hasErrors : Bool
deriving DecidableEq

/-- A plan of a run: its number, what it can be looked up by, and its document. -/
structure PlanRow where
  run : String
  index : Nat
  owner : String
  targetType : String
  armCount : Int
  body : String

/-- A diagnostic of a run: its number, its parts, and its notes as a document. -/
structure DiagnosticRow where
  run : String
  index : Nat
  code : Code
  severity : Severity
  stage : Stage
  message : String
  file : String
  span : Span
  notes : String

/-- A row of one of the tables. -/
inductive Row where
  | run (r : RunInfo)
  | plan (r : PlanRow)
  | diagnostic (r : DiagnosticRow)

namespace Run

/-- The run of a compilation: all its plans, and the diagnostics as they are reported. -/
def ofCompilation (id : String) (c : Compilation) : Run where
  id := id
  file := c.file
  plans := c.plans
  diagnostics := c.report

/-- A run with an id and a time: its own if it has them, those of the stamp otherwise. -/
def stamped (m : Stamp) (r : Run) : Run :=
  { r with
    id := if r.id = "" then m.id else r.id
    created := if r.created = noTime then m.time else r.created }

/-- Whether an error was reported. -/
def hasErrors (r : Run) : Bool := Diagnostic.hasErrors r.diagnostics

/-- The row of a run; its plans are kept in the current version of the format.  A time that does not
fit a machine word wraps around. -/
def info (r : Run) : RunInfo :=
  ⟨r.id, r.file, Lowered.schemaVersion, .ofInt r.created, r.hasErrors⟩

end Run

/-- Why what was saved cannot be read. -/
inductive ReadError where
  | plan (run : String) (e : DocumentError (List PlanError))
  | notes (run : String)

namespace PlanRow

/-- The row of a plan, given its document. -/
def of (run : String) (index : Nat) (p : Plan) (body : String) : PlanRow :=
  ⟨run, index, p.owner, p.targetType, p.armCount, body⟩

/-- The plan of a row. -/
def read (r : PlanRow) : Except ReadError Plan :=
  match Plan.decode r.body with
  | .ok p => .ok p
  | .error e => .error (.plan r.run e)

end PlanRow

namespace DiagnosticRow

/-- Notes as a document; there may be none. -/
def notesJson (notes : List String) : Json :=
  if notes.isEmpty then .null else .array (notes.map Json.text)

def of (run : String) (index : Nat) (d : Diagnostic) : DiagnosticRow :=
  ⟨run, index, d.code, d.severity, d.stage, d.message, d.file, d.span, (notesJson d.notes).compact⟩

/-- The notes in a document. -/
def notes? (text : String) : Option (List String) :=
  (Json.readFirst? text).bind fun j => Reader.list Reader.text [j]

/-- The diagnostic of a row. -/
def read (r : DiagnosticRow) : Except ReadError Diagnostic :=
  match notes? r.notes with
  | some notes => .ok ⟨r.code, r.severity, r.stage, r.message, r.span, r.file, notes⟩
  | none => .error (.notes r.run)

end DiagnosticRow

/-! ### Saving -/

/-- What the store asks of a database with the tables of runs, plans and diagnostics. -/
structure Database where
  Content : Type
  Transaction : Type
  /-- No table has a row. -/
  empty : Content
  start : Content → Transaction
  /-- Inserts a row, unless it is refused. -/
  insert : Transaction → Row → Option Transaction
  commit : Transaction → Content
  rollback : Transaction → Content
  /-- The plans of a run, by their numbers. -/
  plansOf : Content → String → List PlanRow
  /-- The diagnostics of a run, by their numbers. -/
  diagnosticsOf : Content → String → List DiagnosticRow
  /-- The runs of a file, by falling times and then from the last inserted to the first; at most as
  many as a limit says. -/
  runsOf : Content → String → Option Nat → List RunInfo

/-- Why a run is not saved. -/
inductive SaveError where
  | badPlan (e : PlanSetError)
  | refused (row : Row)

/-- The row of a plan with a number; it has none if it breaks the contract. -/
def Plan.row (run : String) (index : Nat) (p : Plan) : Except SaveError Row :=
  match p.encode with
  | .ok body => .ok (.plan (.of run index p body))
  | .error es => .error (.badPlan ⟨index, es⟩)

/-- The rows of a run in the order they are inserted. -/
def Run.rows (r : Run) : List (Except SaveError Row) :=
  .ok (.run r.info) :: (r.plans.zipIdx.map fun c => c.1.row r.id c.2)
    ++ r.diagnostics.zipIdx.map fun c => .ok (.diagnostic (.of r.id c.2 c.1))

namespace Store

variable (db : Database)

/-- Inserts rows, up to the first that there is not or that is refused. -/
def insertAll : List (Except SaveError Row) → db.Transaction → Except SaveError Unit × db.Transaction
  | [], t => (.ok (), t)
  | .error e :: _, t => (.error e, t)
  | .ok row :: rows, t =>
    match db.insert t row with
    | some t => insertAll rows t
    | none => (.error (.refused row), t)

/-- Saves a run in one transaction; its id, and what the database holds then. -/
def save (c : db.Content) (m : Stamp) (r : Run) : Except SaveError String × db.Content :=
  match insertAll db (r.stamped m).rows (db.start c) with
  | (.ok _, t) => (.ok (r.stamped m).id, db.commit t)
  | (.error e, t) => (.error e, db.rollback t)

/-! ### Looking up -/

/-- The plans saved under an id. -/
def plans (c : db.Content) (id : String) : Except ReadError (List Plan) :=
  (db.plansOf c id).mapM PlanRow.read

/-- The diagnostics saved under an id. -/
def diagnostics (c : db.Content) (id : String) : Except ReadError (List Diagnostic) :=
  (db.diagnosticsOf c id).mapM DiagnosticRow.read

/-- The runs of a file, newest first. -/
def runsOf (c : db.Content) (file : String) : List RunInfo := db.runsOf c file none

/-- The newest run of a file. -/
def latest? (c : db.Content) (file : String) : Option RunInfo := (db.runsOf c file (some 1)).head?

end Store

end PatternPlan
