import PatternPlan.Store.Basic

/-!
# A database in memory

* `Row.key`, `Row.owner?` — what tells the rows of a table apart, and the run a row belongs to;
* `Row.Fits`, `Rows.add?` — a row whose key is not in use and whose run is there may be inserted;
* `Database.memory` — rows in the order they were inserted;
* `Rows.encode` — rows as text, table by table in the order they were inserted;
* `Rows.decode?` — the rows of a text; one that may not be inserted makes it no text of rows.
-/

namespace PatternPlan

/-- What tells the rows of each table apart. -/
inductive RowKey where
  | run (id : String)
  | plan (run : String) (index : Nat)
  | diagnostic (run : String) (index : Nat)
deriving DecidableEq

namespace Row

def key : Row → RowKey
  | run r => .run r.id
  | plan r => .plan r.run r.index
  | diagnostic r => .diagnostic r.run r.index

/-- The run that a row refers to. -/
def owner? : Row → Option String
  | run _ => none
  | plan r => some r.run
  | diagnostic r => some r.run

def run? : Row → Option RunInfo
  | run r => some r
  | _ => none

def plan? : Row → Option PlanRow
  | plan r => some r
  | _ => none

def diagnostic? : Row → Option DiagnosticRow
  | diagnostic r => some r
  | _ => none

/-- Whether a row may be inserted: its key is not in use, and the run it refers to is there. -/
def Fits (row : Row) (rows : List Row) : Prop :=
  row.key ∉ rows.map key ∧ ∀ id ∈ row.owner?, RowKey.run id ∈ rows.map key

instance (row : Row) (rows : List Row) : Decidable (row.Fits rows) :=
  inferInstanceAs (Decidable (_ ∧ _))

end Row

/-- Adds a row that may be inserted. -/
def Rows.add? (rows : List Row) (row : Row) : Option (List Row) :=
  if row.Fits rows then some (rows ++ [row]) else none

/-- Whether `a` is listed before `b` when both were inserted in the other order. -/
def RunInfo.newer (a b : RunInfo) : Bool := b.created ≤ a.created

namespace Database

/-- Rows in the order of their numbers. -/
def ordered {ρ : Type} (index : ρ → Nat) (rows : List ρ) : List ρ :=
  rows.mergeSort fun a b => index a ≤ index b

/-- The first items of a list, all of them if there is no limit. -/
def limited {ρ : Type} (rows : List ρ) : Option Nat → List ρ
  | none => rows
  | some n => rows.take n

/-- Rows in the order they were inserted.  A transaction keeps those it started from. -/
def memory : Database where
  Content := List Row
  Transaction := List Row × List Row
  empty := []
  start rows := (rows, rows)
  insert t row := (Rows.add? t.2 row).map fun rows => (t.1, rows)
  commit t := t.2
  rollback t := t.1
  plansOf rows id := ordered PlanRow.index ((rows.filterMap Row.plan?).filter fun r => r.run = id)
  diagnosticsOf rows id :=
    ordered DiagnosticRow.index ((rows.filterMap Row.diagnostic?).filter fun r => r.run = id)
  runsOf rows file limit :=
    limited (((rows.filterMap Row.run?).filter fun r => r.file = file).reverse.mergeSort RunInfo.newer)
      limit

end Database

open Reader

/-! ### Rows as documents -/

def RunInfo.toJson (r : RunInfo) : Json :=
  .object [("id", .text r.id), ("file", .text r.file), ("schema_version", .text r.schema),
    ("created_at", .int r.created.toInt), ("has_errors", .bool r.hasErrors)]

def PlanRow.toJson (r : PlanRow) : Json :=
  .object [("run_id", .text r.run), ("idx", .nat r.index), ("owner", .text r.owner),
    ("target_type", .text r.targetType), ("arm_count", .int r.armCount), ("body", .text r.body)]

def DiagnosticRow.toJson (r : DiagnosticRow) : Json :=
  .object [("run_id", .text r.run), ("idx", .nat r.index), ("code", .text r.code.name),
    ("severity", .text r.severity.name), ("message", .text r.message), ("file", .text r.file),
    ("span", r.span.toJson), ("notes", .text r.notes)]

/-- The mark of a document that holds rows. -/
def Rows.format : String := "matchc runs"

/-- Rows as text. -/
def Rows.encode (rows : List Row) : String :=
  (Json.object [("format", .text Rows.format),
    ("runs", .array ((rows.filterMap Row.run?).map RunInfo.toJson)),
    ("plans", .array ((rows.filterMap Row.plan?).map PlanRow.toJson)),
    ("diagnostics", .array ((rows.filterMap Row.diagnostic?).map DiagnosticRow.toJson))]).compact

/-- The row of a run that a value describes. -/
def RunInfo.ofJson? (j : Json) : Option RunInfo := do
  let id ← Reader.text [← j.field? "id"]
  let file ← Reader.text [← j.field? "file"]
  let schema ← Reader.text [← j.field? "schema_version"]
  let created ← int [← j.field? "created_at"]
  let hasErrors ← flag [← j.field? "has_errors"]
  return { id, file, schema, created := .ofInt created, hasErrors }

/-- The row of a plan that a value describes. -/
def PlanRow.ofJson? (j : Json) : Option PlanRow := do
  let run ← Reader.text [← j.field? "run_id"]
  let index ← nat [← j.field? "idx"]
  let owner ← Reader.text [← j.field? "owner"]
  let targetType ← Reader.text [← j.field? "target_type"]
  let armCount ← int [← j.field? "arm_count"]
  let body ← Reader.text [← j.field? "body"]
  return { run, index, owner, targetType, armCount, body }

/-- The row of a diagnostic that a value describes; its phase is that of its class. -/
def DiagnosticRow.ofJson? (j : Json) : Option DiagnosticRow := do
  let run ← Reader.text [← j.field? "run_id"]
  let index ← nat [← j.field? "idx"]
  let code ← Code.ofName? (← Reader.text [← j.field? "code"])
  let severity ← Reader.text [← j.field? "severity"]
  let message ← Reader.text [← j.field? "message"]
  let file ← Reader.text [← j.field? "file"]
  let span ← Span.reader false [← j.field? "span"]
  let notes ← Reader.text [← j.field? "notes"]
  return ⟨run, index, code, .ofName severity, code.stage, message, file, span, notes⟩

/-- The items of an array. -/
def Json.items? : Json → Option (List Json)
  | .array js => some js
  | _ => none

/-- The rows of a text. -/
def Rows.decode? (s : String) : Option (List Row) := do
  let j ← Json.read? s
  let format ← Reader.text [← j.field? "format"]
  if format ≠ Rows.format then none
  else
    let runs ← (← (← j.field? "runs").items?).mapM RunInfo.ofJson?
    let plans ← (← (← j.field? "plans").items?).mapM PlanRow.ofJson?
    let diagnostics ← (← (← j.field? "diagnostics").items?).mapM DiagnosticRow.ofJson?
    (runs.map Row.run ++ plans.map Row.plan ++ diagnostics.map Row.diagnostic).foldlM Rows.add? []

end PatternPlan
