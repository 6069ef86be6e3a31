import PatternPlan.Diagnostic.Code
import PatternPlan.Source.Span
import PatternPlan.Json.Value

/-!
# Diagnostics

* `Diagnostic` — a report about a place in a file, with notes;
* `Diagnostic.new` — one with the registered severity, phase and wording of its class;
* `Diagnostic.text` — the one-line form `file:line:column: severity[code]: message`;
* `Diagnostic.sort` — by file, start, end and code name, keeping the order of equal ones;
* `Policy` — classes that are dropped or get another severity;
* `Collector` — gathers the diagnostics of one compilation unit and never takes one back;
* `Collector.add` — appends a diagnostic; one of a mergeable class at a span that already has one
  of that class only contributes its new notes.
-/

namespace PatternPlan

/-- A report about a place in a file.  An empty file name means that none is known. -/
structure Diagnostic where
  code : Code
  severity : Severity
  stage : Stage
  message : String
  span : Span
  file : String := ""
  notes : List String := []
deriving DecidableEq, Inhabited

namespace Diagnostic

/-- A diagnostic with the severity, phase and wording its class is registered with. -/
def new (code : Code) (span : Span) (args : List Arg) : Diagnostic where
  code := code
  severity := code.severity
  stage := code.stage
  message := fill code.wording args
  span := span

/-- The diagnostic with one more note. -/
def withNote (d : Diagnostic) (note : String) : Diagnostic := { d with notes := d.notes ++ [note] }

/-- The diagnostic attributed to a file. -/
def withFile (d : Diagnostic) (file : String) : Diagnostic := { d with file := file }

def isError (d : Diagnostic) : Bool := d.severity = .error

/-- `severity[code]`. -/
def label (d : Diagnostic) : String := d.severity.name ++ "[" ++ d.code.name ++ "]"

/-- The place, with the file in front if it is known. -/
def place (d : Diagnostic) : String :=
  if d.file = "" then d.span.text else d.file ++ ":" ++ d.span.text

/-- The one-line form. -/
def text (d : Diagnostic) : String := d.place ++ ": " ++ d.label ++ ": " ++ d.message

/-- Whether `a` may stand before `b`: by file, start, end, and name of the class. -/
def precedes (a b : Diagnostic) : Bool :=
  if a.file ≠ b.file then a.file < b.file
  else if a.span.start ≠ b.span.start then a.span.start < b.span.start
  else if a.span.stop ≠ b.span.stop then a.span.stop < b.span.stop
  else a.code.name ≤ b.code.name

/-- Diagnostics in reading order; equal ones keep their order. -/
def sort (ds : List Diagnostic) : List Diagnostic := ds.mergeSort precedes

/-- How many diagnostics have a severity. -/
def count (s : Severity) (ds : List Diagnostic) : Nat := ds.countP fun d => d.severity = s

/-- The diagnostics of a class. -/
def filter (code : Code) (ds : List Diagnostic) : List Diagnostic := ds.filter fun d => d.code = code

def hasErrors (ds : List Diagnostic) : Bool := ds.any isError

end Diagnostic

/-- Which classes are dropped, and which get another severity. -/
structure Policy where
  disabled : List Code := []
  overrides : List (Code × Severity) := []
deriving Inhabited

namespace Policy

/-- A diagnostic under a policy. -/
def adjust (p : Policy) (d : Diagnostic) : Option Diagnostic :=
  if d.code ∈ p.disabled then none
  else match p.overrides.find? fun o => o.1 = d.code with
    | some o => some { d with severity := o.2 }
    | none => some d

/-- Sorted diagnostics under a policy. -/
def apply (p : Policy) (ds : List Diagnostic) : List Diagnostic :=
  (Diagnostic.sort ds).filterMap p.adjust

end Policy

/-! ### Collecting diagnostics -/

/-- The diagnostics of one unit in the order they were added. -/
structure Collector where
  file : String
  items : List Diagnostic := []
deriving Inhabited

namespace Collector

/-- Whether two diagnostics are merged into one. -/
def merges (a b : Diagnostic) : Bool :=
  a.code.mergeable && a.code = b.code && a.span.start = b.span.start && a.span.stop = b.span.stop

/-- `d` with those notes that it does not have yet. -/
def addNotes (d : Diagnostic) (notes : List String) : Diagnostic :=
  { d with notes := notes.foldl (fun ns n => if n ∈ ns then ns else ns ++ [n]) d.notes }

/-- Puts `d` into a list: into the first diagnostic it merges with, else at the end. -/
def insert (d : Diagnostic) : List Diagnostic → List Diagnostic
  | [] => [d]
  | e :: es => if merges e d then addNotes e d.notes :: es else e :: insert d es

/-- Adds a diagnostic, attributed to the unit's file if it names none. -/
def add (c : Collector) (d : Diagnostic) : Collector :=
  let d := if d.file = "" then d.withFile c.file else d
  { c with items := insert d c.items }

/-- Adds diagnostics in order. -/
def addAll (c : Collector) (ds : List Diagnostic) : Collector := ds.foldl add c

/-- The diagnostics in reading order. -/
def sorted (c : Collector) : List Diagnostic := Diagnostic.sort c.items

def hasErrors (c : Collector) : Bool := Diagnostic.hasErrors c.items

end Collector

/-! ### JSON form -/

/-- A span in JSON; an unknown line or column is left out. -/
def Span.toJson (s : Span) : Json :=
  .object ([("start", .int s.start), ("end", .int s.stop)]
    ++ (if s.line = 0 then [] else [("line", .int s.line)])
    ++ (if s.column = 0 then [] else [("column", .int s.column)]))

/-- A diagnostic in JSON; an empty file name and an empty list of notes are left out. -/
def Diagnostic.toJson (d : Diagnostic) : Json :=
  .object ([("code", .text d.code.name), ("severity", .text d.severity.name),
      ("stage", .text d.stage.name), ("message", .text d.message), ("span", d.span.toJson)]
    ++ (if d.file = "" then [] else [("file", .text d.file)])
    ++ (if d.notes.isEmpty then [] else [("notes", .texts d.notes)]))

end PatternPlan
