import PatternPlan.Compile.Compilation
import PatternPlan.Document.Reader
import PatternPlan.Service.Message

/-!
# Calls of the plan service

* `Service.Narrowing` — the conversion of numbers to the words that are sent, and `toWord?`, the one
  that is used;
* `Service.lower`, `Service.check` — the answer to a request;
* `Service.Remark`, `Service.LowerResult`, `Service.CheckResult` — what a caller reads from an answer;
* `Service.callLower`, `Service.callCheck` — a whole call, from the source to what is read.
-/

namespace PatternPlan

namespace Service

/-- The name of a source that comes without one. -/
def defaultFile : String := "<rpc>"

/-- The name under which a source is compiled. -/
def fileOr (file : String) : String := if file = "" then defaultFile else file

/-- Why a call fails. -/
inductive CallError where
  | untypable
  | outOfRange (n : Int)
  | unwritable (e : WriteError PlanSetError)
  | unreadable

/-- A conversion to words of 32 bits, which refuses what it cannot convert. -/
abbrev Narrowing := Int → Option UInt32

/-- The word of a number that fits one. -/
def toWord? : Narrowing := fun n => if fitsUInt32 n then some (UInt32.ofNat n.toNat) else none

/-- A number as a word of 32 bits. -/
def word (narrow : Narrowing) (n : Int) : Except CallError UInt32 :=
  match narrow n with
  | some w => .ok w
  | none => .error (.outOfRange n)

/-! ### Answering -/

/-- A diagnostic as it is sent. -/
def Notice.ofDiagnostic (narrow : Narrowing) (d : Diagnostic) : Except CallError Notice := do
  let line ← word narrow d.span.line
  let column ← word narrow d.span.column
  return ⟨d.code.name, d.severity.name, d.message, d.file, line, column⟩

/-- The head of a plan. -/
def Summary.ofPlan (narrow : Narrowing) (p : Plan) : Except CallError Summary := do
  let arms ← word narrow p.armCount
  return ⟨p.owner, p.targetType, arms⟩

/-- The compilation a request asks for. -/
def compile (config : Config) (file : String) (source : Text) : Except CallError Compilation :=
  match compile? config (fileOr file) source with
  | some c => .ok c
  | none => .error .untypable

/-- The document of the plans of a compilation. -/
def planDocument (runId : String) (indent : Bool) (c : Compilation) : Except CallError String :=
  match (PlanSet.of c.file runId c.plans).encode indent with
  | .ok s => .ok s
  | .error e => .error (.unwritable e)

/-- Answers a request for plans. -/
def lower (narrow : Narrowing) (config : Config) (runId : String) (r : LowerRequest) :
    Except CallError LowerResponse := do
  let c ← compile config r.file r.source
  let notices ← c.report.mapM (Notice.ofDiagnostic narrow)
  let document ← planDocument runId r.indent c
  let summaries ← c.plans.mapM (Summary.ofPlan narrow)
  return ⟨runId, document, summaries, notices⟩

/-- Answers a request for diagnostics. -/
def check (narrow : Narrowing) (config : Config) (runId : String) (r : CheckRequest) :
    Except CallError CheckResponse := do
  let c ← compile config r.file r.source
  let notices ← c.report.mapM (Notice.ofDiagnostic narrow)
  return ⟨runId, !c.hasErrors, notices⟩

/-! ### Reading answers -/

/-- What a caller reads of a diagnostic.  A class that is not registered has no phase. -/
structure Remark where
  code : String
  severity : String
  stage : String
  message : String
  file : String
  line : Int
  column : Int
deriving DecidableEq

/-- What a caller reads from an answer with plans. -/
structure LowerResult where
  runId : String
  plans : PlanSet
  summaries : List Summary
  diagnostics : List Remark

/-- What a caller reads from an answer with diagnostics. -/
structure CheckResult where
  runId : String
  ok : Bool
  diagnostics : List Remark

/-- Reads a notice; the phase is that of its class. -/
def Notice.read (n : Notice) : Remark where
  code := n.code
  severity := n.severity
  stage := ((Code.ofName? n.code).map fun code => code.stage.name).getD ""
  message := n.message
  file := n.file
  line := n.line.toNat
  column := n.column.toNat

/-- Reads an answer with plans. -/
def LowerResponse.read (r : LowerResponse) : Except CallError LowerResult :=
  match PlanSet.decode r.plansJson with
  | .error _ => .error .unreadable
  | .ok set => .ok ⟨r.runId, set, r.plans, r.diagnostics.map Notice.read⟩

/-- Reads an answer with diagnostics. -/
def CheckResponse.read (r : CheckResponse) : CheckResult :=
  ⟨r.runId, r.ok, r.diagnostics.map Notice.read⟩

/-- Asks for the plans of a source. -/
def callLower (narrow : Narrowing) (config : Config) (runId file : String) (source : Text) :
    Except CallError LowerResult := do
  let r ← lower narrow config runId { file := file, source := source }
  r.read

/-- Asks for the diagnostics of a source. -/
def callCheck (narrow : Narrowing) (config : Config) (runId file : String) (source : Text) :
    Except CallError CheckResult := do
  let r ← check narrow config runId { file := file, source := source }
  return r.read

end Service

end PatternPlan
