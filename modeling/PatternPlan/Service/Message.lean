import PatternPlan.Diagnostic.Basic
import PatternPlan.Plan.Basic

/-!
# Messages of the plan service

* `Service.LowerRequest`, `Service.CheckRequest` — a source to work on;
* `Service.LowerResponse`, `Service.CheckResponse` — what is sent back;
* `Service.Notice`, `Service.Summary` — a diagnostic and a plan as they are sent;
* `Service.schema` — the same messages as a description that other programs can read.

A line, a column or a number of arms is sent as a word of 32 bits.
-/

namespace PatternPlan

namespace Service

/-- A request for the plans of a source. -/
structure LowerRequest where
  file : String := ""
  source : Text := []
  indent : Bool := false

/-- A request for the diagnostics of a source. -/
structure CheckRequest where
  file : String := ""
  source : Text := []

/-- A diagnostic as it is sent: without the end of its span and its notes. -/
structure Notice where
  code : String
  severity : String
  message : String
  file : String
  line : UInt32
  column : UInt32
deriving DecidableEq

/-- The head of a plan. -/
structure Summary where
  owner : String
  targetType : String
  armCount : UInt32
deriving DecidableEq

/-- The plans of a source, as a document and in summary. -/
structure LowerResponse where
  runId : String
  plansJson : String
  plans : List Summary
  diagnostics : List Notice

/-- The diagnostics of a source, and whether none of them is an error. -/
structure CheckResponse where
  runId : String
  ok : Bool
  diagnostics : List Notice

/-! ### The description -/

/-- The type of a field. -/
inductive FieldType where
  | string
  | bool
  | uint32
  | message (name : String)

/-- A field with its number. -/
structure Field where
  name : String
  number : Nat
  type : FieldType
  repeated : Bool := false

/-- A message with its fields. -/
structure MessageType where
  name : String
  fields : List Field

/-- A call with its request and its response. -/
structure Method where
  name : String
  input : String
  output : String

/-- The description of a service. -/
structure Schema where
  file : String
  package : String
  dialect : String
  messages : List MessageType
  service : String
  methods : List Method

/-- The full name of a message. -/
def Schema.fullName (s : Schema) (message : String) : String := "." ++ s.package ++ "." ++ message

/-- The service as it is offered. -/
def schema : Schema where
  file := "matchcore/plan/v1/plan.proto"
  package := "matchcore.plan.v1"
  dialect := "proto3"
  messages := [
    ⟨"Diagnostic", [⟨"code", 1, .string, false⟩, ⟨"severity", 2, .string, false⟩,
      ⟨"message", 3, .string, false⟩, ⟨"file", 4, .string, false⟩, ⟨"line", 5, .uint32, false⟩,
      ⟨"column", 6, .uint32, false⟩]⟩,
    ⟨"PlanSummary", [⟨"owner", 1, .string, false⟩, ⟨"target_type", 2, .string, false⟩,
      ⟨"arm_count", 3, .uint32, false⟩]⟩,
    ⟨"LowerRequest", [⟨"file", 1, .string, false⟩, ⟨"source", 2, .string, false⟩,
      ⟨"indent", 3, .bool, false⟩]⟩,
    ⟨"LowerResponse", [⟨"run_id", 1, .string, false⟩, ⟨"plans_json", 2, .string, false⟩,
      ⟨"plans", 3, .message "PlanSummary", true⟩,
      ⟨"diagnostics", 4, .message "Diagnostic", true⟩]⟩,
    ⟨"CheckRequest", [⟨"file", 1, .string, false⟩, ⟨"source", 2, .string, false⟩]⟩,
    ⟨"CheckResponse", [⟨"run_id", 1, .string, false⟩, ⟨"ok", 2, .bool, false⟩,
      ⟨"diagnostics", 3, .message "Diagnostic", true⟩]⟩]
  service := "PlanService"
  methods := [⟨"Lower", "LowerRequest", "LowerResponse"⟩, ⟨"Check", "CheckRequest", "CheckResponse"⟩]

end Service

end PatternPlan
