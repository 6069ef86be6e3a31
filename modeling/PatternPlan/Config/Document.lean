import PatternPlan.Config.Basic
import PatternPlan.Yaml.Node
import PatternPlan.Yaml.Value
import PatternPlan.Text.Quoted

/-!
# Configurations as documents

* `Settings` — what a document sets, before it is checked;
* `Fault` — a value that a setting cannot hold, or a key that is given twice; reading goes on behind
  it, so that all of them are reported;
* `Settings.ofYaml` — the settings of a document; unknown keys are skipped, and the key `<<` brings
  in the entries of other mappings that are not given beside it;
* `Settings.problem?` — the first setting that makes no sense;
* `Config.ofText` — the configuration a text describes.  What it sets to nothing keeps its default.
-/

namespace PatternPlan

/-! ### Faults -/

/-- What is wrong with a node: it cannot be held by a setting, or its key was given before. -/
inductive Fault where
  | mismatch (node : Yaml) (target : String)
  | repeated (line : Nat) (key : String) (first : Nat)

namespace Fault

/-- The beginning of a text that is too long to be shown: its first seven bytes. -/
def abbreviated (s : String) : String :=
  let bytes := (Text.ofString s).bytes
  if 10 < bytes.length then (Text.ofBytes (bytes.take 7)).shown ++ "..." else s

/-- What a message calls a node. -/
def description : Yaml → String
  | .scalar _ isPlain s =>
    (if isPlain then (Yaml.Value.ofPlain s).tag else "!!str") ++ " `" ++ abbreviated s ++ "`"
  | .sequence _ _ => "!!seq"
  | .mapping _ _ => "!!map"

def message : Fault → String
  | mismatch v target =>
    "line " ++ decimal v.line ++ ": cannot unmarshal " ++ description v ++ " into " ++ target
  | repeated line key first =>
    "line " ++ decimal line ++ ": mapping key " ++ quoted key ++ " already defined at line "
      ++ decimal first

end Fault

/-- Why a document has no settings. -/
inductive DocumentFault where
  | unreadable (e : Yaml.Error)
  | faults (fs : List Fault)
  | mergedValue

def DocumentFault.message : DocumentFault → String
  | unreadable e => e.message
  | faults fs => "yaml: unmarshal errors:\n  " ++ "\n  ".intercalate (fs.map Fault.message)
  | mergedValue => "yaml: map merge requires map or sequence of maps as the value"

/-! ### Nodes -/

/-- Reads nodes, and collects what is wrong with them. -/
abbrev Decoding := StateT (List Fault) (Except DocumentFault)

namespace Decoding

/-- Notes a node that cannot be held. -/
def refuse {α : Type} (v : Yaml) (target : String) : Decoding (Option α) := do
  modify (· ++ [.mismatch v target])
  return none

/-- Whether a node says nothing. -/
def isNull : Yaml → Bool
  | .scalar _ true s => Yaml.Value.ofPlain s = .null
  | _ => false

/-- The text of a scalar, if it says something. -/
def text (v : Yaml) : Decoding (Option String) :=
  match v with
  | .scalar _ _ s => return if isNull v then none else some s
  | _ => refuse v "string"

/-- A list of texts; items that say nothing are left out. -/
def texts (v : Yaml) : Decoding (Option (List String)) :=
  match v with
  | .sequence _ items => return some ((← items.mapM text).filterMap id)
  | _ => if isNull v then return none else refuse v "[]string"

/-- A whole number. -/
def wholeNumber (v : Yaml) : Decoding (Option Int) :=
  match v with
  | .scalar _ true s =>
    if isNull v then return none
    else match (Yaml.Value.ofPlain s).int? with
      | some i => return some i
      | none => refuse v "int"
  | _ => refuse v "int"

/-! ### Mappings -/

/-- What tells two keys apart: their sort, and the text of scalars. -/
def keyMark : Yaml → Nat × String
  | .scalar _ _ s => (0, s)
  | .sequence _ _ => (1, "")
  | .mapping _ _ => (2, "")

/-- The keys that are given again. -/
def repetitions : List Yaml → List Fault
  | [] => []
  | k :: ks =>
    (ks.filter fun l => keyMark l = keyMark k).map
        (fun l => Fault.repeated l.line (keyMark l).2 k.line)
      ++ repetitions ks

/-- Whether a key brings in other mappings. -/
def isMerge : Yaml → Bool
  | .scalar _ true "<<" => true
  | _ => false

/-- The keys that are texts. -/
def textKeys (entries : List (Yaml × Yaml)) : List String :=
  entries.filterMap fun e => match e.1 with
    | .scalar _ true s => match Yaml.Value.ofPlain s with
      | .text s => some s
      | _ => none
    | .scalar _ false s => some s
    | _ => none

/-- Reads an entry with `set`, unless its key is one of those that were `given` elsewhere. -/
def entry {σ : Type} (set : σ → String → Yaml → Decoding σ)
    (state : σ × Option (List String)) (e : Yaml × Yaml) : Decoding (σ × Option (List String)) := do
  if isMerge e.1 then return state
  else match ← text e.1 with
    | none => return state
    | some key =>
      match state.2 with
      | none => return (← set state.1 key e.2, none)
      | some given =>
        if key ∈ given then return state
        else return (← set state.1 key e.2, some (key :: given))

/-- Reads the entries of a mapping with `set`, first its own and then those it brings in; `given` are
the keys that stand beside it where it is brought in itself.  Mappings nest less than `room` deep. -/
def mapping {σ : Type} (target : String) (set : σ → String → Yaml → Decoding σ) :
    (room : Nat) → σ × Option (List String) → Yaml → Decoding (σ × Option (List String))
  | 0, state, _ => return state
  | room + 1, state, v =>
    match v with
    | .mapping _ entries => do
      match repetitions (entries.map (·.1)) with
      | [] =>
        let (out, given) ← entries.foldlM (entry set) state
        match (entries.find? fun e => isMerge e.1).map (·.2) with
        | none => return (out, given)
        | some merged =>
          let state := (out, some (given.getD (textKeys entries)))
          match merged with
          | .mapping _ _ => mapping target set room state merged
          | .sequence _ items => items.foldlM (fun state item =>
              match item with
              | .mapping _ _ => mapping target set room state item
              | _ => throw .mergedValue) state
          | _ => throw .mergedValue
      | faults =>
        modify (· ++ faults)
        return state
    | _ => do
      if !isNull v then
        let _ ← refuse (α := Unit) v target
      return state

/-- How deep a node nests. -/
def depth : Yaml → Nat
  | .scalar _ _ _ => 0
  | .sequence _ items => depthOfItems items + 1
  | .mapping _ entries => depthOfEntries entries + 1
where
  depthOfItems : List Yaml → Nat
    | [] => 0
    | v :: vs => max (depth v) (depthOfItems vs)
  depthOfEntries : List (Yaml × Yaml) → Nat
    | [] => 0
    | (k, v) :: es => max (max (depth k) (depth v)) (depthOfEntries es)

/-- Reads a mapping onto what is there already. -/
def onto {σ : Type} (target : String) (set : σ → String → Yaml → Decoding σ) (out : σ) (v : Yaml) :
    Decoding σ := do
  return (← mapping target set (depth v + 1) (out, none) v).1

end Decoding

/-! ### Settings -/

/-- What a document sets. -/
structure Settings where
  sourceExtensions : List String := []
  inlineOwner : String := ""
  unknownType : String := ""
  legacyIfGuard : String := ""
  disable : List String := []
  severity : List (String × String) := []
  store : String := ""
  listen : String := ""
  workers : Int := 0

namespace Settings

open Decoding

/-- One severity; one that says nothing is empty, unless there is another under its key. -/
def setSeverity (severity : List (String × String)) (key : String) (v : Yaml) :
    Decoding (List (String × String)) := do
  match ← text v with
  | some s => return severity.filter (fun e => e.1 ≠ key) ++ [(key, s)]
  | none =>
    if isNull v && (severity.lookup key).isNone then return severity ++ [(key, "")]
    else return severity

/-- One setting under `diagnostics`. -/
def setDiagnostics (s : Settings) (key : String) (v : Yaml) : Decoding Settings := do
  match key with
  | "disable" => return { s with disable := (← texts v).getD [] }
  | "severity" => return { s with severity := ← onto "map[string]string" setSeverity s.severity v }
  | _ => return s

/-- One setting. -/
def set (s : Settings) (key : String) (v : Yaml) : Decoding Settings := do
  match key with
  | "source_extensions" => return { s with sourceExtensions := (← texts v).getD [] }
  | "inline_owner" => return { s with inlineOwner := (← text v).getD "" }
  | "unknown_type" => return { s with unknownType := (← text v).getD "" }
  | "legacy_if_guard" => return { s with legacyIfGuard := (← text v).getD "" }
  | "diagnostics" => onto "config.DiagnosticsConfig" setDiagnostics s v
  | "store" => return { s with store := (← text v).getD "" }
  | "listen" => return { s with listen := (← text v).getD "" }
  | "workers" => return { s with workers := (← wholeNumber v).getD 0 }
  | _ => return s

/-- The settings of a document. -/
def ofYaml (v : Yaml) : Except DocumentFault Settings :=
  match (onto "config.Config" set {} v).run [] with
  | .error e => .error e
  | .ok (s, []) => .ok s
  | .ok (_, faults) => .error (.faults faults)

/-- The settings of a text. -/
def ofText (text : String) : Except DocumentFault Settings :=
  match Yaml.read text with
  | .error e => .error (.unreadable e)
  | .ok none => .ok {}
  | .ok (some v) => ofYaml v

end Settings

/-! ### Checks -/

/-- Why a configuration is refused. -/
inductive ConfigError where
  | document (e : DocumentFault)
  | extension (index : Nat) (value : String)
  | legacyIfGuard (value : String)
  | disabledCode (index : Nat) (code : String)
  | severityCode (code : String)
  | severity (code value : String)
  | negativeWorkers

/-- The wording of what is wrong. -/
def ConfigError.message : ConfigError → String
  | document e => e.message
  | extension i v => "source_extensions[" ++ decimal i ++ "]: " ++ quoted v ++ " must start with a dot"
  | legacyIfGuard v => "legacy_if_guard: expected warn or allow, got " ++ quoted v
  | disabledCode i c => "diagnostics.disable[" ++ decimal i ++ "]: unknown code " ++ quoted c
  | severityCode c => "diagnostics.severity: unknown code " ++ quoted c
  | severity c v => "diagnostics.severity[" ++ c ++ "]: invalid severity " ++ quoted v
  | negativeWorkers => "workers must not be negative"

/-- The wording with the path of the document in front. -/
def ConfigError.located (path : String) (e : ConfigError) : String :=
  match e with
  | document _ => "parsing " ++ path ++ ": " ++ e.message
  | _ => path ++ ": " ++ e.message

namespace Settings

/-- The first item that `ok` refuses, with its index. -/
def firstBad? (ok : String → Bool) (items : List String) : Option (Nat × String) :=
  items.zipIdx.findSome? fun (s, i) => if ok s then none else some (i, s)

/-- An override of a severity that makes no sense. -/
def overrideProblem? (e : String × String) : Option ConfigError :=
  if (Code.ofName? e.1).isNone then some (.severityCode e.1)
  else if (Severity.ofName? e.2).isNone then some (.severity e.1 e.2)
  else none

/-- The first setting that makes no sense. -/
def problem? (s : Settings) : Option ConfigError :=
  ((firstBad? (fun e => e.toList.head? = some '.') s.sourceExtensions).map fun b =>
      ConfigError.extension b.1 b.2).or <|
  (if s.legacyIfGuard ∈ ["", "warn", "allow"] then none
    else some (ConfigError.legacyIfGuard s.legacyIfGuard)).or <|
  ((firstBad? (fun c => (Code.ofName? c).isSome) s.disable).map fun b =>
      ConfigError.disabledCode b.1 b.2).or <|
  (s.severity.findSome? overrideProblem?).or <|
  if s.workers < 0 then some .negativeWorkers else none

/-- The configuration of settings, with defaults for what they leave out. -/
def config (s : Settings) : Config :=
  let base : Config := {}
  { sourceExtensions :=
      if s.sourceExtensions.isEmpty then base.sourceExtensions else s.sourceExtensions
    inlineOwner := if s.inlineOwner = "" then base.inlineOwner else s.inlineOwner
    unknownType := if s.unknownType = "" then base.unknownType else s.unknownType
    warnLegacyIf := s.legacyIfGuard ≠ "allow"
    policy := {
      disabled := s.disable.filterMap Code.ofName?
      overrides := s.severity.filterMap fun e =>
        (Code.ofName? e.1).bind fun c => (Severity.ofName? e.2).map fun v => (c, v) }
    store := s.store
    listen := if s.listen = "" then base.listen else s.listen
    workers := if s.workers = 0 then none else some s.workers.toNat }

end Settings

/-- The configuration a text describes. -/
def Config.ofText (text : String) : Except ConfigError Config :=
  match Settings.ofText text with
  | .error e => .error (.document e)
  | .ok s =>
    match s.problem? with
    | some e => .error e
    | none => .ok s.config

end PatternPlan
