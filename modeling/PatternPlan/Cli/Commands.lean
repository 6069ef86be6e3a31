import PatternPlan.Cli.Action
import PatternPlan.Plan.Printer
import PatternPlan.Plan.Trace
import PatternPlan.Store.Table
import PatternPlan.Text.Glyph

/-!
# Commands

* `check` — tells what is wrong with source files, or with those below directories;
* `lower` — prints the plans of a file, as trees or as a document;
* `trace` — prints the control steps of each match of a file, under given outcomes;
* `runs` — lists the saved runs of a file;
* `serve` — would offer the plan service, which needs a network.
-/

namespace PatternPlan

namespace Cli

/-! ### Checking -/

/-- The source files that an argument names: a file, or those below a directory. -/
def sourcesOf (config : Config) (t : FileTree) (arg : String) : Except PathError (List String) :=
  match t.stat arg with
  | .error e => .error e
  | .ok (_, .file _) => .ok [arg]
  | .ok (p, .directory) => .ok (((t.filesBelow p).map (joinPath arg)).filter config.isSource)

/-- The contents of the source files that arguments name. -/
def collectSources (config : Config) (args : List String) : Action (List (String × Text)) := do
  let t ← files
  let paths ← orFail .path (args.mapM (sourcesOf config t))
  orFail .source (readSources t paths.flatten)

/-- Tells what is wrong with source files. -/
def check (setting : Setting) (args : List String) : Action Unit := do
  let (v, operands) ← flags "check" commonFlags args
  if operands.isEmpty then fail (.usage "check <file|dir>...")
  let config ← setup v
  let units ← collectSources config operands
  let store ← openStore setting config
  if setting.cancelled then fail .cancelled
  let cs ← compileFrom setting config store 0 units
  stopIf (← report cs)
  if 1 < units.length then print (decimal units.length ++ " files checked\n")

/-! ### Plans -/

/-- The flags of `lower`. -/
def lowerFlags : List FlagSpec := commonFlags ++ [
  ⟨"json", .switch, "print the wire format"⟩,
  ⟨"module", .switch, "with -json, print the whole lowered module"⟩]

/-- Compiles the one file of a command. -/
def compileOne (setting : Setting) (config : Config) (store : Option StorePlace) (path : String) :
    Action Compilation := do
  let source ← orFail .source (readSource (← files) path)
  compile setting config store 0 path source

/-- What `lower` prints. -/
def lowerText (v : FlagValues) (runId : String) (c : Compilation) : Except CliError String :=
  if !v.isOn "json" then .ok (Plan.trees c.plans)
  else if v.isOn "module" then
    match c.lowered.encode true with
    | .ok s => .ok (s ++ "\n")
    | .error e => .error (.lowered e)
  else
    match (PlanSet.of c.file runId c.plans).encode true with
    | .ok s => .ok (s ++ "\n")
    | .error e => .error (.plans e)

/-- Prints the plans of a file. -/
def lower (setting : Setting) (args : List String) : Action Unit := do
  let (v, operands) ← flags "lower" lowerFlags args
  match operands with
  | [path] =>
    let config ← setup v
    let store ← openStore setting config
    let c ← compileOne setting config store path
    let hasErrors ← report [c]
    print (← orFail id (lowerText v (setting.runId 0) c))
    stopIf hasErrors
  | _ => fail (.usage "lower [-json] <file>")

/-! ### Traces -/

/-- The flags of `trace`. -/
def traceFlags : List FlagSpec := commonFlags ++ [
  ⟨"miss", .value, "comma-separated partial patterns that return None"⟩,
  ⟨"fail", .value, "comma-separated node labels whose test fails"⟩,
  ⟨"fail-guards", .switch, "make every guard fail"⟩]

/-- The items of a list with commas, without white space around them; empty ones are left out. -/
def splitList (s : String) : List String :=
  ((splitOnChar ',' s.toList).map fun part =>
    (Text.trim (part.map Glyph.char)).shown).filter (· ≠ "")

/-- The outcomes that the flags of `trace` set. -/
def scriptOf (v : FlagValues) : Script where
  tests := (splitList (v.text "fail")).map fun label => (label, false)
  actives := (splitList (v.text "miss")).map fun name => (name, false)
  defaultGuard := !v.isOn "fail-guards"

/-- A trace and the arm it selects. -/
def traceText (t : Trace) : String :=
  t.text ++ (if 0 < t.selected then "  => arm " ++ decimal t.selected else "  => no arm") ++ "\n"

/-- Prints the control steps of the matches of a file. -/
def trace (setting : Setting) (args : List String) : Action Unit := do
  let (v, operands) ← flags "trace" traceFlags args
  match operands with
  | [path] =>
    let config ← setup v
    let c ← compileOne setting config none path
    let hasErrors ← report [c]
    print ("\n".intercalate ((Plan.traces (scriptOf v).answers.oracle 0 c.plans ()).1.1.map traceText))
    stopIf hasErrors
  | _ => fail (.usage "trace [-miss N,...] <file>")

/-! ### Runs -/

/-- Where runs are looked for when nothing else is said. -/
def defaultStore : String := ".matchc/plans.db"

/-- The database at a place. -/
def storeAt : StorePlace → Action Database.memory.Content
  | .file p => do return (← files).storeAt p
  | .memory => pure Database.memory.empty

/-- Lists the saved runs of a file. -/
def runs (setting : Setting) (args : List String) : Action Unit := do
  let (v, operands) ← flags "runs" commonFlags args
  match operands with
  | [file] =>
    let config ← setup v
    let place ← openStoreAt setting (if config.store = "" then defaultStore else config.store)
    match Store.runsOf .memory (← storeAt place) file with
    | [] => print ("no runs recorded for " ++ file ++ "\n")
    | rs => print (RunInfo.table rs)
  | _ => fail (.usage "runs <file>")

/-! ### The service -/

/-- The flags of `serve`. -/
def serveFlags : List FlagSpec := commonFlags ++ [
  ⟨"listen", .value, "address to listen on (default from config)"⟩]

/-- Offers the plan service. -/
def serve (_ : Setting) (args : List String) : Action Unit := do
  let (v, _) ← flags "serve" serveFlags args
  let config ← setup v
  fail (.noNetwork (if v.text "listen" = "" then config.listen else v.text "listen"))

end Cli

end PatternPlan
