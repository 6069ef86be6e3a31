import PatternPlan.Cli.Flags
import PatternPlan.Config.Discovery
import PatternPlan.Diagnostic.Report

/-!
# Actions of commands

* `World` — the files a command sees and what it has printed so far;
* `Setting` — what it is given beside its arguments: the time, names for runs, its input;
* `Stop` — why a command ends before its end; `CliError.message` words it;
* `Action` — a step of a command: it may change the world, and stop;
* the steps that several commands share: `flags`, `setup`, `openStore`, `compile`, `report`.
-/

namespace PatternPlan

namespace Cli

/-- Files, and what was printed. -/
structure World where
  files : FileTree
  stdout : String := ""
  stderr : Text := []

/-- What a command is given beside its arguments. -/
structure Setting where
  now : Int := 0
  runId : Nat → String
  cancelled : Bool := false
  input : List UInt8 := []

/-- Why a store cannot be used. -/
inductive StoreError where
  | directory (e : PathError)
  | cancelled
  | cannotOpen
  | notStore

def StoreError.message : StoreError → String
  | directory e => "creating store directory: " ++ e.message
  | cancelled => "configuring plan store: context canceled"
  | cannotOpen => "configuring plan store: unable to open database file: out of memory (14)"
  | notStore => "creating plan store schema: file is not a database (26)"

/-- Why a command fails. -/
inductive CliError where
  | flags (e : FlagError)
  | usage (text : String)
  | config (e : ConfigLoadError)
  | path (e : PathError)
  | source (e : SourceError)
  | store (e : StoreError)
  | plans (e : WriteError PlanSetError)
  | lowered (e : WriteError (List Lowered.ModuleError))
  | cancelled
  | noNetwork (address : String)

def CliError.message : CliError → String
  | flags e => e.message
  | usage text => "usage: matchc " ++ text
  | config e => e.message
  | path e => e.message
  | source e => e.message
  | store e => e.message
  | plans e => e.message PlanSetError.message
  | lowered e => e.message Lowered.errorText
  | cancelled => "context canceled"
  | noNetwork address => "listening on " ++ address ++ ": not supported"

/-- Why a command ends early: its help was asked for, it has reported its problems, it fails, or a
source cannot be typed. -/
inductive Stop where
  | help
  | reported
  | failed (e : CliError)
  | untypable

/-- A step of a command. -/
abbrev Action := ExceptT Stop (StateM World)

/-- Fails. -/
def fail {α : Type} (e : CliError) : Action α := throw (.failed e)

/-- Goes on with a value, or fails with what stands in its place. -/
def orFail {ε α : Type} (wrap : ε → CliError) : Except ε α → Action α
  | .ok a => pure a
  | .error e => fail (wrap e)

/-- Prints a text. -/
def print (s : String) : Action Unit := modify fun w => { w with stdout := w.stdout ++ s }

/-- Prints a text about problems. -/
def complain (t : Text) : Action Unit := modify fun w => { w with stderr := w.stderr ++ t }

/-- Prints a string about problems. -/
def complainString (s : String) : Action Unit := complain (Text.ofString s)

/-- The files. -/
def files : Action FileTree := do return (← get).files

/-! ### Shared steps -/

/-- The flags of every command that compiles. -/
def commonFlags : List FlagSpec := [
  ⟨"config", .value, "path to matchc.yaml"⟩,
  ⟨"store", .value, "sqlite database receiving runs"⟩,
  ⟨"v", .switch, "debug logging"⟩]

/-- Reads the flags of a command; what is wrong with them is told with the flags there are. -/
def flags (command : String) (specs : List FlagSpec) (args : List String) :
    Action (FlagValues × List String) :=
  match parseFlags specs {} args with
  | .ok r => pure r
  | .error .help => do
    complainString (flagUsage command specs)
    throw .help
  | .error e => do
    complainString (e.message ++ "\n" ++ flagUsage command specs)
    fail (.flags e)

/-- The configuration of a command. -/
def setup (v : FlagValues) : Action Config := do
  let config ← orFail .config (Config.resolve (← files) (v.text "config") "")
  return if v.text "store" = "" then config else { config with store := v.text "store" }

/-- Where runs are saved: in a file, or in memory until the command ends. -/
inductive StorePlace where
  | file (p : Path)
  | memory

/-- Opens the store at a path, making it if nothing is there. -/
def openStoreAt (setting : Setting) (path : String) : Action StorePlace := do
  if setting.cancelled then fail (.store .cancelled)
  if path = ":memory:" then return .memory
  let t ← files
  match t.resolve path with
  | .ok (p, .file (.store _)) => return .file p
  | .ok (p, .file (.text content)) =>
    if content.isEmpty then
      modify fun w => { w with files := w.files.put p (.store Database.memory.empty) }
      return .file p
    else fail (.store .notStore)
  | .ok (_, .directory) => fail (.store .cannotOpen)
  | .error _ =>
    match t.resolve (directoryOf path) with
    | .ok (d, .directory) =>
      match (splitPath path).getLast? with
      | some name =>
        if name = "" then fail (.store .cannotOpen)
        modify fun w => { w with files := w.files.put (d ++ [name]) (.store Database.memory.empty) }
        return .file (d ++ [name])
      | none => fail (.store .cannotOpen)
    | _ => fail (.store .cannotOpen)

/-- Opens the store of a configuration, if it has one, with the directory it is in. -/
def openStore (setting : Setting) (config : Config) : Action (Option StorePlace) := do
  if config.store = "" then return none
  let directory := directoryOf config.store
  if directory ≠ "." then
    let t ← orFail (fun e => .store (.directory e)) ((← files).makeDirectory directory)
    modify fun w => { w with files := t }
  return some (← openStoreAt setting config.store)

/-- Saves a run where runs are saved. -/
def record (store : Option StorePlace) (m : Stamp) (r : Run) : Action Unit :=
  match store with
  | some (.file p) => modify fun w => { w with files := w.files.record p m r }
  | _ => pure ()

/-- Compiles the unit with a number, and saves its run. -/
def compile (setting : Setting) (config : Config) (store : Option StorePlace) (number : Nat)
    (file : String) (source : Text) : Action Compilation :=
  match compile? config file source with
  | none => throw .untypable
  | some c => do
    let id := setting.runId number
    record store ⟨id, setting.now⟩ (.ofCompilation id c)
    return c

/-- Compiles units from a number on. -/
def compileFrom (setting : Setting) (config : Config) (store : Option StorePlace) :
    (number : Nat) → List (String × Text) → Action (List Compilation)
  | _, [] => pure []
  | n, (file, source) :: units => do
    let c ← compile setting config store n file source
    let cs ← compileFrom setting config store (n + 1) units
    return c :: cs

/-- Tells what is wrong with units; whether any of it is an error. -/
def report (cs : List Compilation) : Action Bool := do
  let listing : Listing := cs.foldl (fun l c => l.addSource c.file c.reading.source) {}
  let all := cs.flatMap Compilation.report
  complain (listing.renderAll all)
  complainString (Listing.summary all)
  return Diagnostic.hasErrors all

/-- Stops if problems were reported that are errors. -/
def stopIf (hasErrors : Bool) : Action Unit := if hasErrors then throw .reported else pure ()

end Cli

end PatternPlan
