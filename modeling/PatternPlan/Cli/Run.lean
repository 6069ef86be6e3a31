import PatternPlan.Cli.Commands
import PatternPlan.Cli.Repl

/-!
# The command line

* `usageText` — the commands there are;
* `Output` — what a command prints, and its exit code;
* `run` — runs the command that arguments name.  A command that meets a source it cannot type has
  no output.
-/

namespace PatternPlan

namespace Cli

/-- The version that is printed. -/
def version : String := "dev"

/-- The commands there are. -/
def usageText : String :=
  "Usage: matchc <command> [flags] [args]\n\n"
    ++ "Commands:\n"
    ++ "  check <file|dir>...   report diagnostics\n"
    ++ "  lower [-json] <file>  print the lowering plans\n"
    ++ "  trace [-miss N,...] <file>\n"
    ++ "                        print the control steps of each match\n"
    ++ "  runs <file>           list stored runs of a file\n"
    ++ "  serve                 run the plan service\n"
    ++ "  repl                  read matches interactively\n"
    ++ "  version               print the version\n\n"
    ++ "Common flags:\n"
    ++ "  -config <path>        matchc.yaml to use instead of searching upward\n"
    ++ "  -store <path>         sqlite database receiving runs\n"
    ++ "  -v                    debug logging\n"

/-- What a command prints, and its exit code. -/
structure Output where
  stdout : String := ""
  stderr : Text := []
  exit : Nat := 0

/-- The output of an action that has ended, and the files after it. -/
def finish (r : Except Stop Unit × World) : Option Output × FileTree :=
  let w := r.2
  let output (exit : Nat) (more : String) : Output :=
    ⟨w.stdout, w.stderr ++ Text.ofString more, exit⟩
  (match r.1 with
    | .ok _ => some (output 0 "")
    | .error .help => some (output 0 "")
    | .error .reported => some (output 1 "")
    | .error (.failed e) => some (output 1 ("Error: " ++ e.message ++ "\n"))
    | .error .untypable => none, w.files)

/-- Runs an action on files. -/
def perform (t : FileTree) (a : Action Unit) : Option Output × FileTree :=
  finish (a.run.run { files := t })

/-- The action of a command. -/
def command? (setting : Setting) (name : String) (args : List String) : Option (Action Unit) :=
  match name with
  | "check" => some (check setting args)
  | "lower" => some (lower setting args)
  | "trace" => some (trace setting args)
  | "runs" => some (runs setting args)
  | "serve" => some (serve setting args)
  | "repl" => some (repl setting args)
  | _ =>
    if name ∈ ["version", "-version", "--version"] then some (print ("matchc " ++ version ++ "\n"))
    else if name ∈ ["help", "-help", "--help", "-h"] then some (print usageText)
    else none

/-- Runs the command that arguments name. -/
def run (setting : Setting) (t : FileTree) : List String → Option Output × FileTree
  | [] => (some { stderr := Text.ofString usageText, exit := 2 }, t)
  | name :: args =>
    match command? setting name args with
    | some a => perform t a
    | none =>
      (some {
        stderr := Text.ofString ("Unknown command: " ++ name ++ "\n\n" ++ usageText)
        exit := 2 }, t)

end Cli

end PatternPlan
