import PatternPlan.Cli.Action
import PatternPlan.Plan.Printer
import PatternPlan.Session

/-!
# The interactive command

* `inputLines` — the lines of the input; a line that is too long for the buffer comes in pieces;
* `repl` — reads entries line by line, an unfinished one together with the lines that follow, and
  prints what is wrong with each entry and its plans.
-/

namespace PatternPlan

namespace Cli

/-! ### Lines -/

/-- How many bytes are read at a time. -/
def bufferSize : Nat := 4096

/-- A line without a carriage return at its end. -/
def dropReturn (line : List UInt8) : List UInt8 :=
  if line.getLast? = some 13 then line.dropLast else line

/-- The first line of an input that is not empty, and how many bytes after the first one it takes.
A carriage return at the end of a full buffer is left for the next line. -/
def cutLine (bs : List UInt8) : List UInt8 × Nat :=
  let window := bs.take bufferSize
  let line := window.takeWhile (· ≠ 10)
  if line.length < window.length then (dropReturn line, line.length)
  else if window.length < bufferSize then (window, window.length)
  else (dropReturn window, (dropReturn window).length - 1)

/-- The lines of an input. -/
def inputLines : List UInt8 → List Text
  | [] => []
  | b :: bs =>
    let r := cutLine (b :: bs)
    Text.ofBytes r.1 :: inputLines (bs.drop r.2)
termination_by bs => bs.length
decreasing_by simp only [List.length_drop, List.length_cons]; omega

/-! ### The dialogue -/

/-- What can be asked for in place of an entry. -/
def replHelp : String :=
  "Enter declarations or a match expression; the lowering plans are printed.\n"
    ++ "Unfinished input continues on the next line.\n"
    ++ "  :source   print the accumulated declarations\n"
    ++ "  :reset    forget earlier declarations\n"
    ++ "  :quit     exit\n"

/-- The session, and the lines of an entry that is not finished. -/
structure Dialogue where
  session : Session
  pending : Text := []

/-- What a line means when no entry is pending. -/
inductive ReplLine where
  | blank
  | quit
  | help
  | reset
  | source
  | entry

/-- The meaning of a line. -/
def ReplLine.of (line : Text) : ReplLine :=
  match (Text.trim line).shown with
  | "" => .blank
  | ":quit" => .quit
  | ":q" => .quit
  | ":help" => .help
  | ":reset" => .reset
  | ":source" => .source
  | _ => .entry

/-- The declarations of a session, one line break between them. -/
def sourceText (s : Session) : String := "\n".intercalate (s.decls.map Text.shown) ++ "\n"

/-- Takes the lines of an entry so far. -/
def evalLines (s : Session) (lines : Text) : Action Dialogue :=
  match s.eval? lines with
  | none => throw .untypable
  | some (none, s) => pure { session := s, pending := lines }
  | some (some e, s) => do
    let listing : Listing := { sources := [(Session.fileName, e.compilation.reading.source)] }
    complain (listing.renderAll e.diagnostics)
    print (Plan.trees e.plans)
    return { session := s }

/-- Takes line after line, up to the end of the input or the wish to quit. -/
def converse (d : Dialogue) : List Text → Action Unit
  | [] => print "\n"
  | line :: lines =>
    if !d.pending.isEmpty then do
      let d ← evalLines d.session (d.pending ++ [.char '\n'] ++ line)
      converse d lines
    else match ReplLine.of line with
      | .blank => converse d lines
      | .quit => pure ()
      | .help => do
        print replHelp
        converse d lines
      | .reset => converse { d with session := d.session.reset } lines
      | .source => do
        print (sourceText d.session)
        converse d lines
      | .entry => do
        let d ← evalLines d.session line
        converse d lines

/-- Reads entries from the input. -/
def repl (setting : Setting) (args : List String) : Action Unit := do
  let (v, _) ← flags "repl" commonFlags args
  let config ← setup v
  print "matchc dev REPL. Type :help for commands.\n"
  if setting.cancelled then return
  converse { session := Session.start config } (inputLines setting.input)

end Cli

end PatternPlan
