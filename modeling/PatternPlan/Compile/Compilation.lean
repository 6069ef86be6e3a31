import PatternPlan.Check.Module
import PatternPlan.Diagnostic.Basic
import PatternPlan.Lowered.Build
import PatternPlan.Surface.Parser.Program
import PatternPlan.Typed.Typing

/-!
# Compiling a source file

* `Reading` — the tokens and the tree of a file, with what the lexer and the parser reported;
* `Reading.of` — the reading of a source text;
* `Compilation` — a file with its typed and lowered forms and everything that was reported;
* `compile?` — from source text to lowered module.  What is reported stops nothing: a file with
  errors is typed, checked and lowered as far as it was understood.  Only a range that lost its
  end cannot be typed at all;
* `Compilation.report` — the diagnostics in reading order, as the configuration wants them.
-/

namespace PatternPlan

/-- A source file after lexical analysis and parsing. -/
structure Reading where
  file : String
  source : Text
  lexed : Lexed
  program : Surface.Program
  incomplete : Bool
  diagnostics : Collector

namespace Reading

/-- One diagnostic for each illegal token. -/
def illegalTokens (l : Lexed) : List Diagnostic :=
  (l.tokens.filter fun t => t.kind = .illegal).map fun t =>
    Diagnostic.new .illegalToken t.span [.text t.lexeme]

/-- Reads a source text. -/
def of (file : String) (source : Text) : Reading :=
  let lexed := lex source
  let parsed := Surface.parse lexed
  let found : Collector := { file := file }
  { file := file
    source := source
    lexed := lexed
    program := parsed.program
    incomplete := parsed.incomplete
    diagnostics := (found.addAll (illegalTokens lexed)).addAll parsed.errors }

end Reading

/-- A compiled source file. -/
structure Compilation where
  config : Config
  reading : Reading
  typed : Typed.Module
  lowered : Lowered.Module
  diagnostics : Collector

/-- Compiles a source text, unless it has a range that lost its end. -/
def compile? (config : Config) (file : String) (source : Text) : Option Compilation :=
  let reading := Reading.of file source
  if reading.program.hasMissingBound then none
  else
    let (typed, clashes) := typeProgram file reading.program
    some {
      config := config
      reading := reading
      typed := typed
      lowered := .ofTyped config.placeholders typed
      diagnostics := (reading.diagnostics.addAll clashes).addAll (Typed.moduleProblems config typed) }

namespace Compilation

/-- The name of the file. -/
def file (c : Compilation) : String := c.reading.file

/-- The plans of all matches of the file. -/
def plans (c : Compilation) : List Plan := c.lowered.plans.getD []

/-- The diagnostics in reading order, as the configuration wants them. -/
def report (c : Compilation) : List Diagnostic := c.config.policy.apply c.diagnostics.items

/-- Whether anything is reported as an error. -/
def hasErrors (c : Compilation) : Bool := Diagnostic.hasErrors c.report

end Compilation

end PatternPlan
