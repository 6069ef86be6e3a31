import PatternPlan.Compile.Compilation
import PatternPlan.Text.Glyph

/-!
# Interactive sessions

Inputs are compiled one after the other, each behind the declarations accepted so far.

* `Session` — the configuration and the declarations accepted so far;
* `Session.lead` — the text that stands in front of the next input;
* `Session.eval?` — compiles an input.  An unfinished one gives nothing, so that more lines can be
  read; otherwise what belongs to the input itself is returned, and an input that declares
  something and brings no error is kept.
-/

namespace PatternPlan

/-- Whether a text starts with the characters of a string. -/
def Text.startsWith (t : Text) (s : String) : Bool := t.take s.length = Text.ofString s

/-- A session. -/
structure Session where
  config : Config
  decls : List Text := []

/-- What belongs to one input: its plans and diagnostics, with the compilation they come from. -/
structure Entry where
  compilation : Compilation
  plans : List Plan
  diagnostics : List Diagnostic

namespace Session

/-- The name of the file that a session types, and of the owner of its bare matches. -/
def fileName : String := "<repl>"

/-- A session without declarations. -/
def start (config : Config) : Session := { config := { config with inlineOwner := fileName } }

/-- How a declaration starts. -/
def declarationHeads : List String := ["fn ", "pattern ", "type ", "pub ", "@", "module ", "use "]

/-- Whether an input is a bare expression, not a declaration worth keeping. -/
def isExpression (input : Text) : Bool := !declarationHeads.any input.trim.startsWith

/-- The declarations, each on lines of its own. -/
def lead (s : Session) : Text := s.decls.flatMap fun d => d ++ [.char '\n']

/-- The session without its declarations. -/
def reset (s : Session) : Session := { s with decls := [] }

/-- The session with one more declaration. -/
def keep (s : Session) (input : Text) : Session := { s with decls := s.decls ++ [input] }

/-- What of a compilation lies behind the first `offset` bytes. -/
def entryFrom (offset : Nat) (c : Compilation) : Entry where
  compilation := c
  plans := c.plans.filter fun p => offset ≤ p.span.start
  diagnostics := c.report.filter fun d => offset ≤ d.span.start

/-- Compiles an input behind the declarations; no entry when it is unfinished. -/
def eval? (s : Session) (input : Text) : Option (Option Entry × Session) :=
  (compile? s.config fileName (s.lead ++ input)).map fun c =>
    if c.reading.incomplete then (none, s)
    else
      (some (entryFrom s.lead.width c),
        if c.diagnostics.hasErrors || isExpression input then s else s.keep input)

end Session

end PatternPlan
