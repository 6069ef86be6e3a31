import PatternPlan.Diagnostic.Basic

/-!
# Diagnostics for the reader

A diagnostic is shown as `file:line:column: severity[code]: message`, the source line with the
place underlined when the source is known, and the notes.

* `Listing` — the sources that are known, and whether to colour;
* `Listing.render`, `Listing.renderAll` — diagnostics as text;
* `Listing.summary` — the number of errors and warnings, if there are any.

Texts may hold stray bytes, so the output is a `Text`.
-/

namespace PatternPlan

/-- Terminal colours. -/
inductive Paint where
  | bold | red | yellow | cyan

/-- The escape sequence that switches a colour on. -/
def Paint.code : Paint → String
  | bold => "\x1b[1m"
  | red => "\x1b[31m"
  | yellow => "\x1b[33m"
  | cyan => "\x1b[36m"

/-- Known sources, the latest first, and whether output is coloured. -/
structure Listing where
  color : Bool := false
  sources : List (String × Text) := []

namespace Listing

/-- Registers a source, in place of an earlier one for the same file. -/
def addSource (l : Listing) (file : String) (source : Text) : Listing :=
  { l with sources := (file, source) :: l.sources }

/-- A text in a colour. -/
def paint (l : Listing) (p : Paint) (t : Text) : Text :=
  if l.color then Text.ofString p.code ++ t ++ Text.ofString "\x1b[0m" else t

/-- The lines of a text, without their newlines. -/
def lines : Text → List Text
  | [] => [[]]
  | g :: rest =>
    if g = .char '\n' then [] :: lines rest
    else match lines rest with
      | l :: ls => (g :: l) :: ls
      | [] => [[g]]

/-- A text without the carriage returns at its end. -/
def trimReturns (t : Text) : Text :=
  (t.reverse.dropWhile fun g => g = .char '\r').reverse

/-- A line of a known source. -/
def sourceLine (l : Listing) (file : String) (line : Int) : Option Text :=
  match l.sources.find? fun s => s.1 = file with
  | none => none
  | some s => if line < 1 then none else ((lines s.2)[(line - 1).toNat]?).map trimReturns

/-- The colour of a severity. -/
def severityPaint : Severity → Paint
  | .warning => .yellow
  | .note => .cyan
  | _ => .red

/-- How many marks underline a span on a line: at least one, and not past the end of the line
unless the span starts there. -/
def underline (line : Text) (s : Span) : Nat :=
  let width := max (s.stop - s.start) 1
  let room : Int := line.width - (s.column - 1)
  (if width > room && room > 0 then room else width).toNat

/-- The source line of a diagnostic and the marks under it. -/
def excerpt (l : Listing) (d : Diagnostic) : Text :=
  match l.sourceLine d.file d.span.line with
  | none => []
  | some line =>
    if d.span.column > 0 then
      Text.ofString "  " ++ line ++ Text.ofString "\n  "
        ++ List.replicate (d.span.column - 1).toNat (.char ' ')
        ++ l.paint (severityPaint d.severity) (List.replicate (underline line d.span) (.char '^'))
        ++ Text.ofString "\n"
    else []

/-- A diagnostic as the reader sees it. -/
def render (l : Listing) (d : Diagnostic) : Text :=
  l.paint .bold (Text.ofString d.place) ++ Text.ofString ": "
    ++ l.paint (severityPaint d.severity) (Text.ofString d.label) ++ Text.ofString ": "
    ++ Text.ofString d.message ++ Text.ofString "\n"
    ++ l.excerpt d
    ++ d.notes.flatMap fun n => Text.ofString ("  = note: " ++ n ++ "\n")

/-- Diagnostics one after the other. -/
def renderAll (l : Listing) (ds : List Diagnostic) : Text := ds.flatMap l.render

/-- The number of errors and warnings, if there are any. -/
def summary (ds : List Diagnostic) : String :=
  let errors := Diagnostic.count .error ds
  let warnings := Diagnostic.count .warning ds
  if errors = 0 && warnings = 0 then ""
  else decimal errors ++ " error(s), " ++ decimal warnings ++ " warning(s)\n"

end Listing

end PatternPlan
