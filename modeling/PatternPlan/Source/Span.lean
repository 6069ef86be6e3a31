import PatternPlan.Number.Decimal

/-!
# Spans

A half-open byte range of a source text with the position of its first character.

* `Span` — start and end offset, line and column (both counted from 1; 0 when unknown);
* `Span.join` — the least span that covers two spans; a span that starts and ends at 0 counts as
  absent;
* `Span.text` — `line:column`.

The fields are integers because spans also come from outside, where nothing bounds them.
-/

namespace PatternPlan

/-- The byte range `[start, stop)` and the position of its first character. -/
structure Span where
  start : Int := 0
  stop : Int := 0
  line : Int := 0
  column : Int := 0
deriving DecidableEq, Inhabited

namespace Span

/-- The span that marks no place at all. -/
def none : Span := {}

/-- The least span covering `s` and `t`; a `t` with both offsets 0 adds nothing. -/
def join (s t : Span) : Span :=
  if t.start = 0 && t.stop = 0 then s
  else
    let s' := if t.start < s.start then { s with start := t.start, line := t.line, column := t.column } else s
    if t.stop > s'.stop then { s' with stop := t.stop } else s'

/-- The position of the first character. -/
def text (s : Span) : String := decimal s.line ++ ":" ++ decimal s.column

end Span

end PatternPlan
