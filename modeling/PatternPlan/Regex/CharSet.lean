/-!
# Sets of code points

* `CharSet` — a set of code points as closed intervals, in ascending order, of which no two touch,
  so that a set has one form;
* `CharSet.ofRuns` — the set of the points of some intervals;
* `CharSet.union`, `CharSet.complement`, `CharSet.contains`.
-/

namespace PatternPlan.Regex

/-- A closed interval of code points. -/
abbrev Run := Nat × Nat

/-- A set of code points: intervals in ascending order of which no two touch. -/
structure CharSet where
  runs : List Run
deriving DecidableEq

namespace CharSet

/-- The last code point. -/
def lastPoint : Nat := 0x10FFFF

/-- Whether an interval has a point. -/
def within (n : Nat) (r : Run) : Bool := r.1 ≤ n && n ≤ r.2

def contains (s : CharSet) (n : Nat) : Bool := s.runs.any (within n)

/-- Joins the intervals that overlap or touch; the list is in ascending order, and the interval
from `lo` to `hi` stands before it. -/
def joinFrom (lo hi : Nat) : List Run → List Run
  | [] => [(lo, hi)]
  | (c, d) :: rs => if c ≤ hi + 1 then joinFrom lo (max hi d) rs else (lo, hi) :: joinFrom c d rs

/-- The set of the points of intervals in ascending order. -/
def ofSorted : List Run → CharSet
  | [] => ⟨[]⟩
  | (lo, hi) :: rs => ⟨joinFrom lo hi rs⟩

/-- Whether an interval starts no later than another. -/
def startsBefore (a b : Run) : Bool := a.1 ≤ b.1

/-- The set of the points of some intervals. -/
def ofRuns (rs : List Run) : CharSet := ofSorted (rs.mergeSort startsBefore)

def union (s t : CharSet) : CharSet := ofSorted (s.runs.merge t.runs startsBefore)

/-- The points from `next` on that lie in none of the intervals. -/
def gapsFrom (next : Nat) : List Run → List Run
  | [] => if next ≤ lastPoint then [(next, lastPoint)] else []
  | (lo, hi) :: rs =>
    if next < lo then (next, lo - 1) :: gapsFrom (hi + 1) rs else gapsFrom (hi + 1) rs

def complement (s : CharSet) : CharSet := ⟨gapsFrom 0 s.runs⟩

/-- Every code point. -/
def full : CharSet := ⟨[(0, lastPoint)]⟩

/-- Every code point but the end of a line. -/
def noNewline : CharSet := ⟨[(0, 9), (11, lastPoint)]⟩

end CharSet

end PatternPlan.Regex
