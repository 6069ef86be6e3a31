import PatternPlan.Typed.Tree

/-!
# When one pattern covers another

* `irrefutable` — patterns that match every value of their type;
* `Literal.compare?` — the order of two bounds;
* `SliceShape` — a slice pattern around its rest marker;
* `covers` — a syntactic test that every value matched by one pattern is matched by another;
* `matchesAll`, `shadowing` — the part of an arm's pattern that hides later arms.
-/

namespace PatternPlan

/-- The order of two constants that can be bounds of one range; an integer is compared with a
float as the nearest float. -/
def Literal.compare? : Literal → Literal → Option Ordering
  | .int a, .int b => some (compare a b)
  | .float a, .float b => some (ofDoubles a b)
  | .int a, .float b => (Double.ofInt a).map fun a => ofDoubles a b
  | .float a, .int b => (Double.ofInt b).map fun b => ofDoubles a b
  | .text a, .text b => some (compare a b)
  | _, _ => none
where
  /-- The order of two doubles by value. -/
  ofDoubles (a b : Double) : Ordering :=
    if a.less b then .lt else if b.less a then .gt else .eq

/-- Equality of constants by value; the two zeros are the same. -/
def Literal.same : Literal → Literal → Bool
  | .float a, .float b => a.same b
  | a, b => a = b

namespace Typed.Pattern

mutual

/-- Whether a pattern matches every value of its type, as its form shows. -/
def irrefutable : Pattern → Bool
  | wildcard _ | var _ _ => true
  | binding _ _ _ p => irrefutable p
  | active _ _ kind unresolved none => kind = .total && !unresolved
  | active _ _ kind unresolved (some p) => kind = .total && !unresolved && irrefutable p
  | or _ ps => !ps.isEmpty && allIrrefutable ps
  | _ => false

def allIrrefutable : List Pattern → Bool
  | [] => true
  | p :: ps => irrefutable p && allIrrefutable ps

end

/-- The pattern of a field, the first one if it is named twice. -/
def fieldPattern? (name : String) : List (String × Pattern) → Option Pattern
  | [] => none
  | (n, p) :: fs => if n = name then some p else fieldPattern? name fs

end Typed.Pattern

namespace Typed

/-- A slice pattern around its rest marker: the elements before it, the elements after it, and
whether there is one. -/
structure SliceShape where
  front : List Pattern
  back : List Pattern
  hasRest : Bool

/-- The elements among slice items; `none` if there is a rest marker among them. -/
def elements? : List (SliceItem Pattern) → Option (List Pattern)
  | [] => some []
  | .element p :: is => (elements? is).map (p :: ·)
  | .rest _ _ :: _ => none

/-- The shape of slice items; `none` if there are two rest markers. -/
def sliceShape? : List (SliceItem Pattern) → Option SliceShape
  | [] => some ⟨[], [], false⟩
  | .element p :: is => (sliceShape? is).map fun s => { s with front := p :: s.front }
  | .rest _ _ :: is => (elements? is).map fun ps => ⟨[], ps, true⟩

/-- Whether `r` holds of two lists of one length, item by item. -/
def allPairs (r : Pattern → Pattern → Bool) : List Pattern → List Pattern → Bool
  | [], [] => true
  | a :: as, b :: bs => r a b && allPairs r as bs
  | _, _ => false

/-- Whether slice shape `a` covers slice shape `b`, given the test on elements. -/
def SliceShape.covers (r : Pattern → Pattern → Bool) (a b : SliceShape) : Bool :=
  if !a.hasRest then !b.hasRest && allPairs r a.front b.front
  else if !b.hasRest then
    a.front.length + a.back.length ≤ b.front.length
      && allPairs r a.front (b.front.take a.front.length)
      && allPairs r a.back (b.front.drop (b.front.length - a.back.length))
  else
    a.front.length ≤ b.front.length && a.back.length ≤ b.back.length
      && allPairs r a.front (b.front.take a.front.length)
      && allPairs r a.back (b.back.drop (b.back.length - a.back.length))

/-- Whether lower bound `a` lies at or below `v`. -/
def startsBy (a : Option Bound) (v : Literal) : Bool :=
  match a with
  | none => true
  | some s => match s.value.compare? v with
    | some o => o ≠ .gt
    | none => false

/-- Whether a constant lies in a range. -/
def rangeHolds (start stop : Option Bound) (inclusive : Bool) (v : Literal) : Bool :=
  startsBy start v && match stop with
    | none => true
    | some e => match v.compare? e.value with
      | some .lt => true
      | some .eq => inclusive
      | _ => false

/-- Whether a range lies in another. -/
def rangeCovers (aStart aStop : Option Bound) (aInclusive : Bool)
    (bStart bStop : Option Bound) (bInclusive : Bool) : Bool :=
  (match aStart, bStart with
    | none, _ => true
    | some _, none => false
    | some a, some b => match a.value.compare? b.value with
      | some o => o ≠ .gt
      | none => false)
  && match aStop, bStop with
    | none, _ => true
    | some _, none => false
    | some a, some b => match b.value.compare? a.value with
      | some .lt => true
      | some .eq => !(bInclusive && !aInclusive)
      | _ => false

/-- Whether the forms of two patterns, neither a binding nor alternatives, show that the first
matches whatever the second does, given the test on the patterns inside. -/
def headCovers (r : Pattern → Pattern → Bool) : Pattern → Pattern → Bool
  | .literal _ v, .literal _ w => v.same w
  | .range _ a b i, .literal _ v => rangeHolds a b i v
  | .range _ a b i, .range _ c d j => rangeCovers a b i c d j
  | .tuple _ ps, .tuple _ qs => allPairs r ps qs
  | .construct _ m ps, .construct _ n qs => m = n && allPairs r ps qs
  | .record _ fs _, .record _ gs _ =>
    fs.all fun f => match Pattern.fieldPattern? f.1 gs with
      | none => f.2.irrefutable
      | some q => r f.2 q
  | .slice _ is, .slice _ js =>
    match sliceShape? is, sliceShape? js with
    | some a, some b => a.covers r b
    | _, _ => false
  | .regex _ s, .regex _ t => s = t
  | .active _ m k unresolved arg, .active _ n l _ arg' =>
    !unresolved && m = n && k = l && match arg, arg' with
      | none, _ => true
      | some p, none => p.irrefutable
      | some p, some q => r p q
  | _, _ => false

/-- Whether `a` covers `b`, looking at most `fuel` steps into the two. -/
def coversWithin : (fuel : Nat) → (a b : Pattern) → Bool
  | 0, _, _ => false
  | fuel + 1, a, b =>
    if a.irrefutable then true
    else match a, b with
      | .binding _ _ _ p, b => coversWithin fuel p b
      | a, .binding _ _ _ q => coversWithin fuel a q
      | a, .or _ qs => !qs.isEmpty && qs.all fun q => coversWithin fuel a q
      | .or _ ps, b => ps.any fun p => coversWithin fuel p b
      | a, b => headCovers (coversWithin fuel) a b

/-- Whether it shows from the forms of the patterns that every value matched by `b` is matched by
`a`.  Every step goes one level into one of the two. -/
def covers (a b : Pattern) : Bool := coversWithin (a.depth + b.depth + 1) a b

namespace Pattern

mutual

/-- Whether a pattern accepts every value, also as a tuple or record of such patterns. -/
def matchesAll : Pattern → Bool
  | binding _ _ _ p => matchesAll p
  | tuple _ ps => allMatchAll ps
  | record _ fs _ => fieldsMatchAll fs
  | or _ ps => !ps.isEmpty && allMatchAll ps
  | p => p.irrefutable

def allMatchAll : List Pattern → Bool
  | [] => true
  | p :: ps => matchesAll p && allMatchAll ps

def fieldsMatchAll : List (String × Pattern) → Bool
  | [] => true
  | (_, p) :: fs => matchesAll p && fieldsMatchAll fs

end

/-- Alternatives, or the only one of them. -/
def ofAlternatives (i : Info) : List Pattern → Pattern
  | [p] => p
  | ps => or i ps

mutual

/-- The part of a pattern that hides later arms: alternatives that do not all match every value
hide only through those that do not. -/
def shadowing : Pattern → Pattern
  | binding i n v p => binding i n v (shadowing p)
  | tuple i ps => tuple i (shadowings ps)
  | construct i n ps => construct i n (shadowings ps)
  | record i fs r => record i (fieldShadowings fs) r
  | or i ps =>
    if !ps.isEmpty && allMatchAll ps then or i ps else ofAlternatives i (partShadowings ps)
  | p => p

def shadowings : List Pattern → List Pattern
  | [] => []
  | p :: ps => shadowing p :: shadowings ps

def fieldShadowings : List (String × Pattern) → List (String × Pattern)
  | [] => []
  | (n, p) :: fs => (n, shadowing p) :: fieldShadowings fs

/-- The shadowing parts of those patterns that do not match every value. -/
def partShadowings : List Pattern → List Pattern
  | [] => []
  | p :: ps => if p.matchesAll then partShadowings ps else shadowing p :: partShadowings ps

end

end Pattern

end Typed

end PatternPlan
