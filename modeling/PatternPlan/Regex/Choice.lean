import PatternPlan.Regex.Builder

/-!
# Alternatives

Alternatives are simplified while they are put together: what several in a row start with is taken
out of them, those that stand for one character become one set, and of several empty ones in a row
one is left.

* `chunks` — divides a list where neighbours have nothing in common;
* `Build.factor` — the four simplifications, one after the other;
* `Build.choice` — several alternatives as one expression;
* `Build.swapBar`, `Build.bar` — what happens at the bar between alternatives;
* `Build.choose` — the alternatives of a group that ends.
-/

namespace PatternPlan.Regex

/-- Divides a list into stretches of neighbours that have something in common: `lead` is what may be
shared, and `meet` what two of them share. -/
def chunksFrom {α β : Type} (lead : α → β) (meet : β → β → Option β) (common : β)
    (reversed : List α) : List α → List (β × List α)
  | [] => [(common, reversed.reverse)]
  | e :: es =>
    match meet common (lead e) with
    | some common => chunksFrom lead meet common (e :: reversed) es
    | none => (common, reversed.reverse) :: chunksFrom lead meet (lead e) [e] es

def chunks {α β : Type} (lead : α → β) (meet : β → β → Option β) : List α → List (β × List α)
  | [] => []
  | e :: es => chunksFrom lead meet (lead e) [e] es

/-- What two lists start with. -/
def commonStart : List Nat → List Nat → List Nat
  | a :: as, b :: bs => if a = b then a :: commonStart as bs else []
  | _, _ => []

namespace Expr

/-- The first part of a sequence; any other expression is its own first part. -/
def first (e : Expr) : Expr :=
  match e.form, e.parts with
  | .sequence, p :: _ => p
  | _, _ => e

/-- The characters that an expression starts with, and whether their case is ignored. -/
def leadingText (e : Expr) : Bool × List Nat :=
  match e.first.form with
  | .literal flags cs => (flags.ignoreCase, cs.reverse)
  | _ => (false, [])

/-- What two starts have in common, if that is something. -/
def sharedText (a b : Bool × List Nat) : Option (Bool × List Nat) :=
  if a.1 = b.1 then
    match commonStart a.2 b.2 with
    | [] => none
    | cs => some (a.1, cs)
  else none

/-- What two starts have in common, if both start in the same simple way. -/
def sharedLead (a b : Expr) : Option Expr := if a.sameLead b then some a else none

/-- Puts the expression with the highest rank, and of those the first with the most intervals, in
front; the first one takes its place. -/
def largestFirst : List Expr → List Expr
  | [] => []
  | e :: es =>
    let larger (a b : Expr) : Bool :=
      a.form.rank < b.form.rank
        || (a.form.rank = b.form.rank && a.form.runeCount < b.form.runeCount)
    let best := es.zipIdx.foldl
      (fun (m : Expr × Option Nat) (b : Expr × Nat) => if larger m.1 b.1 then (b.1, some b.2) else m)
      (e, none)
    match best with
    | (b, some i) => b :: es.set i e
    | (_, none) => e :: es

/-- Of empty expressions in a row, the last one is left. -/
def dropEmpty : List Expr → List Expr
  | a :: b :: es =>
    if a.form = .empty && b.form = .empty then dropEmpty (b :: es) else a :: dropEmpty (b :: es)
  | es => es

end Expr

namespace Build

/-- Takes the first part off a sequence, which is given up when only one part is left. -/
def dropPart (e : Expr) : Build Expr :=
  match e.parts.drop 1 with
  | [p] => do
    free e
    return p
  | ps => return { e with parts := ps }

/-- Takes characters off the front of a literal. -/
def shorten (n : Nat) (e : Expr) : Expr :=
  match e.form with
  | .literal flags cs =>
    match cs.take (cs.length - n) with
    | [] => { e with form := .empty }
    | cs => { e with form := .literal flags cs }
  | _ => e

/-- Takes characters off the front of an expression. -/
def dropText (n : Nat) (e : Expr) : Build Expr := do
  match e.form, e.parts with
  | .sequence, p :: ps =>
    let p := shorten n p
    if p.form = .empty then
      free p
      dropPart e
    else return { e with parts := p :: ps }
  | _, _ => return shorten n e

/-- Takes the first part off an expression; `spent` tells that nothing else uses it. -/
def dropFirst (spent : Bool) (e : Expr) : Build Expr := do
  if spent then free e.first
  match e.form, e.parts with
  | .sequence, _ :: _ => dropPart e
  | _, _ => make .empty []

/-- What several alternatives start with, before the choice of what is left of them. -/
def prefixed (join : List Expr → Build Expr) (lead : Expr) (rests : List Expr) : Build Expr := do
  let rest ← join rests
  make .sequence [lead, rest]

/-- Takes the text out that alternatives share at their start. -/
def factorText (join : List Expr → Build Expr) :
    (Bool × List Nat) × List Expr → Build Expr
  | (_, [e]) => return e
  | ((ignoreCase, cs), es) => do
    let lead ← make (.literal { ignoreCase := ignoreCase } cs.reverse) []
    let rests ← es.mapM fun e => do checkLimits (← dropText cs.length e)
    prefixed join lead rests

/-- Takes the one character, or its fixed repetition, out that alternatives share at their
start. -/
def factorLead (join : List Expr → Build Expr) : Expr × List Expr → Build Expr
  | (lead, e :: f :: es) => do
    let rest ← checkLimits (← dropFirst false e)
    let rests ← (f :: es).mapM fun e => do checkLimits (← dropFirst true e)
    prefixed join lead (rest :: rests)
  | (lead, es) => return es.headD lead

/-- Makes one set of alternatives that stand for one character. -/
def mergeSingles (es : List Expr) : Build Expr := do
  match Expr.largestFirst es with
  | [] => make .empty []
  | e :: es =>
    es.forM free
    return { e with form := (es.foldl (fun f s => f.absorb s.form) e.form).tidy }

/-- Makes one set of each stretch of alternatives that stand for one character. -/
def factorSingles : Bool × List Expr → Build Expr
  | (_, [e]) => return e
  | (_, es) => mergeSingles es

/-- Simplifies alternatives; `join` makes one expression of several. -/
def factor (join : List Expr → Build Expr) (es : List Expr) : Build (List Expr) := do
  let es ← (chunks Expr.leadingText Expr.sharedText es).mapM (factorText join)
  let es ← (chunks Expr.first Expr.sharedLead es).mapM (factorLead join)
  let es ← (chunks (·.form.isSingle) (fun a b => if a && b then some true else none) es).mapM
    factorSingles
  return Expr.dropEmpty es

/-- Several alternatives as one expression.  What is shared is taken out of what is left, too; each
time this makes the alternatives shorter, so `room` is the length of the text at most. -/
def choice : (room : Nat) → List Expr → Build Expr
  | 0 => gather .choice pure
  | room + 1 => gather .choice (factor (choice room))

/-- Where a bar is below the top of the stack: moves it to the top.  If the expressions around it
stand for one character each, they become one set.  The result tells whether there was a bar. -/
def swapBar : Build Bool := do
  let b ← get
  match b.stack with
  | upper :: mark :: below =>
    if mark.form = .bar then
      match below with
      | [] =>
        set { b with stack := [mark, upper] }
      | lower :: rest =>
        if upper.form.isSingle && lower.form.isSingle then
          let (small, large) :=
            if lower.form.rank < upper.form.rank then (lower, upper) else (upper, lower)
          let large := { large with form := large.form.absorb small.form }
          set { b with stack := mark :: large :: rest }
          free small
        else
          let lower := { lower with form := lower.form.tidy }
          set { b with stack := mark :: upper :: lower :: rest }
      return true
    else return false
  | _ => return false

/-- Ends an alternative. -/
def bar : Build Unit := do
  sequence
  unless ← swapBar do
    pushNew .bar

/-- Makes one expression of the alternatives of the group that ends. -/
def choose : Build Unit := do
  sequence
  if ← swapBar then modify fun b => { b with stack := b.stack.drop 1 }
  modify fun b => match b.stack with
    | e :: rest => { b with stack := { e with form := e.form.tidy } :: rest }
    | [] => b
  let room := (← get).whole.length
  push (← choice room (← takeTop))

end Build

end PatternPlan.Regex
