import PatternPlan.Regex.Error
import PatternPlan.Regex.Expr

/-!
# Building expressions

Expressions are put together on a stack while the text is read; characters that stand side by side
become one literal, and every expression that is finished has to stay within the limits.

* `Builder` — the stack, and what the limits depend on;
* `Build` — an action on it, which may fail with an error;
* `Build.make`, `Build.free` — expressions take slots, and one that is given up leaves its slot,
  with the size noted there, to the next expression;
* `Build.checkLimits` — refuses what is too large or nests too deep;
* `Build.push`, `Build.literal`, `Build.repeatTop` — add to the stack;
* `Build.gather` — several expressions as one.
-/

namespace PatternPlan.Regex

/-- How deep expressions may nest. -/
def maxHeight : Nat := 1000

/-- How large an expression may be: so many instructions of 40 bytes fit in 128 MiB. -/
def maxSize : Nat := 3355443

/-- How many numbers all characters together may take: so many of 4 bytes fit in 128 MiB. -/
def maxRunes : Nat := 33554432

/-- The expressions that were read, and what the limits depend on. -/
structure Builder where
  /-- The text of the whole expression. -/
  whole : List Char
  flags : Flags := {}
  /-- Expressions and marks, the latest first. -/
  stack : List Expr := []
  /-- How many slots were taken at most. -/
  slots : Nat := 0
  /-- The sizes that are noted in the free slots, the one that is taken next first. -/
  spare : List (Option Nat) := []
  /-- How many numbers the characters took that were put on the stack. -/
  runes : Nat := 0
  /-- The product of all counts of repetitions. -/
  repeats : Nat := 1
  /-- Whether sizes are noted. -/
  sizing : Bool := false
  /-- Whether heights are noted. -/
  measuring : Bool := false

/-- An action on the expressions that were read. -/
abbrev Build := StateT Builder (Except Error)

namespace Build

/-- Fails with an error about the whole expression. -/
def refuseWhole {α : Type} (kind : ErrorKind) : Build α := do
  throw ⟨kind, (← get).whole⟩

/-! ### Slots -/

/-- A new expression. -/
def make (form : Form) (parts : List Expr) : Build Expr := do
  let b ← get
  match b.spare with
  | [] =>
    set { b with slots := b.slots + 1 }
    return { form, parts }
  | size :: spare =>
    set { b with spare := spare }
    return { form, parts, size? := size }

/-- Gives up an expression. -/
def free (e : Expr) : Build Unit := modify fun b => { b with spare := e.size? :: b.spare }

/-! ### Limits -/

/-- The product of the counts of repetitions, with that of one more expression. -/
def repeatsWith (repeats : Nat) : Form → Nat
  | .repeated _ least most =>
    let n := max 1 (most.getD least)
    if maxSize / repeats < n then maxSize else repeats * n
  | _ => repeats

/-- Notes the size of an expression, unless it is too large. -/
def noteSize (e : Expr) : Build Expr :=
  let e := e.resized
  if maxSize < e.noted then refuseWhole .tooLarge else return e

/-- Notes the height of an expression, unless it nests too deep. -/
def noteHeight (e : Expr) : Build Expr :=
  let e := e.remeasured
  if maxHeight < e.notedHeight then refuseWhole .tooDeep else return e

/-- Sizes are noted from the time on when the number of expressions and the counts of repetitions
no longer bound them. -/
def checkSize (e : Expr) : Build Expr := do
  let b ← get
  if b.sizing then noteSize e
  else
    let repeats := repeatsWith b.repeats e.form
    set { b with repeats := repeats }
    if b.slots < maxSize / repeats then return e
    else
      let stack ← b.stack.mapM noteSize
      modify fun b => { b with stack := stack, sizing := true }
      noteSize e

/-- Heights are noted from the time on when the number of expressions no longer bounds them. -/
def checkHeight (e : Expr) : Build Expr := do
  let b ← get
  if b.slots < maxHeight then return e
  else if b.measuring then noteHeight e
  else
    let stack ← b.stack.mapM noteHeight
    modify fun b => { b with stack := stack, measuring := true }
    noteHeight e

/-- Refuses an expression, which is not on the stack, if with it the limits are exceeded. -/
def checkLimits (e : Expr) : Build Expr := do
  if maxRunes < (← get).runes then refuseWhole .tooLarge
  else checkHeight (← checkSize e)

/-! ### The stack -/

/-- Makes one literal of the two on top of the stack, if they are literals that treat case alike.
If another character follows, it takes the place of the upper one; the result tells that it did. -/
def fuse (next : Option (Flags × Nat)) : Build Bool := do
  let b ← get
  match b.stack with
  | upper :: lower :: rest =>
    match upper.form, lower.form with
    | .literal f cs, .literal g ds =>
      if f.ignoreCase = g.ignoreCase then
        let lower := { lower with form := .literal g (cs ++ ds) }
        match next with
        | some (flags, c) =>
          set { b with stack := { upper with form := .literal flags [c] } :: lower :: rest }
          return true
        | none =>
          set { b with stack := lower :: rest }
          free upper
          return false
      else return false
    | _, _ => return false
  | _ => return false

/-- Puts an expression on the stack as it is. -/
def put (e : Expr) : Build Unit := do
  let e ← checkLimits e
  modify fun b => { b with stack := e :: b.stack }

/-- Puts an expression on the stack.  A set of one character, or of the two cases of a letter, is
put there as a literal. -/
def push (e : Expr) : Build Unit := do
  modify fun b => { b with runes := b.runes + e.form.runeCount }
  match e.form.single? with
  | some (c, ignoreCase) =>
    let flags := { (← get).flags with ignoreCase := ignoreCase }
    unless ← fuse (some (flags, c)) do
      put { e with form := .literal flags [c] }
  | none =>
    let _ ← fuse none
    put e

/-- Puts a new expression without parts on the stack. -/
def pushNew (form : Form) : Build Unit := do
  push (← make form [])

/-- Puts a character that stands for itself on the stack. -/
def literal (c : Nat) : Build Unit := do
  let flags := (← get).flags
  pushNew (.literal flags [if flags.ignoreCase then Fold.least c else c])

/-- Repeats the expression on top of the stack, and gives it back; `none` if there is none. -/
def repeatTop (form : Form) : Build (Option Expr) := do
  match (← get).stack with
  | [] => return none
  | e :: rest =>
    if e.form.isMark then return none
    else
      let e ← make form [e]
      modify fun b => { b with stack := rest }
      put e
      return some e

/-- Takes the expressions above the uppermost mark off the stack, in the order they were read. -/
def takeTop : Build (List Expr) := do
  let b ← get
  set { b with stack := b.stack.dropWhile fun e => !e.form.isMark }
  return (b.stack.takeWhile fun e => !e.form.isMark).reverse

/-! ### Several expressions as one -/

/-- The parts of expressions of a form, which are given up, and the others as they are. -/
def dissolve (form : Form) (e : Expr) : Build (List Expr) := do
  if e.form = form then
    free e
    return e.parts
  else return [e]

/-- Several expressions as one of the given form, unless `refine` leaves only one of its parts. -/
def gather (form : Form) (refine : List Expr → Build (List Expr)) : List Expr → Build Expr
  | [e] => return e
  | es => do
    let whole ← make form []
    let parts ← refine (← es.mapM (dissolve form)).flatten
    match parts with
    | [e] =>
      free whole
      return e
    | _ => return { whole with parts := parts }

/-- Makes one expression of those above the uppermost mark. -/
def sequence : Build Unit := do
  let _ ← fuse none
  match ← takeTop with
  | [] => pushNew .empty
  | es => push (← gather .sequence pure es)

end Build

end PatternPlan.Regex
