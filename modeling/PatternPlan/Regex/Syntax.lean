import PatternPlan.Regex.Choice
import PatternPlan.Regex.Class

/-!
# The syntax of regular expressions

Whether a text is a regular expression, and if not, the first place that breaks the rules.

* `plain`, `repetition` — read one construct;
* `step` — reads one construct of either kind;
* `Regex.error?` — the first error of a text.
-/

namespace PatternPlan.Regex

/-! ### Groups -/

/-- Opens a group. -/
def enter (captures : Bool) : Build Unit := do
  Build.pushNew (.opened captures (← get).flags)

/-- Closes the innermost group, and restores the flags from before it. -/
def leave : Build Unit := do
  Build.choose
  match (← get).stack with
  | e :: mark :: rest =>
    match mark.form with
    | .opened captures flags =>
      modify fun b => { b with stack := rest, flags := flags }
      if captures then Build.push { mark with form := .capture, parts := [e] } else Build.push e
    | _ => Build.refuseWhole .unexpectedParen
  | _ => Build.refuseWhole .unexpectedParen

def isNameChar (c : Char) : Bool := c = '_' || c.isAlphanum

/-- A group with a name; `name` is what follows the opening angle. -/
def namedGroup (before name : List Char) : Build (List Char) :=
  match splitAt? '>' name with
  | none => throw ⟨.namedCapture, before⟩
  | some (n, rest) => do
    if n ≠ [] && n.all isNameChar then
      enter true
      return rest
    else refuse .namedCapture before rest

/-- A flag that a letter switches. -/
def Flags.switch? (f : Flags) (on : Bool) (c : Char) : Option Flags :=
  match c with
  | 'i' => some { f with ignoreCase := on }
  | 'm' => some { f with multiline := on }
  | 's' => some { f with dotAll := on }
  | 'U' => some { f with ungreedy := on }
  | _ => none

/-- Flags after `(?`: they hold up to the end of the group around them, or open a group. -/
def flags (before : List Char) : (f : Flags) → (negative saw : Bool) → List Char → Build (List Char)
  | _, _, _, [] => refuse .groupSyntax before []
  | f, negative, saw, c :: t =>
    match f.switch? (!negative) c with
    | some f => flags before f negative true t
    | none =>
      if c = '-' && !negative then flags before f true false t
      else if (c = ':' || c = ')') && (!negative || saw) then do
        if c = ':' then enter false
        modify fun b => { b with flags := f }
        return t
      else refuse .groupSyntax before t

/-- What follows `(?`; `before` starts with the parenthesis. -/
def group (before : List Char) : Build (List Char) := do
  match before.drop 2 with
  | 'P' :: '<' :: c :: t => namedGroup before (c :: t)
  | '<' :: c :: t => namedGroup before (c :: t)
  | t => flags before (← get).flags false false t

/-! ### Repetitions -/

/-- How often a part may be repeated. -/
def maxCopies : Nat := 1000

/-- A whole number without leading zeros; a large one is cut off where it is large enough. -/
def count? (cs : List Char) : Option (Nat × List Char) :=
  match cs with
  | '0' :: t => if (t.head?.map Char.isDigit).getD false then none else some (0, t)
  | _ =>
    let digits := cs.takeWhile Char.isDigit
    if digits.isEmpty then none
    else some (digits.foldl
      (fun n d => if 100000000 ≤ n then n else n * 10 + (d.toNat - '0'.toNat)) 0,
      cs.drop digits.length)

/-- The bounds of a repetition in braces; `none` if it is not one. -/
def bounds? (before : List Char) : Option (Nat × Option Nat × List Char) := do
  let (least, t) ← count? (before.drop 1)
  match t with
  | '\x7d' :: rest => some (least, some least, rest)
  | ',' :: '\x7d' :: rest => some (least, none, rest)
  | ',' :: t =>
    let (most, t) ← count? t
    match t with
    | '\x7d' :: rest => some (least, some most, rest)
    | _ => none
  | _ => none

/-- The mark of a lazy repetition, which is dropped. -/
def lazyMark : List Char → Bool × List Char
  | '?' :: t => (true, t)
  | t => (false, t)

/-- Whether the bounds of a repetition are such that its copies are counted. -/
def Form.multiplies : Form → Bool
  | .repeated _ least most => 2 ≤ max least (most.getD 0)
  | _ => false

/-- A repetition; `last` is the text from the repetition just before it on, if there is one, and
`form` its form where it takes as little as it can or not. -/
def repetition (last : Option (List Char)) (form : Bool → Form) (before after : List Char) :
    Build (Option (List Char) × List Char) := do
  let (isLazy, after) := lazyMark after
  match last with
  | some l => refuse .nestedRepeat l after
  | none =>
    match ← Build.repeatTop (form ((← get).flags.ungreedy != isLazy)) with
    | none => refuse .missingArgument before after
    | some e =>
      if e.form.multiplies && maxCopies < e.copies then refuse .repeatCount before after
      else return (some before, after)

/-! ### Expressions -/

/-- An escaped character that stands for itself; `before` starts with the backslash. -/
def escapedChar (before : List Char) : Build (List Char) := do
  let (c, rest) ← escape before
  Build.literal c
  return rest

/-- What follows a backslash; `before` starts with it. -/
def escaped (before : List Char) : Build (List Char) := do
  let ignoreCase := (← get).flags.ignoreCase
  match before.drop 1 with
  | [] => escapedChar before
  | 'C' :: u => refuse .escape before u
  | 'Q' :: u =>
    let (quotedPart, rest) := (splitAtPair? ('\\', 'E') u).getD (u, [])
    quotedPart.forM fun c => Build.literal c.toNat
    return rest
  | c :: u =>
    if c ∈ ['A', 'b', 'B', 'z'] then
      Build.pushNew .assertion
      return u
    else if c = 'p' || c = 'P' then
      let (s, rest) ← property ignoreCase before
      Build.pushNew (.set s)
      return rest
    else match letterClass? ignoreCase c with
      | some s =>
        Build.pushNew (.set s)
        return u
      | none => escapedChar before

/-- A construct that is no repetition. -/
def plain (before : List Char) : Build (List Char) := do
  match before with
  | [] => return []
  | '(' :: '?' :: _ => group before
  | '(' :: t =>
    enter true
    return t
  | '|' :: t =>
    Build.bar
    return t
  | ')' :: t =>
    leave
    return t
  | '^' :: t | '$' :: t =>
    Build.pushNew .assertion
    return t
  | '.' :: t =>
    Build.pushNew (if (← get).flags.dotAll then .any else .anyButNewline)
    return t
  | '[' :: _ =>
    let (s, rest) ← charClass (← get).flags.ignoreCase before
    Build.pushNew (.set s)
    return rest
  | '\\' :: _ => escaped before
  | c :: t =>
    Build.literal c.toNat
    return t

/-- Reads one construct.  The result tells whether it was a repetition. -/
def step (last : Option (List Char)) (cs : List Char) : Build (Option (List Char) × List Char) := do
  match cs with
  | '*' :: t => repetition last (fun _ => .star) cs t
  | '+' :: t => repetition last (fun _ => .plus) cs t
  | '?' :: t => repetition last (fun _ => .optional) cs t
  | '\x7b' :: t =>
    match bounds? cs with
    | none =>
      Build.literal '\x7b'.toNat
      return (none, t)
    | some (least, most, after) =>
      if maxCopies < least || (most.map fun m => maxCopies < m || m < least).getD false then
        refuse .repeatCount cs after
      else repetition last (fun ungreedy => .repeated ungreedy least most) cs after
  | _ => return (none, ← plain cs)

/-- Reads constructs until nothing is left.  Each reads something, so `room` is the number of
characters at most. -/
def steps : (room : Nat) → Option (List Char) → List Char → Build Unit
  | 0, _, _ => return
  | room + 1, last, cs => do
    if cs.isEmpty then return
    else
      let (last, cs) ← step last cs
      steps room last cs

/-- Reads a whole expression. -/
def read (cs : List Char) : Build Unit := do
  steps cs.length none cs
  Build.choose
  if (← get).stack.length ≠ 1 then Build.refuseWhole .missingParen

/-- What is wrong with a regular expression. -/
def error? (s : String) : Option Error :=
  match (read s.toList).run { whole := s.toList } with
  | .ok _ => none
  | .error e => some e

end PatternPlan.Regex
