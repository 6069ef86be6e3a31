import PatternPlan.Regex.Fold

/-!
# Expressions and how large they are

* `Flags` — what a group may switch;
* `Form`, `Expr` — an expression: its form, its parts, and its size and height where they were
  noted;
* `Expr.resized`, `Expr.remeasured` — notes the size or height of an expression, from what is noted
  of its parts;
* `Expr.copies` — how often its innermost part may be repeated.

A noted size or height is not taken again when a part changes: only an expression that is finished
is measured, and then from the notes of its parts.
-/

namespace PatternPlan.Regex

/-- What a group may switch. -/
structure Flags where
  /-- Letters that differ in case only are the same. -/
  ignoreCase : Bool := false
  /-- The point stands for the end of a line, too. -/
  dotAll : Bool := false
  /-- The marks for the ends of the text stand for the ends of lines. -/
  multiline : Bool := false
  /-- A repetition takes as little as it can. -/
  ungreedy : Bool := false
deriving DecidableEq

/-- The forms of expressions.  The last two are marks that stand between expressions as long as a
group is open. -/
inductive Form where
  | empty
  /-- Characters that stand for themselves, the last one first. -/
  | literal (flags : Flags) (reversed : List Nat)
  | set (points : CharSet)
  | anyButNewline
  | any
  | assertion
  | capture
  | star
  | plus
  | optional
  | repeated (ungreedy : Bool) (least : Nat) (most : Option Nat)
  | sequence
  | choice
  | opened (captures : Bool) (flags : Flags)
  | bar
deriving DecidableEq

/-- An expression, with its size and height where they were noted. -/
structure Expr where
  form : Form
  parts : List Expr := []
  size? : Option Nat := none
  height? : Option Nat := none

namespace Form

/-- The marks that are no expressions. -/
def isMark : Form → Bool
  | opened _ _ | bar => true
  | _ => false

/-- The forms that stand for one character. -/
def isSingle : Form → Bool
  | literal _ [_] | set _ | anyButNewline | any => true
  | _ => false

/-- How many numbers the characters of a form take. -/
def runeCount : Form → Nat
  | literal _ rs => rs.length
  | set s => 2 * s.runs.length
  | _ => 0

/-- The forms that stand for one character, by how much they can hold. -/
def rank : Form → Nat
  | set _ => 1
  | anyButNewline => 2
  | any => 3
  | _ => 0

/-- The sum of sizes. -/
def total (sizes : List Nat) : Nat := sizes.foldl (fun n m => n + m) 0

/-- The size of a form with parts of the given sizes: about how many steps of a machine it takes. -/
def size (parts : List Nat) : Form → Nat
  | literal _ rs => max 1 rs.length
  | capture | star => 2 + total parts
  | plus | optional => 1 + total parts
  | sequence => max 1 (total parts)
  | choice => max 1 (total parts + (parts.length - 1))
  | repeated _ 0 none => 2 + total parts
  | repeated _ least none => 1 + least * total parts
  | repeated _ least (some most) => max 1 (most * total parts + (most - least))
  | _ => 1

end Form

namespace Expr

/-- The size that was noted. -/
def noted (e : Expr) : Nat := e.size?.getD 1

/-- The height that was noted. -/
def notedHeight (e : Expr) : Nat := e.height?.getD 1

/-- Notes the size. -/
def withSize (e : Expr) (parts : List Expr) : Expr :=
  { e with parts := parts, size? := some (e.form.size (parts.map noted)) }

/-- Notes the height. -/
def withHeight (e : Expr) (parts : List Expr) : Expr :=
  { e with parts := parts, height? := some (1 + parts.foldl (fun h p => max h p.notedHeight) 0) }

mutual

/-- Notes the size of an expression and of its parts, where none was noted. -/
def sized : Expr → Expr
  | ⟨form, parts, none, height⟩ => withSize ⟨form, [], none, height⟩ (sizedAll parts)
  | ⟨form, parts, some n, height⟩ => ⟨form, parts, some n, height⟩

def sizedAll : List Expr → List Expr
  | [] => []
  | e :: es => sized e :: sizedAll es

end

mutual

/-- Notes the height of an expression and of its parts, where none was noted. -/
def measured : Expr → Expr
  | ⟨form, parts, size, none⟩ => withHeight ⟨form, [], size, none⟩ (measuredAll parts)
  | ⟨form, parts, size, some h⟩ => ⟨form, parts, size, some h⟩

def measuredAll : List Expr → List Expr
  | [] => []
  | e :: es => measured e :: measuredAll es

end

/-- Notes the size of an expression again. -/
def resized (e : Expr) : Expr := e.withSize (sizedAll e.parts)

/-- Notes the height of an expression again. -/
def remeasured (e : Expr) : Expr := e.withHeight (measuredAll e.parts)

mutual

/-- How often the innermost part of an expression may be repeated. -/
def copies : Expr → Nat
  | ⟨form, parts, _, _⟩ =>
    match form with
    | .repeated _ _ (some 0) => 0
    | .repeated _ least most => max 1 (most.getD least) * max 1 (copiesAll parts)
    | _ => copiesAll parts

def copiesAll : List Expr → Nat
  | [] => 1
  | e :: es => max (copies e) (copiesAll es)

end

end Expr

/-! ### Forms that stand for one character -/

namespace Form

/-- What a character stands for. -/
def literalSet (flags : Flags) (c : Nat) : CharSet :=
  if flags.ignoreCase then .ofRuns ((Fold.variants c).map fun d => (d, d)) else ⟨[(c, c)]⟩

/-- Whether a form that stands for one character stands for the end of a line. -/
def hasNewline : Form → Bool
  | literal _ rs => rs = [10]
  | set s => s.contains 10
  | any => true
  | _ => false

/-- What stands for the characters of two forms; the second ranks no higher than the first. -/
def absorb : Form → Form → Form
  | anyButNewline, f => if f.hasNewline then any else anyButNewline
  | set s, literal flags [c] => set (s.union (literalSet flags c))
  | set s, set t => set (s.union t)
  | literal f [a], literal g [b] =>
    if a = b && f = g then literal f [a] else set ((literalSet f a).union (literalSet g b))
  | f, _ => f

/-- A set that holds everything, or everything but the end of a line, has a form of its own. -/
def tidy : Form → Form
  | set s => if s = .full then any else if s = .noNewline then anyButNewline else set s
  | f => f

/-- The set of one character, or of the two cases of a letter, as that character; the second
component tells that case is ignored. -/
def single? : Form → Option (Nat × Bool)
  | set ⟨[(a, b)]⟩ =>
    if a = b then some (a, false)
    else if b = a + 1 && Fold.variants a = [a, b] then some (a, true)
    else none
  | set ⟨[(a, b), (c, d)]⟩ =>
    if a = b && c = d && Fold.variants a = [a, c] then some (a, true) else none
  | _ => none

/-- Whether two forms stand for the same one character. -/
def sameSingle : Form → Form → Bool
  | literal _ [a], literal _ [b] => a = b
  | set s, set t => s = t
  | anyButNewline, anyButNewline | any, any => true
  | _, _ => false

end Form

namespace Expr

/-- Whether two expressions start in the same simple way: with the same one character, or with it
the same fixed number of times. -/
def sameLead (a b : Expr) : Bool :=
  match a.form, a.parts, b.form, b.parts with
  | .repeated f least most, [x], .repeated g least' most', [y] =>
    f = g && least = least' && most = some least && most' = most && x.form.sameSingle y.form
  | f, _, g, _ => f.sameSingle g

end Expr

end PatternPlan.Regex
