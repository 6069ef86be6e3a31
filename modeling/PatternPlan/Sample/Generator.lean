import PatternPlan.Sample.Tree

/-!
# Sample programs

Programs made of matches, driven by bytes: every choice takes one byte, and once the bytes are used
up every choice is the first one, so that the text always ends.

* `Sample.Source` — the bytes that are left, and how many names were given out;
* `Sample.Gen` — what a choice may depend on;
* `Sample.pattern`, `Sample.arm`, `Sample.function` — the parts of a program;
* `Sample.functions` — the functions of a list of bytes;
* `Sample.program` — the program of a list of bytes.
-/

namespace PatternPlan.Sample

/-- The bytes that are left, and how many names were given out. -/
structure Source where
  bytes : List UInt8
  fresh : Nat := 0

/-- A value that depends on choices. -/
abbrev Gen (α : Type) := StateM Source α

/-- One of `n` choices. -/
def draw (n : Nat) (hn : 0 < n := by decide) : Gen (Fin n) := fun s =>
  match s.bytes with
  | [] => (⟨0, hn⟩, s)
  | b :: bs => (⟨b.toNat % n, Nat.mod_lt _ hn⟩, { s with bytes := bs })

/-- The number of a name that was not given out before. -/
def name : Gen Nat := fun s => (s.fresh + 1, { s with fresh := s.fresh + 1 })

/-- How deep alternatives and names may nest. -/
def maxDepth : Nat := 3

/-- Several values. -/
def several {α : Type} (one : Gen α) : Nat → Gen (List α)
  | 0 => return []
  | n + 1 => do
    let a ← one
    let as ← several one n
    return a :: as

/-- A part that stands in one of `n` cases. -/
def sometimes {α : Type} (n : Nat) (part : Gen α) (hn : 0 < n := by decide) : Gen (Option α) := do
  let k ← draw n hn
  if k.val = 0 then
    let a ← part
    return some a
  else return none

/-! ### Patterns -/

/-- A pattern that binds nothing. -/
def closed : Target → Gen Form
  | .int => do
    let n ← draw 10
    return .leaf (.number n)
  | .bool => do
    let k ← draw 2
    return .leaf (.truth (k = 0))
  | .string => do
    let i ← draw 3
    return .leaf (.string i)
  | .option => do
    let k ← draw 3
    match k with
    | 0 => return .leaf (.bare .none)
    | 1 => return .apply .some (.leaf .wildcard)
    | 2 => return .apply .some (.leaf (.number 0))
  | .pair => do
    let n ← draw 10
    return .pair (.leaf (.number n)) (.leaf .wildcard)
  | .shape => do
    let k ← draw 3
    match k with
    | 0 => return .leaf (.bare .dot)
    | 1 => return .apply .circle (.leaf .wildcard)
    | 2 => return .apply .square (.leaf (.number 1))
  | .array => do
    let k ← draw 3
    match k with
    | 0 => return .slice [] none
    | 1 => return .slice [.leaf .wildcard] none
    | 2 => return .slice [.leaf (.number 0)] (some none)

/-- A slice pattern over `element`. -/
def slice (element : Gen Form) : Gen Form := do
  let n ← draw 3
  let items ← several element n.val
  let k ← draw 3
  match k with
  | 0 => return .slice items (some none)
  | 1 => do
    let x ← name
    return .slice items (some (some x))
  | 2 => return .slice items none

/-- A pattern of the shape of a type; the patterns inside it are made by `inner`. -/
def shaped (inner : Target → Gen Form) : Target → Gen Form
  | .int => do
    let k ← draw 5
    match k with
    | 0 => do
      let first ← draw 10
      let more ← draw 10
      return .leaf (.range first more)
    | 1 => do
      let p ← inner .int
      return .call .even p
    | 2 => do
      let p ← inner .int
      return .call .sign p
    | 3 => do
      let n ← draw 5
      return .leaf (.negative n)
    | 4 => closed .int
  | .bool => closed .bool
  | .string => do
    let k ← draw 3
    if k = 0 then return .leaf .regex else closed .string
  | .option => do
    let k ← draw 2
    if k = 0 then
      let p ← inner .int
      return .apply .some p
    else return .leaf (.bare .none)
  | .pair => do
    let p ← inner .int
    let q ← inner .bool
    return .pair p q
  | .shape => do
    let k ← draw 3
    match k with
    | 0 => do
      let p ← inner .int
      return .apply .circle p
    | 1 => do
      let p ← inner .int
      return .apply .square p
    | 2 => return .leaf (.bare .dot)
  | .array => slice (inner .int)

/-- A pattern for a type.  A pattern with patterns inside takes a byte of its own, so that `room`
is used up no sooner than the bytes are. -/
def pattern : (room depth : Nat) → Target → Gen Form
  | 0, _, _ => return .leaf .wildcard
  | room + 1, depth, t => do
    let k ← draw 8
    match k with
    | 0 => return .leaf .wildcard
    | 1 => do
      let x ← name
      return .leaf (.name x)
    | 2 =>
      if depth < maxDepth then
        let p ← closed t
        let q ← closed t
        return .either p q
      else shaped (pattern room (depth + 1)) t
    | 3 =>
      if depth < maxDepth then
        let p ← pattern room (depth + 1) t
        let x ← name
        return .named p x
      else shaped (pattern room (depth + 1)) t
    | _ => shaped (pattern room (depth + 1)) t

/-! ### Programs -/

/-- Whether an arm starts on a new line. -/
def newLine : Gen Bool := do
  let k ← draw 3
  return k ≠ 0

/-- An arm of a match. -/
def arm (t : Target) : Gen Arm := do
  let broken ← newLine
  let s ← get
  let p ← pattern (s.bytes.length + 1) 1 t
  let asName ← sometimes 4 name
  let guard ← sometimes 4 do
    let k ← draw 3
    let n ← draw 3
    return (⟨k = 0, n⟩ : Guard)
  let body ← draw 100
  return ⟨broken, p, asName, guard, body⟩

/-- An arm that takes everything. -/
def fallback : Gen Arm := do
  let broken ← newLine
  return { newLine := broken, pattern := .leaf .wildcard, body := 0 }

/-- A function that matches on its parameter; the last arm takes everything in about half of the
cases. -/
def function (number : Nat) : Gen Function := do
  let t := Target.ofFin (← draw 7)
  let n ← draw 6
  let first ← arm t
  let more ← several (arm t) n.val
  let last ← sometimes 2 fallback
  return ⟨number, t, first, more ++ last.toList⟩

/-- `n` functions, the first one with a given number. -/
def functionsFrom (number : Nat) : (n : Nat) → Gen (List Function)
  | 0 => return []
  | n + 1 => do
    let f ← function number
    let fs ← functionsFrom (number + 1) n
    return f :: fs

/-- The functions of a list of bytes. -/
def functions (bytes : List UInt8) : List Function :=
  (do
    let n ← draw 4
    functionsFrom 0 (n.val + 1) : Gen (List Function)).run ⟨bytes, 0⟩ |>.1

/-- The functions of a list of bytes as they are written. -/
def body (bytes : List UInt8) : String :=
  String.join ((functions bytes).map fun f => "\n" ++ f.text ++ "\n")

/-- The program of a list of bytes. -/
def program (bytes : List UInt8) : String := prelude ++ body bytes

end PatternPlan.Sample
