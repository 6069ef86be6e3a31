import PatternPlan.Json.Reader

/-!
# Shapes of values

An object may name a key more than once, so that one place of a document is written several times.
What the place holds follows from all values written to it, oldest first: `null` leaves a plain
place as it is and takes an optional part away, a record is completed field by field, and an item of
a list is completed by the items at its index, those that a shorter list hid included, up to the
point where the list was emptied.  A value of the wrong shape is refused even if a later one replaces
it.

* `Reader` — reads a place from the values written to it;
* `Reader.text`, `Reader.flag`, `Reader.int`, `Reader.nat`, `Reader.named` — plain places;
* `Reader.option`, `Reader.listed`, `Reader.list` — parts that may be missing, and lists;
* `Reader.record` — records, whose keys are looked up as they stand and else without regard to case.
-/

namespace PatternPlan

/-- Reads a place of a document from the values written to it, oldest first. -/
abbrev Reader (α : Type) := List Json → Option α

namespace Reader

/-! ### Plain places -/

/-- The last value that is not `null`, or else `a`. -/
def plain {α : Type} (read : Json → Option α) : (a : α) → Reader α
  | a, [] => some a
  | a, .null :: js => plain read a js
  | _, j :: js => (read j).bind fun b => plain read b js

def text : Reader String :=
  plain (fun j => match j with
    | .text s => some s
    | _ => none) ""

def flag : Reader Bool :=
  plain (fun j => match j with
    | .bool b => some b
    | _ => none) false

/-- A whole number of 64 bits. -/
def int : Reader Int :=
  plain (fun j => match j with
    | .number n => (Json.intOfNumeral? n).filter fitsInt64
    | _ => none) 0

/-- The number of a row: 32 bits without a sign. -/
def nat : Reader Nat :=
  plain (fun j => match j with
    | .number s =>
      if s.toList.contains '-' then none
      else ((Json.intOfNumeral? s).filter fitsUInt32).map Int.toNat
    | _ => none) 0

/-- A text that names one of several things; `null` names none of them. -/
def named {α : Type} (ofName : String → Option α) : (a : α) → Reader α
  | a, [] => some a
  | _, .text s :: js => (ofName s).bind fun b => named ofName b js
  | _, _ :: _ => none

/-! ### Optional parts -/

/-- A part that `null` takes away; `since` is what was written to it after the last `null`. -/
def optionFrom {α : Type} (r : Reader α) : (since : List Json) → Reader (Option α)
  | since, [] => if since.isEmpty then some none else (r since).map some
  | since, .null :: js =>
    if since.isEmpty then optionFrom r [] js else (r since).bind fun _ => optionFrom r [] js
  | since, j :: js => optionFrom r (since ++ [j]) js

/-- A part that `null` takes away. -/
def option {α : Type} (r : Reader α) : Reader (Option α) := optionFrom r []

/-! ### Lists -/

/-- Adds one item to each column. -/
def addRow : (columns : List (List Json)) → (row : List Json) → List (List Json)
  | columns, [] => columns
  | [], j :: js => [j] :: addRow [] js
  | c :: cs, j :: js => (c ++ [j]) :: addRow cs js

/-- For each index the items that stand there, oldest first. -/
def columns (rows : List (List Json)) : List (List Json) := rows.foldl addRow []

theorem addRow_nil (row : List Json) : addRow [] row = row.map fun j => [j] := by
  induction row with
  | nil => rfl
  | cons j js ih => simp only [addRow, ih, List.map_cons]

/-- A list that is written once has one item at each index. -/
theorem columns_singleton (row : List Json) : columns [row] = row.map fun j => [j] :=
  addRow_nil row

/-- The items of lists written one after the other: as many as the last one has. -/
def items {α : Type} (r : Reader α) (rows : List (List Json)) : Option (List α) :=
  ((columns rows).mapM r).map fun l => l.take (rows.getLast?.getD []).length

/-- A list that may be missing; `since` holds the lists written to it after it was last emptied. -/
def listedFrom {α : Type} (r : Reader α) : (since : Option (List (List Json))) → Reader (Option (List α))
  | none, [] => some none
  | some rows, [] => (items r rows).map some
  | since, .null :: js => (items r (since.getD [])).bind fun _ => listedFrom r none js
  | since, .array [] :: js => (items r (since.getD [])).bind fun _ => listedFrom r (some []) js
  | since, .array row :: js => listedFrom r (some (since.getD [] ++ [row])) js
  | _, _ :: _ => none

/-- A list that may be missing. -/
def listed {α : Type} (r : Reader α) : Reader (Option (List α)) := listedFrom r none

/-- A list; `null` is the empty one. -/
def list {α : Type} (r : Reader α) : Reader (List α) := fun js =>
  (listed r js).map (Option.getD · [])

/-! ### Records -/

/-- A letter without its case.  Two letters outside ASCII have ASCII capitals. -/
def foldChar (c : Char) : Char :=
  if c = '\u017f' then 'S' else if c = '\u212a' then 'K' else c.toUpper

/-- A key without its case. -/
def foldKey (s : String) : List Char := s.toList.map foldChar

/-- The name that a key stands for: an equal one, or else one that differs in case only. -/
def nameOf? (names : List String) (key : String) : Option String :=
  (names.find? (· = key)).or (names.find? fun n => foldKey n = foldKey key)

/-- The fields of an object under their names; a strict reader refuses keys that have none. -/
def known (strict : Bool) (names : List String) :
    List (String × Json) → Option (List (String × Json))
  | [] => some []
  | (key, j) :: fields =>
    match nameOf? names key with
    | some n => (known strict names fields).map ((n, j) :: ·)
    | none => if strict then none else known strict names fields

/-- For each object written to a place its fields under their names. -/
def objects (strict : Bool) (names : List String) :
    List Json → Option (List (List (String × Json)))
  | [] => some []
  | .null :: js => objects strict names js
  | .object fields :: js => do
    let here ← known strict names fields
    let rest ← objects strict names js
    some (here :: rest)
  | _ :: _ => none

/-- The values that fields give to a name, oldest first. -/
def valuesOf (fields : List (String × Json)) (name : String) : List Json :=
  fields.filterMap fun f => if f.1 = name then some f.2 else none

/-- A record, built from the values written to each of its fields. -/
def record {α : Type} (strict : Bool) (names : List String)
    (build : (String → List Json) → Option α) : Reader α := fun js =>
  (objects strict names js).bind fun os => build (valuesOf os.flatten)

end Reader

end PatternPlan
