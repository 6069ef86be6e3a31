import PatternPlan.Number.Shortest

/-!
# JSON values

* `Json` — a value as it stands in a text: numbers keep their numeral, objects keep the order and
  repetitions of their keys;
* constructors for the values this project writes (`Json.int`, `Json.double`, …);
* `Json.field?` — the last value given for a key;
* `Json.depth`, `Json.maxNesting` — how deep a value nests, and how deep it may.
-/

namespace PatternPlan

/-- A JSON value. -/
inductive Json where
  | null
  | bool (b : Bool)
  | number (numeral : String)
  | text (s : String)
  | array (items : List Json)
  | object (fields : List (String × Json))
deriving Inhabited

namespace Json

/-- Floats in JSON: positional for decimal exponents from -6 to 20. -/
def doubleStyle : DoubleStyle := ⟨-6, 21, 1⟩

/-- An integer. -/
def int (i : Int) : Json := .number (decimal i)

/-- A double, with the fewest digits that read back. -/
def double (d : Double) : Json := .number (d.render doubleStyle)

/-- A list of texts. -/
def texts (ss : List String) : Json := .array (ss.map .text)

/-- `null` for `none`. -/
def option {α : Type} (f : α → Json) : Option α → Json
  | some a => f a
  | none => .null

/-- The last value given for a key, if the value is an object that has it. -/
def field? (key : String) : Json → Option Json
  | .object fields => (fields.reverse.find? fun f => f.1 = key).map (·.2)
  | _ => none

/-- How deep a value nests. -/
def depth : Json → Nat
  | .array items => depthOfItems items + 1
  | .object fields => depthOfFields fields + 1
  | _ => 0
where
  depthOfItems : List Json → Nat
    | [] => 0
    | v :: vs => max (depth v) (depthOfItems vs)
  depthOfFields : List (String × Json) → Nat
    | [] => 0
    | (_, v) :: fs => max (depth v) (depthOfFields fs)

/-- How deep arrays and objects may nest. -/
def maxNesting : Nat := 10000

end Json

end PatternPlan
