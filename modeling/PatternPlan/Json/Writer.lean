import PatternPlan.Json.Value
import PatternPlan.Text.Quoted

/-!
# Writing JSON

* `Json.quote` — a string between quotes; besides the characters that must be escaped, `<`, `>`,
  `&`, U+2028 and U+2029 are written as `\uNNNN`, so that the text can stand in a page;
* `Json.compact` — a value without blanks;
* `Json.indented` — one item per line, two blanks per level; an empty array or object stays on its
  line;
* `Json.written` — either of them.  A text that is to be indented is read once more, and refused if it
  nests too deep.
-/

namespace PatternPlan

namespace Json

/-- One character of a string. -/
def escaped (c : Char) : List Char :=
  if c = '"' || c = '\\' then ['\\', c]
  else if c = '\x08' then ['\\', 'b']
  else if c = '\x0c' then ['\\', 'f']
  else if c = '\n' then ['\\', 'n']
  else if c = '\r' then ['\\', 'r']
  else if c = '\t' then ['\\', 't']
  else if c.toNat < 0x20 || c = '<' || c = '>' || c = '&' || c = '\u2028' || c = '\u2029' then
    '\\' :: 'u' :: Quoted.hex 4 c.toNat
  else [c]

/-- A string between quotes. -/
def quote (s : String) : String := String.ofList ('"' :: s.toList.flatMap escaped ++ ['"'])

mutual

/-- A value without blanks. -/
def compact : Json → String
  | .null => "null"
  | .bool b => if b then "true" else "false"
  | .number n => n
  | .text s => quote s
  | .array items => "[" ++ ",".intercalate (compactItems items) ++ "]"
  | .object fields => "\x7b" ++ ",".intercalate (compactFields fields) ++ "\x7d"

/-- The items of an array. -/
def compactItems : List Json → List String
  | [] => []
  | v :: vs => compact v :: compactItems vs

/-- The fields of an object. -/
def compactFields : List (String × Json) → List String
  | [] => []
  | (k, v) :: fs => (quote k ++ ":" ++ compact v) :: compactFields fs

end

/-- A new line with `level` steps of indentation. -/
def newline (level : Nat) : String :=
  String.ofList ('\n' :: List.replicate (2 * level) ' ')

/-- Pieces on lines of their own between two brackets. -/
def bracketed (opening closing : String) (level : Nat) : List String → String
  | [] => opening ++ closing
  | pieces =>
    opening ++ newline (level + 1) ++ ("," ++ newline (level + 1)).intercalate pieces
      ++ newline level ++ closing

mutual

/-- A value with one item per line, its first line standing at `level`. -/
def indentedAt (level : Nat) : Json → String
  | .null => "null"
  | .bool b => if b then "true" else "false"
  | .number n => n
  | .text s => quote s
  | .array items => bracketed "[" "]" level (indentedItems (level + 1) items)
  | .object fields => bracketed "\x7b" "\x7d" level (indentedFields (level + 1) fields)

/-- The items of an array. -/
def indentedItems (level : Nat) : List Json → List String
  | [] => []
  | v :: vs => indentedAt level v :: indentedItems level vs

/-- The fields of an object. -/
def indentedFields (level : Nat) : List (String × Json) → List String
  | [] => []
  | (k, v) :: fs => (quote k ++ ": " ++ indentedAt level v) :: indentedFields level fs

end

/-- A value with one item per line. -/
def indented (v : Json) : String := indentedAt 0 v

/-- A value, indented or not. -/
def render (indent : Bool) (v : Json) : String := if indent then v.indented else v.compact

/-! ### Depth -/

mutual

/-- The first bracket of a value that opens a level behind `room` others. -/
def bracketAt? : (room : Nat) → Json → Option Char
  | 0, .array _ => some '['
  | 0, .object _ => some '\x7b'
  | room + 1, .array items => bracketAtItems? room items
  | room + 1, .object fields => bracketAtFields? room fields
  | _, _ => none

def bracketAtItems? (room : Nat) : List Json → Option Char
  | [] => none
  | v :: vs => (bracketAt? room v).or (bracketAtItems? room vs)

def bracketAtFields? (room : Nat) : List (String × Json) → Option Char
  | [] => none
  | (_, v) :: fs => (bracketAt? room v).or (bracketAtFields? room fs)

end

/-- Why a text is refused that is read once more, if it nests too deep. -/
def refusal? (v : Json) : Option String :=
  if v.depth ≤ maxNesting then none
  else some ("invalid character '" ++ String.ofList (bracketAt? maxNesting v).toList
    ++ "' exceeded max depth")

/-- A value as text, unless it is refused. -/
def written (indent : Bool) (v : Json) : Except String String :=
  match (if indent then v.refusal? else none) with
  | some e => .error e
  | none => .ok (v.render indent)

theorem refusal?_eq_none {v : Json} (h : v.depth ≤ maxNesting) : v.refusal? = none := if_pos h

theorem written_eq {v : Json} (h : v.depth ≤ maxNesting) (indent : Bool) :
    v.written indent = .ok (v.render indent) := by
  rw [written, refusal?_eq_none h, ite_self]

/-- Whatever is written is the text of the value. -/
theorem eq_render_of_written {v : Json} {indent : Bool} {text : String}
    (h : v.written indent = .ok text) : text = v.render indent := by
  rw [written] at h
  split at h
  · cases h
  · exact (Except.ok.inj h).symm

end Json

end PatternPlan
