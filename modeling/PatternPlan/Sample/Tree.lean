import PatternPlan.Recognizer

/-!
# The parts of sample programs

Sample programs are matches on the parameters of functions.  Their patterns are written with
parentheses around all alternatives and around all names that a pattern is given, whether they are
needed or not.

* `Sample.Target` — the types that are matched on;
* `Sample.Leaf`, `Sample.Form` — patterns without and with patterns inside;
* `Sample.Arm`, `Sample.Function` — the arms of a match, and the function around it;
* `text` — each of them as it is written;
* `Sample.prelude` — the declarations that the matches use.
-/

namespace PatternPlan.Sample

/-- The types that are matched on. -/
inductive Target where
  | int | bool | string | option | pair | shape | array
deriving DecidableEq

/-- The type with a number. -/
def Target.ofFin : Fin 7 → Target
  | 0 => int
  | 1 => bool
  | 2 => string
  | 3 => option
  | 4 => pair
  | 5 => shape
  | 6 => array

/-- A type as it is written. -/
def Target.text : Target → String
  | int => "Int"
  | bool => "Bool"
  | string => "String"
  | option => "Option<Int>"
  | pair => "(Int, Bool)"
  | shape => "Shape"
  | array => "[Int]"

/-- The declarations that the matches use. -/
def prelude : String :=
  "type Shape = | Circle(Int) | Square(Int) | Dot\n\n"
    ++ "pattern (|Even|_|)(n: Int) = if n % 2 == 0 then Some(n) else None\n\n"
    ++ "@pure pattern (|Sign|)(n: Int) = if n < 0 then -1 else 1\n"

/-! ### Patterns -/

/-- The constructors without a field. -/
inductive Bare where
  | none | dot
deriving DecidableEq

def Bare.name : Bare → String
  | none => "None"
  | dot => "Dot"

/-- The constructors of one number. -/
inductive Wrapper where
  | some | circle | square
deriving DecidableEq

def Wrapper.name : Wrapper → String
  | some => "Some"
  | circle => "Circle"
  | square => "Square"

/-- The recognizers. -/
inductive Recognizer where
  | even | sign
deriving DecidableEq

def Recognizer.text : Recognizer → String
  | even => RecognizerKind.optional.label "Even"
  | sign => RecognizerKind.total.label "Sign"

/-- The text of a string pattern. -/
def stringText : Fin 3 → String
  | 0 => "a"
  | 1 => "b"
  | 2 => ""

/-- The name with a number. -/
def nameText (i : Nat) : String := "x" ++ decimal i

/-- A pattern without patterns inside. -/
inductive Leaf where
  | wildcard
  | name (i : Nat)
  | number (n : Fin 10)
  /-- The number `-(n + 1)`. -/
  | negative (n : Fin 5)
  /-- The numbers from `first` to `first + more`. -/
  | range (first more : Fin 10)
  | truth (b : Bool)
  | string (i : Fin 3)
  | regex
  | bare (c : Bare)

def Leaf.text : Leaf → String
  | wildcard => "_"
  | name i => nameText i
  | number n => decimal n.val
  | negative n => "-" ++ decimal (n.val + 1 : Nat)
  | range first more => decimal first.val ++ "..=" ++ decimal (first.val + more.val : Nat)
  | truth b => if b then "true" else "false"
  | string i => quoted (stringText i)
  | regex => "r\"^[a-z]+$\""
  | bare c => c.name

/-- A pattern. -/
inductive Form where
  | leaf (l : Leaf)
  | apply (c : Wrapper) (p : Form)
  | call (r : Recognizer) (p : Form)
  | pair (p q : Form)
  | either (p q : Form)
  | named (p : Form) (i : Nat)
  /-- An array, with a rest marker at its end that may bind a name. -/
  | slice (items : List Form) (rest : Option (Option Nat))

/-- The rest marker of an array. -/
def restText (name : Option Nat) : String := ".." ++ (name.map nameText).getD ""

namespace Form

mutual

def text : Form → String
  | leaf l => l.text
  | apply c p => c.name ++ "(" ++ p.text ++ ")"
  | call r p => r.text ++ " " ++ p.text
  | pair p q => "(" ++ p.text ++ ", " ++ q.text ++ ")"
  | either p q => "(" ++ p.text ++ " | " ++ q.text ++ ")"
  | named p i => "(" ++ p.text ++ " as " ++ nameText i ++ ")"
  | slice items rest => "[" ++ ", ".intercalate (texts items ++ rest.toList.map restText) ++ "]"

def texts : List Form → List String
  | [] => []
  | p :: ps => p.text :: texts ps

end

end Form

/-! ### Programs -/

/-- The guard of an arm. -/
structure Guard where
  usedIf : Bool
  bound : Fin 3

def Guard.text (g : Guard) : String :=
  (if g.usedIf then " if " else " when ") ++ decimal g.bound.val ++ " > 0"

/-- An arm of a match, on the line of what stands in front of it or on a new one. -/
structure Arm where
  newLine : Bool
  pattern : Form
  asName : Option Nat := none
  guard : Option Guard := none
  body : Fin 100

def Arm.text (a : Arm) : String :=
  (if a.newLine then "\n" else " ") ++ "| " ++ a.pattern.text
    ++ (a.asName.map fun i => " as " ++ nameText i).getD "" ++ (a.guard.map Guard.text).getD ""
    ++ " -> " ++ decimal a.body.val

/-- A function that matches on its parameter, with one arm at least. -/
structure Function where
  number : Nat
  target : Target
  first : Arm
  more : List Arm

namespace Function

def arms (f : Function) : List Arm := f.first :: f.more

def text (f : Function) : String :=
  "fn f" ++ decimal f.number ++ "(v: " ++ f.target.text ++ ") -> Int = match v with"
    ++ String.join (f.arms.map Arm.text)

end Function

end PatternPlan.Sample
