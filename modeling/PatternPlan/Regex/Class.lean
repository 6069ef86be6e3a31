import PatternPlan.Regex.Error
import PatternPlan.Regex.Fold
import PatternPlan.Regex.Script

/-!
# Escapes and classes of characters

* `property?` — the set that a name stands for in `\p`: general categories, their long names, scripts,
  and three names for sets of their own.  Case, blanks, hyphens and underscores do not count;
* `escape` — one escaped character;
* `property` — a set of characters after `\p`;
* `letterClass?`, `namedClass?` — the sets that a letter after a backslash, or a name between `[:`
  and `:]`, stands for;
* `charClass` — a class in brackets.

Each takes a text and gives what it stands for and the rest of the text, or the error.
-/

namespace PatternPlan.Regex

/-! ### Properties by name -/

/-- The long names of the general categories. -/
def categoryNames : List (String × String) :=
  [("Cased_Letter", "LC"), ("Close_Punctuation", "Pe"), ("Combining_Mark", "M"),
   ("Connector_Punctuation", "Pc"), ("Control", "Cc"), ("Currency_Symbol", "Sc"),
   ("Dash_Punctuation", "Pd"), ("Decimal_Number", "Nd"), ("Enclosing_Mark", "Me"),
   ("Final_Punctuation", "Pf"), ("Format", "Cf"), ("Initial_Punctuation", "Pi"), ("Letter", "L"),
   ("Letter_Number", "Nl"), ("Line_Separator", "Zl"), ("Lowercase_Letter", "Ll"), ("Mark", "M"),
   ("Math_Symbol", "Sm"), ("Modifier_Letter", "Lm"), ("Modifier_Symbol", "Sk"),
   ("Nonspacing_Mark", "Mn"), ("Number", "N"), ("Open_Punctuation", "Ps"), ("Other", "C"),
   ("Other_Letter", "Lo"), ("Other_Number", "No"), ("Other_Punctuation", "Po"),
   ("Other_Symbol", "So"), ("Paragraph_Separator", "Zp"), ("Private_Use", "Co"),
   ("Punctuation", "P"), ("Separator", "Z"), ("Space_Separator", "Zs"), ("Spacing_Mark", "Mc"),
   ("Surrogate", "Cs"), ("Symbol", "S"), ("Titlecase_Letter", "Lt"), ("Unassigned", "Cn"),
   ("Uppercase_Letter", "Lu"), ("cntrl", "Cc"), ("digit", "Nd"), ("punct", "P")]

/-- A name without case, blanks, hyphens and underscores. -/
def canonicalName (s : String) : List Char :=
  (s.toList.filter fun c => c ≠ '_' && c ≠ '-' && c ≠ ' ').map Char.toLower

/-- Every name, in the form that counts, and its set. -/
def properties : List (List Char × CharSet) :=
  let named := [("Any", .full), ("Assigned", unassigned.complement), ("ASCII", ⟨[(0, 0x7F)]⟩)]
    ++ categories ++ scripts
    ++ categoryNames.filterMap fun (long, short) => (categories.lookup short).map fun s => (long, s)
  named.map fun (name, s) => (canonicalName name, s)

/-- The set that a name stands for. -/
def property? (name : String) : Option CharSet := properties.lookup (canonicalName name)

/-! ### Escapes -/

def isOctal (c : Char) : Bool := '0' ≤ c && c ≤ '7'

/-- The value of octal digits. -/
def octalValue (cs : List Char) : Nat := cs.foldl (fun v c => v * 8 + (c.toNat - '0'.toNat)) 0

/-- Hexadecimal digits up to a closing brace, at least one. -/
def bracedHex (before : List Char) : (value count : Nat) → List Char → Except Error (Nat × List Char)
  | _, _, [] => refuse .escape before []
  | value, count, c :: t =>
    if c = '\x7d' then
      if count = 0 then refuse .escape before t else .ok (value, t)
    else match hexDigit? c with
      | none => refuse .escape before t
      | some d =>
        if CharSet.lastPoint < value * 16 + d then refuse .escape before t
        else bracedHex before (value * 16 + d) (count + 1) t

/-- The character after `\x`. -/
def hexEscape (before : List Char) : List Char → Except Error (Nat × List Char)
  | [] => refuse .escape before []
  | '\x7b' :: t => bracedHex before 0 0 t
  | [_] => refuse .escape before []
  | c :: d :: t =>
    match hexDigit? c, hexDigit? d with
    | some x, some y => .ok (x * 16 + y, t)
    | _, _ => refuse .escape before t

/-- The letters that stand for control characters. -/
def controlEscape? (c : Char) : Option Nat :=
  match c with
  | 'a' => some 7
  | 'f' => some 12
  | 'n' => some 10
  | 'r' => some 13
  | 't' => some 9
  | 'v' => some 11
  | _ => none

/-- One escaped character; `before` starts with the backslash. -/
def escape (before : List Char) : Except Error (Nat × List Char) :=
  match before.drop 1 with
  | [] => .error ⟨.trailingBackslash, []⟩
  | c :: t =>
    if c = '0' || (isOctal c && (t.head?.map isOctal).getD false) then
      let digits := c :: (t.take 2).takeWhile isOctal
      .ok (octalValue digits, t.drop (digits.length - 1))
    else if c = 'x' then hexEscape before t
    else match controlEscape? c with
      | some n => .ok (n, t)
      | none =>
        if c.toNat < 128 && !c.isAlphanum then .ok (c.toNat, t) else refuse .escape before t

/-! ### Sets by name -/

/-- Splits a text at the first place where `pair` stands, and drops it there. -/
def splitAtPair? (pair : Char × Char) : List Char → Option (List Char × List Char)
  | a :: b :: t =>
    if (a, b) = pair then some ([], t)
    else (splitAtPair? pair (b :: t)).map fun r => (a :: r.1, r.2)
  | _ => none

/-- Splits a text at the first `c`, and drops it. -/
def splitAt? (c : Char) : List Char → Option (List Char × List Char)
  | [] => none
  | d :: t => if d = c then some ([], t) else (splitAt? c t).map fun r => (d :: r.1, r.2)

/-- A name without the sign that negates it, and whether it had one. -/
def signed : List Char → Bool × List Char
  | '^' :: name => (true, name)
  | name => (false, name)

/-- A set where case may be ignored, or what is outside of it. -/
def CharSet.under (ignoreCase negative : Bool) (s : CharSet) : CharSet :=
  let s := if ignoreCase then s.folded else s
  if negative then s.complement else s

/-- A property after `\p` or `\P`; `before` starts with the backslash. -/
def property (ignoreCase : Bool) (before : List Char) : Except Error (CharSet × List Char) :=
  let find (name rest : List Char) : Except Error (CharSet × List Char) :=
    let (negative, name) := signed name
    match property? (String.ofList name) with
    | some s => .ok (s.under ignoreCase (negative != (before.drop 1).head?.any (· = 'P')), rest)
    | none => refuse .charRange before rest
  match before.drop 2 with
  | [] => refuse .charRange before []
  | '\x7b' :: t =>
    match splitAt? '\x7d' t with
    | none => refuse .charRange before []
    | some (name, rest) => find name rest
  | c :: t => find [c] t

/-- The interval between two characters. -/
def between (lo hi : Char) : Run := (lo.toNat, hi.toNat)

def digitRuns : List Run := [between '0' '9']

def upperRuns : List Run := [between 'A' 'Z']

def lowerRuns : List Run := [between 'a' 'z']

def wordRuns : List Run := digitRuns ++ upperRuns ++ [between '_' '_'] ++ lowerRuns

/-- The set that a letter after a backslash stands for. -/
def letterClass? (ignoreCase : Bool) (c : Char) : Option CharSet :=
  let blankRuns : List Run := [(9, 10), (12, 13), (32, 32)]
  let find (negative : Bool) (rs : List Run) : Option CharSet :=
    some ((CharSet.mk rs).under ignoreCase negative)
  match c with
  | 'd' => find false digitRuns
  | 'D' => find true digitRuns
  | 's' => find false blankRuns
  | 'S' => find true blankRuns
  | 'w' => find false wordRuns
  | 'W' => find true wordRuns
  | _ => none

/-- The names that may stand between `[:` and `:]`. -/
def namedRuns : List (String × List Run) :=
  [("alnum", digitRuns ++ upperRuns ++ lowerRuns), ("alpha", upperRuns ++ lowerRuns),
   ("ascii", [(0, 127)]), ("blank", [(9, 9), (32, 32)]), ("cntrl", [(0, 31), (127, 127)]),
   ("digit", digitRuns), ("graph", [between '!' '~']), ("lower", lowerRuns),
   ("print", [between ' ' '~']),
   ("punct", [between '!' '/', between ':' '@', between '[' '\x60', between '\x7b' '~']),
   ("space", [(9, 13), (32, 32)]), ("upper", upperRuns), ("word", wordRuns),
   ("xdigit", [between '0' '9', between 'A' 'F', between 'a' 'f'])]

/-- The set that a name between `[:` and `:]` stands for. -/
def namedClass? (ignoreCase : Bool) (name : List Char) : Option CharSet :=
  let (negative, name) := signed name
  (namedRuns.lookup (String.ofList name)).map fun rs =>
    (CharSet.mk rs).under ignoreCase negative

/-! ### Classes in brackets -/

/-- One character of a class; `whole` is the class from its bracket on. -/
def classChar (whole : List Char) : List Char → Except Error (Nat × List Char)
  | [] => .error ⟨.missingBracket, whole⟩
  | '\\' :: t => escape ('\\' :: t)
  | c :: t => .ok (c.toNat, t)

/-- A character or a range of a class. -/
def classRange (ignoreCase : Bool) (whole t : List Char) : Except Error (CharSet × List Char) := do
  let range (lo hi : Nat) : CharSet := (CharSet.mk [(lo, hi)]).under ignoreCase false
  let (lo, rest) ← classChar whole t
  match rest with
  | '-' :: d :: more =>
    if d = ']' then return (range lo lo, rest)
    else
      let (hi, rest) ← classChar whole (d :: more)
      if hi < lo then refuse .charRange t rest else return (range lo hi, rest)
  | _ => return (range lo lo, rest)

/-- One item of a class. -/
def classItem (ignoreCase : Bool) (whole t : List Char) : Except Error (CharSet × List Char) :=
  match t with
  | '[' :: ':' :: u =>
    match splitAtPair? (':', ']') u with
    | some (name, rest) =>
      match namedClass? ignoreCase name with
      | some s => .ok (s, rest)
      | none => refuse .charRange t rest
    | none => classRange ignoreCase whole t
  | '\\' :: c :: u =>
    if c = 'p' || c = 'P' then property ignoreCase t
    else match letterClass? ignoreCase c with
      | some s => .ok (s, u)
      | none => classRange ignoreCase whole t
  | _ => classRange ignoreCase whole t

/-- The items of a class up to its closing bracket, which may not be the first.  Each item reads
something, so `room` is the number of characters at most. -/
def classItems (ignoreCase : Bool) (whole : List Char) : (room : Nat) → (first : Bool) →
    (seen : List CharSet) → List Char → Except Error (List CharSet × List Char)
  | 0, _, _, _ => .error ⟨.missingBracket, whole⟩
  | room + 1, first, seen, t =>
    match t, first with
    | ']' :: rest, false => .ok (seen, rest)
    | _, _ => do
      let (s, rest) ← classItem ignoreCase whole t
      classItems ignoreCase whole room false (s :: seen) rest

/-- A class; `before` starts with its bracket. -/
def charClass (ignoreCase : Bool) (before : List Char) : Except Error (CharSet × List Char) := do
  let (negative, t) := signed (before.drop 1)
  let (seen, rest) ← classItems ignoreCase before (t.length + 1) true [] t
  let s := CharSet.ofRuns (seen.flatMap (·.runs))
  return (s.under false negative, rest)

end PatternPlan.Regex
