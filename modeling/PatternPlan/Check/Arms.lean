import PatternPlan.Check.Coverage
import PatternPlan.Config.Basic
import PatternPlan.Regex.Syntax

/-!
# Checks of single arms

* `bindingClashes` — names that a pattern binds twice; each alternative starts from the names bound
  before the alternatives;
* `nodeProblems` — what is wrong with one node of a pattern: slices, ranges, regexes, constructors
  and recognizer calls;
* `armProblems` — all checks of an arm.
-/

namespace PatternPlan.Typed

/-- What the checks know about the file around a match. -/
structure Surroundings where
  types : TypeTable
  recognizers : List String
  warnLegacyIf : Bool

/-! ### Names -/

/-- Binds a name, or reports that it is bound already. -/
def bindName (name : String) (span : Span) (seen : List String) : List Diagnostic × List String :=
  if name ∈ seen then ([Diagnostic.new .duplicateBinding span [.str name]], seen)
  else ([], seen ++ [name])

/-- The names of `more` that `seen` lacks, added to it. -/
def addNames (seen more : List String) : List String :=
  more.foldl (fun s n => if n ∈ s then s else s ++ [n]) seen

mutual

/-- The names a pattern binds twice, and the names bound after it. -/
def bindingClashes : Pattern → (seen : List String) → List Diagnostic × List String
  | .wildcard _, seen | .literal _ _, seen | .range _ _ _ _, seen | .regex _ _, seen
  | .active _ _ _ _ none, seen => ([], seen)
  | .var i n, seen => bindName n i.span seen
  | .tuple _ ps, seen | .construct _ _ ps, seen => listClashes ps seen
  | .record _ fs _, seen => fieldClashes fs seen
  | .binding i n _ p, seen =>
    let r := bindingClashes p seen
    let b := bindName n i.span r.2
    (r.1 ++ b.1, b.2)
  | .or _ ps, seen => alternativeClashes ps seen seen
  | .slice _ items, seen => itemClashes items seen
  | .active _ _ _ _ (some p), seen => bindingClashes p seen

def listClashes : List Pattern → (seen : List String) → List Diagnostic × List String
  | [], seen => ([], seen)
  | p :: ps, seen =>
    let r := bindingClashes p seen
    let rest := listClashes ps r.2
    (r.1 ++ rest.1, rest.2)

def fieldClashes : List (String × Pattern) → (seen : List String) → List Diagnostic × List String
  | [], seen => ([], seen)
  | (_, p) :: fs, seen =>
    let r := bindingClashes p seen
    let rest := fieldClashes fs r.2
    (r.1 ++ rest.1, rest.2)

/-- Alternatives, each starting from the names in `outer`; afterwards the names of all of them
count as bound. -/
def alternativeClashes :
    List Pattern → (outer seen : List String) → List Diagnostic × List String
  | [], _, seen => ([], seen)
  | p :: ps, outer, seen =>
    let r := bindingClashes p outer
    let rest := alternativeClashes ps outer (addNames seen r.2)
    (r.1 ++ rest.1, rest.2)

def itemClashes :
    List (SliceItem Pattern) → (seen : List String) → List Diagnostic × List String
  | [], seen => ([], seen)
  | .element p :: items, seen =>
    let r := bindingClashes p seen
    let rest := itemClashes items r.2
    (r.1 ++ rest.1, rest.2)
  | .rest n s :: items, seen =>
    let b := if n = "" then ([], seen) else bindName n s seen
    let rest := itemClashes items b.2
    (b.1 ++ rest.1, rest.2)

end

/-- Reports an alias that the pattern of its arm binds as well. -/
def aliasClash (asName : Option Alias) (seen : List String) : List Diagnostic :=
  match asName with
  | some a => (bindName a.name a.span seen).1
  | none => []

/-! ### Nodes -/

/-- Whether a type is an array, or cannot be told. -/
def mayBeArray (types : TypeTable) (t : Ty) : Bool :=
  t.isUnknown || match types.resolve t with
    | .array _ => true
    | _ => false

/-- More than one rest marker, or a target that is no array. -/
def sliceProblems (s : Surroundings) (i : Info) (items : List (SliceItem Pattern)) :
    List Diagnostic :=
  let rests := items.countP SliceItem.isRest
  (if rests > 1 then [Diagnostic.new .multipleRests i.span [.number rests]] else [])
    ++ if mayBeArray s.types i.ty then []
      else [Diagnostic.new .sliceTypeMismatch i.span [.str i.ty.text]]

/-- A constant in a message. -/
def literalText : Literal → String
  | .int n => decimal n
  | .float d => d.render Literal.floatStyle
  | .text s => s
  | .bool b => if b then "true" else "false"
  | .unit => "<nil>"

/-- A range in a message. -/
def rangeText (a b : Bound) (inclusive : Bool) : String :=
  literalText a.value ++ (if inclusive then "..=" else "..") ++ literalText b.value

/-- Two bounds of which the first lies behind the second. -/
def inverted (a b : Bound) (inclusive : Bool) : Bool :=
  match a.value.compare? b.value with
  | some .gt => true
  | some .eq => !inclusive
  | _ => false

/-- The first bound whose type cannot be used for the target. -/
def boundMismatch (i : Info) (bounds : List Bound) : List Diagnostic :=
  match bounds.find? fun b => !(b.ty.isOrdered && b.ty.agrees i.ty) with
  | some b => [Diagnostic.new .rangeTypeMismatch i.span [.str b.ty.text, .str i.ty.text]]
  | none => []

/-- Bounds of different types, inverted bounds, or bounds of the wrong type. -/
def rangeProblems (i : Info) (start stop : Option Bound) (inclusive : Bool) : List Diagnostic :=
  let bounds := start.toList ++ stop.toList
  match start, stop with
  | some a, some b =>
    if a.ty.agrees b.ty then
      (if inverted a b inclusive then
        [Diagnostic.new .rangeInverted i.span [.str (rangeText a b inclusive)]] else [])
        ++ boundMismatch i bounds
    else [Diagnostic.new .rangeTypeMismatch i.span [.str a.ty.text, .str b.ty.text]]
  | _, _ => boundMismatch i bounds

/-- A target that is not text, or a regex that is not well formed. -/
def regexProblems (i : Info) (source : String) : List Diagnostic :=
  (if i.ty.isUnknown || i.ty.isTextual then []
    else [Diagnostic.new .regexTarget i.span [.str i.ty.text]])
    ++ match Regex.error? source with
      | some e => [Diagnostic.new .regexInvalid i.span [.str source, .str e.message]]
      | none => []

/-- An unknown constructor, or one with the wrong number of arguments. -/
def constructorProblems (s : Surroundings) (i : Info) (name : String) (args : List Pattern) :
    List Diagnostic :=
  match s.types.constructor? name with
  | none => [Diagnostic.new .constructorUnknown i.span [.str name]]
  | some v =>
    if v.fields.length = args.length then []
    else [Diagnostic.new .constructorArity i.span
      [.str name, .number v.fields.length, .number args.length]]

/-- What is wrong with one node of a pattern. -/
def nodeProblems (s : Surroundings) : Pattern → List Diagnostic
  | .slice i items => sliceProblems s i items
  | .range i start stop inclusive => rangeProblems i start stop inclusive
  | .regex i source => regexProblems i source
  | .construct i n args => constructorProblems s i n args
  | .active i n _ _ _ =>
    if n ∈ s.recognizers then [] else [Diagnostic.new .activeUndefined i.span [.str n]]
  | _ => []

/-! ### Arms -/

/-- A guard that is introduced with the old keyword. -/
def guardProblems (s : Surroundings) (a : Arm Pattern Expr) : List Diagnostic :=
  if a.usedIf && s.warnLegacyIf then
    [Diagnostic.new .guardIfDeprecated (match a.guard with
      | some g => g.span
      | none => a.span) []]
  else []

/-- All checks of an arm. -/
def armProblems (s : Surroundings) (a : Arm Pattern Expr) : List Diagnostic :=
  let names := bindingClashes a.pattern []
  guardProblems s a ++ names.1 ++ aliasClash a.asName names.2
    ++ a.pattern.nodes.flatMap (nodeProblems s)

end PatternPlan.Typed
