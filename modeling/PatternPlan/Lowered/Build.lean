import PatternPlan.Lowered.Basic

/-!
# Lowering

* `Pattern.ofTyped` — a typed pattern as a flat record;
* `flatten` — the rows of an expression from a number on: the rows of its parts first, in the
  order in which they are evaluated, and its own row last, so that every row refers to earlier
  ones only;
* `Module.ofTyped` — a whole file.
-/

namespace PatternPlan.Lowered

/-! ### Patterns -/

/-- A type in a pattern; an unknown one is left out. -/
def Pattern.typeText (t : Ty) : String := if t.isUnknown then "" else t.text

/-- A form with the place and the type of a typed node. -/
def Pattern.placed (form : PatternForm) (i : Typed.Info) : Pattern :=
  { form := form, span := i.span, ty := typeText i.ty }

/-- A bound of a range. -/
def Pattern.ofBound (b : Typed.Bound) : Pattern :=
  { form := .literal, span := b.span, ty := typeText b.ty, literal := some b.value }

/-- The elements of a slice before its first rest marker. -/
def beforeRest {π : Type} : List (SliceItem π) → List π
  | .element p :: items => p :: beforeRest items
  | _ => []

/-- The elements of a slice after its first rest marker; later markers separate nothing. -/
def afterRest {π : Type} : List (SliceItem π) → List π
  | [] => []
  | .element _ :: items => afterRest items
  | .rest _ _ :: items => items.filterMap SliceItem.element?

/-- What the last rest marker of a slice binds. -/
def lastRest? {π : Type} (items : List (SliceItem π)) : Option String :=
  items.reverse.findSome? fun
    | .rest n _ => some n
    | .element _ => none

namespace Pattern

mutual

/-- A typed pattern as a flat record. -/
def ofTyped : Typed.Pattern → Pattern
  | .wildcard i => placed .wildcard i
  | .var i n => { placed .var i with name := n }
  | .literal i v => { placed .literal i with literal := some v }
  | .tuple i ps => { placed .tuple i with elements := ofTypedList ps }
  | .record i fs hasRest =>
    { placed .record i with fields := ofTypedFields fs, hasRest := hasRest }
  | .construct i n ps => { placed .construct i with name := n, args := ofTypedList ps }
  | .binding i n viaAt p =>
    { placed .binding i with name := n, viaAt := viaAt, inner := some (ofTyped p) }
  | .or i ps => { placed .or i with variants := ofTypedList ps }
  | .slice i items =>
    let lowered := ofTypedItems items
    { placed .slice i with
      head := (beforeRest lowered).map some
      rest := lastRest? lowered
      tail := (afterRest lowered).map some }
  | .range i start stop inclusive =>
    { placed .range i with
      start := start.map ofBound
      stop := stop.map ofBound
      inclusive := inclusive }
  | .regex i s => { placed .regex i with regex := s }
  | .active i n kind _ none =>
    { placed .active i with
      call := some { name := n, kind := kind, missTarget := kind.missTarget } }
  | .active i n kind _ (some p) =>
    { placed .active i with
      call := some
        { name := n, kind := kind, argument := some (ofTyped p), missTarget := kind.missTarget } }

def ofTypedList : List Typed.Pattern → List (Option Pattern)
  | [] => []
  | p :: ps => some (ofTyped p) :: ofTypedList ps

def ofTypedFields : List (String × Typed.Pattern) → List (String × Option Pattern)
  | [] => []
  | (k, p) :: fs => (k, some (ofTyped p)) :: ofTypedFields fs

def ofTypedItems : List (SliceItem Typed.Pattern) → List (SliceItem Pattern)
  | [] => []
  | .element p :: is => .element (ofTyped p) :: ofTypedItems is
  | .rest n s :: is => .rest n s :: ofTypedItems is

end

end Pattern

/-! ### Expressions -/

/-- What the rows of a declaration share. -/
structure Setting where
  placeholders : Placeholders
  owner : String

/-- A row with the place and the type of a typed node. -/
def Setting.row (s : Setting) (form : ExprForm) (i : Typed.Info) : Expr :=
  { form := form, span := i.span, ty := s.placeholders.typeLabel i.ty }

/-- Rows with one more at their end, and the number of that one. -/
def close (start : Nat) (rows : List Expr) (row : Expr) : List Expr × Nat :=
  (rows ++ [{ row with id := start + rows.length }], start + rows.length)

mutual

/-- The rows of an expression from number `start` on, and the number of its own row. -/
def flatten (s : Setting) (start : Nat) : Typed.Expr → List Expr × Nat
  | .ident i n => close start [] { s.row .identifier i with name := n }
  | .literal i v => close start [] { s.row .literal i with literal := some v }
  | .construct i n es =>
    let parts := flattenList s start es
    close start parts.1 { s.row .construct i with name := n, args := parts.2 }
  | .call i f es =>
    let callee := flatten s start f
    let parts := flattenList s (start + callee.1.length) es
    close start (callee.1 ++ parts.1)
      { s.row .call i with callee := some callee.2, args := parts.2 }
  | .unary i op e =>
    let operand := flatten s start e
    close start operand.1 { s.row .unary i with operator := op.symbol, args := [operand.2] }
  | .binary i op l r =>
    let left := flatten s start l
    let right := flatten s (start + left.1.length) r
    close start (left.1 ++ right.1)
      { s.row .binary i with operator := op.symbol, args := [left.2, right.2] }
  | .cond i c y n =>
    let test := flatten s start c
    let yes := flatten s (start + test.1.length) y
    let no := flattenOption s (start + test.1.length + yes.1.length) n
    close start (test.1 ++ yes.1 ++ no.1)
      { s.row .cond i with condition := some test.2, yes := some yes.2, no := no.2 }
  | .select i t arms =>
    let target := flatten s start t
    let cases := flattenArms s (start + target.1.length) arms
    close start (target.1 ++ cases.1)
      { s.row .select i with
        target := some target.2
        arms := cases.2
        plan := some (.ofMatch s.placeholders s.owner ⟨i.span, t, arms⟩) }
  | .block i lets r =>
    let bound := flattenFields s start lets
    let result := flattenOption s (start + bound.1.length) r
    close start (bound.1 ++ result.1)
      { s.row .block i with statements := bound.2, tail := result.2 }
  | .perform i n es =>
    let parts := flattenList s start es
    close start parts.1 { s.row .perform i with name := n, args := parts.2 }
  | .tuple i es =>
    let parts := flattenList s start es
    close start parts.1 { s.row .tuple i with args := parts.2 }
  | .array i es =>
    let parts := flattenList s start es
    close start parts.1 { s.row .array i with args := parts.2 }
  | .record i fs =>
    let parts := flattenFields s start fs
    close start parts.1
      { s.row .record i with keys := parts.2.map (·.1), args := parts.2.map (·.2) }
  | .field i e n =>
    let record := flatten s start e
    close start record.1 { s.row .field i with name := n, args := [record.2] }

def flattenList (s : Setting) (start : Nat) : List Typed.Expr → List Expr × List Nat
  | [] => ([], [])
  | e :: es =>
    let first := flatten s start e
    let others := flattenList s (start + first.1.length) es
    (first.1 ++ others.1, first.2 :: others.2)

def flattenOption (s : Setting) (start : Nat) : Option Typed.Expr → List Expr × Option Nat
  | none => ([], none)
  | some e =>
    let only := flatten s start e
    (only.1, some only.2)

def flattenFields (s : Setting) (start : Nat) :
    List (String × Typed.Expr) → List Expr × List (String × Nat)
  | [] => ([], [])
  | (n, e) :: fs =>
    let first := flatten s start e
    let others := flattenFields s (start + first.1.length) fs
    (first.1 ++ others.1, (n, first.2) :: others.2)

def flattenArms (s : Setting) (start : Nat) :
    List (Arm Typed.Pattern Typed.Expr) → List Expr × List MatchArm
  | [] => ([], [])
  | ⟨_, pattern, guard, _, asName, body⟩ :: arms =>
    let test := flattenOption s start guard
    let result := flatten s (start + test.1.length) body
    let others := flattenArms s (start + test.1.length + result.1.length) arms
    (test.1 ++ result.1 ++ others.1,
      { pattern := some (.ofTyped pattern)
        guard := test.2
        asName := (asName.map Alias.name).getD ""
        body := result.2 } :: others.2)

end

/-! ### Declarations -/

/-- The parameters of a declaration. -/
def paramsOf (o : Placeholders) (ps : List Typed.Param) : List Param :=
  ps.map fun p => ⟨p.name, o.typeLabel p.ty⟩

/-- A function. -/
def Function.ofTyped (o : Placeholders) (f : Typed.Function) : Function :=
  let table := flatten ⟨o, Plan.functionOwner f.name⟩ 0 f.body
  { name := f.name
    span := f.span
    params := some (paramsOf o f.params)
    returnType := o.typeLabel f.result
    body := table.2
    exprs := some table.1 }

/-- A recognizer. -/
def Recognizer.ofTyped (o : Placeholders) (r : Typed.Recognizer) : Recognizer :=
  let table := flatten ⟨o, Plan.recognizerOwner r.name⟩ 0 r.body
  { name := r.name
    span := r.span
    kind := r.kind
    carrier := r.kind.carrier
    hasMissPath := r.kind.mayMiss
    params := some (paramsOf o r.params)
    body := table.2
    exprs := some table.1 }

/-- A whole file. -/
def Module.ofTyped (o : Placeholders) (m : Typed.Module) : Module where
  schema := schemaVersion
  file := m.file
  functions := some (m.functions.map (Function.ofTyped o))
  recognizers := some (m.recognizers.map (Recognizer.ofTyped o))
  plans := some (Plan.ofModule o m)

end PatternPlan.Lowered
