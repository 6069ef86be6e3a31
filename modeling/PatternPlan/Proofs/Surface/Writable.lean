import PatternPlan.Proofs.Source.Word
import PatternPlan.Surface.Parser.Basic

/-!
# Trees that can be written

* `Writable` — the trees that stand for a source text: names are names, numbers are those that the
  lexer reads, a tuple has two elements at least, and so on;
* `erase` — a tree without the places of its nodes;
* `faithful` — **the trees whose written form is theirs alone**: no `if` without `else` in front of
  an `else`, no bare constructor that is called, no range without start after a recognizer, and no
  expression on its own that continues what stands before it;
* `levels` — how many levels of nesting the written form of a tree has; `Pattern.depth` does not
  count the fields that are written in their short form.
-/

namespace PatternPlan

/-- A name that starts with a small letter or an underscore. -/
def isLowerName (n : String) : Bool := spellsName n && TokenKind.ofName n.toList = .lower

/-- A name that starts with a capital letter. -/
def isUpperName (n : String) : Bool := spellsName n && TokenKind.ofName n.toList = .upper

/-- The constants of expressions: numbers have no sign. -/
def Literal.Unsigned : Literal → Prop
  | .int i => 0 ≤ i ∧ i < 2 ^ 63
  | .float d => d.Canonical ∧ d.negative = false
  | .text _ | .bool _ | .unit => True

/-- The constants of patterns. -/
def Literal.Signed : Literal → Prop
  | .int i => i.natAbs < 2 ^ 63
  | .float d => d.Canonical
  | .text _ | .bool _ | .unit => True

/-- The constants that a range may start with. -/
def Literal.isStart : Literal → Bool
  | .unit => false
  | _ => true

/-- The constants that a range may end with. -/
def Literal.isStop : Literal → Bool
  | .unit | .bool _ => false
  | _ => true

/-- The sources of regex literals. -/
structure IsRegex (s : String) : Prop where
  clean : '\x00' ∉ s.toList
  last : s.toList.getLast? ≠ some '\\'

namespace Surface

/-! ### Types -/

/-- Types that can be written.  Parentheses around one type are no tuple. -/
inductive TypeExpr.Writable : TypeExpr → Prop
  | named {mark : Mark} {name : String} {args : List TypeExpr} (hname : isUpperName name = true)
      (hargs : ∀ t ∈ args, Writable t) : Writable (.named mark name args)
  | tuple {mark : Mark} {elements : List TypeExpr} (hlength : elements.length ≠ 1)
      (helements : ∀ t ∈ elements, Writable t) : Writable (.tuple mark elements)
  | array {mark : Mark} {element : TypeExpr} (helement : Writable element) :
      Writable (.array mark element)

namespace TypeExpr

mutual

/-- A type without the places of its nodes. -/
def erase : TypeExpr → TypeExpr
  | named _ n ts => named default n (eraseAll ts)
  | tuple _ ts => tuple default (eraseAll ts)
  | array _ t => array default (erase t)

def eraseAll : List TypeExpr → List TypeExpr
  | [] => []
  | t :: ts => erase t :: eraseAll ts

end

attribute [local simp] erase eraseAll

theorem eraseAll_eq (ts : List TypeExpr) : eraseAll ts = ts.map erase := by
  induction ts with
  | nil => simp
  | cons t ts ih => simp [ih]

end TypeExpr

/-! ### Patterns -/

/-- The bounds that a range may have. -/
structure Bound.Writable (isBound : Literal → Bool) (b : Bound) : Prop where
  kind : isBound b.value = true
  signed : b.value.Signed

/-- Patterns that can be written. -/
inductive Pattern.Writable : Pattern → Prop
  | wildcard {mark : Mark} : Writable (.wildcard mark)
  | var {mark : Mark} {name : String} (hname : isLowerName name = true) : Writable (.var mark name)
  | literal {mark : Mark} {value : Literal} (hvalue : value.Signed) : Writable (.literal mark value)
  | tuple {mark : Mark} {elements : List Pattern} (hlength : 2 ≤ elements.length)
      (helements : ∀ p ∈ elements, Writable p) : Writable (.tuple mark elements)
  | record {mark : Mark} {fields : List (String × Pattern)} {hasRest : Bool}
      (hnames : ∀ f ∈ fields, isLowerName f.1 = true) (hfields : ∀ f ∈ fields, Writable f.2) :
      Writable (.record mark fields hasRest)
  | construct {mark : Mark} {name : String} {args : List Pattern} (hname : isUpperName name = true)
      (hargs : ∀ p ∈ args, Writable p) : Writable (.construct mark name args)
  | binding {mark : Mark} {name : String} {viaAt : Bool} {inner : Pattern}
      (hname : isLowerName name = true) (hinner : Writable inner) :
      Writable (.binding mark name viaAt inner)
  | or {mark : Mark} {alternatives : List Pattern} (hlength : 2 ≤ alternatives.length)
      (halternatives : ∀ p ∈ alternatives, Writable p) : Writable (.or mark alternatives)
  | slice {mark : Mark} {items : List (SliceItem Pattern)}
      (helements : ∀ p, SliceItem.element p ∈ items → Writable p)
      (hrests : ∀ n span, SliceItem.rest n span ∈ items → n = "" ∨ isLowerName n = true) :
      Writable (.slice mark items)
  | range {mark : Mark} {start stop : Option Bound} {inclusive : Bool}
      (hsome : start.isSome = true ∨ stop.isSome = true)
      (hstop : inclusive = true → stop.isSome = true)
      (hstart : ∀ b, start = some b → b.Writable Literal.isStart)
      (hend : ∀ b, stop = some b → b.Writable Literal.isStop) :
      Writable (.range mark start stop inclusive)
  | regex {mark : Mark} {source : String} (hsource : IsRegex source) : Writable (.regex mark source)
  | active {mark : Mark} {name : String} {kind : RecognizerKind} {arg : Option Pattern}
      (hname : isUpperName name = true) (harg : ∀ p, arg = some p → Writable p) :
      Writable (.active mark name kind arg)

/-- A bound without its place. -/
def Bound.erase (b : Bound) : Bound := ⟨default, b.value⟩

namespace Pattern

mutual

/-- A pattern without the places of its nodes. -/
def erase : Pattern → Pattern
  | wildcard _ => wildcard default
  | var _ n => var default n
  | literal _ v => literal default v
  | tuple _ ps => tuple default (eraseAll ps)
  | record _ fs rest => record default (eraseFields fs) rest
  | construct _ n ps => construct default n (eraseAll ps)
  | binding _ n viaAt p => binding default n viaAt (erase p)
  | or _ ps => or default (eraseAll ps)
  | slice _ items => slice default (eraseItems items)
  | range _ start stop inclusive =>
    range default (start.map Bound.erase) (stop.map Bound.erase) inclusive
  | regex _ s => regex default s
  | active _ n kind none => active default n kind none
  | active _ n kind (some p) => active default n kind (some (erase p))

def eraseAll : List Pattern → List Pattern
  | [] => []
  | p :: ps => erase p :: eraseAll ps

def eraseFields : List (String × Pattern) → List (String × Pattern)
  | [] => []
  | (n, p) :: fs => (n, erase p) :: eraseFields fs

def eraseItems : List (SliceItem Pattern) → List (SliceItem Pattern)
  | [] => []
  | .element p :: is => .element (erase p) :: eraseItems is
  | .rest n _ :: is => .rest n default :: eraseItems is

end

attribute [local simp] erase eraseAll eraseFields eraseItems

theorem eraseAll_eq (ps : List Pattern) : eraseAll ps = ps.map erase := by
  induction ps with
  | nil => simp
  | cons p ps ih => simp [ih]

/-- A field without the places of its pattern. -/
def eraseField (f : String × Pattern) : String × Pattern := (f.1, f.2.erase)

theorem eraseFields_eq (fs : List (String × Pattern)) : eraseFields fs = fs.map eraseField := by
  induction fs with
  | nil => simp
  | cons f fs ih => simp [ih, eraseField]

/-- An item of a slice without its places. -/
def eraseItem : SliceItem Pattern → SliceItem Pattern
  | .element p => .element p.erase
  | .rest n _ => .rest n default

theorem eraseItems_eq (items : List (SliceItem Pattern)) : eraseItems items = items.map eraseItem := by
  induction items with
  | nil => simp
  | cons item items ih => cases item <;> simp [ih, eraseItem]

/-- Whether a pattern is a range without start. -/
def isStartless : Pattern → Bool
  | range _ none _ _ => true
  | _ => false

mutual

/-- Whether the written form of a pattern is its alone: a recognizer takes no range without start. -/
def faithful : Pattern → Bool
  | wildcard _ | var _ _ | literal _ _ | range _ _ _ _ | regex _ _ => true
  | tuple _ ps | construct _ _ ps | or _ ps => allFaithful ps
  | record _ fs _ => fieldsFaithful fs
  | binding _ _ _ p => faithful p
  | slice _ items => itemsFaithful items
  | active _ _ _ none => true
  | active _ _ _ (some p) => !p.isStartless && faithful p

def allFaithful : List Pattern → Bool
  | [] => true
  | p :: ps => faithful p && allFaithful ps

def fieldsFaithful : List (String × Pattern) → Bool
  | [] => true
  | (_, p) :: fs => faithful p && fieldsFaithful fs

def itemsFaithful : List (SliceItem Pattern) → Bool
  | [] => true
  | .element p :: is => faithful p && itemsFaithful is
  | .rest _ _ :: is => itemsFaithful is

end

theorem allFaithful_iff {ps : List Pattern} : allFaithful ps = true ↔ ∀ p ∈ ps, p.faithful = true := by
  induction ps with
  | nil => simp [allFaithful]
  | cons p ps ih => simp [allFaithful, ih]

theorem fieldsFaithful_iff {fs : List (String × Pattern)} :
    fieldsFaithful fs = true ↔ ∀ f ∈ fs, f.2.faithful = true := by
  induction fs with
  | nil => simp [fieldsFaithful]
  | cons f fs ih => simp [fieldsFaithful, ih]

theorem itemsFaithful_iff {items : List (SliceItem Pattern)} :
    itemsFaithful items = true ↔ ∀ p, .element p ∈ items → p.faithful = true := by
  induction items with
  | nil => simp [itemsFaithful]
  | cons item items ih => cases item <;> simp [itemsFaithful, ih]

/-- One level more where alternatives are read before one pattern is. -/
def wrapped (place : Position) (n : Nat) : Nat := if place = .primary then n else n + 1

mutual

/-- How many levels of nesting a pattern takes in a position. -/
def levels (place : Position) : Pattern → Nat
  | wildcard _ | var _ _ | literal _ _ | range _ _ _ _ | regex _ _ => wrapped place 1
  | tuple _ ps | construct _ _ ps => wrapped place (levelsAll .nested ps + 1)
  | record _ fs _ => wrapped place (levelsFields fs + 1)
  | binding _ _ true p => wrapped place (levels .primary p + 1)
  | binding _ _ false p =>
    if place = .nested then levels .nested p else wrapped place (levels .nested p + 1)
  | or _ ps => if place = .primary then levelsAll .primary ps + 2 else levelsAll .primary ps + 1
  | slice _ items => wrapped place (levelsItems items + 1)
  | active _ _ _ none => wrapped place 1
  | active _ _ _ (some p) => wrapped place (levels .primary p + 1)

def levelsAll (place : Position) : List Pattern → Nat
  | [] => 0
  | p :: ps => max (levels place p) (levelsAll place ps)

def levelsFields : List (String × Pattern) → Nat
  | [] => 0
  | (_, p) :: fs => max (levels .nested p) (levelsFields fs)

def levelsItems : List (SliceItem Pattern) → Nat
  | [] => 0
  | .element p :: is => max (levels .nested p) (levelsItems is)
  | .rest _ _ :: is => levelsItems is

end

theorem levels_le_all {place : Position} {p : Pattern} {ps : List Pattern} (h : p ∈ ps) :
    p.levels place ≤ levelsAll place ps := by
  induction ps with
  | nil => cases h
  | cons q ps ih =>
    rw [levelsAll]
    rcases List.mem_cons.mp h with rfl | h
    · exact le_max_left _ _
    · exact (ih h).trans (le_max_right _ _)

theorem levels_le_fields {f : String × Pattern} {fs : List (String × Pattern)} (h : f ∈ fs) :
    f.2.levels .nested ≤ levelsFields fs := by
  induction fs with
  | nil => cases h
  | cons g fs ih =>
    rw [levelsFields]
    rcases List.mem_cons.mp h with rfl | h
    · exact le_max_left _ _
    · exact (ih h).trans (le_max_right _ _)

theorem levels_le_items {p : Pattern} {items : List (SliceItem Pattern)} (h : .element p ∈ items) :
    p.levels .nested ≤ levelsItems items := by
  induction items with
  | nil => cases h
  | cons item items ih =>
    rcases List.mem_cons.mp h with rfl | hmem
    · rw [levelsItems]
      exact le_max_left _ _
    · cases item with
      | element q =>
        rw [levelsItems]
        exact (ih hmem).trans (le_max_right _ _)
      | rest n span =>
        rw [levelsItems]
        exact ih hmem

mutual

/-- How deep the written form of a pattern nests in a position: the levels of a pattern, of which a
field in its short form takes none. -/
def depth (place : Position) : Pattern → Nat
  | wildcard _ | var _ _ | literal _ _ | range _ _ _ _ | regex _ _ => wrapped place 1
  | tuple _ ps | construct _ _ ps => wrapped place (depthAll .nested ps + 1)
  | record _ fs _ => wrapped place (depthFields fs + 1)
  | binding _ _ true p => wrapped place (depth .primary p + 1)
  | binding _ _ false p =>
    if place = .nested then depth .nested p else wrapped place (depth .nested p + 1)
  | or _ ps => if place = .primary then depthAll .primary ps + 2 else depthAll .primary ps + 1
  | slice _ items => wrapped place (depthItems items + 1)
  | active _ _ _ none => wrapped place 1
  | active _ _ _ (some p) => wrapped place (depth .primary p + 1)

def depthAll (place : Position) : List Pattern → Nat
  | [] => 0
  | p :: ps => max (depth place p) (depthAll place ps)

def depthFields : List (String × Pattern) → Nat
  | [] => 0
  | (n, p) :: fs => max (if p.isVar n then 0 else depth .nested p) (depthFields fs)

def depthItems : List (SliceItem Pattern) → Nat
  | [] => 0
  | .element p :: is => max (depth .nested p) (depthItems is)
  | .rest _ _ :: is => depthItems is

end

theorem depthAll_le_iff {place : Position} {ps : List Pattern} {n : Nat} :
    depthAll place ps ≤ n ↔ ∀ p ∈ ps, p.depth place ≤ n := by
  induction ps with
  | nil => simp [depthAll]
  | cons p ps ih => simp [depthAll, ih]

theorem depthFields_le_iff {fs : List (String × Pattern)} {n : Nat} :
    depthFields fs ≤ n ↔ ∀ f ∈ fs, f.2.isVar f.1 = false → f.2.depth .nested ≤ n := by
  induction fs with
  | nil => simp [depthFields]
  | cons f fs ih =>
    obtain ⟨k, p⟩ := f
    rw [depthFields, max_le_iff, ih, List.forall_mem_cons]
    refine and_congr_left fun _ => ?_
    cases p.isVar k <;> simp

theorem depthItems_le_iff {items : List (SliceItem Pattern)} {n : Nat} :
    depthItems items ≤ n ↔ ∀ p, .element p ∈ items → p.depth .nested ≤ n := by
  induction items with
  | nil => simp [depthItems]
  | cons item items ih => cases item <;> simp [depthItems, ih]

theorem wrapped_mono {place : Position} {m n : Nat} (h : m ≤ n) : wrapped place m ≤ wrapped place n := by
  rw [wrapped, wrapped]
  split
  · exact h
  · exact Nat.succ_le_succ h

theorem depth_le_levels {p : Pattern} (h : p.Writable) (place : Position) :
    p.depth place ≤ p.levels place := by
  have hall : ∀ {ps : List Pattern} (place : Position),
      (∀ p ∈ ps, ∀ place : Position, p.depth place ≤ p.levels place) →
      depthAll place ps ≤ levelsAll place ps := fun place ih =>
    depthAll_le_iff.mpr fun p hp => (ih p hp place).trans (levels_le_all hp)
  induction h generalizing place with
  | wildcard | var | literal | range | regex =>
    rw [depth, levels]
  | tuple _ _ ih | construct _ _ ih =>
    rw [depth, levels]
    exact wrapped_mono (Nat.succ_le_succ (hall .nested ih))
  | record _ _ ih =>
    rw [depth, levels]
    refine wrapped_mono (Nat.succ_le_succ (depthFields_le_iff.mpr fun f hf _ => ?_))
    exact (ih f hf .nested).trans (levels_le_fields hf)
  | @binding mark name viaAt p _ _ ih =>
    cases viaAt with
    | true =>
      rw [depth, levels]
      exact wrapped_mono (Nat.succ_le_succ (ih .primary))
    | false =>
      rw [depth, levels]
      split
      · exact ih .nested
      · exact wrapped_mono (Nat.succ_le_succ (ih .nested))
  | or _ _ ih =>
    have hps := hall .primary ih
    rw [depth, levels]
    split <;> omega
  | slice _ _ ih =>
    rw [depth, levels]
    refine wrapped_mono (Nat.succ_le_succ (depthItems_le_iff.mpr fun p hp => ?_))
    exact (ih p hp .nested).trans (levels_le_items hp)
  | @active mark name kind arg _ _ ih =>
    cases arg with
    | none => rw [depth, levels]
    | some p =>
      rw [depth, levels]
      exact wrapped_mono (Nat.succ_le_succ (ih p rfl .primary))

end Pattern

/-! ### Expressions -/

/-- Arms of matches whose names can be written. -/
structure ArmWritable (a : Arm Pattern Expr) : Prop where
  pattern : a.pattern.Writable
  plain : a.guard = none → a.usedIf = false
  name : ∀ given, a.asName = some given → isLowerName given.name = true

/-- Expressions that can be written. -/
inductive Expr.Writable : Expr → Prop
  | ident {mark : Mark} {name : String} (hname : isLowerName name = true) :
      Writable (.ident mark name)
  | literal {mark : Mark} {value : Literal} (hvalue : value.Unsigned) :
      Writable (.literal mark value)
  | construct {mark : Mark} {name : String} {args : List Expr} (hname : isUpperName name = true)
      (hargs : ∀ e ∈ args, Writable e) : Writable (.construct mark name args)
  | call {mark : Mark} {callee : Expr} {args : List Expr} (hcallee : Writable callee)
      (hargs : ∀ e ∈ args, Writable e) : Writable (.call mark callee args)
  | unary {mark : Mark} {op : UnaryOp} {operand : Expr} (hoperand : Writable operand) :
      Writable (.unary mark op operand)
  | binary {mark : Mark} {op : BinaryOp} {left right : Expr} (hleft : Writable left)
      (hright : Writable right) : Writable (.binary mark op left right)
  | cond {mark : Mark} {test yes : Expr} {no : Option Expr} (htest : Writable test)
      (hyes : Writable yes) (hno : ∀ e, no = some e → Writable e) :
      Writable (.cond mark test yes no)
  | select {mark : Mark} {target : Expr} {arms : List (Arm Pattern Expr)}
      (htarget : Writable target) (hne : arms ≠ []) (harms : ∀ a ∈ arms, ArmWritable a)
      (hguards : ∀ a ∈ arms, ∀ g, a.guard = some g → Writable g)
      (hbodies : ∀ a ∈ arms, Writable a.body) : Writable (.select mark target arms)
  | block {mark : Mark} {lets : List (String × Expr)} {result : Option Expr}
      (hnames : ∀ l ∈ lets, isLowerName l.1 = true) (hlets : ∀ l ∈ lets, Writable l.2)
      (hresult : ∀ e, result = some e → Writable e) : Writable (.block mark lets result)
  | perform {mark : Mark} {effect : String} {args : List Expr} (hname : isUpperName effect = true)
      (hargs : ∀ e ∈ args, Writable e) : Writable (.perform mark effect args)
  | tuple {mark : Mark} {elements : List Expr} (hlength : 2 ≤ elements.length)
      (helements : ∀ e ∈ elements, Writable e) : Writable (.tuple mark elements)
  | array {mark : Mark} {elements : List Expr} (helements : ∀ e ∈ elements, Writable e) :
      Writable (.array mark elements)
  | record {mark : Mark} {fields : List (String × Expr)} (hne : fields ≠ [])
      (hnames : ∀ f ∈ fields, isLowerName f.1 = true) (hfields : ∀ f ∈ fields, Writable f.2) :
      Writable (.record mark fields)
  | field {mark : Mark} {record : Expr} {name : String} (hrecord : Writable record)
      (hname : isLowerName name = true) : Writable (.field mark record name)

/-- An alias without its place. -/
def eraseAlias (a : Alias) : Alias := ⟨a.name, default⟩

namespace Expr

mutual

/-- An expression without the places of its nodes. -/
def erase : Expr → Expr
  | ident _ n => ident default n
  | literal _ v => literal default v
  | construct _ n es => construct default n (eraseAll es)
  | call _ f es => call default (erase f) (eraseAll es)
  | unary _ op e => unary default op (erase e)
  | binary _ op l r => binary default op (erase l) (erase r)
  | cond _ c y n => cond default (erase c) (erase y) (eraseOption n)
  | select _ t arms => select default (erase t) (eraseArms arms)
  | block _ lets r => block default (eraseFields lets) (eraseOption r)
  | perform _ n es => perform default n (eraseAll es)
  | tuple _ es => tuple default (eraseAll es)
  | array _ es => array default (eraseAll es)
  | record _ fs => record default (eraseFields fs)
  | field _ e n => field default (erase e) n

def eraseAll : List Expr → List Expr
  | [] => []
  | e :: es => erase e :: eraseAll es

def eraseOption : Option Expr → Option Expr
  | none => none
  | some e => some (erase e)

def eraseFields : List (String × Expr) → List (String × Expr)
  | [] => []
  | (n, e) :: fs => (n, erase e) :: eraseFields fs

def eraseArms : List (Arm Pattern Expr) → List (Arm Pattern Expr)
  | [] => []
  | ⟨_, p, guard, usedIf, asName, body⟩ :: arms =>
    ⟨default, p.erase, eraseOption guard, usedIf, asName.map eraseAlias, erase body⟩
      :: eraseArms arms

end

attribute [local simp] erase eraseAll eraseOption eraseFields eraseArms

theorem eraseAll_eq (es : List Expr) : eraseAll es = es.map erase := by
  induction es with
  | nil => simp
  | cons e es ih => simp [ih]

theorem eraseOption_eq (o : Option Expr) : eraseOption o = o.map erase := by
  cases o <;> simp

/-- A field without the places of its expression. -/
def eraseField (f : String × Expr) : String × Expr := (f.1, f.2.erase)

theorem eraseFields_eq (fs : List (String × Expr)) : eraseFields fs = fs.map eraseField := by
  induction fs with
  | nil => simp
  | cons f fs ih => simp [ih, eraseField]

/-- An arm without its places. -/
def eraseArm (a : Arm Pattern Expr) : Arm Pattern Expr :=
  ⟨default, a.pattern.erase, a.guard.map erase, a.usedIf, a.asName.map eraseAlias, a.body.erase⟩

theorem eraseArms_eq (arms : List (Arm Pattern Expr)) : eraseArms arms = arms.map eraseArm := by
  induction arms with
  | nil => simp
  | cons a arms ih => simp [ih, eraseArm, eraseOption_eq]

/-- Whether an expression is a constructor on its own. -/
def isBare : Expr → Bool
  | construct _ _ [] => true
  | _ => false

/-- Whether an `else` behind the written form of an expression would be taken for its own: it ends
in an `if` without `else`, or in the last arm of a match. -/
def takesElse : Expr → Bool
  | cond _ _ _ none => true
  | cond _ _ _ (some e) => !e.isSelect && takesElse e
  | select _ _ _ => true
  | _ => false

mutual

/-- Whether the written form of an expression is its alone. -/
def faithful : Expr → Bool
  | ident _ _ | literal _ _ => true
  | construct _ _ es | perform _ _ es | tuple _ es | array _ es => allFaithful es
  | call _ f es => !f.isBare && faithful f && allFaithful es
  | unary _ _ e | field _ e _ => faithful e
  | binary _ _ l r => faithful l && faithful r
  | cond _ c y n =>
    faithful c && faithful y && optionFaithful n && (n.isNone || y.isSelect || !y.takesElse)
  | select _ t arms => faithful t && armsFaithful arms
  | block _ lets r => fieldsFaithful lets && optionFaithful r
  | record _ fs => fieldsFaithful fs

def allFaithful : List Expr → Bool
  | [] => true
  | e :: es => faithful e && allFaithful es

def optionFaithful : Option Expr → Bool
  | none => true
  | some e => faithful e

def fieldsFaithful : List (String × Expr) → Bool
  | [] => true
  | (_, e) :: fs => faithful e && fieldsFaithful fs

def armsFaithful : List (Arm Pattern Expr) → Bool
  | [] => true
  | ⟨_, p, guard, _, _, body⟩ :: arms =>
    p.faithful && optionFaithful guard && faithful body && armsFaithful arms

end

theorem allFaithful_iff {es : List Expr} : allFaithful es = true ↔ ∀ e ∈ es, e.faithful = true := by
  induction es with
  | nil => simp [allFaithful]
  | cons e es ih => simp [allFaithful, ih]

theorem optionFaithful_iff {o : Option Expr} :
    optionFaithful o = true ↔ ∀ e, o = some e → e.faithful = true := by
  cases o <;> simp [optionFaithful]

theorem fieldsFaithful_iff {fs : List (String × Expr)} :
    fieldsFaithful fs = true ↔ ∀ f ∈ fs, f.2.faithful = true := by
  induction fs with
  | nil => simp [fieldsFaithful]
  | cons f fs ih => simp [fieldsFaithful, ih]

theorem armsFaithful_iff {arms : List (Arm Pattern Expr)} :
    armsFaithful arms = true ↔ ∀ a ∈ arms, a.pattern.faithful = true ∧
      (∀ g, a.guard = some g → g.faithful = true) ∧ a.body.faithful = true := by
  induction arms with
  | nil => simp [armsFaithful]
  | cons a arms ih => simp [armsFaithful, optionFaithful_iff, ih, and_assoc]

/-- The levels of an operand: one more where it stands in parentheses. -/
def operandLevels (parent : Nat) (e : Expr) (n : Nat) : Nat :=
  if e.precedence < parent then n + 1 else n

/-- The levels of an expression that more text follows. -/
def followedLevels (e : Expr) (n : Nat) : Nat := if e.isSelect then n + 1 else n

mutual

/-- How many levels of nesting there are inside an expression. -/
def levels : Expr → Nat
  | ident _ _ | literal _ _ => 0
  | construct _ _ es | perform _ _ es | tuple _ es | array _ es => levelsAll es
  | call _ f es => max (operandLevels Precedence.call f (levels f)) (levelsAll es)
  | field _ e _ => operandLevels Precedence.call e (levels e)
  | unary _ _ e => operandLevels Precedence.unary e (levels e) + 1
  | binary _ op l r =>
    max (operandLevels op.precedence l (levels l))
      (operandLevels (op.precedence + 1) r (levels r) + 1)
  | cond _ c y n =>
    max (followedLevels c (levels c) + 1) (max (followedLevels y (levels y) + 1) (levelsOption n))
  | select _ t arms => max (followedLevels t (levels t) + 1) (levelsArms arms)
  | block _ lets r =>
    max (levelsFields lets) (match r with
      | some e => levels e + 1
      | none => 0)
  | record _ fs => levelsFields fs

def levelsAll : List Expr → Nat
  | [] => 0
  | e :: es => max (followedLevels e (levels e) + 1) (levelsAll es)

def levelsOption : Option Expr → Nat
  | none => 0
  | some e => followedLevels e (levels e) + 1

def levelsFields : List (String × Expr) → Nat
  | [] => 0
  | (_, e) :: fs => max (followedLevels e (levels e) + 1) (levelsFields fs)

def levelsArms : List (Arm Pattern Expr) → Nat
  | [] => 0
  | ⟨_, p, guard, _, _, body⟩ :: arms =>
    max (max (p.levels .arm) (levelsOption guard))
      (max (followedLevels body (levels body) + 1) (levelsArms arms))

end

theorem levels_le_all {e : Expr} {es : List Expr} (h : e ∈ es) :
    followedLevels e e.levels + 1 ≤ levelsAll es := by
  induction es with
  | nil => cases h
  | cons e' es ih =>
    rw [levelsAll]
    rcases List.mem_cons.mp h with rfl | h
    · exact le_max_left _ _
    · exact (ih h).trans (le_max_right _ _)

theorem levels_le_fields {f : String × Expr} {fs : List (String × Expr)} (h : f ∈ fs) :
    followedLevels f.2 f.2.levels + 1 ≤ levelsFields fs := by
  induction fs with
  | nil => cases h
  | cons f' fs ih =>
    rw [levelsFields]
    rcases List.mem_cons.mp h with rfl | h
    · exact le_max_left _ _
    · exact (ih h).trans (le_max_right _ _)

theorem levels_le_arms {a : Arm Pattern Expr} {arms : List (Arm Pattern Expr)} (h : a ∈ arms) :
    a.pattern.levels .arm ≤ levelsArms arms ∧ levelsOption a.guard ≤ levelsArms arms ∧
      followedLevels a.body a.body.levels + 1 ≤ levelsArms arms := by
  induction arms with
  | nil => cases h
  | cons b arms ih =>
    rw [levelsArms]
    rcases List.mem_cons.mp h with rfl | h
    · refine ⟨?_, ?_, ?_⟩ <;> simp only [le_max_iff] <;> simp
    · obtain ⟨hpattern, hguard, hbody⟩ := ih h
      refine ⟨?_, ?_, ?_⟩ <;> omega

end Expr

/-! ### Declarations -/

/-- An annotation that may be left out. -/
def WritableType (t : Option TypeExpr) : Prop := ∀ u, t = some u → u.Writable

structure Param.Writable (p : Param) : Prop where
  name : isLowerName p.name = true
  ty : WritableType p.ty

structure Function.Writable (f : Function) : Prop where
  name : isLowerName f.name = true ∨ isUpperName f.name = true
  params : ∀ p ∈ f.params, p.Writable
  returns : WritableType f.returns
  body : f.body.Writable
  annotations : ∀ a ∈ f.annotations, isLowerName a = true

structure Recognizer.Writable (r : Recognizer) : Prop where
  name : isUpperName r.name = true
  params : ∀ p ∈ r.params, p.Writable
  returns : WritableType r.returns
  body : r.body.Writable

structure Variant.Writable (v : Variant) : Prop where
  name : isUpperName v.name = true
  fields : ∀ t ∈ v.fields, t.Writable

structure TypeDecl.Writable (d : TypeDecl) : Prop where
  name : isUpperName d.name = true
  variants : ∀ v ∈ d.variants, v.Writable
  names : ∀ f ∈ d.fields, isLowerName f.1 = true
  fields : ∀ f ∈ d.fields, f.2.Writable
  sum : d.variants ≠ [] → d.fields = []

def Decl.Writable : Decl → Prop
  | .function f => f.Writable
  | .recognizer r => r.Writable
  | .type t => t.Writable
  | .expr _ e => e.Writable

structure PathLine.Writable (l : PathLine) : Prop where
  ne_nil : l.path ≠ []
  names : ∀ n ∈ l.path, isLowerName n = true ∨ isUpperName n = true

/-- Files that can be written. -/
structure Program.Writable (p : Program) : Prop where
  header : ∀ l, p.header = some l → l.Writable
  uses : ∀ l ∈ p.uses, l.Writable
  decls : ∀ d ∈ p.decls, d.Writable

def Param.erase (p : Param) : Param := ⟨p.name, p.ty.map TypeExpr.erase⟩

def Function.erase (f : Function) : Function :=
  { f with
    mark := default
    params := f.params.map Param.erase
    returns := f.returns.map TypeExpr.erase
    body := f.body.erase }

def Recognizer.erase (r : Recognizer) : Recognizer :=
  { r with
    mark := default
    params := r.params.map Param.erase
    returns := r.returns.map TypeExpr.erase
    body := r.body.erase }

def Variant.erase (v : Variant) : Variant := ⟨v.name, v.fields.map TypeExpr.erase⟩

def TypeDecl.erase (d : TypeDecl) : TypeDecl :=
  { d with
    mark := default
    variants := d.variants.map Variant.erase
    fields := d.fields.map fun f => (f.1, f.2.erase) }

def Decl.erase : Decl → Decl
  | .function f => .function f.erase
  | .recognizer r => .recognizer r.erase
  | .type t => .type t.erase
  | .expr _ e => .expr default e.erase

def PathLine.erase (l : PathLine) : PathLine := ⟨default, l.path⟩

/-- **A file without the places of its nodes**: its module path, uses and declarations. -/
def Program.erase (p : Program) : Program :=
  ⟨p.header.map PathLine.erase, p.uses.map PathLine.erase, p.decls.map Decl.erase⟩

/-! Which files are written faithfully. -/

/-- Whether the written form of an expression starts with a character. -/
def Expr.opensWith (c : Char) (e : Expr) : Bool := e.text.toList.head? = some c

/-- Whether a type ends in a constructor without fields. -/
def TypeDecl.endsBare (d : TypeDecl) : Bool :=
  match d.variants.getLast? with
  | some v => v.fields.isEmpty
  | none => false

/-- Whether the start of the next declaration is taken for a part of a declaration: a parenthesis for
the fields of a constructor, or a minus sign for a subtraction. -/
def Decl.takes : Decl → Decl → Bool
  | .type t, .expr _ e => t.endsBare && e.opensWith '('
  | .type _, _ => false
  | _, .expr _ e => e.opensWith '-'
  | _, _ => false

def Decl.faithful (d : Decl) : Bool :=
  match d.body? with
  | some e => e.faithful
  | none => true

def Program.declsFaithful : List Decl → Bool
  | [] => true
  | [d] => d.faithful
  | d :: d' :: ds => d.faithful && !d.takes d' && declsFaithful (d' :: ds)

/-- **Whether the written form of a file is its alone.** -/
def Program.faithful (p : Program) : Bool := declsFaithful p.decls

/-- How many levels of nesting a declaration takes. -/
def Decl.levels (d : Decl) : Nat :=
  match d.body? with
  | some e => e.levels + 1
  | none => 0

/-- Whether the written form of a file nests no deeper than can be read. -/
def Program.Fits (p : Program) : Prop := ∀ d ∈ p.decls, d.levels ≤ maxNesting

end Surface

end PatternPlan
