import Mathlib.Data.List.Forall2
import Mathlib.Data.List.Nodup
import PatternPlan.Lowered.Build
import PatternPlan.Proofs.Typed.Expr

/-!
# Tables of rows and the expressions they stand for

Flattening an expression into a table loses nothing, adds nothing and mixes nothing up.

* `rowOf`, `flatten_eq` — the rows of an expression are the rows of its children and one row, which
  depends on the children by their numbers only;
* `Outline` — an expression as far as a table holds it; `Outline.of` takes it from a typed
  expression, `Outline.read` from a table, following references from a row;
* `Numbered` — the invariant of a growing table: numbers in order, references backwards, and each
  row referred to once, from a later row or from outside;
* `flatten_faithful` — **the table of an expression is numbered without gaps, every row but the last
  is referred to once, and reading it back from the last row gives the expression again**.
-/

namespace PatternPlan.Lowered

open Typed.Expr (children armChildren childInduction size sizeOfList)

/-! ### The row of an expression -/

/-- The arms of a match whose guards and bodies have the given numbers, in order. -/
def armRows : List (Arm Typed.Pattern Typed.Expr) → List Nat → List MatchArm
  | ⟨_, p, some _, _, asName, _⟩ :: arms, guard :: body :: refs =>
    { pattern := some (.ofTyped p), guard := some guard, asName := (asName.map Alias.name).getD "",
      body := body } :: armRows arms refs
  | ⟨_, p, none, _, asName, _⟩ :: arms, body :: refs =>
    { pattern := some (.ofTyped p), asName := (asName.map Alias.name).getD "", body := body }
      :: armRows arms refs
  | _, _ => []

/-- The row of an expression whose children have the given numbers, in order. -/
def rowOf (s : Setting) : Typed.Expr → List Nat → Expr
  | .ident i n, _ => { s.row .identifier i with name := n }
  | .literal i v, _ => { s.row .literal i with literal := some v }
  | .construct i n _, refs => { s.row .construct i with name := n, args := refs }
  | .call i _ _, refs => { s.row .call i with callee := refs.head?, args := refs.tail }
  | .unary i op _, refs => { s.row .unary i with operator := op.symbol, args := refs }
  | .binary i op _ _, refs => { s.row .binary i with operator := op.symbol, args := refs }
  | .cond i _ _ _, refs =>
    { s.row .cond i with condition := refs[0]?, yes := refs[1]?, no := refs[2]? }
  | .select i t arms, refs =>
    { s.row .select i with
      target := refs.head?
      arms := armRows arms refs.tail
      plan := some (.ofMatch s.placeholders s.owner ⟨i.span, t, arms⟩) }
  | .block i lets _, refs =>
    { s.row .block i with
      statements := (lets.map (·.1)).zip refs
      tail := (refs.drop lets.length).head? }
  | .perform i n _, refs => { s.row .perform i with name := n, args := refs }
  | .tuple i _, refs => { s.row .tuple i with args := refs }
  | .array i _, refs => { s.row .array i with args := refs }
  | .record i fs, refs => { s.row .record i with keys := fs.map (·.1), args := refs }
  | .field i _ n, refs => { s.row .field i with name := n, args := refs }

section Flatten

variable (s : Setting)

theorem flattenList_cons (start : Nat) (e : Typed.Expr) (es : List Typed.Expr) :
    flattenList s start (e :: es) =
      ((flatten s start e).1 ++ (flattenList s (start + (flatten s start e).1.length) es).1,
        (flatten s start e).2 ::
          (flattenList s (start + (flatten s start e).1.length) es).2) := rfl

theorem length_flattenList (start : Nat) (es : List Typed.Expr) :
    (flattenList s start es).2.length = es.length := by
  induction es generalizing start with
  | nil => rfl
  | cons e es ih => rw [flattenList_cons, List.length_cons, List.length_cons, ih]

theorem flattenList_append (start : Nat) (es fs : List Typed.Expr) :
    flattenList s start (es ++ fs) =
      ((flattenList s start es).1
          ++ (flattenList s (start + (flattenList s start es).1.length) fs).1,
        (flattenList s start es).2
          ++ (flattenList s (start + (flattenList s start es).1.length) fs).2) := by
  induction es generalizing start with
  | nil => rfl
  | cons e es ih =>
    rw [List.cons_append, flattenList_cons, flattenList_cons, ih, List.length_append,
      List.append_assoc, List.cons_append, Nat.add_assoc]

theorem flattenOption_eq (start : Nat) (o : Option Typed.Expr) :
    flattenOption s start o =
      ((flattenList s start o.toList).1, (flattenList s start o.toList).2.head?) := by
  cases o with
  | none => rfl
  | some e =>
    rw [Option.toList_some, flattenList_cons, flattenList, List.append_nil]
    rfl

theorem flattenFields_eq (start : Nat) (fs : List (String × Typed.Expr)) :
    flattenFields s start fs =
      ((flattenList s start (fs.map (·.2))).1,
        (fs.map (·.1)).zip (flattenList s start (fs.map (·.2))).2) := by
  induction fs generalizing start with
  | nil => rfl
  | cons f fs ih =>
    rw [List.map_cons, List.map_cons, flattenList_cons, List.zip_cons_cons, flattenFields, ih]

theorem flattenArms_eq (start : Nat) (arms : List (Arm Typed.Pattern Typed.Expr)) :
    flattenArms s start arms =
      ((flattenList s start (armChildren arms)).1,
        armRows arms (flattenList s start (armChildren arms)).2) := by
  induction arms generalizing start with
  | nil => rfl
  | cons a arms ih =>
    obtain ⟨span, p, guard, usedIf, asName, body⟩ := a
    rw [Typed.Expr.armChildren_cons]
    cases guard with
    | none =>
      rw [Option.toList_none, List.nil_append, flattenList_cons, armRows, flattenArms]
      simp only [flattenOption, List.length_nil, Nat.add_zero, List.nil_append, ih]
    | some g =>
      rw [Option.toList_some, List.singleton_append, flattenList_cons, flattenList_cons, armRows,
        flattenArms]
      simp only [flattenOption, ih, List.append_assoc]

/-- **One step of flattening**: the rows of the children in order, then the row of the whole. -/
theorem flatten_eq (start : Nat) (e : Typed.Expr) :
    flatten s start e = close start (flattenList s start e.children).1
      (rowOf s e (flattenList s start e.children).2) := by
  cases e with
  | call i f es => rw [flatten, children, flattenList_cons]; rfl
  | unary i op e =>
    rw [flatten, children, flattenList_cons, flattenList, List.append_nil]
    rfl
  | binary i op l r =>
    rw [flatten, children, flattenList_cons, flattenList_cons, flattenList, List.append_nil]
    rfl
  | cond i c y n =>
    rw [flatten, children, flattenList_cons, flattenList_cons]
    simp only [flattenOption_eq, List.append_assoc, rowOf]
    rw [List.head?_eq_getElem?]
    rfl
  | select i t arms =>
    rw [flatten, children, flattenList_cons]
    simp only [flattenArms_eq]
    rfl
  | block i lets r =>
    rw [flatten, children, flattenList_append]
    simp only [flattenFields_eq, flattenOption_eq, rowOf]
    have hnames : (lets.map (·.1)).length = (flattenList s start (lets.map (·.2))).2.length := by
      rw [length_flattenList, List.length_map, List.length_map]
    have hlength : lets.length = (flattenList s start (lets.map (·.2))).2.length := by
      rw [length_flattenList, List.length_map]
    have hzip : ∀ refs : List Nat, (lets.map (·.1)).zip
        ((flattenList s start (lets.map (·.2))).2 ++ refs)
          = (lets.map (·.1)).zip (flattenList s start (lets.map (·.2))).2 := by
      intro refs
      have happend : (lets.map Prod.fst ++ []).zip
          ((flattenList s start (lets.map Prod.snd)).2 ++ refs)
            = (lets.map Prod.fst).zip (flattenList s start (lets.map Prod.snd)).2 ++ [].zip refs :=
        List.zip_append hnames
      rwa [List.append_nil, List.zip_nil_left, List.append_nil] at happend
    rw [hzip]
    conv => rhs; rw [hlength, List.drop_left]
  | record i fs =>
    rw [flatten, children, flattenFields_eq, rowOf]
    have hlength : (fs.map (·.1)).length = (flattenList s start (fs.map (·.2))).2.length := by
      rw [length_flattenList, List.length_map, List.length_map]
    dsimp only
    rw [List.map_fst_zip (Nat.le_of_eq hlength), List.map_snd_zip (Nat.le_of_eq hlength.symm)]
  | field i e n =>
    rw [flatten, children, flattenList_cons, flattenList, List.append_nil]
    rfl
  | _ => rfl

end Flatten

/-! ### References -/

theorem references_armRows (arms : List (Arm Typed.Pattern Typed.Expr)) (refs : List Nat)
    (h : refs.length = (armChildren arms).length) :
    ((armRows arms refs).flatMap fun a => a.body :: a.guard.toList).Perm refs := by
  induction arms generalizing refs with
  | nil =>
    rw [List.eq_nil_of_length_eq_zero h]
    exact .nil
  | cons a arms ih =>
    obtain ⟨span, p, guard, usedIf, asName, body⟩ := a
    rw [Typed.Expr.armChildren_cons] at h
    cases guard with
    | none =>
      obtain ⟨b, refs, rfl⟩ := List.exists_cons_of_length_eq_add_one h
      exact (ih refs (Nat.succ.inj h)).cons b
    | some g =>
      obtain ⟨r, refs, rfl⟩ := List.exists_cons_of_length_eq_add_one h
      obtain ⟨b, refs, rfl⟩ := List.exists_cons_of_length_eq_add_one (Nat.succ.inj h)
      -- a guard is numbered before its body and listed after it
      exact (((ih refs (Nat.succ.inj (Nat.succ.inj h))).cons r).cons b).trans (.swap r b refs)

theorem zip_names_snd {lets : List (String × Typed.Expr)} {refs : List Nat}
    (h : lets.length ≤ refs.length) :
    ((lets.map (·.1)).zip refs).map (·.2) = refs.take lets.length := by
  induction lets generalizing refs with
  | nil => rfl
  | cons f lets ih =>
    cases refs with
    | nil => exact absurd h (by simp)
    | cons r refs =>
      rw [List.map_cons, List.zip_cons_cons, List.map_cons, ih (Nat.le_of_succ_le_succ h)]
      rfl

/-- The row of an expression refers to its children, to each once. -/
theorem references_rowOf (s : Setting) (e : Typed.Expr) (refs : List Nat)
    (h : refs.length = e.children.length) : (rowOf s e refs).references.Perm refs := by
  cases e with
  | ident i n | literal i v =>
    rw [List.eq_nil_of_length_eq_zero h]
    exact .nil
  | call i f es =>
    obtain ⟨r, refs, rfl⟩ := List.exists_cons_of_length_eq_add_one h
    have hrow : (rowOf s (.call i f es) (r :: refs)).references = refs ++ [r] := by
      simp [rowOf, Expr.references, Setting.row]
    rw [hrow]
    exact List.perm_append_singleton r refs
  | cond i c y n =>
    rw [children] at h
    cases n with
    | none =>
      obtain ⟨a, b, rfl⟩ := List.length_eq_two.mp h
      exact .refl _
    | some n =>
      obtain ⟨a, b, d, rfl⟩ := List.length_eq_three.mp h
      exact .refl _
  | select i t arms =>
    obtain ⟨r, refs, rfl⟩ := List.exists_cons_of_length_eq_add_one h
    exact (references_armRows arms refs (Nat.succ.inj h)).cons r
  | block i lets r =>
    have hlength : refs.length = lets.length + r.toList.length := by
      rw [h, children, List.length_append, List.length_map]
    have hle : lets.length ≤ refs.length := by omega
    have hrest : (refs.drop lets.length).length = r.toList.length := by
      rw [List.length_drop]
      omega
    have htail : (refs.drop lets.length).head?.toList = refs.drop lets.length := by
      cases r with
      | none => rw [List.eq_nil_of_length_eq_zero hrest]; rfl
      | some e =>
        obtain ⟨a, ha⟩ := List.length_eq_one_iff.mp hrest
        rw [ha]
        rfl
    have hrow : (rowOf s (.block i lets r) refs).references
        = refs.drop lets.length ++ refs.take lets.length := by
      rw [← zip_names_snd hle, ← htail]
      simp [rowOf, Expr.references, Setting.row]
    have hperm : (refs.drop lets.length ++ refs.take lets.length).Perm
        (refs.take lets.length ++ refs.drop lets.length) := List.perm_append_comm
    rw [List.take_append_drop] at hperm
    rw [hrow]
    exact hperm
  | _ =>
    refine .of_eq ?_
    simp [rowOf, Expr.references, Setting.row]

/-! ### Numbering -/

/-- Rows numbered from `start` on that refer backwards; `pending` are the references that what
comes later has still to make, so that each row is referred to once. -/
structure Numbered (start : Nat) (rows : List Expr) (pending : List Nat) : Prop where
  ids : rows.map Expr.id = List.range' start rows.length
  backwards : ∀ row ∈ rows, ∀ r ∈ row.references, r < row.id
  once : (rows.flatMap Expr.references ++ pending).Perm (List.range' start rows.length)

namespace Numbered

variable {start : Nat} {rows more : List Expr} {pending others : List Nat} {row : Expr}

theorem nil : Numbered start [] [] := ⟨rfl, by simp, .nil⟩

theorem append (h : Numbered start rows pending)
    (hmore : Numbered (start + rows.length) more others) :
    Numbered start (rows ++ more) (pending ++ others) := by
  have hrange : List.range' start (rows ++ more).length
      = List.range' start rows.length ++ List.range' (start + rows.length) more.length := by
    rw [List.length_append, List.range'_append_1]
  refine ⟨?_, ?_, ?_⟩
  · rw [List.map_append, h.ids, hmore.ids, hrange]
  · exact List.forall_mem_append.mpr ⟨h.backwards, hmore.backwards⟩
  · rw [hrange, List.flatMap_append]
    refine List.Perm.trans ?_ (h.once.append hmore.once)
    -- the references of the second part and those pending from the first change places
    rw [List.append_assoc, List.append_assoc]
    refine List.Perm.append_left _ ?_
    rw [← List.append_assoc, ← List.append_assoc]
    exact List.perm_append_comm.append_right _

theorem close (h : Numbered start rows pending) (hrow : row.references.Perm pending) :
    Numbered start (close start rows row).1 [(close start rows row).2] := by
  have hlength : (Lowered.close start rows row).1.length = rows.length + 1 := by
    rw [Lowered.close, List.length_append]
    rfl
  refine ⟨?_, ?_, ?_⟩
  · rw [hlength, Lowered.close, List.map_append, h.ids, List.range'_1_concat]
    rfl
  · intro other hother
    rcases List.mem_append.mp hother with hother | hother
    · exact h.backwards other hother
    · obtain rfl := List.mem_singleton.mp hother
      intro r hr
      have hpending : r ∈ pending := hrow.mem_iff.mp hr
      have hrange := h.once.mem_iff.mp (List.mem_append_right _ hpending)
      exact (List.mem_range'_1.mp hrange).2
  · rw [hlength, List.range'_1_concat]
    refine List.Perm.append_right _ ?_
    rw [Lowered.close, List.flatMap_append, List.flatMap_singleton]
    exact (hrow.append_left _).trans h.once

end Numbered

theorem numbered_flattenList (s : Setting) {es : List Typed.Expr}
    (h : ∀ e ∈ es, ∀ start, Numbered start (flatten s start e).1 [(flatten s start e).2])
    (start : Nat) : Numbered start (flattenList s start es).1 (flattenList s start es).2 := by
  induction es generalizing start with
  | nil => exact .nil
  | cons e es ih =>
    have hfirst := h e List.mem_cons_self start
    exact hfirst.append (ih (fun c hc => h c (List.mem_cons_of_mem _ hc)) _)

/-- **The rows of an expression are numbered**, and only its own row waits for a reference. -/
theorem numbered_flatten (s : Setting) (e : Typed.Expr) (start : Nat) :
    Numbered start (flatten s start e).1 [(flatten s start e).2] := by
  induction e using childInduction generalizing start with
  | h e ih =>
    have hparts := numbered_flattenList s ih start
    rw [flatten_eq]
    exact hparts.close (references_rowOf s e _ (length_flattenList s start e.children))

/-! ### The number of rows -/

theorem rows_flattenList (s : Setting) {es : List Typed.Expr}
    (h : ∀ e ∈ es, ∀ start, (flatten s start e).1.length = e.size) (start : Nat) :
    (flattenList s start es).1.length = sizeOfList es := by
  induction es generalizing start with
  | nil => rfl
  | cons e es ih =>
    rw [flattenList_cons, List.length_append, sizeOfList, h e List.mem_cons_self,
      ih fun c hc => h c (List.mem_cons_of_mem _ hc)]

/-- An expression has one row for each expression in it. -/
theorem rows_flatten (s : Setting) (e : Typed.Expr) (start : Nat) :
    (flatten s start e).1.length = e.size := by
  induction e using childInduction generalizing start with
  | h e ih =>
    rw [flatten_eq, close, List.length_append, rows_flattenList s ih, Typed.Expr.size_eq]
    rfl

/-- The row of an expression is the last of its rows. -/
theorem root_flatten (s : Setting) (e : Typed.Expr) (start : Nat) :
    (flatten s start e).2 = start + (e.size - 1) := by
  have hrows := rows_flatten s e start
  rw [flatten_eq, close, List.length_append, List.length_singleton] at hrows
  rw [flatten_eq, close]
  dsimp only
  omega

/-! ### Reading a table -/

/-- The place and the type a row gives for its expression. -/
structure Place where
  span : Span
  ty : String
deriving DecidableEq

/-- An arm as far as a table holds it. -/
structure OutlineArm (ε : Type) where
  pattern : Option Pattern
  guard : Option ε
  asName : String
  body : ε

/-- An expression as far as a table holds it. -/
inductive Outline where
  | ident (place : Place) (name : String)
  | literal (place : Place) (value : Literal)
  | construct (place : Place) (name : String) (args : List Outline)
  | call (place : Place) (callee : Outline) (args : List Outline)
  | unary (place : Place) (operator : String) (operand : Outline)
  | binary (place : Place) (operator : String) (left right : Outline)
  | cond (place : Place) (test yes : Outline) (no : Option Outline)
  | select (place : Place) (target : Outline) (arms : List (OutlineArm Outline))
  | block (place : Place) (lets : List (String × Outline)) (result : Option Outline)
  | perform (place : Place) (effect : String) (args : List Outline)
  | tuple (place : Place) (elements : List Outline)
  | array (place : Place) (elements : List Outline)
  | record (place : Place) (fields : List (String × Outline))
  | field (place : Place) (record : Outline) (name : String)

/-- The place of a typed node. -/
def Setting.place (s : Setting) (i : Typed.Info) : Place := ⟨i.span, s.placeholders.typeLabel i.ty⟩

namespace Outline

mutual

/-- What a table is to hold of a typed expression. -/
def of (s : Setting) : Typed.Expr → Outline
  | .ident i n => .ident (s.place i) n
  | .literal i v => .literal (s.place i) v
  | .construct i n es => .construct (s.place i) n (ofList s es)
  | .call i f es => .call (s.place i) (of s f) (ofList s es)
  | .unary i op e => .unary (s.place i) op.symbol (of s e)
  | .binary i op l r => .binary (s.place i) op.symbol (of s l) (of s r)
  | .cond i c y n => .cond (s.place i) (of s c) (of s y) (ofOption s n)
  | .select i t arms => .select (s.place i) (of s t) (ofArms s arms)
  | .block i lets r => .block (s.place i) (ofFields s lets) (ofOption s r)
  | .perform i n es => .perform (s.place i) n (ofList s es)
  | .tuple i es => .tuple (s.place i) (ofList s es)
  | .array i es => .array (s.place i) (ofList s es)
  | .record i fs => .record (s.place i) (ofFields s fs)
  | .field i e n => .field (s.place i) (of s e) n

def ofList (s : Setting) : List Typed.Expr → List Outline
  | [] => []
  | e :: es => of s e :: ofList s es

def ofOption (s : Setting) : Option Typed.Expr → Option Outline
  | none => none
  | some e => some (of s e)

def ofFields (s : Setting) : List (String × Typed.Expr) → List (String × Outline)
  | [] => []
  | (n, e) :: fs => (n, of s e) :: ofFields s fs

def ofArms (s : Setting) : List (Arm Typed.Pattern Typed.Expr) → List (OutlineArm Outline)
  | [] => []
  | ⟨_, p, guard, _, asName, body⟩ :: arms =>
    ⟨some (.ofTyped p), ofOption s guard, (asName.map Alias.name).getD "", of s body⟩
      :: ofArms s arms

end

section Read

variable (look : Nat → Option Outline)

/-- What a reference that may be missing leads to. -/
def lookOption : Option Nat → Option (Option Outline)
  | none => some none
  | some r => (look r).map some

/-- What the arm of a row stands for. -/
def ofArm (a : MatchArm) : Option (OutlineArm Outline) := do
  let guard ← lookOption look a.guard
  let body ← look a.body
  return ⟨a.pattern, guard, a.asName, body⟩

/-- What a row stands for, given what its references lead to. -/
def ofRow (e : Expr) : Option Outline :=
  let place : Place := ⟨e.span, e.ty⟩
  match e.form with
  | .identifier => some (.ident place e.name)
  | .literal => e.literal.map (.literal place)
  | .construct => (e.args.mapM look).map (.construct place e.name)
  | .call => do
    let callee ← e.callee.bind look
    let args ← e.args.mapM look
    return .call place callee args
  | .unary => do
    match ← e.args.mapM look with
    | [operand] => return .unary place e.operator operand
    | _ => none
  | .binary => do
    match ← e.args.mapM look with
    | [left, right] => return .binary place e.operator left right
    | _ => none
  | .cond => do
    let test ← e.condition.bind look
    let yes ← e.yes.bind look
    let no ← lookOption look e.no
    return .cond place test yes no
  | .select => do
    let target ← e.target.bind look
    let arms ← e.arms.mapM (ofArm look)
    return .select place target arms
  | .block => do
    let values ← (e.statements.map (·.2)).mapM look
    let result ← lookOption look e.tail
    return .block place ((e.statements.map (·.1)).zip values) result
  | .perform => (e.args.mapM look).map (.perform place e.name)
  | .tuple => (e.args.mapM look).map (.tuple place)
  | .array => (e.args.mapM look).map (.array place)
  | .record => do
    let values ← e.args.mapM look
    return .record place (e.keys.zip values)
  | .field => do
    match ← e.args.mapM look with
    | [target] => return .field place target e.name
    | _ => none
  | .other _ => none

end Read

/-- What a row of a table stands for, following at most `room` references one after the other. -/
def read (rows : List Expr) : (room : Nat) → (row : Nat) → Option Outline
  | 0, _ => none
  | room + 1, i => rows[i]?.bind (ofRow (read rows room))

/-- The references `refs` lead to the outlines of the expressions `es`, one by one. -/
def LeadTo (s : Setting) (look : Nat → Option Outline) (refs : List Nat)
    (es : List Typed.Expr) : Prop :=
  List.Forall₂ (fun r e => look r = some (of s e)) refs es

section LeadTo

variable {s : Setting} {look : Nat → Option Outline} {refs : List Nat}

theorem LeadTo.mapM {es : List Typed.Expr} (h : LeadTo s look refs es) :
    refs.mapM look = some (ofList s es) := by
  induction h with
  | nil => rfl
  | cons hfirst _ ih =>
    rw [List.mapM_cons, hfirst, ih]
    rfl

theorem LeadTo.lookOption {o : Option Typed.Expr} (h : LeadTo s look refs o.toList) :
    Outline.lookOption look refs.head? = some (ofOption s o) := by
  cases o with
  | none =>
    cases h
    rfl
  | some e =>
    cases h with
    | cons hfirst hrest =>
      cases hrest
      show (look _).map some = _
      rw [hfirst]
      rfl

theorem LeadTo.mapM_ofArm {arms : List (Arm Typed.Pattern Typed.Expr)}
    (h : LeadTo s look refs (armChildren arms)) :
    (armRows arms refs).mapM (ofArm look) = some (ofArms s arms) := by
  induction arms generalizing refs with
  | nil =>
    cases h
    rfl
  | cons a arms ih =>
    obtain ⟨span, p, guard, usedIf, asName, body⟩ := a
    rw [Typed.Expr.armChildren_cons] at h
    cases guard with
    | none =>
      cases h with
      | cons hbody hrest =>
        rw [armRows, List.mapM_cons, ih hrest, ofArm, hbody]
        rfl
    | some g =>
      cases h with
      | cons hguard hrest =>
        cases hrest with
        | cons hbody hrest =>
          rw [armRows, List.mapM_cons, ih hrest, ofArm, hbody]
          show (((look _).map some).bind _).bind _ = _
          rw [hguard]
          rfl

theorem ofFields_eq (fs : List (String × Typed.Expr)) :
    ofFields s fs = (fs.map (·.1)).zip (ofList s (fs.map (·.2))) := by
  induction fs with
  | nil => rfl
  | cons f fs ih => rw [ofFields, ih]; rfl

/-- **One step of reading**: if its references lead to the children, a row stands for the whole. -/
theorem ofRow_rowOf {e : Typed.Expr} (h : LeadTo s look refs e.children) :
    ofRow look (rowOf s e refs) = some (of s e) := by
  cases e with
  | ident i n => rfl
  | literal i v => rfl
  | construct i n es | perform i n es | tuple i es | array i es =>
    show (refs.mapM look).map _ = _
    rw [LeadTo.mapM h]
    rfl
  | call i f es =>
    cases h with
    | @cons r _ rs _ hcallee hargs =>
      show (look r).bind _ = _
      rw [hcallee]
      show (rs.mapM look).bind _ = _
      rw [LeadTo.mapM hargs]
      rfl
  | unary i op e | binary i op l r | field i e n =>
    show (refs.mapM look).bind _ = _
    rw [LeadTo.mapM h]
    rfl
  | cond i c y n =>
    cases h with
    | @cons a _ _ _ htest hrest =>
      cases hrest with
      | @cons b _ rs _ hyes hno =>
        show (look a).bind _ = _
        rw [htest]
        show (look b).bind _ = _
        rw [hyes]
        show (Outline.lookOption look rs[0]?).bind _ = _
        rw [← List.head?_eq_getElem?, LeadTo.lookOption hno]
        rfl
  | select i t arms =>
    cases h with
    | @cons r _ rs _ htarget harms =>
      show (look r).bind _ = _
      rw [htarget]
      show ((armRows arms rs).mapM (ofArm look)).bind _ = _
      rw [LeadTo.mapM_ofArm harms]
      rfl
  | block i lets r =>
    have hlength : lets.length ≤ refs.length := by
      rw [List.Forall₂.length_eq h, children, List.length_append, List.length_map]
      omega
    have hvalues : LeadTo s look (refs.take lets.length) (lets.map (·.2)) := by
      have htake := List.forall₂_take_append _ _ _ h
      rwa [List.length_map] at htake
    have hresult : LeadTo s look (refs.drop lets.length) r.toList := by
      have hdrop := List.forall₂_drop_append _ _ _ h
      rwa [List.length_map] at hdrop
    have hnames : ((lets.map (·.1)).zip refs).map (·.1) = lets.map (·.1) :=
      List.map_fst_zip (by rwa [List.length_map])
    show ((((lets.map (·.1)).zip refs).map (·.2)).mapM look).bind _ = _
    rw [zip_names_snd hlength, hvalues.mapM]
    show (Outline.lookOption look (refs.drop lets.length).head?).bind _ = _
    rw [hresult.lookOption, of, ofFields_eq]
    show some (Outline.block _ ((((lets.map (·.1)).zip refs).map (·.1)).zip _) _) = _
    rw [hnames]
    rfl
  | record i fs =>
    show (refs.mapM look).bind _ = _
    rw [LeadTo.mapM h, of, ofFields_eq]
    rfl

end LeadTo

/-! Rows in their place in a table -/

theorem prefix_drop_append {rows more table : List Expr} {start : Nat}
    (h : rows ++ more <+: table.drop start) :
    rows <+: table.drop start ∧ more <+: table.drop (start + rows.length) := by
  obtain ⟨rest, hrest⟩ := h
  refine ⟨⟨more ++ rest, by rw [← hrest, List.append_assoc]⟩, rest, ?_⟩
  rw [← List.drop_drop, ← hrest, List.append_assoc, List.drop_left]

theorem leadTo_flattenList {s : Setting} {table : List Expr} {es : List Typed.Expr} {room : Nat}
    (h : ∀ e ∈ es, ∀ start, (flatten s start e).1 <+: table.drop start → e.size ≤ room →
      read table room (flatten s start e).2 = some (of s e))
    {start : Nat} (htable : (flattenList s start es).1 <+: table.drop start)
    (hroom : sizeOfList es ≤ room) :
    LeadTo s (read table room) (flattenList s start es).2 es := by
  induction es generalizing start with
  | nil => exact .nil
  | cons e es ih =>
    rw [flattenList_cons] at htable
    obtain ⟨hfirst, hrest⟩ := prefix_drop_append htable
    rw [sizeOfList] at hroom
    refine .cons (h e List.mem_cons_self start hfirst (by omega)) ?_
    exact ih (fun c hc => h c (List.mem_cons_of_mem _ hc)) hrest (by omega)

/-- **Reading undoes flattening**, wherever in a table the rows stand. -/
theorem read_flatten (s : Setting) (table : List Expr) (e : Typed.Expr) {start room : Nat}
    (htable : (flatten s start e).1 <+: table.drop start) (hroom : e.size ≤ room) :
    read table room (flatten s start e).2 = some (of s e) := by
  induction e using childInduction generalizing start room with
  | h e ih =>
    rw [Typed.Expr.size_eq] at hroom
    obtain ⟨room, rfl⟩ : ∃ k, room = k + 1 := ⟨room - 1, by omega⟩
    rw [flatten_eq, close] at htable ⊢
    obtain ⟨hparts, hrow⟩ := prefix_drop_append htable
    have hlead : LeadTo s (read table room) (flattenList s start e.children).2 e.children :=
      leadTo_flattenList (fun c hc start ht hc' => ih c hc ht hc') hparts (by omega)
    obtain ⟨rest, hrest⟩ := hrow
    have hget : table[start + (flattenList s start e.children).1.length]? = some
        { rowOf s e (flattenList s start e.children).2 with
          id := start + (flattenList s start e.children).1.length } := by
      rw [← List.head?_drop, ← hrest]
      rfl
    rw [read, hget]
    exact ofRow_rowOf hlead

end Outline

/-- **Flattening loses, duplicates and reorders nothing.**  The rows of an expression are numbered
from 0 on, as many as it has expressions, its own row last.  A row refers to earlier rows only, each
row but the last is referred to exactly once and the last one never, and following the references
from the last row gives the expression again.  Numbers are not bounded here; a word of 32 bits holds
them while there are fewer than `2 ^ 32` rows. -/
theorem flatten_faithful (s : Setting) (e : Typed.Expr) :
    (flatten s 0 e).1.map Expr.id = List.range e.size ∧
    (flatten s 0 e).2 = e.size - 1 ∧
    (∀ row ∈ (flatten s 0 e).1, ∀ r ∈ row.references, r < row.id) ∧
    (∀ i < e.size, ((flatten s 0 e).1.flatMap Expr.references).count i =
      if i = (flatten s 0 e).2 then 0 else 1) ∧
    Outline.read (flatten s 0 e).1 e.size (flatten s 0 e).2 = some (Outline.of s e) := by
  have hnumbered := numbered_flatten s e 0
  have hrows := rows_flatten s e 0
  have hroot := root_flatten s e 0
  rw [Nat.zero_add] at hroot
  refine ⟨?_, hroot, hnumbered.backwards, ?_, ?_⟩
  · rw [hnumbered.ids, hrows, List.range_eq_range']
  · intro i hi
    -- each number stands once among all references and the root together
    have honce : ((flatten s 0 e).1.flatMap Expr.references ++ [(flatten s 0 e).2]).count i = 1 := by
      rw [hnumbered.once.count_eq, hrows, ← List.range_eq_range']
      exact List.count_eq_one_of_mem List.nodup_range (List.mem_range.mpr hi)
    rw [List.count_append, List.count_singleton] at honce
    by_cases hlast : i = (flatten s 0 e).2
    · rw [if_pos hlast]
      rw [if_pos (by rw [hlast, beq_self_eq_true])] at honce
      omega
    · rw [if_neg hlast]
      rw [if_neg (by simpa using Ne.symm hlast)] at honce
      omega
  · exact Outline.read_flatten s _ e (List.prefix_rfl) (Nat.le_refl _)

end PatternPlan.Lowered
