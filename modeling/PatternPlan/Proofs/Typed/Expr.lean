import PatternPlan.Typed.Tree

/-!
# The expressions inside an expression

One view of the fourteen forms of typed expressions, so that a traversal is described once.

* `Expr.children` — the expressions directly inside one, in the order in which they are evaluated;
* `Expr.size` — the number of expressions in one, itself included;
* `Expr.childInduction` — **a property that passes from the children to the whole holds everywhere**;
* `Expr.allMatches_eq` — the matches of an expression are its own and those of its children.
-/

namespace PatternPlan.Typed.Expr

/-- The guards and bodies of arms, each guard before its body. -/
def armChildren (arms : List (Arm Pattern Expr)) : List Expr :=
  arms.flatMap fun a => a.guard.toList ++ [a.body]

/-- The expressions directly inside an expression, in the order in which they are evaluated. -/
def children : Expr → List Expr
  | ident _ _ | literal _ _ => []
  | construct _ _ es | perform _ _ es | tuple _ es | array _ es => es
  | call _ f es => f :: es
  | unary _ _ e | field _ e _ => [e]
  | binary _ _ l r => [l, r]
  | cond _ c y n => c :: y :: n.toList
  | select _ t arms => t :: armChildren arms
  | block _ lets r => lets.map (·.2) ++ r.toList
  | record _ fs => fs.map (·.2)

mutual

/-- The number of expressions in an expression, itself included. -/
def size : Expr → Nat
  | ident _ _ | literal _ _ => 1
  | construct _ _ es | perform _ _ es | tuple _ es | array _ es => sizeOfList es + 1
  | call _ f es => size f + sizeOfList es + 1
  | unary _ _ e | field _ e _ => size e + 1
  | binary _ _ l r => size l + size r + 1
  | cond _ c y n => size c + size y + sizeOfOption n + 1
  | select _ t arms => size t + sizeOfArms arms + 1
  | block _ lets r => sizeOfFields lets + sizeOfOption r + 1
  | record _ fs => sizeOfFields fs + 1

def sizeOfList : List Expr → Nat
  | [] => 0
  | e :: es => size e + sizeOfList es

def sizeOfOption : Option Expr → Nat
  | none => 0
  | some e => size e

def sizeOfFields : List (String × Expr) → Nat
  | [] => 0
  | (_, e) :: fs => size e + sizeOfFields fs

def sizeOfArms : List (Arm Pattern Expr) → Nat
  | [] => 0
  | ⟨_, _, guard, _, _, body⟩ :: arms => sizeOfOption guard + size body + sizeOfArms arms

end

theorem sizeOfList_append (es fs : List Expr) :
    sizeOfList (es ++ fs) = sizeOfList es + sizeOfList fs := by
  induction es with
  | nil => rw [List.nil_append, sizeOfList, Nat.zero_add]
  | cons e es ih => rw [List.cons_append, sizeOfList, sizeOfList, ih, Nat.add_assoc]

theorem sizeOfOption_eq (o : Option Expr) : sizeOfOption o = sizeOfList o.toList := by
  cases o with
  | none => rfl
  | some e => rfl

theorem sizeOfFields_eq (fs : List (String × Expr)) :
    sizeOfFields fs = sizeOfList (fs.map (·.2)) := by
  induction fs with
  | nil => rfl
  | cons f fs ih => rw [sizeOfFields, List.map_cons, sizeOfList, ih]

theorem armChildren_cons (a : Arm Pattern Expr) (arms : List (Arm Pattern Expr)) :
    armChildren (a :: arms) = a.guard.toList ++ a.body :: armChildren arms := by
  rw [armChildren, List.flatMap_cons, List.append_assoc]
  rfl

theorem sizeOfArms_eq (arms : List (Arm Pattern Expr)) :
    sizeOfArms arms = sizeOfList (armChildren arms) := by
  induction arms with
  | nil => rfl
  | cons a arms ih =>
    rw [armChildren_cons, sizeOfList_append, sizeOfList, sizeOfArms, sizeOfOption_eq, ih,
      Nat.add_assoc]

/-- An expression is one more than its children. -/
theorem size_eq (e : Expr) : e.size = sizeOfList e.children + 1 := by
  cases e with
  | cond i c y n =>
    rw [size, children, sizeOfList, sizeOfList, sizeOfOption_eq, Nat.add_assoc (size c)]
  | select i t arms => rw [size, children, sizeOfList, sizeOfArms_eq]
  | block i lets r =>
    rw [size, children, sizeOfList_append, sizeOfFields_eq, sizeOfOption_eq]
  | record i fs => rw [size, children, sizeOfFields_eq]
  | _ => rfl

theorem size_le_sizeOfList {e : Expr} {es : List Expr} (h : e ∈ es) :
    e.size ≤ sizeOfList es := by
  induction es with
  | nil => cases h
  | cons f es ih =>
    rw [sizeOfList]
    rcases List.mem_cons.mp h with rfl | h
    · omega
    · have hle := ih h
      omega

theorem size_lt_of_mem_children {c e : Expr} (h : c ∈ e.children) : c.size < e.size := by
  have hle := size_le_sizeOfList h
  rw [size_eq e]
  omega

/-- **Induction over expressions**: what holds of an expression whenever it holds of the ones
directly inside holds of all of them. -/
theorem childInduction {P : Expr → Prop} (h : ∀ e, (∀ c ∈ e.children, P c) → P e) (e : Expr) :
    P e := by
  generalize hn : e.size = n
  induction n using Nat.strongRecOn generalizing e with
  | ind n ih =>
    refine h e fun c hc => ih c.size ?_ c rfl
    rw [← hn]
    exact size_lt_of_mem_children hc

/-! ### Matches -/

/-- The match that an expression is, if it is one. -/
def ownMatch : Expr → List Match
  | select i t arms => [⟨i.span, t, arms⟩]
  | _ => []

theorem allMatchesOfList_eq (es : List Expr) :
    allMatchesOfList es = es.flatMap allMatches := by
  induction es with
  | nil => rfl
  | cons e es ih => rw [allMatchesOfList, List.flatMap_cons, ih]

theorem allMatchesOfOption_eq (o : Option Expr) :
    allMatchesOfOption o = o.toList.flatMap allMatches := by
  cases o with
  | none => rfl
  | some e => exact (List.append_nil _).symm

theorem allMatchesOfFields_eq (fs : List (String × Expr)) :
    allMatchesOfFields fs = (fs.map (·.2)).flatMap allMatches := by
  induction fs with
  | nil => rfl
  | cons f fs ih => rw [allMatchesOfFields, List.map_cons, List.flatMap_cons, ih]

theorem allMatchesOfArms_eq (arms : List (Arm Pattern Expr)) :
    allMatchesOfArms arms = (armChildren arms).flatMap allMatches := by
  induction arms with
  | nil => rfl
  | cons a arms ih =>
    rw [armChildren_cons, List.flatMap_append, List.flatMap_cons, allMatchesOfArms,
      allMatchesOfOption_eq, ih, List.append_assoc]

/-- The matches of an expression: itself if it is one, then those of its children in order. -/
theorem allMatches_eq (e : Expr) : e.allMatches = e.ownMatch ++ e.children.flatMap allMatches := by
  cases e with
  | construct i n es => exact allMatchesOfList_eq es
  | call i f es => rw [allMatches, allMatchesOfList_eq]; rfl
  | unary i op e => exact (List.append_nil _).symm
  | binary i op l r => simp [allMatches, ownMatch, children]
  | cond i c y n =>
    rw [allMatches, allMatchesOfOption_eq, List.append_assoc]
    rfl
  | select i t arms => rw [allMatches, allMatchesOfArms_eq]; rfl
  | block i lets r =>
    rw [allMatches, allMatchesOfFields_eq, allMatchesOfOption_eq, ← List.flatMap_append]
    rfl
  | perform i n es => exact allMatchesOfList_eq es
  | tuple i es => exact allMatchesOfList_eq es
  | array i es => exact allMatchesOfList_eq es
  | record i fs => exact allMatchesOfFields_eq fs
  | field i e n => exact (List.append_nil _).symm
  | _ => rfl

end PatternPlan.Typed.Expr
