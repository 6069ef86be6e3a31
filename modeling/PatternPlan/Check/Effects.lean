import PatternPlan.Typed.Tree

/-!
# Effects

Which functions and recognizers may perform an effect.

* `Callable` — a function or a recognizer, by the name it is known by;
* `Expr.performs` — whether evaluating an expression may perform an effect, given the callables
  that are known to;
* `Module.effectful` — the least set closed under this: a callable belongs to it when its body
  performs, calls a function of the set, or matches through a recognizer of the set.
-/

namespace PatternPlan

/-- A function or a recognizer, by the name that tells it apart from the others of a file. -/
structure Callable where
  key : String
deriving DecidableEq

namespace Callable

/-- A function is known by its name. -/
def function (name : String) : Callable := ⟨name⟩

/-- A recognizer is known by its name between banana brackets. -/
def recognizer (name : String) : Callable := ⟨"(|" ++ name ++ "|)"⟩

end Callable

namespace Typed

/-- Whether a pattern is a call of one of the recognizers in `known`. -/
def Pattern.callsAny (known : List Callable) : Pattern → Bool
  | .active _ n _ _ _ => Callable.recognizer n ∈ known
  | _ => false

/-- Whether an expression names one of the functions in `known`. -/
def Expr.namesAny (known : List Callable) : Expr → Bool
  | .ident _ n => Callable.function n ∈ known
  | _ => false

namespace Expr

mutual

/-- Whether evaluating an expression may perform an effect, when the callables in `known` may. -/
def performs (known : List Callable) : Expr → Bool
  | ident _ _ | literal _ _ => false
  | construct _ _ es | tuple _ es | array _ es => anyPerforms known es
  | perform _ _ _ => true
  | call _ f es => f.namesAny known || performs known f || anyPerforms known es
  | unary _ _ e | field _ e _ => performs known e
  | binary _ _ l r => performs known l || performs known r
  | cond _ c y n => performs known c || performs known y || optionPerforms known n
  | select _ t arms => performs known t || armsPerform known arms
  | block _ lets r => fieldsPerform known lets || optionPerforms known r
  | record _ fs => fieldsPerform known fs

def anyPerforms (known : List Callable) : List Expr → Bool
  | [] => false
  | e :: es => performs known e || anyPerforms known es

def optionPerforms (known : List Callable) : Option Expr → Bool
  | none => false
  | some e => performs known e

def fieldsPerform (known : List Callable) : List (String × Expr) → Bool
  | [] => false
  | (_, e) :: fs => performs known e || fieldsPerform known fs

def armsPerform (known : List Callable) : List (Arm Pattern Expr) → Bool
  | [] => false
  | ⟨_, p, guard, _, _, body⟩ :: arms =>
    p.nodes.any (Pattern.callsAny known) || optionPerforms known guard || performs known body
      || armsPerform known arms

end

end Expr

namespace Module

/-- The callables of a file with their bodies. -/
def bodies (m : Module) : List (Callable × Expr) :=
  m.functions.map (fun f => (.function f.name, f.body))
    ++ m.recognizers.map (fun r => (.recognizer r.name, r.body))

/-- Adds a callable whose body performs, given what is known. -/
def learn (known : List Callable) (b : Callable × Expr) : List Callable :=
  if b.1 ∈ known then known
  else if b.2.performs known then known ++ [b.1] else known

/-- One pass over all bodies. -/
def pass (bodies : List (Callable × Expr)) (known : List Callable) : List Callable :=
  bodies.foldl learn known

/-- The callables that may perform an effect: each pass that is not the last adds one at least, so
as many passes as there are bodies reach the end. -/
def effectful (m : Module) : List Callable :=
  Nat.repeat (pass m.bodies) m.bodies.length []

end Module

end Typed

end PatternPlan
