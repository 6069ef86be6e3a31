import PatternPlan.Check.Arms
import PatternPlan.Check.Usefulness

/-!
# Checks of whole matches

* `unreachableArms` — arms and alternatives that can never be the first to match;
* `missingFallback` — a recognizer that may miss, with no later arm that matches every value;
* `missingCases` — values that no arm without a guard matches;
* `matchProblems` — all checks of a match.  No check stops another one, except that a missing
  fallback hides missing cases.
-/

namespace PatternPlan.Typed

/-- Whether all values of the target can be told apart by patterns: its type has shapes, or the
patterns show one that has. -/
def structured (types : TypeTable) (target : Ty) (patterns : List Pattern) : Bool :=
  if target.isUnknown then
    let t := inferType types (patterns.flatMap normalizePattern)
    !t.isUnknown && (shapes types t []).isSome
  else (shapes types target []).isSome

/-- A value of the target that none of the patterns matches. -/
def missingValue (types : TypeTable) (target : Ty) (patterns : List Pattern) : Option String :=
  (missing types (patterns.map fun p => [some p]) [target]).map (·.headD "")

/-! ### Reachability -/

/-- An arm without a guard, as it hides later ones: its number and the hiding part of its
pattern. -/
abbrev Prior := List (Nat × Pattern)

/-- A pattern without the names bound to all of it. -/
def unbound : Pattern → Pattern
  | .binding _ _ _ p => unbound p
  | p => p

/-- Why an alternative cannot be the first to match: an alternative before it or an earlier arm
covers it. -/
def alternativeReason (before : List Pattern) (prior : Prior) (p : Pattern) : Option String :=
  match before.findIdx? fun q => covers q p with
  | some j => some ("alternative already covered by alternative " ++ decimal (j + 1))
  | none =>
    if prior.any fun q => covers q.2 p then some "alternative already covered by an earlier arm"
    else none

/-- Alternatives that cannot be the first to match. -/
def unreachableAlternatives (prior : Prior) : (before rest : List Pattern) → List Diagnostic
  | _, [] => []
  | before, p :: ps =>
    (match alternativeReason before prior p with
      | some reason => [Diagnostic.new .unreachableArm p.span [.str reason]]
      | none => [])
      ++ unreachableAlternatives prior (before ++ [p]) ps

/-- Why an arm can never be the first to match. -/
def armReason (types : TypeTable) (target : Ty) (prior : Prior) (p : Pattern) : Option String :=
  match prior.find? fun q => covers q.2 p with
  | some q => some ("already covered by arm " ++ decimal q.1)
  | none =>
    let patterns := prior.map (·.2)
    if !prior.isEmpty && structured types target patterns
        && (missingValue types target patterns).isNone then
      some "previous arms already match every value"
    else none

/-- Arms and alternatives that can never be the first to match, from arm number `n` on. -/
def unreachableFrom (types : TypeTable) (target : Ty) :
    (n : Nat) → Prior → List (Arm Pattern Expr) → List Diagnostic
  | _, _, [] => []
  | n, prior, a :: arms =>
    let found := match armReason types target prior a.pattern with
      | some reason => [Diagnostic.new .unreachableArm a.span [.str reason]]
      | none => match unbound a.pattern with
        | .or _ ps => unreachableAlternatives prior [] ps
        | _ => []
    let prior := if a.guard.isNone then prior ++ [(n, a.pattern.shadowing)] else prior
    found ++ unreachableFrom types target (n + 1) prior arms

def unreachableArms (types : TypeTable) (target : Ty) (arms : List (Arm Pattern Expr)) :
    List Diagnostic :=
  unreachableFrom types target 1 [] arms

/-! ### Exhaustiveness -/

/-- The last arm that uses a recognizer that may miss, with the arms after it. -/
def lastOptional : List (Arm Pattern Expr) → Option (Arm Pattern Expr × List (Arm Pattern Expr))
  | [] => none
  | a :: arms => match lastOptional arms with
    | some r => some r
    | none => if a.pattern.usesOptional then some (a, arms) else none

/-- Whether an arm matches every value without further condition. -/
def isFallback (a : Arm Pattern Expr) : Bool := a.guard.isNone && a.pattern.irrefutable

/-- The last arm that may miss, if no fallback follows it. -/
def missingFallback (arms : List (Arm Pattern Expr)) : List Diagnostic :=
  match lastOptional arms with
  | none => []
  | some (a, rest) =>
    if rest.any isFallback then []
    else [Diagnostic.new .notExhaustive a.span
      [.str "a partial active pattern may miss and no later arm matches every value"]]

/-- The bytes that the arms cover. -/
def armsSpan : List (Arm Pattern Expr) → Span
  | [] => {}
  | a :: arms => a.span.join ((arms.getLast?.getD a).span)

/-- Values that no arm without a guard matches. -/
def missingCases (types : TypeTable) (target : Ty) (arms : List (Arm Pattern Expr)) :
    List Diagnostic :=
  let patterns := (arms.filter fun a => a.guard.isNone).map Arm.pattern
  if arms.isEmpty || !structured types target patterns then []
  else match missingValue types target patterns with
    | some w => [Diagnostic.new .notExhaustive (armsSpan arms)
        [.str ("pattern " ++ w ++ " not covered")]]
    | none => []

/-- All checks of a match on a target of a type. -/
def matchProblems (s : Surroundings) (target : Ty) (arms : List (Arm Pattern Expr)) :
    List Diagnostic :=
  let fallback := missingFallback arms
  arms.flatMap (armProblems s) ++ unreachableArms s.types target arms ++ fallback
    ++ if fallback.isEmpty then missingCases s.types target arms else []

end PatternPlan.Typed
