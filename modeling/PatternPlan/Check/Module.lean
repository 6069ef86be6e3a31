import PatternPlan.Check.Effects
import PatternPlan.Check.Matches

/-!
# Checks of whole files

* `recognizerProblems` — names that clash, results of the wrong shape, effects where none are
  allowed;
* `moduleProblems` — the recognizers, then every match of the file.
-/

namespace PatternPlan.Typed

/-- A result type that the kind of a recognizer does not allow. -/
def contractProblem? (r : Recognizer) (result : Ty) : Option Diagnostic :=
  let report (wanted : String) : Diagnostic :=
    Diagnostic.new .activeReturn r.span [.str r.label, .str wanted, .str result.text]
  if result.isUnknown then none
  else match r.kind with
    | .optional => if result.isOption then none else some (report "Option<T>")
    | .total =>
      if result.isOption || result.isResult then some (report "a plain value") else none

/-- The annotation of a recognizer is checked first, and its body only if that is right. -/
def contractProblems (r : Recognizer) : List Diagnostic :=
  match contractProblem? r r.declared with
  | some d => [d]
  | none => (contractProblem? r r.returns).toList

/-- A recognizer whose name a function has, or an earlier recognizer. -/
def nameProblems (functions : List String) (before : List Recognizer) (r : Recognizer) :
    List Diagnostic :=
  (if r.name ∈ functions then
      [Diagnostic.new .activeConflict r.span [.str r.label, .str ("fn " ++ r.name)]]
    else [])
    ++ match before.find? fun p => p.name = r.name with
      | some p => [(Diagnostic.new .activeConflict r.span [.str r.label, .str p.label]).withNote
          ("first declared at " ++ p.span.text)]
      | none => []

/-- A recognizer that promises to have no effect, and may have one. -/
def effectProblems (known : List Callable) (r : Recognizer) : List Diagnostic :=
  if r.isPure && r.body.performs known then
    [Diagnostic.new .activeEffect r.span [.str r.label]]
  else []

/-- All checks of recognizers, each seeing the ones before it. -/
def recognizerProblems (functions : List String) (known : List Callable) :
    (before rest : List Recognizer) → List Diagnostic
  | _, [] => []
  | before, r :: rs =>
    nameProblems functions before r ++ contractProblems r ++ effectProblems known r
      ++ recognizerProblems functions known (before ++ [r]) rs

/-- All checks of a file. -/
def moduleProblems (config : Config) (m : Module) : List Diagnostic :=
  let s : Surroundings :=
    ⟨m.types, m.recognizers.map Recognizer.name, config.warnLegacyIf⟩
  recognizerProblems (m.functions.map Function.name) m.effectful [] m.recognizers
    ++ m.allMatches.flatMap fun x => matchProblems s x.target.ty x.arms

end PatternPlan.Typed
