import PatternPlan.Text.Quoted
import PatternPlan.Number.Decimal

/-!
# Diagnostic codes

Every diagnostic belongs to a registered class with a stable name.

* `Stage`, `Severity` — who reports a diagnostic, and how grave it is;
* `Code` — the registered classes, with `Code.name`, `Code.ofName?`, `Code.stage`,
  `Code.severity` and `Code.mergeable`;
* `Code.wording` — the message of a class as a list of pieces, some of which are filled in;
* `fill` — a wording with its arguments.
-/

namespace PatternPlan

/-- The phase that reports a diagnostic. -/
inductive Stage where
  | lexer | parser | checker | backend
deriving DecidableEq, Inhabited

def Stage.name : Stage → String
  | lexer => "lexer"
  | parser => "parser"
  | checker => "checker"
  | backend => "backend"

/-- How grave a diagnostic is.  A severity set by hand may have any name. -/
inductive Severity where
  | error | warning | note
  | named (name : String)
deriving DecidableEq, Inhabited

namespace Severity

def name : Severity → String
  | error => "error"
  | warning => "warning"
  | note => "note"
  | named n => n

/-- The three severities a configuration may use. -/
def ofName? (s : String) : Option Severity :=
  match s with
  | "error" => some error
  | "warning" => some warning
  | "note" => some note
  | _ => none

/-- The severity with a given name. -/
def ofName (s : String) : Severity := (ofName? s).getD (named s)

end Severity

/-- The registered classes of diagnostics. -/
inductive Code where
  | illegalToken | unexpectedToken | expectedPattern | expectedExpression | unexpectedEnd
  | nestingTooDeep | annotationUnknown
  | unreachableArm | notExhaustive | duplicateBinding | multipleRests | sliceTypeMismatch
  | rangeInverted | rangeTypeMismatch | regexTarget | regexInvalid | guardIfDeprecated
  | constructorArity | constructorUnknown
  | activeReturn | activeEffect | activeConflict | activeUndefined
  | typeDuplicate
  | planRejected
deriving DecidableEq, Inhabited

namespace Code

/-- Every registered class. -/
def all : List Code :=
  [illegalToken, unexpectedToken, expectedPattern, expectedExpression, unexpectedEnd,
    nestingTooDeep, annotationUnknown, unreachableArm, notExhaustive, duplicateBinding,
    multipleRests, sliceTypeMismatch, rangeInverted, rangeTypeMismatch, regexTarget, regexInvalid,
    guardIfDeprecated, constructorArity, constructorUnknown, activeReturn, activeEffect,
    activeConflict, activeUndefined, typeDuplicate, planRejected]

/-- The stable name of a class. -/
def name : Code → String
  | illegalToken => "parse.illegal_token"
  | unexpectedToken => "parse.unexpected_token"
  | expectedPattern => "parse.expected_pattern"
  | expectedExpression => "parse.expected_expression"
  | unexpectedEnd => "parse.unexpected_eof"
  | nestingTooDeep => "parse.recursion_too_deep"
  | annotationUnknown => "parse.invalid_annotation"
  | unreachableArm => "pattern.unreachable_arm"
  | notExhaustive => "pattern.exhaustiveness.missing"
  | duplicateBinding => "pattern.binding.duplicate_name"
  | multipleRests => "pattern.slice.multiple_rest"
  | sliceTypeMismatch => "pattern.slice.type_mismatch"
  | rangeInverted => "pattern.range.bound_inverted"
  | rangeTypeMismatch => "pattern.range.type_mismatch"
  | regexTarget => "pattern.regex.unsupported_target"
  | regexInvalid => "pattern.regex.invalid_syntax"
  | guardIfDeprecated => "pattern.guard.if_deprecated"
  | constructorArity => "pattern.constructor.arity_mismatch"
  | constructorUnknown => "pattern.constructor.unknown"
  | activeReturn => "pattern.active.return_contract_invalid"
  | activeEffect => "pattern.active.effect_violation"
  | activeConflict => "pattern.active.name_conflict"
  | activeUndefined => "pattern.active.undefined"
  | typeDuplicate => "type.duplicate"
  | planRejected => "backend.plan_rejected"

/-- The class with a given name. -/
def ofName? (s : String) : Option Code := all.find? fun c => c.name = s

/-- The phase that reports a class. -/
def stage : Code → Stage
  | illegalToken => .lexer
  | unexpectedToken | expectedPattern | expectedExpression | unexpectedEnd
  | nestingTooDeep | annotationUnknown => .parser
  | planRejected => .backend
  | _ => .checker

/-- The severity of a class unless a policy changes it. -/
def severity : Code → Severity
  | unreachableArm | guardIfDeprecated => .warning
  | _ => .error

/-- Whether diagnostics of the class at one span are merged into one. -/
def mergeable : Code → Bool
  | unreachableArm | notExhaustive => true
  | _ => false

end Code

/-! ### Wordings -/

/-- An argument of a message. -/
inductive Arg where
  | text (t : Text)
  | number (i : Int)

/-- A string argument. -/
def Arg.str (s : String) : Arg := .text (Text.ofString s)

/-- A piece of a wording: fixed text, or a place for a text, a quoted text or a number. -/
inductive Piece where
  | fixed (s : String)
  | text | quoted | number

/-- The letter of a place in the notation of a wording. -/
def Piece.mark : Piece → String
  | .text => "s"
  | .quoted => "q"
  | .number => "d"
  | .fixed _ => ""

/-- A place with its argument; a number in the place of a quoted text is a character, and any other
argument of the wrong sort is shown as such. -/
def Piece.filled : Piece → Arg → String
  | .text, .text t => t.shown
  | .quoted, .text t => t.quoted
  | .quoted, .number i => quotedScalar i
  | .number, .number i => decimal i
  | p, .text t => "%!" ++ p.mark ++ "(string=" ++ t.shown ++ ")"
  | p, .number i => "%!" ++ p.mark ++ "(int=" ++ decimal i ++ ")"

/-- Arguments for which a wording has no place. -/
def surplus : List Arg → String
  | [] => ""
  | args =>
    let one : Arg → String
      | .text t => "string=" ++ t.shown
      | .number i => "int=" ++ decimal i
    "%!(EXTRA " ++ ", ".intercalate (args.map one) ++ ")"

/-- A wording with its places filled from left to right. -/
def fill : List Piece → List Arg → String
  | [], args => surplus args
  | .fixed s :: ps, args => s ++ fill ps args
  | p :: ps, a :: args => p.filled a ++ fill ps args
  | p :: ps, [] => "%!" ++ p.mark ++ "(MISSING)" ++ fill ps []

/-- The message of a class. -/
def Code.wording : Code → List Piece
  | illegalToken => [.fixed "illegal token ", .quoted]
  | unexpectedToken => [.fixed "expected ", .text, .fixed ", found ", .text]
  | expectedPattern => [.fixed "expected a pattern, found ", .text]
  | expectedExpression => [.fixed "expected an expression, found ", .text]
  | unexpectedEnd => [.fixed "unexpected end of input, expected ", .text]
  | nestingTooDeep => [.fixed "nesting exceeds ", .number, .fixed " levels"]
  | annotationUnknown => [.fixed "unknown annotation @", .text]
  | unreachableArm => [.fixed "unreachable match arm: ", .text]
  | notExhaustive => [.fixed "match is not exhaustive: ", .text]
  | duplicateBinding =>
    [.fixed "name `", .text, .fixed "` is bound more than once in the same pattern"]
  | multipleRests =>
    [.fixed "slice pattern has ", .number, .fixed " rest markers, at most one is allowed"]
  | sliceTypeMismatch => [.fixed "slice pattern cannot match a value of type ", .text]
  | rangeInverted => [.fixed "range pattern bounds are inverted: ", .text]
  | rangeTypeMismatch =>
    [.fixed "range bounds have incompatible types ", .text, .fixed " and ", .text]
  | regexTarget => [.fixed "regex pattern cannot match a value of type ", .text]
  | regexInvalid => [.fixed "invalid regex ", .quoted, .fixed ": ", .text]
  | guardIfDeprecated => [.fixed "guards introduced with `if` are deprecated, use `when`"]
  | constructorArity =>
    [.fixed "constructor ", .text, .fixed " expects ", .number, .fixed " argument(s), found ", .number]
  | constructorUnknown => [.fixed "unknown constructor ", .text]
  | activeReturn =>
    [.fixed "active pattern ", .text, .fixed " must return ", .text, .fixed ", found ", .text]
  | activeEffect => [.fixed "@pure active pattern ", .text, .fixed " performs an effect"]
  | activeConflict => [.fixed "active pattern ", .text, .fixed " conflicts with ", .text]
  | activeUndefined => [.fixed "undefined active pattern ", .text]
  | typeDuplicate => [.text]
  | planRejected =>
    [.fixed "backend ", .text, .fixed " rejected the lowering plan: ", .text]

end PatternPlan
