/-!
# What is wrong with a regular expression

* `ErrorKind`, `Error` — what is wrong, and the part of the text that is;
* `consumed`, `refuse` — errors about the part of a text that was just read.
-/

namespace PatternPlan.Regex

/-- What may be wrong. -/
inductive ErrorKind where
  | charRange | escape | namedCapture | groupSyntax | nestedRepeat | repeatCount | missingBracket
  | missingParen | missingArgument | trailingBackslash | unexpectedParen | tooDeep | tooLarge
deriving DecidableEq

def ErrorKind.text : ErrorKind → String
  | charRange => "invalid character class range"
  | escape => "invalid escape sequence"
  | namedCapture => "invalid named capture"
  | groupSyntax => "invalid or unsupported Perl syntax"
  | nestedRepeat => "invalid nested repetition operator"
  | repeatCount => "invalid repeat count"
  | missingBracket => "missing closing ]"
  | missingParen => "missing closing )"
  | missingArgument => "missing argument to repetition operator"
  | trailingBackslash => "trailing backslash at end of expression"
  | unexpectedParen => "unexpected )"
  | tooDeep => "expression nests too deeply"
  | tooLarge => "expression too large"

/-- An error and the part of the text it is about. -/
structure Error where
  kind : ErrorKind
  fragment : List Char

def Error.message (e : Error) : String :=
  "error parsing regexp: " ++ e.kind.text ++ ": `" ++ String.ofList e.fragment ++ "`"

/-- The part of `before` that was read when `after` is what is left. -/
def consumed (before after : List Char) : List Char := before.take (before.length - after.length)

/-- Refuses the part that was read. -/
def refuse {α : Type} (kind : ErrorKind) (before after : List Char) : Except Error α :=
  .error ⟨kind, consumed before after⟩

end PatternPlan.Regex
