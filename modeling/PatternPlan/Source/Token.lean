import PatternPlan.Source.Span
import PatternPlan.Number.Shortest
import PatternPlan.Text.Quoted

/-!
# Tokens

* `Literal` — the constants of the language;
* `TokenKind` — the kinds of token, each with the name it is shown under;
* `Token` — kind, source slice, value and position;
* `TokenKind.ofName` — how a name is classified: keyword, lone underscore, constructor-style when
  it starts with an ASCII capital, value-style otherwise.
-/

namespace PatternPlan

/-- A constant: 64-bit integer, binary64 number, text, truth value, or the unit value. -/
inductive Literal where
  | int (value : Int)
  | float (value : Double)
  | text (value : String)
  | bool (value : Bool)
  | unit
deriving DecidableEq, Inhabited

/-- Floats in labels and messages: positional for decimal exponents from -4 to 5. -/
def Literal.floatStyle : DoubleStyle := ⟨-4, 6, 2⟩

/-- The kinds of token. -/
inductive TokenKind where
  | illegal | eof
  | lower | upper | underscore
  | int | float | string | regex
  | assign | plus | minus | star | slash | percent | bang
  | eq | notEq | less | greater | lessEq | greaterEq | andAnd | orOr
  | arrow | fatArrow | pipe | atSign | dot | dotDot | dotDotEq
  | comma | colon | semicolon
  | lparen | rparen | lbrace | rbrace | lbracket | rbracket
  | kwModule | kwUse | kwPub | kwFn | kwPattern | kwType
  | kwMatch | kwWith | kwWhen | kwIf | kwThen | kwElse | kwAs | kwLet | kwPerform
  | kwTrue | kwFalse
deriving DecidableEq, Inhabited

namespace TokenKind

/-- The name a kind is shown under. -/
def name : TokenKind → String
  | illegal => "ILLEGAL" | eof => "EOF"
  | lower => "IDENT_LOWER" | upper => "IDENT_UPPER" | underscore => "_"
  | int => "INT" | float => "FLOAT" | string => "STRING" | regex => "REGEX"
  | assign => "=" | plus => "+" | minus => "-" | star => "*" | slash => "/" | percent => "%"
  | bang => "!" | eq => "==" | notEq => "!=" | less => "<" | greater => ">"
  | lessEq => "<=" | greaterEq => ">=" | andAnd => "&&" | orOr => "||"
  | arrow => "->" | fatArrow => "=>" | pipe => "|" | atSign => "@"
  | dot => "." | dotDot => ".." | dotDotEq => "..="
  | comma => "," | colon => ":" | semicolon => ";"
  | lparen => "(" | rparen => ")" | lbrace => "\x7b" | rbrace => "\x7d"
  | lbracket => "[" | rbracket => "]"
  | kwModule => "MODULE" | kwUse => "USE" | kwPub => "PUB" | kwFn => "FN"
  | kwPattern => "PATTERN" | kwType => "TYPE" | kwMatch => "MATCH" | kwWith => "WITH"
  | kwWhen => "WHEN" | kwIf => "IF" | kwThen => "THEN" | kwElse => "ELSE" | kwAs => "AS"
  | kwLet => "LET" | kwPerform => "PERFORM" | kwTrue => "TRUE" | kwFalse => "FALSE"

/-- The keyword a name is, if it is one. -/
def keyword? (s : String) : Option TokenKind :=
  match s with
  | "module" => some kwModule
  | "use" => some kwUse
  | "pub" => some kwPub
  | "fn" => some kwFn
  | "pattern" => some kwPattern
  | "type" => some kwType
  | "match" => some kwMatch
  | "with" => some kwWith
  | "when" => some kwWhen
  | "if" => some kwIf
  | "then" => some kwThen
  | "else" => some kwElse
  | "as" => some kwAs
  | "let" => some kwLet
  | "perform" => some kwPerform
  | "true" => some kwTrue
  | "false" => some kwFalse
  | _ => none

/-- The kind of a name. -/
def ofName (cs : List Char) : TokenKind :=
  match keyword? (String.ofList cs) with
  | some k => k
  | none =>
    match cs with
    | ['_'] => underscore
    | c :: _ => if c.isUpper then upper else lower
    | [] => lower

/-- The kinds that may begin a declaration. -/
def startsDeclaration : TokenKind → Bool
  | kwFn | kwPattern | kwType | kwPub | atSign => true
  | _ => false

end TokenKind

/-- A token: its kind, its source slice, its value, and where it starts. -/
structure Token where
  kind : TokenKind
  lexeme : Text
  value : Option Literal
  line : Nat
  column : Nat
  offset : Nat
deriving DecidableEq, Inhabited

namespace Token

/-- The offset just past the token. -/
def stop (t : Token) : Nat := t.offset + t.lexeme.width

/-- The bytes the token covers. -/
def span (t : Token) : Span := ⟨t.offset, t.stop, t.line, t.column⟩

/-- The token's slice as a reader sees it. -/
def text (t : Token) : String := t.lexeme.shown

/-- How a message names the token. -/
def described (t : Token) : String :=
  if t.kind = .eof then "end of input" else t.lexeme.quoted

end Token

end PatternPlan
