import PatternPlan.Source.Token

/-!
# Lexical analysis

A source text is cut into trivia (blanks and comments) and lexemes.

* `Source.visible` — the text up to its first NUL character, which ends a source;
* `splitTrivia` — the longest run of blanks and comments, and what follows it;
* `Lexeme`, `lexeme` — the token that starts with a given glyph, and how many further glyphs it
  takes;
* `Cursor` — line, column and offset, moved over glyphs;
* `lex` — all tokens with their positions, and the end-of-input token.

`splitTrivia_append` shows that splitting loses nothing, which also makes `tokensFrom` terminate.
-/

namespace PatternPlan

/-! ### Trivia -/

/-- Blank, tab, newline and carriage return. -/
def isBlank (c : Char) : Bool := c = ' ' || c = '\t' || c = '\n' || c = '\r'

/-- What the text read so far is inside of. -/
inductive TriviaMode where
  | blank | lineComment | blockComment
deriving DecidableEq

/-- Splits off the blanks and comments in front of the next lexeme.  A block comment that is not
closed runs to the end. -/
def splitTrivia : TriviaMode → Text → Text × Text
  | _, [] => ([], [])
  | .blank, .char '/' :: .char '/' :: rest =>
    let r := splitTrivia .lineComment rest
    (.char '/' :: .char '/' :: r.1, r.2)
  | .blank, .char '/' :: .char '*' :: rest =>
    let r := splitTrivia .blockComment rest
    (.char '/' :: .char '*' :: r.1, r.2)
  | .blank, g :: rest =>
    if isBlank g.shown then
      let r := splitTrivia .blank rest
      (g :: r.1, r.2)
    else ([], g :: rest)
  | .lineComment, g :: rest =>
    let r := splitTrivia (if g = .char '\n' then .blank else .lineComment) rest
    (g :: r.1, r.2)
  | .blockComment, .char '*' :: .char '/' :: rest =>
    let r := splitTrivia .blank rest
    (.char '*' :: .char '/' :: r.1, r.2)
  | .blockComment, g :: rest =>
    let r := splitTrivia .blockComment rest
    (g :: r.1, r.2)

/-- Splitting off trivia loses nothing. -/
theorem splitTrivia_append (m : TriviaMode) (t : Text) :
    (splitTrivia m t).1 ++ (splitTrivia m t).2 = t := by
  fun_induction splitTrivia m t <;> simp_all +zetaDelta

/-! ### Lexemes -/

/-- The token that starts at a glyph: its kind, the slice it is stored with, its value, and the
number of glyphs it takes after the first. -/
structure Lexeme where
  kind : TokenKind
  slice : Text
  value : Literal
  extra : Nat

/-- A character that may start a name. -/
def startsName (c : Char) : Bool := c = '_' || isLetter c

/-- A character that may continue a name. -/
def continuesName (c : Char) : Bool := startsName c || Decimal.isDigit c

/-- A character that may continue a number. -/
def continuesNumber (c : Char) : Bool := Decimal.isDigit c || c = '_'

/-- The character an escape in a string stands for. -/
def unescape (c : Char) : Char :=
  if c = 'n' then '\n' else if c = 't' then '\t' else if c = 'r' then '\r'
  else if c = '0' then '\x00' else c

/-- The inside of a quoted literal: its characters, the number of glyphs up to and including the
closing quote, and whether there is one. -/
structure QuotedBody where
  chars : List Char
  taken : Nat
  closed : Bool

/-- Puts one character in front of a body. -/
def QuotedBody.push (c : Char) (taken : Nat) (b : QuotedBody) : QuotedBody :=
  ⟨c :: b.chars, b.taken + taken, b.closed⟩

/-- The inside of a string, with its escapes. -/
def stringBody : Text → QuotedBody
  | [] => ⟨[], 0, false⟩
  | .char '"' :: _ => ⟨[], 1, true⟩
  | .char '\\' :: [] => ⟨[], 1, false⟩
  | .char '\\' :: g :: rest => (stringBody rest).push (unescape g.shown) 2
  | g :: rest => (stringBody rest).push g.shown 1

/-- The inside of a regex literal: verbatim, but for an escaped quote. -/
def regexBody : Text → QuotedBody
  | [] => ⟨[], 0, false⟩
  | .char '"' :: _ => ⟨[], 1, true⟩
  | .char '\\' :: .char '"' :: rest => (regexBody rest).push '"' 2
  | g :: rest => (regexBody rest).push g.shown 1

/-- The longest piece of `t` whose shown characters satisfy `p`. -/
def spanOf (p : Char → Bool) (t : Text) : Text := t.takeWhile fun g => p g.shown

/-- The number read from digits and underscores, a fraction after a point that a digit follows. -/
def number (g : Glyph) (rest : Text) : Lexeme :=
  let whole := spanOf continuesNumber rest
  let after := rest.drop whole.length
  let fraction : Text := match after with
    | .char '.' :: d :: more =>
      if Decimal.isDigit d.shown then .char '.' :: d :: spanOf continuesNumber more else []
    | _ => []
  let slice : Text := g :: whole ++ fraction
  let clean (t : Text) : List Char := t.chars.filter Decimal.isDigit
  let value : Option (TokenKind × Literal) :=
    if fraction.isEmpty then
      let n := Decimal.value (clean slice)
      if fitsInt64 n then some (.int, .int n) else none
    else
      (Double.ofDecimal false (Decimal.value (clean slice)) (-((clean fraction).length : Int))).map
        fun d => (.float, .float d)
  match value with
  | some (kind, value) => ⟨kind, slice, value, whole.length + fraction.length⟩
  | none => ⟨.illegal, slice, .text slice.shown, whole.length + fraction.length⟩

/-- The operator or delimiter that starts with a character, given the two characters after it. -/
def symbol? (c : Char) (next after : Option Char) : Option (TokenKind × String) :=
  match c with
  | '=' =>
    if next = some '=' then some (.eq, "==")
    else if next = some '>' then some (.fatArrow, "=>")
    else some (.assign, "=")
  | '+' => some (.plus, "+")
  | '-' => if next = some '>' then some (.arrow, "->") else some (.minus, "-")
  | '*' => some (.star, "*")
  | '/' => some (.slash, "/")
  | '%' => some (.percent, "%")
  | '!' => if next = some '=' then some (.notEq, "!=") else some (.bang, "!")
  | '<' => if next = some '=' then some (.lessEq, "<=") else some (.less, "<")
  | '>' => if next = some '=' then some (.greaterEq, ">=") else some (.greater, ">")
  | '&' => if next = some '&' then some (.andAnd, "&&") else some (.illegal, "&")
  | '|' => if next = some '|' then some (.orOr, "||") else some (.pipe, "|")
  | '.' =>
    if next = some '.' then
      if after = some '=' then some (.dotDotEq, "..=") else some (.dotDot, "..")
    else some (.dot, ".")
  | '@' => some (.atSign, "@")
  | ',' => some (.comma, ",")
  | ':' => some (.colon, ":")
  | ';' => some (.semicolon, ";")
  | '(' => some (.lparen, "(")
  | ')' => some (.rparen, ")")
  | '\x7b' => some (.lbrace, "\x7b")
  | '\x7d' => some (.rbrace, "\x7d")
  | '[' => some (.lbracket, "[")
  | ']' => some (.rbracket, "]")
  | _ => none

/-- A quoted literal; one that is not closed is illegal. -/
def quotedLexeme (kind : TokenKind) (opening : Text) (rest : Text) (body : QuotedBody) : Lexeme :=
  ⟨if body.closed then kind else .illegal, opening ++ rest.take body.taken,
    .text (String.ofList body.chars), opening.length - 1 + body.taken⟩

/-- The value of a name: a truth value for the two truth keywords, else the name. -/
def nameValue (kind : TokenKind) (name : String) : Literal :=
  match kind with
  | .kwTrue => .bool true
  | .kwFalse => .bool false
  | _ => .text name

/-- The name that starts with `g`. -/
def nameLexeme (g : Glyph) (rest : Text) : Lexeme :=
  let more := spanOf continuesName rest
  let slice : Text := g :: more
  let kind := TokenKind.ofName slice.chars
  ⟨kind, slice, nameValue kind slice.shown, more.length⟩

/-- The token that starts with `g` when `rest` follows. -/
def lexeme (g : Glyph) (rest : Text) : Lexeme :=
  match symbol? g.shown (rest.head?.map Glyph.shown) ((rest.drop 1).head?.map Glyph.shown) with
  | some (kind, s) => ⟨kind, Text.ofString s, .text s, s.length - 1⟩
  | none =>
    match g, rest with
    | .char '"', _ => quotedLexeme .string [g] rest (stringBody rest)
    | .char 'r', .char '"' :: body => quotedLexeme .regex [g, .char '"'] body (regexBody body)
    | _, _ =>
      if startsName g.shown then nameLexeme g rest
      else if Decimal.isDigit g.shown then number g rest
      else ⟨.illegal, [.char g.shown], .text (String.singleton g.shown), 0⟩

/-! ### Positions -/

/-- A place in a text: line and column from 1, offset in bytes from 0. -/
structure Cursor where
  line : Nat := 1
  column : Nat := 1
  offset : Nat := 0
deriving DecidableEq

namespace Cursor

/-- The place after a glyph. -/
def step (c : Cursor) (g : Glyph) : Cursor :=
  if g = .char '\n' then ⟨c.line + 1, 1, c.offset + g.width⟩
  else ⟨c.line, c.column + 1, c.offset + g.width⟩

/-- The place after a piece of text. -/
def advance (c : Cursor) (t : Text) : Cursor := t.foldl step c

end Cursor

/-! ### Tokens of a text -/

/-- The tokens of a text, end of input last. -/
structure Lexed where
  tokens : List Token
  eof : Token
deriving DecidableEq, Inhabited

/-- The tokens from a place on, and the place where the text ends. -/
def tokensFrom (c : Cursor) (t : Text) : List Token × Cursor :=
  let trivia := (splitTrivia .blank t).1
  let start := c.advance trivia
  match _h : (splitTrivia .blank t).2 with
  | [] => ([], start)
  | g :: rest =>
    let l := lexeme g rest
    let token : Token := ⟨l.kind, l.slice, some l.value, start.line, start.column, start.offset⟩
    let r := tokensFrom (start.advance (g :: rest.take l.extra)) (rest.drop l.extra)
    (token :: r.1, r.2)
termination_by t.length
decreasing_by
  have hlen := congrArg List.length (splitTrivia_append .blank t)
  simp only [_h, List.length_append, List.length_cons] at hlen
  simp only [List.length_drop]
  omega

/-- The part of a source that is read: a NUL character ends it. -/
def Source.visible (source : Text) : Text := source.takeWhile fun g => g ≠ .char '\x00'

/-- The tokens of a source.  The end-of-input token stands where reading stopped, at the offset
of the source's end. -/
def lex (source : Text) : Lexed :=
  let r := tokensFrom {} (Source.visible source)
  ⟨r.1, ⟨.eof, [], none, r.2.line, r.2.column, source.width⟩⟩

namespace Lexed

/-- All tokens, end of input included. -/
def all (l : Lexed) : List Token := l.tokens ++ [l.eof]

end Lexed

end PatternPlan
