import PatternPlan.Proofs.Surface.Writable

/-!
# The words of a tree

* `Literal.words`, `TypeExpr.words`, `Pattern.words`, `Expr.words`, `Decl.words` — the words that the
  written form of a tree consists of, in order;
* `reads_…` — **the written form of a tree is read as its words**, whatever stands before it.
-/

namespace PatternPlan

/-- The word of an operator or a delimiter, which is its kind's name. -/
def Word.sign (kind : TokenKind) : Word := .symbol kind kind.name

/-- Words in parentheses, or as they are. -/
def parenthesizedWords (b : Bool) (ws : List Word) : List Word :=
  if b then [.sign .lparen] ++ ws ++ [.sign .rparen] else ws

/-- Words with commas between them. -/
def commaWords (wss : List (List Word)) : List Word := [Word.sign .comma].intercalate wss

theorem commaWords_cons_cons (ws ws' : List Word) (wss : List (List Word)) :
    commaWords (ws :: ws' :: wss) = ws ++ [Word.sign .comma] ++ commaWords (ws' :: wss) :=
  List.intercalate_cons_cons

theorem commaWords_cons (ws : List Word) (wss : List (List Word)) :
    ∃ rest, commaWords (ws :: wss) = ws ++ rest := by
  cases wss with
  | nil => exact ⟨[], by rw [commaWords, List.intercalate_singleton, List.append_nil]⟩
  | cons ws' wss =>
    exact ⟨[Word.sign .comma] ++ commaWords (ws' :: wss), by rw [commaWords_cons_cons, List.append_assoc]⟩

/-- The words of a constant. -/
def Literal.words : Literal → List Word
  | .int i => if i < 0 then [.sign .minus, .int i.natAbs] else [.int i.natAbs]
  | .float d => if d.negative then [.sign .minus, .float d.neg] else [.float d]
  | .text s => [.string s]
  | .bool b => [.name (if b then "true" else "false")]
  | .unit => [.sign .lparen, .sign .rparen]

/-- The words of a recognizer as it is called. -/
def RecognizerKind.words (kind : RecognizerKind) (name : String) : List Word :=
  match kind with
  | .optional => [.sign .lparen, .sign .pipe, .name name, .sign .pipe, .name "_", .sign .pipe,
      .sign .rparen]
  | .total => [.sign .lparen, .sign .pipe, .name name, .sign .pipe, .sign .rparen]

theorem kind_of_isLowerName {n : String} (h : isLowerName n = true) : (Word.name n).kind = .lower := by
  rw [isLowerName, Bool.and_eq_true, decide_eq_true_eq] at h
  exact h.2

theorem kind_of_isUpperName {n : String} (h : isUpperName n = true) : (Word.name n).kind = .upper := by
  rw [isUpperName, Bool.and_eq_true, decide_eq_true_eq] at h
  exact h.2

namespace Surface

namespace TypeExpr

mutual

/-- The words of a type. -/
def words : TypeExpr → List Word
  | named _ n [] => [.name n]
  | named _ n (t :: ts) =>
    [.name n] ++ [.sign .less] ++ commaWords (words t :: wordsAll ts) ++ [.sign .greater]
  | tuple _ ts => [.sign .lparen] ++ commaWords (wordsAll ts) ++ [.sign .rparen]
  | array _ t => [.sign .lbracket] ++ words t ++ [.sign .rbracket]

def wordsAll : List TypeExpr → List (List Word)
  | [] => []
  | t :: ts => words t :: wordsAll ts

end

end TypeExpr

namespace Pattern

/-- The words of a bound of a range, if it has it. -/
def boundWords : Option Bound → List Word
  | some b => b.value.words
  | none => []

/-- The word of the operator of a range. -/
def rangeWord (inclusive : Bool) : Word := if inclusive then .sign .dotDotEq else .sign .dotDot

mutual

/-- The words of a pattern in a position. -/
def words (place : Position) : Pattern → List Word
  | wildcard _ => [.name "_"]
  | var _ n => [.name n]
  | literal _ v => v.words
  | tuple _ ps => [.sign .lparen] ++ commaWords (wordsAll .nested ps) ++ [.sign .rparen]
  | record _ [] false => [.sign .lbrace, .sign .rbrace]
  | record _ [] true => [.sign .lbrace, .sign .dotDot, .sign .rbrace]
  | record _ (f :: fs) rest =>
    [.sign .lbrace] ++ commaWords (wordsFields (f :: fs))
      ++ (if rest then [.sign .comma, .sign .dotDot] else []) ++ [.sign .rbrace]
  | construct _ n [] => [.name n]
  | construct _ n (p :: ps) =>
    [.name n] ++ [.sign .lparen] ++ commaWords (wordsAll .nested (p :: ps)) ++ [.sign .rparen]
  | binding _ n true p => [.name n] ++ [.sign .atSign] ++ words .primary p
  | binding _ n false p =>
    parenthesizedWords (place ≠ .nested) (words .nested p ++ [.name "as"] ++ [.name n])
  | or _ ps => parenthesizedWords (place = .primary)
      ([Word.sign .pipe].intercalate (wordsAll .primary ps))
  | slice _ items => [.sign .lbracket] ++ commaWords (wordsItems items) ++ [.sign .rbracket]
  | range _ start stop inclusive => boundWords start ++ [rangeWord inclusive] ++ boundWords stop
  | regex _ s => [.regex s]
  | active _ n kind none => kind.words n
  | active _ n kind (some p) => kind.words n ++ words .primary p

def wordsAll (place : Position) : List Pattern → List (List Word)
  | [] => []
  | p :: ps => words place p :: wordsAll place ps

def wordsFields : List (String × Pattern) → List (List Word)
  | [] => []
  | (n, p) :: fs =>
    (if p.isVar n then [.name n] else [.name n] ++ [.sign .colon] ++ words .nested p)
      :: wordsFields fs

def wordsItems : List (SliceItem Pattern) → List (List Word)
  | [] => []
  | .element p :: is => words .nested p :: wordsItems is
  | .rest n _ :: is => ([.sign .dotDot] ++ if n = "" then [] else [.name n]) :: wordsItems is

end

end Pattern

namespace Expr

/-- The words of an operand of an operator. -/
def operandWords (parent : Nat) (e : Expr) (ws : List Word) : List Word :=
  parenthesizedWords (e.precedence < parent) ws

/-- The words of an expression that more text follows. -/
def followedWords (e : Expr) (ws : List Word) : List Word := parenthesizedWords e.isSelect ws

/-- The words of the name of an arm. -/
def aliasWords : Option Alias → List Word
  | some a => [.name "as", .name a.name]
  | none => []

/-- The word of a prefix operator. -/
def unaryWord : UnaryOp → Word
  | .negate => .sign .minus
  | .not => .sign .bang

/-- The kind of the token of an infix operator. -/
def binaryKind : BinaryOp → TokenKind
  | .or => .orOr
  | .and => .andAnd
  | .eq => .eq
  | .notEq => .notEq
  | .less => .less
  | .greater => .greater
  | .lessEq => .lessEq
  | .greaterEq => .greaterEq
  | .add => .plus
  | .sub => .minus
  | .mul => .star
  | .div => .slash
  | .mod => .percent

mutual

/-- The words of an expression. -/
def words : Expr → List Word
  | ident _ n => [.name n]
  | literal _ v => v.words
  | construct _ n [] => [.name n]
  | construct _ n (e :: es) =>
    [.name n] ++ [.sign .lparen] ++ commaWords (wordsAll (e :: es)) ++ [.sign .rparen]
  | call _ f es =>
    operandWords Precedence.call f (words f) ++ [.sign .lparen] ++ commaWords (wordsAll es)
      ++ [.sign .rparen]
  | field _ e n => operandWords Precedence.call e (words e) ++ [.sign .dot] ++ [.name n]
  | unary _ op e => [unaryWord op] ++ operandWords Precedence.unary e (words e)
  | binary _ op l r =>
    operandWords op.precedence l (words l) ++ [.sign (binaryKind op)]
      ++ operandWords (op.precedence + 1) r (words r)
  | cond _ c y n =>
    [.name "if"] ++ followedWords c (words c) ++ [.name "then"] ++ followedWords y (words y)
      ++ (match n with
        | some e => [.name "else"] ++ followedWords e (words e)
        | none => [])
  | select _ t arms =>
    [.name "match"] ++ followedWords t (words t) ++ [.name "with"] ++ wordsArms arms
  | block _ lets result =>
    [.sign .lbrace] ++ wordsLets lets
      ++ (match result with
        | some e => words e
        | none => []) ++ [.sign .rbrace]
  | perform _ n es =>
    [.name "perform"] ++ [.name n] ++ [.sign .lparen] ++ commaWords (wordsAll es) ++ [.sign .rparen]
  | tuple _ es => [.sign .lparen] ++ commaWords (wordsAll es) ++ [.sign .rparen]
  | array _ es => [.sign .lbracket] ++ commaWords (wordsAll es) ++ [.sign .rbracket]
  | record _ fs => [.sign .lbrace] ++ commaWords (wordsFields fs) ++ [.sign .rbrace]

def wordsAll : List Expr → List (List Word)
  | [] => []
  | e :: es => followedWords e (words e) :: wordsAll es

def wordsLets : List (String × Expr) → List Word
  | [] => []
  | (n, e) :: ls =>
    [.name "let"] ++ [.name n] ++ [.sign .assign] ++ followedWords e (words e)
      ++ [.sign .semicolon] ++ wordsLets ls

def wordsFields : List (String × Expr) → List (List Word)
  | [] => []
  | (n, e) :: fs => ([.name n] ++ [.sign .colon] ++ followedWords e (words e)) :: wordsFields fs

def wordsArms : List (Arm Pattern Expr) → List Word
  | [] => []
  | ⟨_, p, guard, usedIf, asName, body⟩ :: arms =>
    [.sign .pipe] ++ p.words .arm ++ aliasWords asName
      ++ (match guard with
        | some g => [.name (if usedIf then "if" else "when")] ++ followedWords g (words g)
        | none => [])
      ++ [.sign .arrow]
      ++ (if arms.isEmpty then words body else followedWords body (words body))
      ++ wordsArms arms

end

/-! How the words of an expression start. -/

/-- The kinds of token that an expression starts with. -/
def starters : List TokenKind :=
  [.lower, .upper, .int, .float, .string, .kwTrue, .kwFalse, .minus, .bang, .lparen, .lbracket,
    .lbrace, .kwIf, .kwMatch, .kwPerform]

/-- Words that start as an expression does, without a colon behind the first of them. -/
def Opening (ws : List Word) : Prop :=
  ∃ w rest, ws = w :: rest ∧ w.kind ∈ starters ∧ ∀ v, rest.head? = some v → v.kind ≠ .colon

theorem opening_singleton {w : Word} (hw : w.kind ∈ starters) : Opening [w] :=
  ⟨w, [], rfl, hw, fun _ hv => absurd hv.symm (Option.some_ne_none _)⟩

theorem opening_cons {w v : Word} {ws : List Word} (hw : w.kind ∈ starters) (hv : v.kind ≠ .colon) :
    Opening (w :: v :: ws) := by
  refine ⟨w, v :: ws, rfl, hw, fun u hu => ?_⟩
  cases hu
  exact hv

theorem Opening.append {ws : List Word} (h : Opening ws) {v : Word} (hv : v.kind ≠ .colon)
    (more : List Word) : Opening (ws ++ v :: more) := by
  obtain ⟨w, rest, rfl, hw, hrest⟩ := h
  refine ⟨w, rest ++ v :: more, rfl, hw, fun u hu => ?_⟩
  cases rest with
  | nil =>
    cases hu
    exact hv
  | cons x xs => exact hrest u hu

/-- An expression starts no colon. -/
theorem colon_notMem_starters {k : TokenKind} (h : k ∈ starters) : k ≠ .colon := by
  rintro rfl
  exact absurd h (by decide)

theorem Opening.parenthesized {ws : List Word} (h : Opening ws) (b : Bool) :
    Opening (parenthesizedWords b ws) := by
  cases b with
  | false => exact h
  | true =>
    obtain ⟨w, rest, rfl, hw, -⟩ := h
    exact opening_cons (by decide) (colon_notMem_starters hw)

theorem Literal.opening_words {v : Literal} (h : v.Unsigned) : Opening v.words := by
  cases v with
  | int i =>
    have hrange : 0 ≤ i ∧ i < 2 ^ 63 := h
    rw [Literal.words, if_neg (by omega)]
    exact opening_singleton (by decide : TokenKind.int ∈ starters)
  | float d =>
    rw [Literal.words, if_neg (by rw [h.2]; decide)]
    exact opening_singleton (by decide : TokenKind.float ∈ starters)
  | text s => exact opening_singleton (by decide : TokenKind.string ∈ starters)
  | bool b =>
    cases b with
    | true => exact opening_singleton (by decide)
    | false => exact opening_singleton (by decide)
  | unit => exact opening_cons (by decide) (by decide)

theorem opening_list {first last : Word} (hfirst : first.kind ∈ starters) (hlast : last.kind ≠ .colon)
    {es : List Expr} (h : ∀ e ∈ es, Opening e.words) :
    Opening ([first] ++ commaWords (wordsAll es) ++ [last]) := by
  cases es with
  | nil => exact opening_cons hfirst hlast
  | cons e es =>
    obtain ⟨w, ws, hwords, hw, -⟩ := (h e List.mem_cons_self).parenthesized e.isSelect
    obtain ⟨rest, hrest⟩ := commaWords_cons (followedWords e e.words) (wordsAll es)
    rw [wordsAll, hrest, followedWords, hwords]
    exact opening_cons hfirst (colon_notMem_starters hw)

/-- **The words of an expression start as those of an expression.** -/
theorem opening_words {e : Expr} (h : e.Writable) : Opening e.words := by
  induction h with
  | ident hname => exact opening_singleton (by rw [kind_of_isLowerName hname]; decide)
  | literal hvalue => exact Literal.opening_words hvalue
  | @construct mark n es hname _ _ =>
    have hkind : (Word.name n).kind ∈ starters := by rw [kind_of_isUpperName hname]; decide
    cases es with
    | nil => exact opening_singleton hkind
    | cons e es =>
      rw [words]
      exact opening_cons hkind (by decide)
  | call _ _ ih _ =>
    rw [words]
    simp only [List.append_assoc]
    exact (ih.parenthesized _).append (by decide) _
  | @unary mark op e _ ih =>
    obtain ⟨w, rest, hwords, hw, -⟩ := ih.parenthesized (e.precedence < Precedence.unary)
    rw [words, operandWords, hwords]
    refine opening_cons ?_ (colon_notMem_starters hw)
    cases op <;> decide
  | @binary mark op _ _ _ _ ih _ =>
    rw [words]
    simp only [List.append_assoc]
    refine (ih.parenthesized _).append ?_ _
    cases op <;> decide
  | @cond mark c _ n _ _ _ ih _ _ =>
    obtain ⟨w, rest, hwords, hw, -⟩ := ih.parenthesized c.isSelect
    have hif : (Word.name "if").kind ∈ starters := by decide
    have hopening : ∀ ws, Opening (.name "if" :: w :: ws) := fun _ =>
      opening_cons hif (colon_notMem_starters hw)
    cases n <;> rw [words, followedWords, hwords] <;> exact hopening _
  | @select mark t _ _ _ _ _ _ ih _ _ =>
    obtain ⟨w, rest, hwords, hw, -⟩ := ih.parenthesized t.isSelect
    have hmatch : (Word.name "match").kind ∈ starters := by decide
    rw [words, followedWords, hwords]
    exact opening_cons hmatch (colon_notMem_starters hw)
  | @block mark lets r hnames hlets hr ihlets ihr =>
    have hlet : (Word.name "let").kind ≠ .colon := by decide
    cases lets with
    | cons l lets =>
      cases r <;> rw [words, wordsLets] <;> exact opening_cons (by decide) hlet
    | nil =>
      cases r with
      | none =>
        rw [words, wordsLets]
        exact opening_cons (by decide) (by decide)
      | some e =>
        obtain ⟨w, rest, hwords, hw, -⟩ := ihr e rfl
        rw [words, wordsLets, hwords]
        exact opening_cons (by decide) (colon_notMem_starters hw)
  | @perform mark n es hname _ _ =>
    have hperform : (Word.name "perform").kind ∈ starters := by decide
    rw [words]
    exact opening_cons hperform (by rw [kind_of_isUpperName hname]; decide)
  | @tuple mark es hlength _ ih =>
    rw [words]
    exact opening_list (by decide) (by decide) ih
  | @array mark es _ ih =>
    rw [words]
    exact opening_list (by decide) (by decide) ih
  | @record mark fs hne hnames _ _ =>
    obtain ⟨f, fs, rfl⟩ := List.exists_cons_of_ne_nil hne
    obtain ⟨rest, hrest⟩ := commaWords_cons
      ([Word.name f.1] ++ [Word.sign .colon] ++ followedWords f.2 f.2.words) (wordsFields fs)
    have hkind := kind_of_isLowerName (hnames f List.mem_cons_self)
    rw [words, wordsFields, hrest]
    exact opening_cons (by decide) (by rw [hkind]; decide)
  | field _ _ ih =>
    rw [words]
    simp only [List.append_assoc]
    exact (ih.parenthesized _).append (by decide) _

end Expr

/-! ### Declarations -/

/-- The words of parameters in parentheses. -/
def paramWords (ps : List Param) : List Word :=
  let one (p : Param) : List Word := match p.ty with
    | some t => [Word.name p.name] ++ [Word.sign .colon] ++ t.words
    | none => [Word.name p.name]
  [Word.sign .lparen] ++ commaWords (ps.map one) ++ [Word.sign .rparen]

/-- The words of a result type with its arrow. -/
def resultWords : Option TypeExpr → List Word
  | some t => [Word.sign .arrow] ++ t.words
  | none => []

def publicWords (isPublic : Bool) : List Word := if isPublic then [.name "pub"] else []

def Variant.words (v : Variant) : List Word :=
  match v.fields with
  | [] => [Word.sign .pipe] ++ [Word.name v.name]
  | fs => [Word.sign .pipe] ++ [Word.name v.name] ++ [Word.sign .lparen]
      ++ commaWords (fs.map TypeExpr.words) ++ [Word.sign .rparen]

def TypeDecl.words (d : TypeDecl) : List Word :=
  publicWords d.isPublic ++ [Word.name "type"] ++ [Word.name d.name] ++ [Word.sign .assign]
    ++ (if d.isRecord then
        [Word.sign .lbrace]
          ++ commaWords (d.fields.map fun f => [Word.name f.1] ++ [Word.sign .colon] ++ f.2.words)
          ++ [Word.sign .rbrace]
      else d.variants.flatMap Variant.words)

def Function.words (f : Function) : List Word :=
  f.annotations.flatMap (fun a => [Word.sign .atSign] ++ [Word.name a]) ++ publicWords f.isPublic
    ++ [Word.name "fn"] ++ [Word.name f.name] ++ paramWords f.params ++ resultWords f.returns
    ++ [Word.sign .assign] ++ f.body.words

def Recognizer.words (r : Recognizer) : List Word :=
  (if r.isPure then [Word.sign .atSign] ++ [Word.name "pure"] else []) ++ publicWords r.isPublic
    ++ [Word.name "pattern"] ++ r.kind.words r.name ++ paramWords r.params ++ resultWords r.returns
    ++ [Word.sign .assign] ++ r.body.words

/-- The words of a declaration. -/
def Decl.words : Decl → List Word
  | .function f => f.words
  | .recognizer r => r.words
  | .type t => t.words
  | .expr _ e => e.words

/-- The words of a `module` or `use` line. -/
def PathLine.words (keyword : String) (l : PathLine) : List Word :=
  [Word.name keyword] ++ [Word.sign .dot].intercalate (l.path.map fun n => [Word.name n])

end Surface

end PatternPlan
