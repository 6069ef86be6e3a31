import PatternPlan.Proofs.Surface.Words

/-!
# Written trees are read as their words

* `reads_sign`, `reads_intercalate` — delimiters and operators, and pieces with something between them;
* `reads_literal` — a constant is read as its words;
* `TypeExpr.reads_text`, `Pattern.reads_print`, `Expr.legible_of_writable` — **the written form of a
  tree is read as its words**, before anything that ends a word.
-/

namespace PatternPlan

/-! ### Signs -/

/-- The characters that make a longer sign, or a comment, of a sign they follow. -/
def TokenKind.joined : TokenKind → List Char
  | .assign => ['=', '>']
  | .minus => ['>']
  | .bang | .less | .greater | .dotDot => ['=']
  | .pipe => ['|']
  | .dot => ['.']
  | .slash => ['/', '*']
  | _ => []

/-- The operators and delimiters. -/
def TokenKind.signs : List TokenKind :=
  [.lparen, .rparen, .lbracket, .rbracket, .lbrace, .rbrace, .comma, .colon, .semicolon, .atSign,
    .plus, .minus, .star, .slash, .percent, .bang, .eq, .notEq, .less, .greater, .lessEq,
    .greaterEq, .andAnd, .orOr, .assign, .arrow, .pipe, .dot, .dotDot, .dotDotEq]

theorem reads_sign {k : TokenKind} {next : List Char} {level : Bool} (hk : k ∈ TokenKind.signs)
    (hnext : ∀ d ∈ k.joined, next.head? ≠ some d) (hparen : k = .lparen → level = true) :
    Reads level true k.name.toList [.sign k] next := by
  have hwrite : ∀ c cs, k.name = String.ofList (c :: cs) →
      (isBlank c = false ∧ '\x00' ∉ c :: cs ∧ '\n' ∉ c :: cs ∧ k ≠ .illegal) →
      symbol? c (cs ++ next).head? ((cs ++ next).drop 1).head? = some (k, k.name) →
      (c = '/' → (cs ++ next).head? ≠ some '/' ∧ (cs ++ next).head? ≠ some '*') →
      Reads level true k.name.toList [.sign k] next := by
    intro c cs hname hword hsymbol hslash
    rw [Word.sign, hname] at *
    rw [String.toList_ofList]
    exact reads_symbol hsymbol hword hparen hslash
  simp only [TokenKind.signs, List.mem_cons, List.not_mem_nil, or_false] at hk
  rcases hk with rfl | rfl | rfl | rfl | rfl | rfl | rfl | rfl | rfl | rfl | rfl | rfl | rfl | rfl |
    rfl | rfl | rfl | rfl | rfl | rfl | rfl | rfl | rfl | rfl | rfl | rfl | rfl | rfl | rfl | rfl
  · exact hwrite '(' [] rfl (by decide) rfl nofun
  · exact hwrite ')' [] rfl (by decide) rfl nofun
  · exact hwrite '[' [] rfl (by decide) rfl nofun
  · exact hwrite ']' [] rfl (by decide) rfl nofun
  · exact hwrite '\x7b' [] rfl (by decide) rfl nofun
  · exact hwrite '\x7d' [] rfl (by decide) rfl nofun
  · exact hwrite ',' [] rfl (by decide) rfl nofun
  · exact hwrite ':' [] rfl (by decide) rfl nofun
  · exact hwrite ';' [] rfl (by decide) rfl nofun
  · exact hwrite '@' [] rfl (by decide) rfl nofun
  · exact hwrite '+' [] rfl (by decide) rfl nofun
  · have hgt := hnext '>' (by decide)
    exact hwrite '-' [] rfl (by decide) (by simp [symbol?, hgt, TokenKind.name]) nofun
  · exact hwrite '*' [] rfl (by decide) rfl nofun
  · have hslash := hnext '/' (by decide)
    have hstar := hnext '*' (by decide)
    exact hwrite '/' [] rfl (by decide) rfl fun _ => ⟨hslash, hstar⟩
  · exact hwrite '%' [] rfl (by decide) rfl nofun
  · have heq := hnext '=' (by decide)
    exact hwrite '!' [] rfl (by decide) (by simp [symbol?, heq, TokenKind.name]) nofun
  · exact hwrite '=' ['='] rfl (by decide) rfl nofun
  · exact hwrite '!' ['='] rfl (by decide) rfl nofun
  · have heq := hnext '=' (by decide)
    exact hwrite '<' [] rfl (by decide) (by simp [symbol?, heq, TokenKind.name]) nofun
  · have heq := hnext '=' (by decide)
    exact hwrite '>' [] rfl (by decide) (by simp [symbol?, heq, TokenKind.name]) nofun
  · exact hwrite '<' ['='] rfl (by decide) rfl nofun
  · exact hwrite '>' ['='] rfl (by decide) rfl nofun
  · exact hwrite '&' ['&'] rfl (by decide) rfl nofun
  · exact hwrite '|' ['|'] rfl (by decide) rfl nofun
  · have heq := hnext '=' (by decide)
    have hgt := hnext '>' (by decide)
    exact hwrite '=' [] rfl (by decide) (by simp [symbol?, heq, hgt, TokenKind.name]) nofun
  · exact hwrite '-' ['>'] rfl (by decide) rfl nofun
  · have hbar := hnext '|' (by decide)
    exact hwrite '|' [] rfl (by decide) (by simp [symbol?, hbar, TokenKind.name]) nofun
  · have hdot := hnext '.' (by decide)
    exact hwrite '.' [] rfl (by decide) (by simp [symbol?, hdot, TokenKind.name]) nofun
  · have heq := hnext '=' (by decide)
    exact hwrite '.' ['.'] rfl (by decide) (by simp [symbol?, heq, TokenKind.name]) nofun
  · exact hwrite '.' ['.', '='] rfl (by decide) rfl nofun

/-! ### Words between blanks -/

section Blanks

variable {k : TokenKind} {n : String} {next : List Char} {level : Bool}

theorem head?_ne_joined {c : Char} {cs : List Char} (h : c ∉ k.joined) :
    ∀ d ∈ k.joined, (c :: cs).head? ≠ some d := by
  rintro d hd heq
  cases heq
  exact h hd

theorem space_not_joined (k : TokenKind) : ' ' ∉ k.joined := by cases k <;> decide

/-- A sign that may stand on a line of its own. -/
theorem reads_apart (hk : k ∈ TokenKind.signs) (hnext : ∀ d ∈ k.joined, next.head? ≠ some d)
    (hparen : k ≠ .lparen) : Reads level true k.name.toList [.sign k] next :=
  reads_sign hk hnext fun h => absurd h hparen

/-- A sign that nothing continues. -/
theorem reads_closed (hk : k ∈ TokenKind.signs) (hjoined : k.joined = []) (hparen : k ≠ .lparen) :
    Reads level true k.name.toList [.sign k] next :=
  reads_apart hk (by simp [hjoined]) hparen

theorem reads_open : Reads true true "(".toList [.sign .lparen] next :=
  reads_sign (k := .lparen) (by decide) (by simp [TokenKind.joined]) fun _ => rfl

theorem reads_close : Reads level true ")".toList [.sign .rparen] next :=
  reads_closed (k := .rparen) (by decide) rfl (by decide)

theorem reads_lbracket : Reads level true "[".toList [.sign .lbracket] next :=
  reads_closed (k := .lbracket) (by decide) rfl (by decide)

theorem reads_rbracket : Reads level true "]".toList [.sign .rbracket] next :=
  reads_closed (k := .rbracket) (by decide) rfl (by decide)

theorem reads_lbrace : Reads level true "\x7b".toList [.sign .lbrace] next :=
  reads_closed (k := .lbrace) (by decide) rfl (by decide)

theorem reads_rbrace : Reads level true "\x7d".toList [.sign .rbrace] next :=
  reads_closed (k := .rbrace) (by decide) rfl (by decide)

/-- A sign and a blank. -/
theorem reads_sign_blank (hk : k ∈ TokenKind.signs) (hparen : k ≠ .lparen) :
    Reads level true (k.name.toList ++ [' ']) [.sign k] next := by
  refine Reads.append (reads_apart hk ?_ hparen) reads_space
  exact head?_ne_joined (space_not_joined k)

/-- A sign between blanks. -/
theorem reads_blank_sign (hk : k ∈ TokenKind.signs) (hparen : k ≠ .lparen) :
    Reads level true (' ' :: (k.name.toList ++ [' '])) [.sign k] next :=
  reads_space.append (reads_sign_blank hk hparen)

theorem reads_lbrace_blank : Reads level true "\x7b ".toList [.sign .lbrace] next :=
  reads_sign_blank (k := .lbrace) (by decide) (by decide)

theorem reads_blank_rbrace : Reads level true " \x7d".toList [.sign .rbrace] next :=
  Reads.append reads_space reads_rbrace

/-- A name and a blank. -/
theorem reads_name_blank (hn : spellsName n = true) :
    Reads level true (n.toList ++ [' ']) [.name n] next :=
  (reads_name hn (ended_delimiter (by decide) _)).append reads_space

/-- A name between blanks. -/
theorem reads_blank_name (hn : spellsName n = true) :
    Reads level true (' ' :: (n.toList ++ [' '])) [.name n] next :=
  reads_space.append (reads_name_blank hn)

end Blanks

/-- Pieces with something between them. -/
theorem reads_intercalate {α : Type} {xs : List α} {text : α → List Char} {words : α → List Word}
    {sep : List Char} {sepWords : List Word} {b : Bool} {next : List Char}
    (hsep : ∀ next, Reads b true sep sepWords next) (hended : ∀ rest, ended (sep ++ rest) = true)
    (h : ∀ x ∈ xs, ∀ next, ended next = true → Reads true b (text x) (words x) next)
    (hnext : ended next = true) :
    Reads true b (sep.intercalate (xs.map text)) (sepWords.intercalate (xs.map words)) next := by
  induction xs with
  | nil => exact Reads.nil.loosen
  | cons x xs ih =>
    have hx := h x List.mem_cons_self
    cases xs with
    | nil =>
      rw [List.map_singleton, List.map_singleton, List.intercalate_singleton,
        List.intercalate_singleton]
      exact hx next hnext
    | cons y xs =>
      have hrest := ih fun z hz => h z (List.mem_cons_of_mem x hz)
      rw [List.map_cons, List.map_cons, List.map_cons, List.map_cons, List.intercalate_cons_cons,
        List.intercalate_cons_cons]
      have hfirst := hx (sep ++ (sep.intercalate ((y :: xs).map text) ++ next)) (hended _)
      exact (hfirst.append (hsep _)).append hrest

/-- Pieces with commas between them. -/
theorem reads_commas {α : Type} {xs : List α} {text : α → String} {words : α → List Word} {b : Bool}
    {next : List Char}
    (h : ∀ x ∈ xs, ∀ next, ended next = true → Reads true b (text x).toList (words x) next)
    (hnext : ended next = true) :
    Reads true b (", ".intercalate (xs.map text)).toList (commaWords (xs.map words)) next := by
  rw [String.toList_intercalate, List.map_map]
  refine reads_intercalate (fun rest => ?_) (fun rest => ?_) h hnext
  · exact reads_sign_blank (k := .comma) (by decide) (by decide)
  · exact ended_delimiter (by decide) _

/-- A text in parentheses, or as it is. -/
theorem reads_parenthesized {b : Bool} {s : String} {ws : List Word} {next : List Char}
    {level : Bool} (h : ∀ next, ended next = true → Reads true level s.toList ws next)
    (hnext : ended next = true) :
    Reads true level (parenthesized b s).toList (parenthesizedWords b ws) next := by
  cases b with
  | false => exact h next hnext
  | true =>
    show Reads true level ("(" ++ s ++ ")").toList ([Word.sign .lparen] ++ ws ++ [Word.sign .rparen]) next
    rw [String.toList_append, String.toList_append]
    exact (reads_open.append (h _ (ended_delimiter (by decide) _))).append reads_close.loosen

/-! ### First characters -/

/-- A text whose first character makes no longer sign of the sign before it. -/
def Opens (cs : List Char) : Prop := ∃ c rest, cs = c :: rest ∧ c ∉ ['=', '>', '|']

theorem Opens.append {cs : List Char} (h : Opens cs) (ds : List Char) : Opens (cs ++ ds) := by
  obtain ⟨c, rest, rfl, hc⟩ := h
  exact ⟨c, rest ++ ds, rfl, hc⟩

theorem Opens.not_joined {k : TokenKind} {cs : List Char} (h : Opens cs)
    (hk : k.joined ⊆ ['=', '>', '|']) : ∀ d ∈ k.joined, cs.head? ≠ some d := by
  obtain ⟨c, rest, rfl, hc⟩ := h
  exact head?_ne_joined fun hmem => hc (hk hmem)

theorem exists_startsName {n : String} (h : spellsName n = true) :
    ∃ c cs, n.toList = c :: cs ∧ startsName c = true := by
  rw [spellsName] at h
  split at h
  · cases h
  · rename_i c cs hn
    rw [Bool.and_eq_true] at h
    exact ⟨c, cs, hn, h.1⟩

theorem opens_name {n : String} (h : spellsName n = true) : Opens n.toList := by
  have hsigns : ∀ c ∈ ['=', '>', '|'], startsName c = false := forall_mem_of_all (by decide)
  obtain ⟨c, cs, hn, hc⟩ := exists_startsName h
  rw [hn]
  refine ⟨c, cs, rfl, fun hmem => ?_⟩
  rw [hsigns c hmem] at hc
  cases hc

theorem isDigit_of_startsName {c : Char} (h : startsName c = true) : Decimal.isDigit c = false := by
  by_contra hdigit
  rw [Bool.not_eq_false] at hdigit
  rw [(startsName_of_isDigit hdigit).1] at h
  cases h

theorem opens_digits (n : Nat) : Opens (Decimal.digits n) := by
  obtain ⟨c, cs, hcs⟩ := List.exists_cons_of_ne_nil (Decimal.digits_ne_nil n)
  have hc : Decimal.isDigit c = true :=
    Decimal.isDigit_of_mem_digits c (by rw [hcs]; exact List.mem_cons_self)
  have hsigns : ∀ c ∈ ['=', '>', '|'], Decimal.isDigit c = false := forall_mem_of_all (by decide)
  refine ⟨c, cs, hcs, fun hmem => ?_⟩
  rw [hsigns c hmem] at hc
  cases hc

theorem opens_sourceDouble {d : Double} (h : d.negative = false) : Opens (sourceDouble d).toList := by
  obtain ⟨c, whole, e, tail, htext, hdigits, -⟩ := sourceDouble_eq h
  have hc : Decimal.isDigit c = true := hdigits c (by simp)
  have hsigns : ∀ c ∈ ['=', '>', '|'], Decimal.isDigit c = false := forall_mem_of_all (by decide)
  rw [htext, String.toList_ofList]
  refine ⟨c, _, rfl, fun hmem => ?_⟩
  rw [hsigns c hmem] at hc
  cases hc

/-! ### Constants -/

theorem sourceDouble_negative {d : Double} (h : d.negative = true) :
    sourceDouble d = "-" ++ sourceDouble d.neg := by
  have hpositional : d.positional = "-" ++ d.neg.positional := by
    have hneg : d.neg.negative = false := by rw [Double.neg, h]; rfl
    have hshort : d.neg.shortest = d.shortest := rfl
    rw [Double.positional, Double.positional, Double.sign, Double.sign, h, hneg, hshort]
    rw [show (if true = true then ['-'] else []) = ['-'] from rfl, String.ofList_append]
    rfl
  have hdot : (("-" ++ d.neg.positional).toList.contains '.') = d.neg.positional.toList.contains '.' := by
    rw [String.toList_append]
    rfl
  rw [sourceDouble, sourceDouble, hpositional, hdot]
  split
  · rfl
  · rw [String.append_assoc]

theorem canonical_neg {d : Double} (h : d.Canonical) : d.neg.Canonical := by
  rcases h with h | h
  · left
    rw [h]
    rfl
  · exact .inr ⟨h.pos, h.mantissa_lt, h.exponent_ge, h.exponent_le, h.full⟩

/-- **A constant is read as its words.** -/
theorem reads_literal {v : Literal} {next : List Char} (hv : v.Signed) (hnext : ended next = true) :
    Reads true true v.source.toList v.words next := by
  cases v with
  | int i =>
    rw [Literal.source, Literal.words, decimal]
    split
    · rw [String.toList_ofList]
      have hminus : Reads true true "-".toList [.sign .minus] (Decimal.digits i.natAbs ++ next) :=
        reads_apart (k := .minus) (by decide) (((opens_digits _).append _).not_joined (by decide)) (by decide)
      exact hminus.append (reads_int hv hnext)
    · rw [String.toList_ofList]
      exact reads_int hv hnext
  | float d =>
    rw [Literal.source, Literal.words]
    split
    · rename_i hneg
      have hsign : d.neg.negative = false := by rw [Double.neg, hneg]; rfl
      rw [sourceDouble_negative hneg, String.toList_append]
      have hfloat : Reads true true (sourceDouble d.neg).toList [.float d.neg] next :=
        reads_float (canonical_neg hv) hsign hnext
      have hminus : Reads true true "-".toList [.sign .minus]
          ((sourceDouble d.neg).toList ++ next) := by
        exact reads_apart (k := .minus) (by decide) (((opens_sourceDouble hsign).append _).not_joined (by decide)) (by decide)
      exact hminus.append hfloat
    · rename_i hneg
      exact reads_float hv (by simpa using hneg) hnext
  | text s => exact reads_string
  | bool b =>
    cases b with
    | true => exact reads_name (n := "true") (by decide) hnext
    | false => exact reads_name (n := "false") (by decide) hnext
  | unit =>
    exact Reads.append reads_open reads_close

theorem opens_literal (v : Literal) : Opens v.source.toList := by
  cases v with
  | int i =>
    rw [Literal.source, decimal]
    split
    · rw [String.toList_ofList]
      exact ⟨'-', _, rfl, by decide⟩
    · rw [String.toList_ofList]
      exact opens_digits _
  | float d =>
    rw [Literal.source]
    cases hneg : d.negative with
    | true =>
      rw [sourceDouble_negative hneg, String.toList_append]
      exact ⟨'-', _, rfl, by decide⟩
    | false => exact opens_sourceDouble hneg
  | text s =>
    rw [Literal.source, sourceString, String.toList_ofList]
    exact ⟨'"', _, rfl, by decide⟩
  | bool b =>
    cases b with
    | true => exact opens_name (n := "true") (by decide)
    | false => exact opens_name (n := "false") (by decide)
  | unit => exact ⟨'(', _, rfl, by decide⟩

/-- The constants of expressions are constants of patterns. -/
theorem Literal.Unsigned.signed {v : Literal} (h : v.Unsigned) : v.Signed := by
  cases v with
  | int i =>
    have hrange : 0 ≤ i ∧ i < 2 ^ 63 := h
    show i.natAbs < 2 ^ 63
    omega
  | float d => exact h.1
  | _ => trivial

namespace Surface

/-! ### Types -/

theorem spellsName_of_isLowerName {n : String} (h : isLowerName n = true) : spellsName n = true := by
  rw [isLowerName, Bool.and_eq_true] at h
  exact h.1

theorem spellsName_of_isUpperName {n : String} (h : isUpperName n = true) : spellsName n = true := by
  rw [isUpperName, Bool.and_eq_true] at h
  exact h.1

namespace TypeExpr

theorem texts_eq (ts : List TypeExpr) : texts ts = ts.map text := by
  induction ts with
  | nil => rfl
  | cons t ts ih => rw [texts, ih, List.map_cons]

theorem wordsAll_eq (ts : List TypeExpr) : wordsAll ts = ts.map words := by
  induction ts with
  | nil => rfl
  | cons t ts ih => rw [wordsAll, ih, List.map_cons]

theorem opens_text {t : TypeExpr} (h : t.Writable) : Opens t.text.toList := by
  cases h with
  | @named mark name args hname hargs =>
    have hopens := opens_name (spellsName_of_isUpperName hname)
    cases args with
    | nil => exact hopens
    | cons t ts =>
      rw [text, String.toList_append, String.toList_append, String.toList_append, List.append_assoc,
        List.append_assoc]
      exact hopens.append _
  | tuple =>
    rw [text, String.toList_append, String.toList_append]
    exact ⟨'(', _, rfl, by decide⟩
  | array =>
    rw [text, String.toList_append, String.toList_append]
    exact ⟨'[', _, rfl, by decide⟩

/-- **A type is read as its words.** -/
theorem reads_text {t : TypeExpr} (h : t.Writable) {next : List Char} (hnext : ended next = true) :
    Reads true true t.text.toList t.words next := by
  induction h generalizing next with
  | @named mark name args hname hargs ih =>
    have hspells := spellsName_of_isUpperName hname
    cases args with
    | nil => exact reads_name hspells hnext
    | cons t ts =>
      have hitems : Reads true true (", ".intercalate ((t :: ts).map text)).toList
          (commaWords ((t :: ts).map words)) ('>' :: next) :=
        reads_commas (fun u hu _ h => ih u hu h) (ended_delimiter (by decide) _)
      have hopens : Opens (", ".intercalate ((t :: ts).map text)).toList := by
        have hfirst := opens_text (hargs t List.mem_cons_self)
        rw [String.toList_intercalate]
        cases ts with
        | nil => simpa using hfirst
        | cons u us =>
          rw [List.map_cons, List.map_cons, List.map_cons, List.map_cons,
            List.intercalate_cons_cons, List.append_assoc]
          exact hfirst.append _
      have hless : Reads true true "<".toList [.sign .less]
          ((", ".intercalate ((t :: ts).map text)).toList ++ ('>' :: next)) :=
        reads_apart (k := .less) (by decide) ((hopens.append _).not_joined (by decide)) (by decide)
      have hgreater : Reads true true ">".toList [.sign .greater] next := by
        refine reads_apart (k := .greater) (by decide) ?_ (by decide)
        simpa [TokenKind.joined] using head?_ne_of_ended hnext
      rw [text, words, texts_eq, wordsAll_eq, ← List.map_cons, ← List.map_cons]
      simp only [String.toList_append]
      exact (((reads_name hspells (ended_delimiter (by decide) _)).append hless).append
        hitems).append hgreater
  | @tuple mark ts hlength hts ih =>
    rw [text, words, texts_eq, wordsAll_eq]
    simp only [String.toList_append]
    exact (reads_open.append (reads_commas (fun u hu _ h => ih u hu h)
      (ended_delimiter (by decide) _))).append reads_close
  | @array mark t ht ih =>
    rw [text, words]
    simp only [String.toList_append]
    exact (reads_lbracket.append (ih (ended_delimiter (by decide) _))).append reads_rbracket

end TypeExpr

/-! ### Patterns -/

/-- A bar that no second bar follows. -/
theorem reads_bar {level : Bool} {next : List Char} (h : Opens next) :
    Reads level true "|".toList [.sign .pipe] next :=
  reads_apart (k := .pipe) (by decide) (h.not_joined (by decide)) (by decide)

/-- **A recognizer's name is read as its words.** -/
theorem reads_label {kind : RecognizerKind} {n : String} (hn : spellsName n = true)
    {next : List Char} : Reads true true (kind.label n).toList (kind.words n) next := by
  have hfront : ∀ next, Reads true true ("(|" ++ n).toList [.sign .lparen, .sign .pipe, .name n]
      ('|' :: next) := by
    intro next
    rw [String.toList_append]
    have hopen : Reads true true "(|".toList [.sign .lparen, .sign .pipe]
        (n.toList ++ ('|' :: next)) :=
      Reads.append reads_open (reads_bar ((opens_name hn).append _))
    exact hopen.append (reads_name hn (ended_delimiter (by decide) _))
  have hback : ∀ next, Reads true true "|)".toList [.sign .pipe, .sign .rparen] next := by
    intro next
    exact Reads.append (reads_bar ⟨')', next, rfl, by decide⟩) reads_close
  cases kind with
  | total =>
    rw [RecognizerKind.label, RecognizerKind.words, String.toList_append]
    exact (hfront _).append (hback _)
  | optional =>
    rw [RecognizerKind.label, RecognizerKind.words, String.toList_append]
    have hunder : Reads true true "|_".toList [.sign .pipe, .name "_"] ('|' :: (')' :: next)) := by
      refine Reads.append (reads_bar ⟨'_', _, rfl, by decide⟩) ?_
      exact reads_name (n := "_") (by decide) (ended_delimiter (by decide) _)
    exact (hfront _).append (hunder.append (hback _))

namespace Pattern

theorem printAll_eq (place : Position) (ps : List Pattern) : printAll place ps = ps.map (print place) := by
  induction ps with
  | nil => rfl
  | cons p ps ih => rw [printAll, ih, List.map_cons]

theorem wordsAll_eq (place : Position) (ps : List Pattern) : wordsAll place ps = ps.map (words place) := by
  induction ps with
  | nil => rfl
  | cons p ps ih => rw [wordsAll, ih, List.map_cons]

/-- The written form of a field. -/
def fieldText (f : String × Pattern) : String :=
  if f.2.isVar f.1 then f.1 else f.1 ++ ": " ++ f.2.print .nested

/-- The words of a field. -/
def fieldWords (f : String × Pattern) : List Word :=
  if f.2.isVar f.1 then [Word.name f.1] else [Word.name f.1] ++ [Word.sign .colon] ++ f.2.words .nested

theorem printFields_eq (fs : List (String × Pattern)) : printFields fs = fs.map fieldText := by
  induction fs with
  | nil => rfl
  | cons f fs ih =>
    rw [printFields, ih]
    rfl

theorem wordsFields_eq (fs : List (String × Pattern)) : wordsFields fs = fs.map fieldWords := by
  induction fs with
  | nil => rfl
  | cons f fs ih =>
    rw [wordsFields, ih]
    rfl

/-- The written form of an item of a slice. -/
def itemText : SliceItem Pattern → String
  | .element p => p.print .nested
  | .rest n _ => ".." ++ n

/-- The words of an item of a slice. -/
def itemWords : SliceItem Pattern → List Word
  | .element p => p.words .nested
  | .rest n _ => [Word.sign .dotDot] ++ if n = "" then [] else [Word.name n]

theorem printItems_eq (items : List (SliceItem Pattern)) : printItems items = items.map itemText := by
  induction items with
  | nil => rfl
  | cons item items ih =>
    cases item <;> rw [printItems, ih] <;> rfl

theorem wordsItems_eq (items : List (SliceItem Pattern)) : wordsItems items = items.map itemWords := by
  induction items with
  | nil => rfl
  | cons item items ih =>
    cases item <;> rw [wordsItems, ih] <;> rfl

/-- Wherever a pattern stands and whatever follows it, it is read as its words. -/
def Legible (p : Pattern) : Prop :=
  ∀ (place : Position) {next : List Char}, ended next = true →
    Reads true false (p.print place).toList (p.words place) next

theorem reads_patterns {ps : List Pattern} (h : ∀ p ∈ ps, p.Legible) (place : Position)
    {next : List Char} (hnext : ended next = true) :
    Reads true false (", ".intercalate (printAll place ps)).toList
      (commaWords (wordsAll place ps)) next := by
  rw [printAll_eq, wordsAll_eq]
  exact reads_commas (fun p hp _ hnext => h p hp place hnext) hnext

theorem reads_field {f : String × Pattern} (hname : isLowerName f.1 = true) (h : f.2.Legible)
    {next : List Char} (hnext : ended next = true) :
    Reads true false (fieldText f).toList (fieldWords f) next := by
  have hspells := spellsName_of_isLowerName hname
  rw [fieldText, fieldWords]
  split
  · exact (reads_name hspells hnext).loosen
  · simp only [String.toList_append]
    have hcolon : Reads true true ": ".toList [.sign .colon] ((f.2.print .nested).toList ++ next) :=
      reads_sign_blank (k := .colon) (by decide) (by decide)
    exact ((reads_name hspells (ended_delimiter (by decide) _)).append hcolon).append
      (h .nested hnext)

/-- The rest marker of a record. -/
theorem reads_comma_dots {level level' : Bool} {next : List Char} :
    Reads level level' ", ..".toList [.sign .comma, .sign .dotDot] (" \x7d".toList ++ next) := by
  have hcomma : Reads level true ", ".toList [.sign .comma] ("..".toList ++ (" \x7d".toList ++ next)) :=
    reads_sign_blank (k := .comma) (by decide) (by decide)
  have hdots : Reads true true "..".toList [.sign .dotDot] (" \x7d".toList ++ next) :=
    reads_apart (k := .dotDot) (by decide) (head?_ne_joined (by decide)) (by decide)
  exact (hcomma.append hdots).loosen

/-- The rest marker of a slice. -/
theorem reads_rest {n : String} (hn : n = "" ∨ isLowerName n = true) {next : List Char}
    (hnext : ended next = true) :
    Reads true true (".." ++ n).toList ([Word.sign .dotDot] ++ if n = "" then [] else [Word.name n])
      next := by
  rw [String.toList_append]
  rcases hn with rfl | hn
  · have hdots : Reads true true "..".toList [.sign .dotDot] ([] ++ next) := by
      refine reads_apart (k := .dotDot) (by decide) ?_ (by decide)
      simpa [TokenKind.joined] using head?_ne_of_ended hnext
    exact hdots.append .nil
  · have hspells := spellsName_of_isLowerName hn
    have hne : n ≠ "" := by
      rintro rfl
      cases hspells
    have hdots : Reads true true "..".toList [.sign .dotDot] (n.toList ++ next) :=
      reads_apart (k := .dotDot) (by decide) (((opens_name hspells).append _).not_joined (by decide)) (by decide)
    rw [if_neg hne]
    exact hdots.append (reads_name hspells hnext)

/-- A bound of a range. -/
theorem reads_bound {bound : Option Bound} (h : ∀ b, bound = some b → b.value.Signed)
    {next : List Char} (hnext : ended next = true) :
    Reads true true (printBound bound).toList (boundWords bound) next := by
  cases bound with
  | none => exact .nil
  | some b => exact reads_literal (h b rfl) hnext

/-- The operator of a range. -/
theorem reads_rangeSymbol {inclusive : Bool} (stop : Option Bound) {next : List Char}
    (hnext : ended next = true) :
    Reads true true (rangeSymbol inclusive).toList [rangeWord inclusive]
      ((printBound stop).toList ++ next) := by
  cases inclusive with
  | true => exact reads_closed (k := .dotDotEq) (by decide) rfl (by decide)
  | false =>
    refine reads_apart (k := .dotDot) (by decide) ?_ (by decide)
    cases stop with
    | none => simpa [TokenKind.joined, printBound] using head?_ne_of_ended hnext
    | some b => exact ((opens_literal b.value).append _).not_joined (by decide)

namespace Legible

variable {mark : Mark} {n : String} {p : Pattern} {ps : List Pattern}

-- the equations of both definitions are generated here, once for all the cases below
attribute [local simp] print words

theorem tuple (h : ∀ p ∈ ps, p.Legible) : (Pattern.tuple mark ps).Legible := by
  intro place next _
  rw [print, words]
  simp only [String.toList_append]
  exact ((reads_open.append (reads_patterns h .nested (ended_delimiter (by decide) _))).append
    reads_close).loosen

theorem record {fs : List (String × Pattern)} {rest : Bool}
    (hnames : ∀ f ∈ fs, isLowerName f.1 = true) (h : ∀ f ∈ fs, f.2.Legible) :
    (Pattern.record mark fs rest).Legible := by
  intro place next _
  cases fs with
  | nil =>
    cases rest with
    | false =>
      have hbrace : Reads true true "\x7b".toList [.sign .lbrace] ('\x7d' :: next) := reads_lbrace
      rw [print, words]
      exact (hbrace.append reads_rbrace).loosen
    | true =>
      have hdots : Reads true true ".. ".toList [.sign .dotDot] ('\x7d' :: next) :=
        reads_sign_blank (k := .dotDot) (by decide) (by decide)
      rw [print, words]
      exact (reads_lbrace_blank.append (hdots.append reads_rbrace)).loosen
  | cons f fs =>
    rw [print, words, printFields_eq, wordsFields_eq]
    simp only [String.toList_append]
    have hfields : ∀ {next}, ended next = true →
        Reads true false (", ".intercalate ((f :: fs).map fieldText)).toList
          (commaWords ((f :: fs).map fieldWords)) next :=
      reads_commas fun f hf _ hnext => reads_field (hnames f hf) (h f hf) hnext
    have hrest : Reads false false (if rest then ", .." else "").toList
        (if rest then [.sign .comma, .sign .dotDot] else []) (" \x7d".toList ++ next) := by
      cases rest with
      | false => exact .nil
      | true => exact reads_comma_dots
    have hended : ended ((if rest then ", .." else "").toList ++ (" \x7d".toList ++ next)) = true := by
      cases rest <;> exact ended_delimiter (by decide) _
    exact (((reads_lbrace_blank.append (hfields hended)).append hrest).append
      reads_blank_rbrace).loosen

theorem construct (hname : isUpperName n = true) (h : ∀ p ∈ ps, p.Legible) :
    (Pattern.construct mark n ps).Legible := by
  intro place next hnext
  have hspells := spellsName_of_isUpperName hname
  cases ps with
  | nil => exact (reads_name hspells hnext).loosen
  | cons p ps =>
    rw [print, words]
    simp only [String.toList_append]
    exact ((((reads_name hspells (ended_delimiter (by decide) _)).append reads_open).append
      (reads_patterns h .nested (ended_delimiter (by decide) _))).append reads_close).loosen

theorem binding {viaAt : Bool} (hname : isLowerName n = true) (hp : p.Legible) :
    (Pattern.binding mark n viaAt p).Legible := by
  intro place next hnext
  have hspells := spellsName_of_isLowerName hname
  cases viaAt with
  | true =>
    rw [print, words]
    simp only [String.toList_append]
    have hat : Reads true true " @ ".toList [.sign .atSign] ((p.print .primary).toList ++ next) :=
      reads_blank_sign (k := .atSign) (by decide) (by decide)
    exact ((reads_name hspells (ended_delimiter (by decide) _)).append hat).append (hp .primary hnext)
  | false =>
    rw [print, words]
    refine reads_parenthesized (fun next hnext => ?_) hnext
    simp only [String.toList_append]
    have has : Reads false true " as ".toList [.name "as"] (n.toList ++ next) :=
      reads_blank_name (n := "as") (by decide)
    exact (((hp .nested (ended_delimiter (by decide) _)).append has).append
      (reads_name hspells hnext)).loosen

theorem or (h : ∀ p ∈ ps, p.Legible) : (Pattern.or mark ps).Legible := by
  intro place next hnext
  rw [print, words]
  refine reads_parenthesized (fun next hnext => ?_) hnext
  rw [printAll_eq, wordsAll_eq, String.toList_intercalate, List.map_map]
  refine reads_intercalate (fun rest => ?_) (fun rest => ?_) (fun p hp _ hnext => h p hp _ hnext) hnext
  · exact reads_blank_sign (k := .pipe) (by decide) (by decide)
  · exact ended_delimiter (by decide) _

theorem slice {items : List (SliceItem Pattern)} (h : ∀ p, .element p ∈ items → p.Legible)
    (hrests : ∀ n span, .rest n span ∈ items → n = "" ∨ isLowerName n = true) :
    (Pattern.slice mark items).Legible := by
  intro place next _
  rw [print, words, printItems_eq, wordsItems_eq]
  simp only [String.toList_append]
  have hitems : Reads true false (", ".intercalate (items.map itemText)).toList
      (commaWords (items.map itemWords)) ("]".toList ++ next) := by
    refine reads_commas (fun item hitem next hnext => ?_) (ended_delimiter (by decide) _)
    cases item with
    | element p => exact h p hitem .nested hnext
    | rest n span => exact (reads_rest (hrests n span hitem) hnext).loosen
  exact ((reads_lbracket.append hitems).append reads_rbracket).loosen

theorem range {start stop : Option Bound} {inclusive : Bool}
    (hstart : ∀ b, start = some b → b.value.Signed) (hstop : ∀ b, stop = some b → b.value.Signed) :
    (Pattern.range mark start stop inclusive).Legible := by
  intro place next hnext
  rw [print, words]
  simp only [String.toList_append]
  have hfirst : Reads true true (printBound start).toList (boundWords start)
      ((rangeSymbol inclusive).toList ++ ((printBound stop).toList ++ next)) := by
    refine reads_bound hstart ?_
    cases inclusive <;> exact ended_dot rfl
  exact ((hfirst.append (reads_rangeSymbol stop hnext)).append (reads_bound hstop hnext)).loosen

theorem active {kind : RecognizerKind} {arg : Option Pattern} (hname : isUpperName n = true)
    (h : ∀ p, arg = some p → p.Legible) : (Pattern.active mark n kind arg).Legible := by
  intro place next hnext
  have hspells := spellsName_of_isUpperName hname
  cases arg with
  | none => exact (reads_label hspells).loosen
  | some p =>
    rw [print, words]
    simp only [String.toList_append]
    have hlabel : Reads true true ((kind.label n).toList ++ " ".toList) (kind.words n)
        ((p.print .primary).toList ++ next) := by
      simpa using (reads_label (n := n) hspells).append reads_space
    exact hlabel.append (h p rfl .primary hnext)

end Legible

theorem legible_of_writable {p : Pattern} (h : p.Writable) : p.Legible := by
  induction h with
  | wildcard => exact fun _ _ hnext => (reads_name (n := "_") (by decide) hnext).loosen
  | var hname => exact fun _ _ hnext => (reads_name (spellsName_of_isLowerName hname) hnext).loosen
  | literal hvalue => exact fun _ _ hnext => (reads_literal hvalue hnext).loosen
  | tuple _ _ ih => exact .tuple ih
  | record hnames _ ih => exact .record hnames ih
  | construct hname _ ih => exact .construct hname ih
  | binding hname _ ih => exact .binding hname ih
  | or _ _ ih => exact .or ih
  | slice _ hrests ih => exact .slice ih hrests
  | range _ _ hstart hend =>
    exact .range (fun b hb => (hstart b hb).signed) fun b hb => (hend b hb).signed
  | regex hsource => exact fun _ _ _ => reads_regex hsource.clean hsource.last
  | active hname _ ih => exact .active hname ih

/-- **A pattern is read as its words.** -/
theorem reads_print {p : Pattern} (h : p.Writable) (place : Position) {next : List Char}
    (hnext : ended next = true) : Reads true false (p.print place).toList (p.words place) next :=
  legible_of_writable h place hnext

end Pattern

/-! ### Expressions -/

namespace Expr

theorem printList_eq (level : Nat) (es : List Expr) :
    printList level es = es.map fun e => followed e (print level e) := by
  induction es with
  | nil => rfl
  | cons e es ih => rw [printList, ih, List.map_cons]

theorem wordsAll_eq (es : List Expr) : wordsAll es = es.map fun e => followedWords e e.words := by
  induction es with
  | nil => rfl
  | cons e es ih => rw [wordsAll, ih, List.map_cons]

theorem printFields_eq (level : Nat) (fs : List (String × Expr)) :
    printFields level fs = fs.map fun f => f.1 ++ ": " ++ followed f.2 (print level f.2) := by
  induction fs with
  | nil => rfl
  | cons f fs ih => rw [printFields, ih, List.map_cons]

theorem wordsFields_eq (fs : List (String × Expr)) :
    wordsFields fs =
      fs.map fun f => [Word.name f.1] ++ [Word.sign .colon] ++ followedWords f.2 f.2.words := by
  induction fs with
  | nil => rfl
  | cons f fs ih => rw [wordsFields, ih, List.map_cons]

/-- The written form of the `else` of a conditional, and its words. -/
def elseText (level : Nat) : Option Expr → String
  | some e => " else " ++ followed e (print level e)
  | none => ""

def elseWords : Option Expr → List Word
  | some e => [Word.name "else"] ++ followedWords e e.words
  | none => []

/-- The written form of the guard of an arm, and its words. -/
def guardText (level : Nat) (usedIf : Bool) : Option Expr → String
  | some g => (if usedIf then " if " else " when ") ++ followed g (print level g)
  | none => ""

def guardWords (usedIf : Bool) : Option Expr → List Word
  | some g => [Word.name (if usedIf then "if" else "when")] ++ followedWords g g.words
  | none => []

/-- The written form of the result of a block, and its words. -/
def resultText (level : Nat) : Option Expr → String
  | some e => print level e ++ " "
  | none => ""

def resultWords : Option Expr → List Word
  | some e => e.words
  | none => []

theorem print_cond (level : Nat) (mark : Mark) (c y : Expr) (n : Option Expr) :
    print level (cond mark c y n) = "if " ++ followed c (print level c) ++ " then "
      ++ followed y (print level y) ++ elseText level n := by
  cases n <;> rw [print] <;> rfl

theorem words_cond (mark : Mark) (c y : Expr) (n : Option Expr) :
    words (cond mark c y n) = [Word.name "if"] ++ followedWords c c.words ++ [Word.name "then"]
      ++ followedWords y y.words ++ elseWords n := by
  cases n <;> rw [words] <;> rfl

theorem print_block (level : Nat) (mark : Mark) (lets : List (String × Expr)) (r : Option Expr) :
    print level (block mark lets r)
      = "\x7b " ++ printLets level lets ++ resultText level r ++ "\x7d" := by
  cases r <;> rw [print] <;> rfl

theorem words_block (mark : Mark) (lets : List (String × Expr)) (r : Option Expr) :
    words (block mark lets r)
      = [Word.sign .lbrace] ++ wordsLets lets ++ resultWords r ++ [Word.sign .rbrace] := by
  cases r <;> rw [words] <;> rfl

theorem printArms_cons (level : Nat) (a : Arm Pattern Expr) (arms : List (Arm Pattern Expr)) :
    printArms level (a :: arms) = newline level ++ "| " ++ a.pattern.text ++ printAlias a.asName
      ++ guardText level a.usedIf a.guard ++ " -> "
      ++ (if arms.isEmpty then print level a.body else followed a.body (print level a.body))
      ++ printArms level arms := by
  obtain ⟨span, p, guard, usedIf, given, body⟩ := a
  cases guard <;> rw [printArms] <;> rfl

theorem wordsArms_cons (a : Arm Pattern Expr) (arms : List (Arm Pattern Expr)) :
    wordsArms (a :: arms) = [Word.sign .pipe] ++ a.pattern.words .arm ++ aliasWords a.asName
      ++ guardWords a.usedIf a.guard ++ [Word.sign .arrow]
      ++ (if arms.isEmpty then words a.body else followedWords a.body a.body.words)
      ++ wordsArms arms := by
  obtain ⟨span, p, guard, usedIf, given, body⟩ := a
  cases guard <;> rw [wordsArms] <;> rfl

theorem opens_parenthesized {b : Bool} {s : String} (h : Opens s.toList) :
    Opens (parenthesized b s).toList := by
  cases b with
  | false => exact h
  | true =>
    show Opens ("(" ++ s ++ ")").toList
    rw [String.toList_append, String.toList_append]
    exact ⟨'(', _, rfl, by decide⟩

theorem opens_print {e : Expr} (h : e.Writable) (level : Nat) : Opens (e.print level).toList := by
  induction h with
  | ident hname => exact opens_name (spellsName_of_isLowerName hname)
  | literal => exact opens_literal _
  | @construct mark n es hname _ _ =>
    have hopens := opens_name (spellsName_of_isUpperName hname)
    cases es with
    | nil => exact hopens
    | cons e es =>
      rw [print]
      simp only [String.toList_append, List.append_assoc]
      exact hopens.append _
  | call _ _ ih _ =>
    rw [print]
    simp only [String.toList_append, List.append_assoc]
    exact (opens_parenthesized ih).append _
  | @unary mark op _ _ _ =>
    rw [print, String.toList_append]
    cases op with
    | negate => exact ⟨'-', _, rfl, by decide⟩
    | not => exact ⟨'!', _, rfl, by decide⟩
  | binary _ _ ih _ =>
    rw [print]
    simp only [String.toList_append, List.append_assoc]
    exact (opens_parenthesized ih).append _
  | cond =>
    rw [print_cond]
    simp only [String.toList_append, List.append_assoc]
    exact ⟨'i', _, rfl, by decide⟩
  | select =>
    rw [print]
    simp only [String.toList_append, List.append_assoc]
    exact ⟨'m', _, rfl, by decide⟩
  | block =>
    rw [print_block]
    simp only [String.toList_append, List.append_assoc]
    exact ⟨'\x7b', _, rfl, by decide⟩
  | perform =>
    rw [print]
    simp only [String.toList_append, List.append_assoc]
    exact ⟨'p', _, rfl, by decide⟩
  | tuple =>
    rw [print]
    simp only [String.toList_append, List.append_assoc]
    exact ⟨'(', _, rfl, by decide⟩
  | array =>
    rw [print]
    simp only [String.toList_append, List.append_assoc]
    exact ⟨'[', _, rfl, by decide⟩
  | record =>
    rw [print]
    simp only [String.toList_append, List.append_assoc]
    exact ⟨'\x7b', _, rfl, by decide⟩
  | field _ _ ih =>
    rw [print]
    simp only [String.toList_append, List.append_assoc]
    exact (opens_parenthesized ih).append _

/-- A line break and the blanks of the next line. -/
theorem reads_lineBreak {level : Bool} {next : List Char} (n : Nat) :
    Reads level false (newline n).toList [] next := by
  rw [newline, String.toList_ofList]
  exact reads_newline.append (reads_spaces (4 * n))

/-- An infix operator between blanks. -/
theorem reads_operator (op : BinaryOp) {level : Bool} {next : List Char} :
    Reads level true (" " ++ op.symbol ++ " ").toList [.sign (binaryKind op)] next := by
  have hname : (" " ++ op.symbol ++ " ").toList = ' ' :: ((binaryKind op).name.toList ++ [' ']) := by
    cases op <;> rfl
  rw [hname]
  exact reads_blank_sign (by cases op <;> decide) (by cases op <;> decide)

/-- Whatever follows an expression, it is read as its words. -/
def Legible (e : Expr) : Prop :=
  ∀ (level : Nat) {next : List Char}, ended next = true →
    Reads true true (e.print level).toList e.words next

section Legible

variable {e : Expr} {next : List Char}

theorem Legible.followed (h : e.Legible) (level : Nat) (hnext : ended next = true) :
    Reads true true (followed e (e.print level)).toList (followedWords e e.words) next :=
  reads_parenthesized (fun _ hnext => h level hnext) hnext

theorem Legible.operand (h : e.Legible) (parent level : Nat) (hnext : ended next = true) :
    Reads true true (operand parent e (e.print level)).toList (operandWords parent e e.words) next :=
  reads_parenthesized (fun _ hnext => h level hnext) hnext

theorem reads_list {es : List Expr} (h : ∀ e ∈ es, e.Legible) (level : Nat) (hnext : ended next = true) :
    Reads true true (", ".intercalate (printList level es)).toList (commaWords (wordsAll es)) next := by
  rw [printList_eq, wordsAll_eq]
  exact reads_commas (fun e he _ hnext => (h e he).followed level hnext) hnext

/-- Arguments in parentheses. -/
theorem reads_arguments {es : List Expr} (h : ∀ e ∈ es, e.Legible) (level : Nat) :
    Reads true true ("(" ++ ", ".intercalate (printList level es) ++ ")").toList
      ([Word.sign .lparen] ++ commaWords (wordsAll es) ++ [Word.sign .rparen]) next := by
  simp only [String.toList_append]
  exact (reads_open.append (reads_list h level (ended_delimiter (by decide) _))).append reads_close

theorem reads_fields {fs : List (String × Expr)} (hnames : ∀ f ∈ fs, isLowerName f.1 = true)
    (h : ∀ f ∈ fs, f.2.Legible) (level : Nat) (hnext : ended next = true) :
    Reads true true (", ".intercalate (printFields level fs)).toList (commaWords (wordsFields fs))
      next := by
  rw [printFields_eq, wordsFields_eq]
  refine reads_commas (fun f hf next hnext => ?_) hnext
  simp only [String.toList_append]
  have hname := spellsName_of_isLowerName (hnames f hf)
  have hcolon : Reads true true ": ".toList [.sign .colon]
      ((f.2.followed (f.2.print level)).toList ++ next) :=
    reads_sign_blank (k := .colon) (by decide) (by decide)
  exact ((reads_name hname (ended_delimiter (by decide) _)).append hcolon).append
    ((h f hf).followed level hnext)

/-- The bindings of a block. -/
theorem reads_lets {lets : List (String × Expr)} (hnames : ∀ l ∈ lets, isLowerName l.1 = true)
    (h : ∀ l ∈ lets, l.2.Legible) (level : Nat) :
    Reads true true (printLets level lets).toList (wordsLets lets) next := by
  induction lets with
  | nil => exact .nil
  | cons l lets ih =>
    obtain ⟨n, e⟩ := l
    have hspells := spellsName_of_isLowerName (hnames (n, e) List.mem_cons_self)
    have he : e.Legible := h (n, e) List.mem_cons_self
    have hrest := ih (fun l hl => hnames l (List.mem_cons_of_mem _ hl))
      fun l hl => h l (List.mem_cons_of_mem _ hl)
    rw [printLets, wordsLets]
    simp only [String.toList_append]
    have hlet : ∀ next, Reads true true "let ".toList [.name "let"] next := fun _ =>
      reads_name_blank (n := "let") (by decide)
    have hassign : ∀ next, Reads true true " = ".toList [.sign .assign] next := fun _ =>
      reads_blank_sign (k := .assign) (by decide) (by decide)
    have hsemicolon : ∀ next, Reads true true "; ".toList [.sign .semicolon] next := fun _ =>
      reads_sign_blank (k := .semicolon) (by decide) (by decide)
    refine Reads.append (Reads.append (Reads.append (Reads.append (Reads.append (hlet _) ?_) (hassign _))
      ?_) (hsemicolon _)) hrest
    · exact reads_name hspells (ended_delimiter (by decide) _)
    · exact he.followed level (ended_delimiter (by decide) _)

/-- The alias of an arm. -/
theorem reads_alias {given : Option Alias} (h : ∀ a, given = some a → isLowerName a.name = true)
    (hnext : ended next = true) :
    Reads false false (printAlias given).toList (aliasWords given) next := by
  cases given with
  | none => exact .nil
  | some a =>
    rw [printAlias, String.toList_append]
    have has : Reads false true " as ".toList [.name "as"] (a.name.toList ++ next) :=
      reads_blank_name (n := "as") (by decide)
    exact (has.append (reads_name (spellsName_of_isLowerName (h a rfl)) hnext)).loosen

/-- The guard of an arm. -/
theorem reads_guard {guard : Option Expr} {usedIf : Bool} (h : ∀ g, guard = some g → g.Legible)
    (level : Nat) (hnext : ended next = true) :
    Reads false false (guardText level usedIf guard).toList (guardWords usedIf guard) next := by
  cases guard with
  | none => exact .nil
  | some g =>
    have hword : ∀ next, Reads false true (if usedIf then " if " else " when ").toList
        [.name (if usedIf then "if" else "when")] next := by
      intro next
      cases usedIf with
      | true => exact reads_blank_name (n := "if") (by decide)
      | false => exact reads_blank_name (n := "when") (by decide)
    rw [guardText, String.toList_append]
    exact ((hword _).append ((h g rfl).followed level hnext)).loosen

theorem ended_guard (level : Nat) (usedIf : Bool) (guard : Option Expr) {rest : List Char}
    (h : ended rest = true) : ended ((guardText level usedIf guard).toList ++ rest) = true := by
  cases guard with
  | none => exact h
  | some g =>
    rw [guardText, String.toList_append, List.append_assoc]
    cases usedIf <;> exact ended_delimiter (by decide) _

theorem ended_alias (given : Option Alias) {rest : List Char} (h : ended rest = true) :
    ended ((printAlias given).toList ++ rest) = true := by
  cases given with
  | none => exact h
  | some a =>
    rw [printAlias, String.toList_append, List.append_assoc]
    exact ended_delimiter (by decide) _

theorem ended_arms (level : Nat) (arms : List (Arm Pattern Expr)) (hnext : ended next = true) :
    ended ((printArms level arms).toList ++ next) = true := by
  cases arms with
  | nil => exact hnext
  | cons a arms =>
    rw [printArms_cons, newline]
    simp only [String.toList_append, String.toList_ofList, List.append_assoc]
    exact ended_delimiter (by decide) _

theorem reads_arms {arms : List (Arm Pattern Expr)} (harms : ∀ a ∈ arms, ArmWritable a)
    (hguards : ∀ a ∈ arms, ∀ g, a.guard = some g → g.Legible) (hbodies : ∀ a ∈ arms, a.body.Legible)
    (level : Nat) (hnext : ended next = true) :
    Reads true true (printArms level arms).toList (wordsArms arms) next := by
  induction arms with
  | nil => exact .nil
  | cons a arms ih =>
    have harm := harms a List.mem_cons_self
    have hbody := hbodies a List.mem_cons_self
    have hrest := ih (fun a ha => harms a (List.mem_cons_of_mem _ ha))
      (fun a ha => hguards a (List.mem_cons_of_mem _ ha))
      fun a ha => hbodies a (List.mem_cons_of_mem _ ha)
    have hended := ended_arms level arms hnext
    have htail : Reads true true
        (if arms.isEmpty then print level a.body else followed a.body (print level a.body)).toList
        (if arms.isEmpty then words a.body else followedWords a.body a.body.words)
        ((printArms level arms).toList ++ next) := by
      split
      · exact hbody level hended
      · exact hbody.followed level hended
    have hbar : ∀ next, Reads false true "| ".toList [.sign .pipe] next := fun _ =>
      reads_sign_blank (k := .pipe) (by decide) (by decide)
    have harrow : ∀ next, Reads false true " -> ".toList [.sign .arrow] next := fun _ =>
      reads_blank_sign (k := .arrow) (by decide) (by decide)
    have hblank : ∀ rest, ended (" -> ".toList ++ rest) = true := fun _ =>
      ended_delimiter (by decide) _
    rw [printArms_cons, wordsArms_cons]
    simp only [String.toList_append]
    have hfront : ∀ rest, Reads true false
        ((newline level).toList ++ "| ".toList ++ a.pattern.text.toList ++ (printAlias a.asName).toList
          ++ (guardText level a.usedIf a.guard).toList)
        ([] ++ [Word.sign .pipe] ++ a.pattern.words .arm ++ aliasWords a.asName
          ++ guardWords a.usedIf a.guard) (" -> ".toList ++ rest) := by
      intro rest
      have hguard := ended_guard level a.usedIf a.guard (hblank rest)
      refine Reads.append ?_ (reads_guard (hguards a List.mem_cons_self) level (hblank rest))
      refine Reads.append ?_ (reads_alias harm.name hguard)
      refine Reads.append ?_ (Pattern.reads_print harm.pattern .arm (ended_alias a.asName hguard))
      exact (reads_lineBreak level).append (hbar _)
    exact (((hfront _).append (harrow _)).append htail).append hrest

namespace Legible

variable {mark : Mark} {n : String} {es : List Expr} {fs : List (String × Expr)}

attribute [local simp] print words

theorem construct (hname : isUpperName n = true) (h : ∀ e ∈ es, e.Legible) :
    (Expr.construct mark n es).Legible := by
  intro level next hnext
  have hspells := spellsName_of_isUpperName hname
  cases es with
  | nil => exact reads_name hspells hnext
  | cons e es =>
    rw [print, words]
    simp only [String.toList_append, List.append_assoc]
    have hargs := @reads_arguments next _ h level
    simp only [String.toList_append, List.append_assoc] at hargs
    exact (reads_name hspells (ended_delimiter (by decide) _)).append hargs

theorem call {f : Expr} (hf : f.Legible) (h : ∀ e ∈ es, e.Legible) : (Expr.call mark f es).Legible := by
  intro level next hnext
  rw [print, words]
  simp only [String.toList_append, List.append_assoc]
  have hargs := @reads_arguments next _ h level
  simp only [String.toList_append, List.append_assoc] at hargs
  exact (hf.operand _ level (ended_delimiter (by decide) _)).append hargs

/-- The operand may not make a longer sign, or a comment, of the operator. -/
theorem unary {op : UnaryOp} (he : e.Legible) (hopens : ∀ level, Opens (e.print level).toList) :
    (Expr.unary mark op e).Legible := by
  intro level next hnext
  have hopens := (opens_parenthesized (b := e.precedence < Precedence.unary) (hopens level)).append next
  have hsign : Reads true true op.symbol.toList [unaryWord op]
      ((Expr.operand Precedence.unary e (print level e)).toList ++ next) := by
    cases op with
    | negate => exact reads_apart (k := .minus) (by decide) (hopens.not_joined (by decide)) (by decide)
    | not => exact reads_apart (k := .bang) (by decide) (hopens.not_joined (by decide)) (by decide)
  rw [print, words, String.toList_append]
  exact hsign.append (he.operand _ level hnext)

theorem binary {op : BinaryOp} {l r : Expr} (hl : l.Legible) (hr : r.Legible) :
    (Expr.binary mark op l r).Legible := by
  intro level next hnext
  have hop : Reads true true (" " ++ op.symbol ++ " ").toList [.sign (binaryKind op)]
      ((Expr.operand (op.precedence + 1) r (print level r)).toList ++ next) := reads_operator op
  have hfirst : ended ((" " ++ op.symbol ++ " ").toList
      ++ ((Expr.operand (op.precedence + 1) r (print level r)).toList ++ next)) = true := by
    rw [String.toList_append, String.toList_append]
    exact ended_delimiter (by decide) _
  have hall := ((hl.operand op.precedence level hfirst).append hop).append
    (hr.operand (op.precedence + 1) level hnext)
  rw [print, words]
  simp only [String.toList_append, List.append_assoc] at hall ⊢
  exact hall

theorem cond {c y : Expr} {n : Option Expr} (hc : c.Legible) (hy : y.Legible)
    (hn : ∀ e, n = some e → e.Legible) : (Expr.cond mark c y n).Legible := by
  intro level next hnext
  have hif : ∀ next, Reads true true "if ".toList [.name "if"] next := fun _ =>
    reads_name_blank (n := "if") (by decide)
  have hthen : ∀ next, Reads true true " then ".toList [.name "then"] next := fun _ =>
    reads_blank_name (n := "then") (by decide)
  have helse : ∀ next, Reads true true " else ".toList [.name "else"] next := fun _ =>
    reads_blank_name (n := "else") (by decide)
  have htest := fun rest => ((hif _).append (hc.followed level
    (ended_delimiter (c := ' ') (by decide) rest)))
  rw [print_cond, words_cond]
  simp only [String.toList_append]
  cases n with
  | none =>
    have hyes : Reads true true (Expr.followed y (print level y)).toList (followedWords y y.words)
        ([] ++ next) := hy.followed level hnext
    exact (((htest _).append (hthen _)).append hyes).append .nil
  | some e =>
    rw [elseText, elseWords, String.toList_append]
    have hno := (helse _).append ((hn e rfl).followed level hnext)
    exact (((htest _).append (hthen _)).append
      (hy.followed level (ended_delimiter (by decide) _))).append hno

theorem select {t : Expr} {arms : List (Arm Pattern Expr)} (ht : t.Legible)
    (harms : ∀ a ∈ arms, ArmWritable a) (hguards : ∀ a ∈ arms, ∀ g, a.guard = some g → g.Legible)
    (hbodies : ∀ a ∈ arms, a.body.Legible) : (Expr.select mark t arms).Legible := by
  intro level next hnext
  have hmatch : ∀ next, Reads true true "match ".toList [.name "match"] next := fun _ =>
    reads_name_blank (n := "match") (by decide)
  have harms := reads_arms harms hguards hbodies (level + 1) hnext
  have hwith : Reads true true " with".toList [.name "with"]
      ((printArms (level + 1) arms).toList ++ next) :=
    Reads.append reads_space (reads_name (n := "with") (by decide) (ended_arms _ _ hnext))
  rw [print, words]
  simp only [String.toList_append]
  exact (((hmatch _).append (ht.followed level (ended_delimiter (by decide) _))).append hwith).append
    harms

theorem block {r : Option Expr} (hnames : ∀ f ∈ fs, isLowerName f.1 = true)
    (h : ∀ f ∈ fs, f.2.Legible) (hr : ∀ e, r = some e → e.Legible) :
    (Expr.block mark fs r).Legible := by
  intro level next hnext
  rw [print_block, words_block]
  simp only [String.toList_append]
  have hfront : ∀ next, Reads true true ("\x7b ".toList ++ (printLets level fs).toList)
      ([Word.sign .lbrace] ++ wordsLets fs) next := fun _ =>
    reads_lbrace_blank.append (reads_lets hnames h level)
  cases r with
  | none => exact ((hfront _).append .nil).append reads_rbrace
  | some e =>
    rw [resultText, resultWords, String.toList_append]
    have he : Reads true true ((print level e).toList ++ " ".toList) (words e) ("\x7d".toList ++ next) := by
      simpa using (hr e rfl level (ended_delimiter (by decide) _)).append reads_space
    exact ((hfront _).append he).append reads_rbrace

theorem perform (hname : isUpperName n = true) (h : ∀ e ∈ es, e.Legible) :
    (Expr.perform mark n es).Legible := by
  intro level next hnext
  have hperform : ∀ next, Reads true true "perform ".toList [.name "perform"] next := fun _ =>
    reads_name_blank (n := "perform") (by decide)
  have hargs := @reads_arguments next _ h level
  rw [print, words]
  simp only [String.toList_append, List.append_assoc] at hargs ⊢
  exact (hperform _).append ((reads_name (spellsName_of_isUpperName hname)
    (ended_delimiter (by decide) _)).append hargs)

theorem array (h : ∀ e ∈ es, e.Legible) : (Expr.array mark es).Legible := by
  intro level next _
  rw [print, words]
  simp only [String.toList_append]
  exact (reads_lbracket.append (reads_list h level (ended_delimiter (by decide) _))).append
    reads_rbracket

theorem record (hnames : ∀ f ∈ fs, isLowerName f.1 = true) (h : ∀ f ∈ fs, f.2.Legible) :
    (Expr.record mark fs).Legible := by
  intro level next _
  rw [print, words]
  simp only [String.toList_append]
  exact (reads_lbrace_blank.append
    (reads_fields hnames h level (ended_delimiter (by decide) _))).append reads_blank_rbrace

/-- A name starts with no digit, so that what is in front of the dot is not a number. -/
theorem field (hname : isLowerName n = true) (he : e.Legible) : (Expr.field mark e n).Legible := by
  intro level next hnext
  have hspells := spellsName_of_isLowerName hname
  obtain ⟨c, cs, hn, hc⟩ := exists_startsName hspells
  have hdigit : ((n.toList ++ next).head?.map Decimal.isDigit).getD false = false := by
    rw [hn]
    exact isDigit_of_startsName hc
  have hdot : Reads true true ".".toList [.sign .dot] (n.toList ++ next) := by
    refine reads_apart (k := .dot) (by decide) ?_ (by decide)
    rw [hn]
    refine head?_ne_joined fun hmem => ?_
    rw [List.mem_singleton.mp hmem] at hc
    exact absurd hc (by decide)
  rw [print, words]
  simp only [String.toList_append]
  exact ((he.operand _ level (ended_dot hdigit)).append hdot).append (reads_name hspells hnext)

end Legible

end Legible

/-- **An expression is read as its words.** -/
theorem legible_of_writable {e : Expr} (h : e.Writable) : e.Legible := by
  induction h with
  | ident hname => exact fun _ _ hnext => reads_name (spellsName_of_isLowerName hname) hnext
  | literal hvalue => exact fun _ _ hnext => reads_literal hvalue.signed hnext
  | construct hname _ ih => exact .construct hname ih
  | call _ _ ihf ih => exact .call ihf ih
  | unary he ih => exact ih.unary (opens_print he)
  | binary _ _ ihl ihr => exact .binary ihl ihr
  | cond _ _ _ ihc ihy ihn => exact .cond ihc ihy ihn
  | select _ _ harms _ _ iht ihguards ihbodies => exact .select iht harms ihguards ihbodies
  | block hnames _ _ ihlets ihr => exact .block hnames ihlets ihr
  | perform hname _ ih => exact .perform hname ih
  | tuple _ _ ih =>
    intro level next _
    rw [print, words]
    exact reads_arguments ih level
  | array _ ih => exact .array ih
  | record _ hnames _ ih => exact .record hnames ih
  | field _ hname ih => exact .field hname ih

end Expr

end Surface

end PatternPlan
