import PatternPlan.Proofs.Source.Name
import PatternPlan.Proofs.Number.Shortest
import PatternPlan.Surface.Printer

/-!
# Words

What a parser sees of a token is its kind, its text and its value: a word.  Written words are read
back one by one when nothing that follows a word can be taken for a part of it.

* `Word`, `Token.Spells` — words, and the tokens that stand for them;
* `After` — tokens that stand for some words, and what follows them; an opening parenthesis stands
  on the line of the token before it;
* `Reads` — **a piece of text is read as some words**, whatever comes before it;
  `Reads.append` puts pieces together;
* `reads_symbol`, `reads_name`, `reads_int`, `reads_float`, `reads_string`, `reads_regex` — one
  lemma for each kind of word.
-/

namespace PatternPlan

/-- What a parser sees of a token. -/
structure Word where
  kind : TokenKind
  text : String
  value : Literal

/-- A token that stands for a word. -/
structure Token.Spells (t : Token) (w : Word) : Prop where
  kind : t.kind = w.kind
  text : t.text = w.text
  value : t.value = some w.value

/-- What may be said about the tokens behind a token. -/
abbrev Rest := Token → List Token → Prop

/-- The tokens behind a token stand for some words, and then `K` holds.  An opening parenthesis
stands on the line of the token before it. -/
def After : List Word → Rest → Rest
  | [], K => K
  | w :: ws, K => fun x ts => ∃ t ts', ts = t :: ts' ∧ t.Spells w ∧
      (w.kind = .lparen → t.line = x.line) ∧ After ws K t ts'

theorem after_append (ws more : List Word) (K : Rest) :
    After (ws ++ more) K = After ws (After more K) := by
  induction ws with
  | nil => rfl
  | cons w ws ih =>
    funext x ts
    show (∃ t ts', ts = t :: ts' ∧ t.Spells w ∧ (w.kind = .lparen → t.line = x.line) ∧
      After (ws ++ more) K t ts') = _
    rw [ih]
    rfl

/-- The text of some characters. -/
def Text.ofChars (cs : List Char) : Text := cs.map .char

theorem Text.ofString_eq (s : String) : Text.ofString s = Text.ofChars s.toList := rfl

theorem Text.length_ofChars (cs : List Char) : (ofChars cs).length = cs.length :=
  List.length_map _

theorem Text.ofChars_append (cs ds : List Char) :
    ofChars (cs ++ ds) = ofChars cs ++ ofChars ds := List.map_append

theorem Text.shown_ofChars (cs : List Char) : (ofChars cs).shown = String.ofList cs := by
  rw [shown, chars, ofChars, List.map_map]
  exact congrArg String.ofList (List.map_id cs)

/-- **A piece of text is read as some words** when `next` follows.  With `level`, no line has ended
since the token before the piece; with `level'`, none has ended since the last token of the piece
when the piece is over. -/
structure Reads (level level' : Bool) (cs : List Char) (ws : List Word) (next : List Char) :
    Prop where
  clean : '\x00' ∉ cs
  legal : ∀ w ∈ ws, w.kind ≠ .illegal
  tokens : ∀ (c : Cursor) (x : Token) (K : Rest), (level = true → x.line = c.line) →
    (∀ c' y, (level' = true → y.line = c'.line) → K y (tokensFrom c' (.ofChars next)).1) →
    After ws K x (tokensFrom c (.ofChars (cs ++ next))).1

namespace Reads

variable {a b c : Bool} {cs ds next : List Char} {ws more : List Word}

theorem nil : Reads a a [] [] next :=
  ⟨by simp, by simp, fun c x _ hx hK => hK c x hx⟩

/-- Pieces are read one after the other. -/
theorem append (h : Reads a b cs ws (ds ++ next)) (h' : Reads b c ds more next) :
    Reads a c (cs ++ ds) (ws ++ more) next where
  clean := by
    rw [List.mem_append, not_or]
    exact ⟨h.clean, h'.clean⟩
  legal := List.forall_mem_append.mpr ⟨h.legal, h'.legal⟩
  tokens := by
    intro p x K hx hK
    rw [after_append, List.append_assoc]
    exact h.tokens p x _ hx fun p' y hy => h'.tokens p' y K hy hK

/-- Nothing depends on a line that did not end. -/
theorem loosen (h : Reads a true cs ws next) : Reads a b cs ws next :=
  ⟨h.clean, h.legal, fun p x K hx hK => h.tokens p x K hx fun p' y hy => hK p' y fun _ => hy rfl⟩

end Reads

/-! ### Blanks -/

/-- One step of splitting off trivia where no comment starts. -/
theorem splitTrivia_step {c : Char} {t : Text}
    (h : c = '/' → t.head? ≠ some (.char '/') ∧ t.head? ≠ some (.char '*')) :
    splitTrivia .blank (.char c :: t) =
      if isBlank c then (.char c :: (splitTrivia .blank t).1, (splitTrivia .blank t).2)
      else ([], .char c :: t) := by
  rw [splitTrivia]
  · rfl
  · rintro rest hc rfl
    cases hc
    exact (h rfl).1 rfl
  · rintro rest hc rfl
    cases hc
    exact (h rfl).2 rfl

theorem tokensFrom_blank {c : Char} (h : isBlank c = true) (p : Cursor) (t : Text) :
    (tokensFrom p (.char c :: t)) = tokensFrom (p.step (.char c)) t := by
  have hslash : c ≠ '/' := by
    rintro rfl
    cases h
  have hsplit : splitTrivia .blank (.char c :: t)
      = (.char c :: (splitTrivia .blank t).1, (splitTrivia .blank t).2) := by
    rw [splitTrivia_step fun hc => absurd hc hslash, if_pos h]
  rw [tokensFrom.eq_def, tokensFrom.eq_def (p.step (.char c)) t, hsplit]
  rfl

theorem reads_space {level : Bool} {next : List Char} : Reads level level [' '] [] next where
  clean := by decide
  legal := by simp
  tokens := by
    intro p x K hx hK
    show After [] K x (tokensFrom p (.char ' ' :: Text.ofChars next)).1
    rw [tokensFrom_blank rfl]
    exact hK _ x hx

theorem reads_newline {level : Bool} {next : List Char} : Reads level false ['\n'] [] next where
  clean := by decide
  legal := by simp
  tokens := by
    intro p x K hx hK
    show After [] K x (tokensFrom p (.char '\n' :: Text.ofChars next)).1
    rw [tokensFrom_blank rfl]
    exact hK _ x nofun

theorem reads_spaces {level : Bool} {next : List Char} (n : Nat) :
    Reads level level (List.replicate n ' ') [] next := by
  induction n with
  | zero => exact .nil
  | succ n ih => exact reads_space.append ih

/-! ### One word -/

theorem advance_line {cs : List Char} (h : '\n' ∉ cs) (p : Cursor) :
    (p.advance (.ofChars cs)).line = p.line := by
  induction cs generalizing p with
  | nil => rfl
  | cons c cs ih =>
    rw [List.mem_cons, not_or] at h
    show ((p.step (.char c)).advance (.ofChars cs)).line = p.line
    rw [ih h.2, Cursor.step, if_neg (by intro heq; cases heq; exact h.1 rfl)]

/-- A word that the lexer takes for itself is read as itself. -/
theorem reads_word {c : Char} {cs next : List Char} {w : Word} {level level' : Bool}
    (htext : w.text = String.ofList (c :: cs)) (hclean : '\x00' ∉ c :: cs)
    (hlegal : w.kind ≠ .illegal) (hparen : w.kind = .lparen → level = true)
    (hline : level' = true → '\n' ∉ c :: cs) (hblank : isBlank c = false)
    (hslash : c = '/' → (cs ++ next).head? ≠ some '/' ∧ (cs ++ next).head? ≠ some '*')
    (hlexeme : lexeme (.char c) (.ofChars (cs ++ next))
      = ⟨w.kind, .ofChars (c :: cs), w.value, cs.length⟩) :
    Reads level level' (c :: cs) [w] next where
  clean := hclean
  legal := by simpa using hlegal
  tokens := by
    intro p x K hx hK
    have hsplit : splitTrivia .blank (.ofChars (c :: cs ++ next))
        = ([], .char c :: Text.ofChars (cs ++ next)) := by
      show splitTrivia .blank (.char c :: Text.ofChars (cs ++ next)) = _
      rw [splitTrivia_step, if_neg (by rw [hblank]; decide)]
      intro hc
      have hhead : (Text.ofChars (cs ++ next)).head? = ((cs ++ next).head?).map .char :=
        List.head?_map
      rw [hhead]
      constructor <;> intro heq <;> obtain ⟨d, hd, hd'⟩ := Option.map_eq_some_iff.mp heq <;> cases hd'
      · exact (hslash hc).1 hd
      · exact (hslash hc).2 hd
    have htake : (Text.ofChars (cs ++ next)).take cs.length = Text.ofChars cs := by
      rw [Text.ofChars_append]
      exact List.take_left' (List.length_map _)
    have hdrop : (Text.ofChars (cs ++ next)).drop cs.length = Text.ofChars next := by
      rw [Text.ofChars_append]
      exact List.drop_left' (List.length_map _)
    have htokens : (tokensFrom p (.ofChars (c :: cs ++ next))).1
        = ⟨w.kind, .ofChars (c :: cs), some w.value, p.line, p.column, p.offset⟩
          :: (tokensFrom (p.advance (.ofChars (c :: cs))) (.ofChars next)).1 := by
      rw [tokensFrom.eq_def]
      dsimp only
      split
      · rename_i heq
        rw [hsplit] at heq
        cases heq
      · rename_i g rest heq
        rw [hsplit] at heq
        cases heq
        rw [hlexeme, hsplit, htake, hdrop]
        rfl
    rw [htokens]
    refine ⟨_, _, rfl, ⟨rfl, ?_, rfl⟩, fun hk => (hx (hparen hk)).symm, ?_⟩
    · show (Text.ofChars (c :: cs)).shown = w.text
      rw [Text.shown_ofChars, htext]
    · exact hK _ _ fun hl => (advance_line (hline hl) p).symm

/-! ### Symbols -/

/-- The word of an operator or a delimiter. -/
def Word.symbol (kind : TokenKind) (text : String) : Word := ⟨kind, text, .text text⟩

theorem reads_symbol {c : Char} {cs next : List Char} {kind : TokenKind} {level : Bool}
    (h : symbol? c (cs ++ next).head? ((cs ++ next).drop 1).head?
      = some (kind, String.ofList (c :: cs)))
    (hword : isBlank c = false ∧ '\x00' ∉ c :: cs ∧ '\n' ∉ c :: cs ∧ kind ≠ .illegal)
    (hparen : kind = .lparen → level = true)
    (hslash : c = '/' → (cs ++ next).head? ≠ some '/' ∧ (cs ++ next).head? ≠ some '*') :
    Reads level true (c :: cs) [.symbol kind (String.ofList (c :: cs))] next := by
  refine reads_word rfl hword.2.1 hword.2.2.2 hparen (fun _ => hword.2.2.1) hword.1 hslash ?_
  have hhead : (Text.ofChars (cs ++ next)).head?.map Glyph.shown = (cs ++ next).head? := by
    rw [Text.ofChars, List.head?_map, Option.map_map]
    exact Option.map_id_apply
  have hafter : ((Text.ofChars (cs ++ next)).drop 1).head?.map Glyph.shown
      = ((cs ++ next).drop 1).head? := by
    rw [Text.ofChars, ← List.map_drop, List.head?_map, Option.map_map]
    exact Option.map_id_apply
  have hlength : (String.ofList (c :: cs)).length - 1 = cs.length := by
    rw [String.length_ofList]
    rfl
  rw [lexeme.eq_def, hhead, hafter]
  dsimp only [Glyph.shown]
  rw [h]
  dsimp only
  rw [hlength, Text.ofString_eq, String.toList_ofList]
  rfl

/-! ### What ends a word -/

/-- Characters none of which continues a name or a number. -/
def delimiters : List Char :=
  [' ', '\n', '(', ')', '[', ']', '\x7b', '\x7d', ',', ':', ';', '<', '>', '|', '@']

/-- Whether what follows ends a name, a number or a sign: no letter, digit, underscore, quote or
equality sign follows, and no point that a digit follows. -/
def ended : List Char → Bool
  | [] => true
  | c :: cs => !continuesName c && c ≠ '"' && c ≠ '='
      && !(c = '.' && (cs.head?.map Decimal.isDigit).getD false)

theorem continuesName_delimiters : ∀ c ∈ delimiters, continuesName c = false :=
  forall_mem_of_all (by decide)

theorem ended_delimiter {c : Char} (h : c ∈ delimiters) (cs : List Char) : ended (c :: cs) = true := by
  have hquote : c ≠ '"' := by
    rintro rfl
    exact absurd h (by decide)
  have hdot : c ≠ '.' := by
    rintro rfl
    exact absurd h (by decide)
  have heq : c ≠ '=' := by
    rintro rfl
    exact absurd h (by decide)
  rw [ended, continuesName_delimiters c h]
  simp [hquote, hdot, heq]

theorem ended_dot {cs : List Char} (h : (cs.head?.map Decimal.isDigit).getD false = false) :
    ended ('.' :: cs) = true := by
  have hname : continuesName '.' = false := by decide
  rw [ended, hname, h]
  decide

theorem continuesName_of_ended {c : Char} {cs : List Char} (h : ended (c :: cs) = true) :
    continuesName c = false := by
  rw [ended] at h
  simp only [Bool.and_eq_true, Bool.not_eq_true'] at h
  exact h.1.1.1

theorem quote_of_ended {c : Char} {cs : List Char} (h : ended (c :: cs) = true) : c ≠ '"' := by
  rw [ended] at h
  simp only [Bool.and_eq_true, decide_eq_true_eq] at h
  exact h.1.1.2

theorem head?_ne_of_ended {next : List Char} (h : ended next = true) : next.head? ≠ some '=' := by
  cases next with
  | nil => nofun
  | cons c cs =>
    rw [ended] at h
    simp only [Bool.and_eq_true, decide_eq_true_eq] at h
    rintro ⟨⟩
    exact h.1.2 rfl

theorem continuesNumber_of_ended {c : Char} {cs : List Char} (h : ended (c :: cs) = true) :
    continuesNumber c = false := by
  have hname := continuesName_of_ended h
  rw [continuesName, Bool.or_eq_false_iff, startsName, Bool.or_eq_false_iff] at hname
  rw [continuesNumber, hname.2, Bool.false_or]
  exact hname.1.1

/-- The longest piece of characters with a property, up to where none has it. -/
theorem spanOf_ofChars {p : Char → Bool} {cs next : List Char} (h : ∀ c ∈ cs, p c = true)
    (hnext : ∀ c ∈ next.head?, p c = false) :
    spanOf p (.ofChars (cs ++ next)) = .ofChars cs := by
  induction cs with
  | nil =>
    cases next with
    | nil => rfl
    | cons c next =>
      have hc : p c = false := hnext c rfl
      show (List.takeWhile _ (Glyph.char c :: Text.ofChars next)) = _
      rw [List.takeWhile_cons_of_neg (by rw [Glyph.shown, hc]; decide)]
      rfl
  | cons c cs ih =>
    have hc : p c = true := h c List.mem_cons_self
    show (List.takeWhile _ (Glyph.char c :: Text.ofChars (cs ++ next))) = _
    rw [List.takeWhile_cons_of_pos (by rw [Glyph.shown, hc])]
    exact congrArg _ (ih fun d hd => h d (List.mem_cons_of_mem c hd))

/-! ### Names -/

/-- The word of a name, of a keyword or of a lone underscore. -/
def Word.name (n : String) : Word :=
  ⟨TokenKind.ofName n.toList, n, nameValue (TokenKind.ofName n.toList) n⟩

/-- Whether a text has the form of a name. -/
def spellsName (n : String) : Bool :=
  match n.toList with
  | [] => false
  | c :: cs => startsName c && cs.all continuesName

theorem ofName_kind (cs : List Char) :
    TokenKind.ofName cs ≠ .illegal ∧ TokenKind.ofName cs ≠ .lparen := by
  rw [TokenKind.ofName.eq_def]
  split
  · rename_i k hk
    rw [TokenKind.keyword?.eq_def] at hk
    split at hk <;> cases hk <;> decide
  · split
    · decide
    · split <;> decide
    · decide

theorem symbol?_of_startsName {c : Char} (h : startsName c = true) (next after : Option Char) :
    symbol? c next after = none := by
  have hsymbols : ∀ d ∈ "=+-*/%!<>&|.@,:;()\x7b\x7d[]".toList, startsName d = false :=
    forall_mem_of_all (by decide)
  rw [symbol?.eq_def]
  split
  case h_23 => rfl
  all_goals
    rw [hsymbols _ (by decide)] at h
    cases h

/-- A name is read as a name, unless it is the start of a regex. -/
theorem lexeme_of_startsName {c : Char} {rest : Text} (hc : startsName c = true)
    (hregex : ∀ body, c = 'r' → rest ≠ .char '"' :: body) :
    lexeme (.char c) rest = nameLexeme (.char c) rest := by
  have hsymbol : ∀ next after, symbol? (Glyph.char c).shown next after = none :=
    symbol?_of_startsName hc
  rw [lexeme.eq_def, hsymbol]
  dsimp only
  split
  · rename_i heq
    cases heq
    exact absurd hc (by decide)
  · rename_i heq
    cases heq
    exact absurd rfl (hregex _ rfl)
  · exact if_pos hc

/-- The characters of a name are a name wherever it ends. -/
theorem lexeme_name {n : String} {c : Char} {cs next : List Char} (hn : n.toList = c :: cs)
    (hc : startsName c = true) (hcs : ∀ d ∈ c :: cs, continuesName d = true)
    (hnext : ended next = true) :
    lexeme (.char c) (.ofChars (cs ++ next))
      = ⟨(Word.name n).kind, .ofChars (c :: cs), (Word.name n).value, cs.length⟩ := by
  have hspan : spanOf continuesName (.ofChars (cs ++ next)) = .ofChars cs := by
    refine spanOf_ofChars (fun d hd => hcs d (List.mem_cons_of_mem c hd)) fun d hd => ?_
    cases next with
    | nil => cases hd
    | cons e next =>
      cases hd
      exact continuesName_of_ended hnext
  -- an `r` in front of a quote would start a regex
  have hregex : ∀ body, c = 'r' → (Text.ofChars (cs ++ next)) ≠ .char '"' :: body := by
    intro body _ heq
    cases cs with
    | nil =>
      cases next with
      | nil => cases heq
      | cons e next =>
        cases heq
        exact quote_of_ended hnext rfl
    | cons e cs =>
      cases heq
      exact absurd (hcs '"' (List.mem_cons_of_mem _ List.mem_cons_self)) (by decide)
  have hshown : Text.shown (.char c :: Text.ofChars cs) = n := by
    show (Text.ofChars (c :: cs)).shown = n
    rw [Text.shown_ofChars, ← hn, String.ofList_toList]
  have hchars : Text.chars (.char c :: Text.ofChars cs) = n.toList := by
    rw [← hshown, Text.shown, String.toList_ofList]
  rw [lexeme_of_startsName hc hregex, nameLexeme, hspan]
  simp only [hshown, hchars, Word.name]
  rw [Text.ofChars, Text.ofChars, List.length_map]
  rfl

theorem reads_name {n : String} {next : List Char} {level : Bool} (h : spellsName n = true)
    (hnext : ended next = true) : Reads level true n.toList [.name n] next := by
  rw [spellsName] at h
  cases hn : n.toList with
  | nil =>
    rw [hn] at h
    cases h
  | cons c cs =>
    rw [hn] at h
    simp only [Bool.and_eq_true, List.all_eq_true] at h
    obtain ⟨hc, hcs⟩ := h
    have hall : ∀ d ∈ c :: cs, continuesName d = true := by
      intro d hd
      rcases List.mem_cons.mp hd with rfl | hd
      · rw [continuesName, hc, Bool.true_or]
      · exact hcs d hd
    have hnot : ∀ d, continuesName d = false → d ∉ c :: cs := by
      intro d hd hmem
      rw [hall d hmem] at hd
      cases hd
    have hstart : ∀ d, startsName d = false → c ≠ d := by
      rintro d hd rfl
      rw [hc] at hd
      cases hd
    have hblank : isBlank c = false := by
      rw [isBlank]
      simp [hstart ' ' (by decide), hstart '\t' (by decide),
        hstart '\n' (by decide), hstart '\r' (by decide)]
    have hslash : c ≠ '/' := hstart '/' (by decide)
    refine reads_word ?_ (hnot _ (by decide)) (ofName_kind _).1
      (fun hk => absurd hk (ofName_kind _).2) (fun _ => hnot _ (by decide)) hblank
      (fun hs => absurd hs hslash) (lexeme_name hn hc hall hnext)
    show n = _
    rw [← hn, String.ofList_toList]

/-! ### Numbers -/

theorem symbol?_of_isDigit {c : Char} (h : Decimal.isDigit c = true) (next after : Option Char) :
    symbol? c next after = none := by
  have hsymbols : ∀ d ∈ "=+-*/%!<>&|.@,:;()\x7b\x7d[]".toList, Decimal.isDigit d = false :=
    forall_mem_of_all (by decide)
  rw [symbol?.eq_def]
  split
  case h_23 => rfl
  all_goals
    rw [hsymbols _ (by decide)] at h
    cases h

/-- The ten digits. -/
theorem mem_of_isDigit {c : Char} (h : Decimal.isDigit c = true) : c ∈ "0123456789".toList := by
  rw [Decimal.isDigit, Bool.and_eq_true, decide_eq_true_eq, decide_eq_true_eq] at h
  have hlow : 48 ≤ c.toNat := h.1
  have hhigh : c.toNat ≤ 57 := h.2
  have hchar : ∀ d : Char, c.toNat = d.toNat → c = d := fun d hd => Char.toNat_inj.mp hd
  have hcases : c.toNat = 48 ∨ c.toNat = 49 ∨ c.toNat = 50 ∨ c.toNat = 51 ∨ c.toNat = 52 ∨
      c.toNat = 53 ∨ c.toNat = 54 ∨ c.toNat = 55 ∨ c.toNat = 56 ∨ c.toNat = 57 := by omega
  rcases hcases with h | h | h | h | h | h | h | h | h | h
  · rw [hchar '0' h]; decide
  · rw [hchar '1' h]; decide
  · rw [hchar '2' h]; decide
  · rw [hchar '3' h]; decide
  · rw [hchar '4' h]; decide
  · rw [hchar '5' h]; decide
  · rw [hchar '6' h]; decide
  · rw [hchar '7' h]; decide
  · rw [hchar '8' h]; decide
  · rw [hchar '9' h]; decide

/-- A digit starts no name and is no blank. -/
theorem startsName_of_isDigit {c : Char} (h : Decimal.isDigit c = true) :
    startsName c = false ∧ isBlank c = false := by
  have hall : ∀ d ∈ "0123456789".toList, startsName d = false ∧ isBlank d = false :=
    forall_mem_of_all (by decide)
  exact hall c (mem_of_isDigit h)

theorem lexeme_of_isDigit {c : Char} {rest : Text} (hc : Decimal.isDigit c = true) :
    lexeme (.char c) rest = number (.char c) rest := by
  have hsymbol : ∀ next after, symbol? (Glyph.char c).shown next after = none :=
    symbol?_of_isDigit hc
  rw [lexeme.eq_def, hsymbol]
  dsimp only
  split
  · rename_i heq
    cases heq
    exact absurd hc (by decide)
  · rename_i heq
    cases heq
    exact absurd hc (by decide)
  · have hname : startsName (Glyph.char c).shown = false := (startsName_of_isDigit hc).1
    rw [hname]
    exact if_pos hc

theorem filter_digits {cs : List Char} (h : ∀ c ∈ cs, Decimal.isDigit c = true) :
    (Text.ofChars cs).chars.filter Decimal.isDigit = cs := by
  have hchars : (Text.ofChars cs).chars = cs := by
    rw [Text.chars, Text.ofChars, List.map_map]
    exact List.map_id cs
  rw [hchars]
  exact List.filter_eq_self.mpr h

theorem spanOf_digits {cs next : List Char} (h : ∀ c ∈ cs, Decimal.isDigit c = true)
    (hnext : ended next = true) : spanOf continuesNumber (.ofChars (cs ++ next)) = .ofChars cs := by
  refine spanOf_ofChars (fun d hd => ?_) fun d hd => ?_
  · rw [continuesNumber, h d hd, Bool.true_or]
  · cases next with
    | nil => cases hd
    | cons e next =>
      cases hd
      exact continuesNumber_of_ended hnext

/-- Digits that nothing continues are an integer. -/
theorem number_int {c : Char} {cs next : List Char} {n : Nat}
    (hdigits : ∀ d ∈ c :: cs, Decimal.isDigit d = true) (hvalue : Decimal.value (c :: cs) = n)
    (hn : n < 2 ^ 63) (hnext : ended next = true) :
    number (.char c) (.ofChars (cs ++ next)) = ⟨.int, .ofChars (c :: cs), .int n, cs.length⟩ := by
  have hfits : fitsInt64 (n : Int) = true := by
    rw [fitsInt64, Bool.and_eq_true, decide_eq_true_eq, decide_eq_true_eq]
    omega
  unfold number
  extract_lets whole after fraction slice clean m value
  have hwhole : whole = .ofChars cs :=
    spanOf_digits (fun d hd => hdigits d (List.mem_cons_of_mem c hd)) hnext
  have hafter : after = Text.ofChars next := by
    simp only [after, hwhole, Text.ofChars_append, List.drop_left]
  have hfraction : fraction = [] := by
    simp only [fraction, hafter]
    split
    · rename_i d more heq
      obtain ⟨e, next, rfl⟩ : ∃ e next', next = e :: next' := by
        cases next with
        | nil => cases heq
        | cons e next => exact ⟨e, next, rfl⟩
      cases next with
      | nil => cases heq
      | cons f next =>
        cases heq
        rw [ended] at hnext
        simp only [Bool.and_eq_true, Bool.not_eq_true'] at hnext
        have hdigit : Decimal.isDigit f = false := by simpa using hnext.2
        exact if_neg (by rw [Glyph.shown, hdigit]; decide)
    · rfl
  have hslice : slice = .ofChars (c :: cs) := by
    simp only [slice, hwhole, hfraction, List.append_nil]
    rfl
  have hm : m = n := by
    simp only [m, clean, hslice]
    rw [filter_digits hdigits, hvalue]
  have hv : value = some (.int, .int n) := by
    simp only [value, hfraction, hm, hfits, List.isEmpty_nil, if_true]
  rw [hv, hslice, hwhole, hfraction, Text.length_ofChars]
  rfl

/-- The word of an integer. -/
def Word.int (n : Nat) : Word := ⟨.int, String.ofList (Decimal.digits n), .int n⟩

theorem reads_int {n : Nat} {next : List Char} {level : Bool} (h : n < 2 ^ 63)
    (hnext : ended next = true) :
    Reads level true (Decimal.digits n) [.int n] next := by
  have hdigits : ∀ c ∈ Decimal.digits n, Decimal.isDigit c = true := Decimal.isDigit_of_mem_digits
  have hvalue := Decimal.value_digits n
  cases hn : Decimal.digits n with
  | nil => exact absurd hn (Decimal.digits_ne_nil n)
  | cons c cs =>
    rw [hn] at hdigits hvalue
    have hc : Decimal.isDigit c = true := hdigits c List.mem_cons_self
    have hnot : ∀ d, Decimal.isDigit d = false → d ∉ c :: cs := by
      intro d hd hmem
      rw [hdigits d hmem] at hd
      cases hd
    refine reads_word (by rw [Word.int, hn]) (hnot _ (by decide)) nofun nofun
      (fun _ => hnot _ (by decide)) (startsName_of_isDigit hc).2 ?_ ?_
    · rintro rfl
      exact absurd hc (by decide)
    · rw [lexeme_of_isDigit hc, number_int hdigits hvalue h hnext]
      rfl

/-- A float literal is written with digits before and after a point. -/
theorem sourceDouble_eq {d : Double} (h : d.negative = false) :
    ∃ c whole e fraction, sourceDouble d = String.ofList (c :: (whole ++ '.' :: e :: fraction)) ∧
      (∀ x ∈ c :: whole ++ e :: fraction, Decimal.isDigit x = true) ∧
      pointed (c :: whole) (e :: fraction) = d.shortest.size := by
  obtain ⟨whole, fraction, htext, hwhole, hdigits, hsize⟩ := d.shortest.positional_eq
  obtain ⟨c, whole, rfl⟩ := hwhole.exists_cons
  have hpositional : d.positional = String.ofList d.shortest.positional := by
    rw [Double.positional, Double.sign, h]
    rfl
  rw [sourceDouble, hpositional, String.toList_ofList, htext]
  cases fraction with
  | nil =>
    rw [List.append_nil] at hdigits
    have hdot : '.' ∉ c :: whole := fun hmem => absurd (hdigits '.' hmem) (by decide)
    refine ⟨c, whole, '0', [], ?_, ?_, ?_⟩
    · rw [if_pos rfl, if_neg (by simpa using hdot), ← List.cons_append, String.ofList_append]
    · exact List.forall_mem_append.mpr ⟨hdigits, forall_mem_of_all (by decide)⟩
    · have hvalue : Decimal.value (c :: whole ++ ['0']) = Decimal.value (c :: whole) * 10 := by
        rw [Decimal.value_append_singleton, mul_comm]
        rfl
      rw [← hsize, pointed, pointed, hvalue, List.append_nil]
      norm_num
      ring
  | cons e fraction =>
    refine ⟨c, whole, e, fraction, ?_, hdigits, hsize⟩
    rw [if_neg (List.cons_ne_nil e fraction), if_pos (by simp), List.cons_append]

/-- Digits with a point between them are a float. -/
theorem number_float {c e : Char} {whole tail next : List Char} {d : Double}
    (hdigits : ∀ x ∈ c :: whole ++ e :: tail, Decimal.isDigit x = true)
    (hdouble : Double.ofDecimal false (Decimal.value (c :: whole ++ e :: tail))
      (-((e :: tail).length : Int)) = some d) (hnext : ended next = true) :
    number (.char c) (.ofChars (whole ++ '.' :: e :: (tail ++ next)))
      = ⟨.float, .ofChars (c :: (whole ++ '.' :: e :: tail)), .float d,
        (whole ++ '.' :: e :: tail).length⟩ := by
  have he : Decimal.isDigit e = true := hdigits e (by simp)
  unfold number
  extract_lets front after fraction slice clean m value
  have hfront : front = .ofChars whole := by
    refine spanOf_ofChars (fun x hx => ?_) fun x hx => ?_
    · rw [continuesNumber, hdigits x (by simp [hx]), Bool.true_or]
    · cases hx
      decide
  have hafter : after = Text.ofChars ('.' :: e :: (tail ++ next)) := by
    simp only [after, hfront, Text.ofChars_append, List.drop_left]
  have hfraction : fraction = Text.ofChars ('.' :: e :: tail) := by
    simp only [fraction, hafter]
    show (if Decimal.isDigit e = true then
      .char '.' :: .char e :: spanOf continuesNumber (.ofChars (tail ++ next)) else []) = _
    rw [if_pos he, spanOf_digits (fun x hx => hdigits x (by simp [hx])) hnext]
    rfl
  have hslice : slice = .ofChars (c :: (whole ++ '.' :: e :: tail)) := by
    simp only [slice, hfront, hfraction]
    show Text.ofChars (c :: whole) ++ Text.ofChars ('.' :: e :: tail) = _
    rw [← Text.ofChars_append]
    rfl
  have hclean : ∀ cs, clean (.ofChars cs) = cs.filter Decimal.isDigit := by
    intro cs
    simp only [clean]
    rw [Text.chars, Text.ofChars, List.map_map]
    exact congrArg _ (List.map_id cs)
  have hfirst : (c :: whole).filter Decimal.isDigit = c :: whole :=
    List.filter_eq_self.mpr fun x hx => hdigits x (List.mem_append_left _ hx)
  have hlast : ('.' :: e :: tail).filter Decimal.isDigit = e :: tail := by
    rw [List.filter_cons_of_neg (by decide)]
    exact List.filter_eq_self.mpr fun x hx => hdigits x (List.mem_append_right _ hx)
  have hallclean : clean slice = c :: whole ++ e :: tail := by
    rw [hslice, hclean, ← List.cons_append, List.filter_append, hfirst, hlast]
  have hfractionclean : clean fraction = e :: tail := by
    rw [hfraction, hclean, hlast]
  have hv : value = some (.float, .float d) := by
    simp only [value, hallclean, hfractionclean, hdouble]
    rw [hfraction]
    rfl
  rw [hv, hslice, hfront, hfraction, Text.length_ofChars, Text.length_ofChars]
  show Lexeme.mk _ _ _ _ = _
  rw [List.length_append]

/-- The word of a float. -/
def Word.float (d : Double) : Word := ⟨.float, sourceDouble d, .float d⟩

theorem reads_float {d : Double} {next : List Char} {level : Bool} (hd : d.Canonical)
    (hsign : d.negative = false) (hnext : ended next = true) :
    Reads level true (sourceDouble d).toList [.float d] next := by
  obtain ⟨c, whole, e, tail, htext, hdigits, hsize⟩ := sourceDouble_eq hsign
  rw [htext, String.toList_ofList]
  have hc : Decimal.isDigit c = true := hdigits c (by simp)
  have hnot : ∀ x, Decimal.isDigit x = false → x ≠ '.' → x ∉ c :: (whole ++ '.' :: e :: tail) := by
    intro x hx hdot hmem
    have hmem : x ∈ c :: whole ++ e :: tail := by simpa [hdot] using hmem
    rw [hdigits x hmem] at hx
    cases hx
  refine reads_word htext (hnot _ (by decide) (by decide)) nofun nofun
    (fun _ => hnot _ (by decide) (by decide)) (startsName_of_isDigit hc).2 ?_ ?_
  · rintro rfl
    exact absurd hc (by decide)
  · have hrest : whole ++ '.' :: e :: tail ++ next = whole ++ '.' :: e :: (tail ++ next) := by simp
    have hdouble := Double.ofDecimal_of_size hd hsize
    rw [hsign] at hdouble
    rw [lexeme_of_isDigit hc, hrest, number_float hdigits hdouble hnext]
    rfl

/-! ### Quoted literals -/

/-- The word of a string. -/
def Word.string (s : String) : Word := ⟨.string, sourceString s, .text s⟩

theorem stringBody_escaped (cs next : List Char) :
    stringBody (.ofChars (cs.flatMap sourceEscape ++ '"' :: next))
      = ⟨cs, (cs.flatMap sourceEscape).length + 1, true⟩ := by
  induction cs with
  | nil => rfl
  | cons c cs ih =>
    have hescaped : ∀ d, unescape d = c → sourceEscape c = ['\\', d] →
        stringBody (.ofChars ((c :: cs).flatMap sourceEscape ++ '"' :: next))
          = ⟨c :: cs, ((c :: cs).flatMap sourceEscape).length + 1, true⟩ := by
      intro d hd hc
      rw [List.flatMap_cons, hc]
      show stringBody (.char '\\' :: .char d :: Text.ofChars (cs.flatMap sourceEscape ++ '"' :: next))
        = _
      rw [stringBody, ih, Glyph.shown, hd, QuotedBody.push]
      simp only [List.length_append, List.length_cons, List.length_nil, QuotedBody.mk.injEq, true_and,
        and_true]
      omega
    by_cases h1 : c = '\\'
    · subst h1
      exact hescaped '\\' (by decide) (by decide)
    by_cases h2 : c = '"'
    · subst h2
      exact hescaped '"' (by decide) (by decide)
    by_cases h3 : c = '\n'
    · subst h3
      exact hescaped 'n' (by decide) (by decide)
    by_cases h4 : c = '\t'
    · subst h4
      exact hescaped 't' (by decide) (by decide)
    by_cases h5 : c = '\r'
    · subst h5
      exact hescaped 'r' (by decide) (by decide)
    by_cases h6 : c = '\x00'
    · subst h6
      exact hescaped '0' (by decide) (by decide)
    have hc : sourceEscape c = [c] := by
      simp only [sourceEscape, h1, h2, h3, h4, h5, h6, if_false]
    rw [List.flatMap_cons, hc]
    show stringBody (.char c :: Text.ofChars (cs.flatMap sourceEscape ++ '"' :: next)) = _
    rw [stringBody, ih, QuotedBody.push]
    · simp only [List.length_append, List.length_cons, List.length_nil, QuotedBody.mk.injEq,
        Glyph.shown, true_and, and_true]
      omega
    · intro heq
      cases heq
      exact h2 rfl
    · intro heq _
      cases heq
      exact h1 rfl
    · intro g rest heq
      cases heq
      exact absurd rfl h1

/-- What is escaped does not stand in a string literal. -/
theorem not_mem_sourceEscape {x : Char} (hx : x = '\n' ∨ x = '\x00') (c : Char) :
    x ∉ sourceEscape c := by
  rcases hx with rfl | rfl <;> unfold sourceEscape <;>
    (repeat' split) <;> simp_all [eq_comm]

theorem reads_string {s : String} {next : List Char} {level : Bool} :
    Reads level true (sourceString s).toList [.string s] next := by
  have htext : (sourceString s).toList = '"' :: (s.toList.flatMap sourceEscape ++ ['"']) := by
    rw [sourceString, String.toList_ofList]
    rfl
  have hnot : ∀ x, x = '\n' ∨ x = '\x00' → x ∉ '"' :: (s.toList.flatMap sourceEscape ++ ['"']) := by
    intro x hx hmem
    simp only [List.mem_cons, List.mem_append, List.mem_flatMap, List.not_mem_nil, or_false] at hmem
    rcases hmem with rfl | ⟨c, -, hc⟩ | rfl
    · revert hx
      decide
    · exact not_mem_sourceEscape hx c hc
    · revert hx
      decide
  rw [htext]
  refine reads_word ?_ (hnot _ (.inr rfl)) nofun nofun (fun _ => hnot _ (.inl rfl)) (by decide)
    nofun ?_
  · show sourceString s = _
    rw [← htext, String.ofList_toList]
  · have hrest : s.toList.flatMap sourceEscape ++ ['"'] ++ next
        = s.toList.flatMap sourceEscape ++ '"' :: next := by simp
    have htake : (Text.ofChars (s.toList.flatMap sourceEscape ++ '"' :: next)).take
        ((s.toList.flatMap sourceEscape).length + 1)
        = Text.ofChars (s.toList.flatMap sourceEscape ++ ['"']) := by
      rw [← hrest, Text.ofChars_append]
      exact List.take_left' (by rw [Text.length_ofChars, List.length_append]; rfl)
    rw [hrest]
    show quotedLexeme .string [.char '"'] (.ofChars _) (stringBody (.ofChars _)) = _
    rw [stringBody_escaped, quotedLexeme]
    dsimp only
    rw [htake, String.ofList_toList, List.length_append]
    have hextra : [Glyph.char '"'].length - 1 + ((s.toList.flatMap sourceEscape).length + 1)
        = (s.toList.flatMap sourceEscape).length + ['"'].length := Nat.zero_add _
    rw [if_pos rfl, hextra]
    rfl

/-- The word of a regex. -/
def Word.regex (s : String) : Word := ⟨.regex, sourceRegex s, .text s⟩

/-- One character of a regex literal. -/
def regexEscape (c : Char) : List Char := if c = '"' then ['\\', '"'] else [c]

theorem regexBody_escaped {cs : List Char} (h : cs.getLast? ≠ some '\\') (next : List Char) :
    regexBody (.ofChars (cs.flatMap regexEscape ++ '"' :: next))
      = ⟨cs, (cs.flatMap regexEscape).length + 1, true⟩ := by
  induction cs with
  | nil => rfl
  | cons c cs ih =>
    have hlast : cs.getLast? ≠ some '\\' := by
      cases cs with
      | nil => simp
      | cons d cs => rwa [List.getLast?_cons_cons] at h
    have ih := ih hlast
    rw [List.flatMap_cons, regexEscape]
    split
    · rename_i hc
      show regexBody (.char '\\' :: .char '"' :: Text.ofChars (cs.flatMap regexEscape ++ '"' :: next))
        = _
      rw [regexBody, ih, QuotedBody.push, hc]
      simp only [List.length_append, List.length_cons, List.length_nil, QuotedBody.mk.injEq, true_and,
        and_true]
      omega
    · rename_i hc
      show regexBody (.char c :: Text.ofChars (cs.flatMap regexEscape ++ '"' :: next)) = _
      rw [regexBody, ih, QuotedBody.push]
      · simp only [List.length_append, List.length_cons, List.length_nil, QuotedBody.mk.injEq,
          Glyph.shown, true_and, and_true]
        omega
      · intro heq
        cases heq
        exact hc rfl
      · -- a backslash is not the last character, and a quote after it is escaped
        intro rest hback hrest
        cases hback
        cases cs with
        | nil => exact h rfl
        | cons d cs =>
          rw [List.flatMap_cons, regexEscape] at hrest
          split at hrest
          · cases hrest
          · rename_i hd
            cases hrest
            exact hd rfl

theorem reads_regex {s : String} {next : List Char} {level : Bool} (hclean : '\x00' ∉ s.toList)
    (hlast : s.toList.getLast? ≠ some '\\') :
    Reads level false (sourceRegex s).toList [.regex s] next := by
  have htext : (sourceRegex s).toList = 'r' :: ('"' :: (s.toList.flatMap regexEscape ++ ['"'])) := by
    rw [sourceRegex, String.toList_ofList]
    rfl
  rw [htext]
  refine reads_word ?_ ?_ nofun nofun nofun (by decide) nofun ?_
  · show sourceRegex s = _
    rw [← htext, String.ofList_toList]
  · simp only [List.mem_cons, List.mem_append, List.mem_flatMap, List.not_mem_nil, or_false, not_or]
    refine ⟨by decide, by decide, ?_, by decide⟩
    rintro ⟨c, hc, hmem⟩
    unfold regexEscape at hmem
    split at hmem
    · exact absurd hmem (by decide)
    · rw [List.mem_singleton.mp hmem] at hclean
      exact hclean hc
  · have hrest : '"' :: (s.toList.flatMap regexEscape ++ ['"']) ++ next
        = '"' :: (s.toList.flatMap regexEscape ++ '"' :: next) := by simp
    have htake : (Text.ofChars (s.toList.flatMap regexEscape ++ '"' :: next)).take
        ((s.toList.flatMap regexEscape).length + 1)
        = Text.ofChars (s.toList.flatMap regexEscape ++ ['"']) := by
      have hsplit : s.toList.flatMap regexEscape ++ '"' :: next
          = s.toList.flatMap regexEscape ++ ['"'] ++ next := by simp
      rw [hsplit, Text.ofChars_append]
      exact List.take_left' (by rw [Text.length_ofChars, List.length_append]; rfl)
    rw [hrest]
    show quotedLexeme .regex [.char 'r', .char '"'] (.ofChars _) (regexBody (.ofChars _)) = _
    rw [regexBody_escaped hlast, quotedLexeme]
    dsimp only
    have hlength : ('"' :: (s.toList.flatMap regexEscape ++ ['"'])).length
        = (s.toList.flatMap regexEscape).length + 2 := by simp
    have hextra : [Glyph.char 'r', Glyph.char '"'].length - 1
        + ((s.toList.flatMap regexEscape).length + 1)
        = (s.toList.flatMap regexEscape).length + 2 := Nat.add_comm _ _
    rw [htake, String.ofList_toList, hlength, if_pos rfl, hextra]
    rfl

end PatternPlan
