import PatternPlan.Source.Lexer

/-!
# Names

* `isIdentifier` — the texts that the lexer reads as names;
* `not_mem_of_isIdentifier` — **no delimiter of a label stands in a name**: a name has no vertical
  bar, so that a label can be taken apart again;
* `Token.HasName`, `hasName_of_mem_lex` — the tokens of a source that are names have a name for
  their text.
-/

namespace PatternPlan

/-- A text that is read as a name: a letter or an underscore, then letters, digits and underscores,
and neither a keyword nor the lone underscore. -/
def isIdentifier (name : String) : Bool :=
  match name.toList with
  | [] => false
  | c :: cs => startsName c && cs.all continuesName
      && (TokenKind.ofName (c :: cs) = .lower || TokenKind.ofName (c :: cs) = .upper)

theorem continuesName_bar : continuesName '|' = false := by decide

theorem toList_ne_nil_of_isIdentifier {name : String} (h : isIdentifier name = true) :
    name.toList ≠ [] := by
  intro hnil
  rw [isIdentifier, hnil] at h
  cases h

theorem not_mem_of_isIdentifier {name : String} (h : isIdentifier name = true) :
    '|' ∉ name.toList := by
  intro hmem
  rw [isIdentifier] at h
  split at h
  · cases h
  · rename_i c cs heq
    rw [Bool.and_eq_true, Bool.and_eq_true] at h
    rw [heq] at hmem
    have hcont : continuesName '|' = true := by
      rcases List.mem_cons.mp hmem with rfl | hmem
      · rw [continuesName, h.1.1, Bool.true_or]
      · exact List.all_eq_true.mp h.1.2 _ hmem
    rw [continuesName_bar] at hcont
    cases hcont

theorem ne_underscore_of_isIdentifier {name : String} (h : isIdentifier name = true) :
    name.toList ≠ ['_'] := by
  intro hname
  rw [isIdentifier, hname] at h
  exact absurd h (by decide)

theorem ne_empty_of_isIdentifier {name : String} (h : isIdentifier name = true) : name ≠ "" := by
  rintro rfl
  cases h

theorem append_ne_empty_right {a b : String} (h : b ≠ "") : a ++ b ≠ "" := by
  intro heq
  have hlist : a.toList ++ b.toList = [] := by
    rw [← String.toList_append, heq]
    rfl
  exact h (String.toList_eq_nil_iff.mp (List.append_eq_nil_iff.mp hlist).2)

theorem append_ne_empty_left {a b : String} (h : a ≠ "") : a ++ b ≠ "" := by
  intro heq
  have hlist : a.toList ++ b.toList = [] := by
    rw [← String.toList_append, heq]
    rfl
  exact h (String.toList_eq_nil_iff.mp (List.append_eq_nil_iff.mp hlist).1)

/-! ### The names of a source -/

/-- A token that is a name has a name for its text. -/
def Token.HasName (t : Token) : Prop :=
  t.kind = .lower ∨ t.kind = .upper → isIdentifier t.text = true

theorem symbol?_kind {c : Char} {next after : Option Char} {k : TokenKind} {s : String}
    (h : symbol? c next after = some (k, s)) : k ≠ .lower ∧ k ≠ .upper := by
  rw [symbol?.eq_def] at h
  split at h <;> (try split at h) <;> (try split at h) <;> cases h <;> decide

theorem quotedLexeme_kind {kind : TokenKind} {opening rest : Text} {body : QuotedBody}
    (h : kind ≠ .lower ∧ kind ≠ .upper) : (quotedLexeme kind opening rest body).kind ≠ .lower ∧
      (quotedLexeme kind opening rest body).kind ≠ .upper := by
  show (if body.closed then kind else .illegal) ≠ .lower ∧
    (if body.closed then kind else .illegal) ≠ .upper
  cases body.closed with
  | true => exact h
  | false => exact ⟨nofun, nofun⟩

theorem number_kind (g : Glyph) (rest : Text) :
    (number g rest).kind ≠ .lower ∧ (number g rest).kind ≠ .upper := by
  unfold number
  extract_lets whole after fraction slice clean n value
  have hvalue : ∀ k l, value = some (k, l) → k = .int ∨ k = .float := by
    intro k l h
    by_cases hempty : fraction.isEmpty = true
    · simp only [value, hempty, if_true] at h
      split at h
      · cases h
        exact .inl rfl
      · cases h
    · simp only [value, hempty, Bool.false_eq_true, if_false] at h
      obtain ⟨d, -, hd⟩ := Option.map_eq_some_iff.mp h
      cases hd
      exact .inr rfl
  cases hv : value with
  | none => exact ⟨nofun, nofun⟩
  | some e =>
    obtain ⟨k, l⟩ := e
    show k ≠ .lower ∧ k ≠ .upper
    rcases hvalue k l hv with rfl | rfl <;> decide

theorem isIdentifier_nameLexeme {g : Glyph} {rest : Text} (hg : startsName g.shown = true)
    (h : (nameLexeme g rest).kind = .lower ∨ (nameLexeme g rest).kind = .upper) :
    isIdentifier (nameLexeme g rest).slice.shown = true := by
  have hlist : (nameLexeme g rest).slice.shown.toList
      = g.shown :: (spanOf continuesName rest).chars := by
    rw [Text.shown, String.toList_ofList]
    rfl
  have hmore : (spanOf continuesName rest).chars.all continuesName = true := by
    rw [Text.chars, List.all_map]
    exact List.all_takeWhile
  have hkind : (nameLexeme g rest).kind
      = TokenKind.ofName (g.shown :: (spanOf continuesName rest).chars) := rfl
  rw [hkind] at h
  rw [isIdentifier, hlist]
  show (startsName g.shown && _ && _) = true
  rw [hg, hmore, Bool.true_and, Bool.true_and, Bool.or_eq_true, decide_eq_true_eq,
    decide_eq_true_eq]
  exact h

/-- Only names are read as names. -/
theorem isIdentifier_lexeme {g : Glyph} {rest : Text}
    (h : (lexeme g rest).kind = .lower ∨ (lexeme g rest).kind = .upper) :
    isIdentifier (lexeme g rest).slice.shown = true := by
  have hno : ∀ {k : TokenKind}, k ≠ .lower ∧ k ≠ .upper → ¬ (k = .lower ∨ k = .upper) := by
    rintro k ⟨hl, hu⟩ (h | h)
    · exact hl h
    · exact hu h
  generalize hl : lexeme g rest = l at h ⊢
  rw [lexeme.eq_def] at hl
  split at hl
  · rename_i kind s hsymbol
    subst hl
    exact absurd h (hno (symbol?_kind hsymbol))
  · split at hl
    · subst hl
      exact absurd h (hno (quotedLexeme_kind (by decide)))
    · subst hl
      exact absurd h (hno (quotedLexeme_kind (by decide)))
    · split at hl
      · rename_i hstart
        subst hl
        exact isIdentifier_nameLexeme hstart h
      · split at hl
        · subst hl
          exact absurd h (hno (number_kind _ _))
        · subst hl
          rcases h with h | h <;> cases h

theorem hasName_of_mem_tokensFrom (c : Cursor) (t : Text) :
    ∀ x ∈ (tokensFrom c t).1, x.HasName := by
  fun_induction tokensFrom c t with
  | case1 => simp
  | case2 c t trivia start g rest hsplit l token r ih =>
    intro x hx
    rcases List.mem_cons.mp hx with rfl | hx
    · exact isIdentifier_lexeme
    · exact ih x hx

/-- **The names of a source are names.** -/
theorem hasName_of_mem_lex (source : Text) : ∀ x ∈ (lex source).tokens, x.HasName :=
  hasName_of_mem_tokensFrom {} _

end PatternPlan
