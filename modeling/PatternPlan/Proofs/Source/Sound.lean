import PatternPlan.Proofs.Surface.Written

/-!
# The words of a source

Every token of a source stands for a word that can be written again.

* `Word.Sound` — a word whose text and value are those of its kind: names are names, numbers are in
  range and have no sign, regex literals end with their quote;
* `sound_lexeme` — one case for each way a lexeme can start;
* `sound_lex` — **the tokens of every source are sound**.
-/

namespace PatternPlan

/-- The kinds of the constants that are one token. -/
def TokenKind.constants : List TokenKind := [.int, .float, .string, .kwTrue, .kwFalse]

/-- The kinds whose text or value matters. -/
def TokenKind.carriers : List TokenKind := constants ++ [.lower, .upper, .regex]

/-- A word whose text and value are those of its kind. -/
structure Word.Sound (w : Word) : Prop where
  lower : w.kind = .lower → isLowerName w.text = true
  upper : w.kind = .upper → isUpperName w.text = true
  constant : w.kind ∈ TokenKind.constants → w.value.Unsigned ∧ w.value.isStart = true
  stop : w.kind ∈ [.int, .float, .string] → w.value.isStop = true
  regex : w.kind = .regex → ∃ s, w.value = .text s ∧ IsRegex s

theorem Word.Sound.of_kind {w : Word} (h : w.kind ∉ TokenKind.carriers) : w.Sound where
  lower hk := absurd (by rw [hk]; decide) h
  upper hk := absurd (by rw [hk]; decide) h
  constant hk := absurd (List.mem_append_left _ hk) h
  stop hk := absurd ((by decide : ∀ k ∈ [TokenKind.int, .float, .string], k ∈ TokenKind.carriers) _ hk) h
  regex hk := absurd (by rw [hk]; decide) h

/-! ### One case for each way a lexeme can start -/

/-- The word of a lexeme. -/
def Lexeme.word (l : Lexeme) : Word := ⟨l.kind, l.slice.shown, l.value⟩

theorem symbol?_carriers {c : Char} {next after : Option Char} {k : TokenKind} {s : String}
    (h : symbol? c next after = some (k, s)) : k ∉ TokenKind.carriers := by
  rw [symbol?.eq_def] at h
  split at h <;> (try split at h) <;> (try split at h) <;> cases h <;> decide

/-- A quoted literal that is not closed is illegal. -/
theorem quotedLexeme_kind_eq {kind : TokenKind} {opening rest : Text} {body : QuotedBody} :
    (quotedLexeme kind opening rest body).kind = if body.closed then kind else .illegal := rfl

theorem sound_string (opening rest : Text) (body : QuotedBody) :
    (quotedLexeme .string opening rest body).word.Sound := by
  cases hclosed : body.closed with
  | false =>
    refine .of_kind ?_
    show (quotedLexeme .string opening rest body).kind ∉ _
    rw [quotedLexeme_kind_eq, hclosed]
    decide
  | true =>
    have hkind : (quotedLexeme .string opening rest body).word.kind = .string := by
      show (quotedLexeme .string opening rest body).kind = _
      rw [quotedLexeme_kind_eq, hclosed]
      rfl
    refine ⟨?_, ?_, fun _ => ⟨trivial, rfl⟩, fun _ => rfl, ?_⟩ <;> rw [hkind] <;> nofun

/-- Only characters are shown as what is no replacement. -/
theorem eq_char_of_shown {g : Glyph} {c : Char} (h : g.shown = c) (hc : c ≠ Glyph.replacement) :
    g = .char c := by
  cases g with
  | char d => exact congrArg Glyph.char h
  | stray b => exact absurd h.symm hc

theorem regexBody_nil {t : Text} (h : (regexBody t).closed = true) (hnil : (regexBody t).chars = []) :
    ∃ rest, t = .char '"' :: rest := by
  revert h hnil
  fun_cases regexBody t with
  | case1 => exact fun h => nomatch h
  | case2 rest => exact fun _ _ => ⟨rest, rfl⟩
  | case3 rest => exact fun _ hnil => nomatch hnil
  | case4 g rest => exact fun _ hnil => nomatch hnil

theorem getLast?_cons_ne {c d : Char} {cs : List Char} (h : cs.getLast? ≠ some d)
    (hc : cs = [] → c ≠ d) : (c :: cs).getLast? ≠ some d := by
  cases cs with
  | nil =>
    intro heq
    exact hc rfl (Option.some.inj heq)
  | cons e cs =>
    rw [List.getLast?_cons_cons]
    exact h

/-- The characters of a closed regex literal end in no backslash: one before the quote would have
escaped it. -/
theorem regexBody_last {t : Text} (h : (regexBody t).closed = true) :
    (regexBody t).chars.getLast? ≠ some '\\' := by
  fun_induction regexBody t with
  | case1 => cases h
  | case2 => nofun
  | case3 rest ih => exact getLast?_cons_ne (ih h) fun _ => by decide
  | case4 g rest hquote hescape ih =>
    refine getLast?_cons_ne (ih h) fun hnil hc => ?_
    obtain ⟨more, rfl⟩ := regexBody_nil h hnil
    exact hescape more (eq_char_of_shown hc (by decide)) rfl

theorem regexBody_clean {t : Text} (h : .char '\x00' ∉ t) : '\x00' ∉ (regexBody t).chars := by
  fun_induction regexBody t with
  | case1 => nofun
  | case2 => nofun
  | case3 rest ih =>
    have hrest := ih fun hmem => h (List.mem_cons_of_mem _ (List.mem_cons_of_mem _ hmem))
    show '\x00' ∉ '"' :: (regexBody rest).chars
    rw [List.mem_cons, not_or]
    exact ⟨by decide, hrest⟩
  | case4 g rest _ _ ih =>
    have hrest := ih fun hmem => h (List.mem_cons_of_mem _ hmem)
    show '\x00' ∉ g.shown :: (regexBody rest).chars
    rw [List.mem_cons, not_or]
    refine ⟨fun hg => ?_, hrest⟩
    rw [eq_char_of_shown hg.symm (by decide)] at h
    exact h List.mem_cons_self

theorem sound_regex {opening body : Text} (h : .char '\x00' ∉ body) :
    (quotedLexeme .regex opening body (regexBody body)).word.Sound := by
  cases hclosed : (regexBody body).closed with
  | false =>
    refine .of_kind ?_
    show (quotedLexeme .regex opening body (regexBody body)).kind ∉ _
    rw [quotedLexeme_kind_eq, hclosed]
    decide
  | true =>
    have hkind : (quotedLexeme .regex opening body (regexBody body)).word.kind = .regex := by
      show (quotedLexeme .regex opening body (regexBody body)).kind = _
      rw [quotedLexeme_kind_eq, hclosed]
      rfl
    have hregex : IsRegex (String.ofList (regexBody body).chars) := by
      constructor
      · rw [String.toList_ofList]
        exact regexBody_clean h
      · rw [String.toList_ofList]
        exact regexBody_last hclosed
    refine ⟨?_, ?_, ?_, ?_, fun _ => ⟨_, rfl, hregex⟩⟩ <;> rw [hkind] <;> nofun

theorem ofName_words (cs : List Char) : TokenKind.ofName cs ∉ [.int, .float, .string, .regex] := by
  rw [TokenKind.ofName.eq_def]
  split
  · rename_i k hk
    rw [TokenKind.keyword?.eq_def] at hk
    split at hk <;> cases hk <;> decide
  · split
    · decide
    · split <;> decide
    · decide

theorem sound_word_name {n : String} (h : spellsName n = true) : (Word.name n).Sound := by
  have hother := ofName_words n.toList
  refine ⟨fun hk => ?_, fun hk => ?_, fun hk => ?_, fun hk => ?_, fun hk => ?_⟩
  · exact Bool.and_eq_true_iff.mpr ⟨h, decide_eq_true hk⟩
  · exact Bool.and_eq_true_iff.mpr ⟨h, decide_eq_true hk⟩
  · have hbool : TokenKind.ofName n.toList = .kwTrue ∨ TokenKind.ofName n.toList = .kwFalse := by
      have hmem : TokenKind.ofName n.toList ∈ TokenKind.constants := hk
      simp only [TokenKind.constants, List.mem_cons, List.not_mem_nil, or_false] at hmem hother
      rcases hmem with hint | hfloat | hstring | hbool
      · exact absurd (.inl hint) hother
      · exact absurd (.inr (.inl hfloat)) hother
      · exact absurd (.inr (.inr (.inl hstring))) hother
      · exact hbool
    show (nameValue (TokenKind.ofName n.toList) n).Unsigned ∧ _
    rcases hbool with hk | hk
    · rw [Word.name, hk]
      exact ⟨trivial, rfl⟩
    · rw [Word.name, hk]
      exact ⟨trivial, rfl⟩
  · have hsub : ∀ k ∈ [TokenKind.int, .float, .string], k ∈ [TokenKind.int, .float, .string, .regex] := by
      decide
    exact absurd (hsub _ hk) hother
  · refine absurd ?_ hother
    rw [show TokenKind.ofName n.toList = .regex from hk]
    decide

theorem sound_name {g : Glyph} {rest : Text} (hg : startsName g.shown = true) :
    (nameLexeme g rest).word.Sound := by
  have hlist : (Text.shown (g :: spanOf continuesName rest)).toList
      = g.shown :: (spanOf continuesName rest).chars := by
    rw [Text.shown, String.toList_ofList]
    rfl
  have hspells : spellsName (Text.shown (g :: spanOf continuesName rest)) = true := by
    rw [spellsName, hlist]
    show (startsName g.shown && (spanOf continuesName rest).chars.all continuesName) = true
    rw [hg, Text.chars, List.all_map]
    exact List.all_takeWhile
  have hword : (nameLexeme g rest).word = .name (Text.shown (g :: spanOf continuesName rest)) := by
    rw [Word.name, hlist]
    rfl
  rw [hword]
  exact sound_word_name hspells

theorem negative_ofRatio {negative : Bool} {num den : Nat} {d : Double}
    (h : Double.ofRatio negative num den = some d) : d.negative = negative := by
  unfold Double.ofRatio at h
  split at h
  · cases h
    rfl
  · extract_lets e s m d' at h
    have hd : d'.negative = negative := by
      simp only [d']
      split <;> rfl
    split at h
    · cases h
      rfl
    · split at h
      · cases h
      · rw [← Option.some.inj h]
        exact hd

theorem negative_ofDecimal {negative : Bool} {digits : Nat} {power : Int} {d : Double}
    (h : Double.ofDecimal negative digits power = some d) : d.negative = negative := by
  unfold Double.ofDecimal at h
  split at h
  · cases h
    rfl
  · dsimp only at h
    split at h
    · cases h
    · split at h
      · cases h
        rfl
      · split at h
        · exact negative_ofRatio h
        · exact negative_ofRatio h

theorem sound_number (g : Glyph) (rest : Text) : (number g rest).word.Sound := by
  unfold number
  extract_lets whole after fraction slice clean n value
  have hvalue : ∀ k l, value = some (k, l) →
      (k = .int ∨ k = .float) ∧ l.Unsigned ∧ l.isStart = true ∧ l.isStop = true := by
    intro k l h
    by_cases hempty : fraction.isEmpty = true
    · simp only [value, hempty, if_true] at h
      split at h
      · rename_i hfits
        cases h
        rw [fitsInt64, Bool.and_eq_true, decide_eq_true_eq, decide_eq_true_eq] at hfits
        refine ⟨.inl rfl, ⟨Int.natCast_nonneg _, ?_⟩, rfl, rfl⟩
        exact hfits.2.trans_eq (by norm_num)
      · cases h
    · simp only [value, hempty, Bool.false_eq_true, if_false] at h
      obtain ⟨d, hd, hkl⟩ := Option.map_eq_some_iff.mp h
      cases hkl
      exact ⟨.inr rfl, ⟨Double.canonical_ofDecimal hd, negative_ofDecimal hd⟩, rfl, rfl⟩
  cases hv : value with
  | none => exact .of_kind (by decide : TokenKind.illegal ∉ _)
  | some e =>
    obtain ⟨k, l⟩ := e
    obtain ⟨hk, hunsigned, hstart, hstop⟩ := hvalue k l hv
    refine ⟨?_, ?_, fun _ => ⟨hunsigned, hstart⟩, fun _ => hstop, ?_⟩ <;>
      rcases hk with rfl | rfl <;> (intro hkind; cases hkind)

/-- Every lexeme is a sound word. -/
theorem sound_lexeme {g : Glyph} {rest : Text} (h : .char '\x00' ∉ rest) :
    (lexeme g rest).word.Sound := by
  generalize hl : lexeme g rest = l
  rw [lexeme.eq_def] at hl
  split at hl
  · rename_i kind s hsymbol
    subst hl
    exact .of_kind (symbol?_carriers hsymbol)
  · split at hl
    · subst hl
      exact sound_string _ _ _
    · subst hl
      exact sound_regex fun hmem => h (List.mem_cons_of_mem _ hmem)
    · split at hl
      · rename_i hstart
        subst hl
        exact sound_name hstart
      · split at hl
        · subst hl
          exact sound_number _ _
        · subst hl
          exact .of_kind (by decide : TokenKind.illegal ∉ _)

/-! ### All tokens -/

/-- A token that stands for a sound word, or the end of input. -/
def Token.Sound (t : Token) : Prop := t.kind = .eof ∨ ∃ w : Word, t.Spells w ∧ w.Sound

theorem sound_of_mem_tokensFrom {c : Cursor} {t : Text} (h : .char '\x00' ∉ t) :
    ∀ x ∈ (tokensFrom c t).1, x.Sound := by
  fun_induction tokensFrom c t with
  | case1 => simp
  | case2 c t trivia start g rest hsplit l token r ih =>
    have hrest : .char '\x00' ∉ rest := by
      intro hmem
      rw [← splitTrivia_append .blank t, hsplit] at h
      exact h (List.mem_append_right _ (List.mem_cons_of_mem _ hmem))
    intro x hx
    rcases List.mem_cons.mp hx with rfl | hx
    · exact .inr ⟨l.word, ⟨rfl, rfl, rfl⟩, sound_lexeme hrest⟩
    · exact ih (fun hmem => hrest (List.mem_of_mem_drop hmem)) x hx

/-- **The tokens of every source are sound.** -/
theorem sound_lex (source : Text) : ∀ x ∈ (lex source).tokens, x.Sound := by
  refine sound_of_mem_tokensFrom fun hmem => ?_
  have hvisible := List.all_eq_true.mp List.all_takeWhile _ hmem
  simp at hvisible

/-! What parsing takes from a token. -/

namespace Token.Sound

variable {t : Token}

theorem word (h : t.Sound) (hk : t.kind ≠ .eof) : ∃ w : Word, t.Spells w ∧ w.Sound :=
  h.resolve_left hk

theorem lower (h : t.Sound) (hk : t.kind = .lower) : isLowerName t.text = true := by
  obtain ⟨w, hspells, hw⟩ := h.word (by rw [hk]; decide)
  rw [hspells.text]
  exact hw.lower (hspells.kind.symm.trans hk)

theorem upper (h : t.Sound) (hk : t.kind = .upper) : isUpperName t.text = true := by
  obtain ⟨w, hspells, hw⟩ := h.word (by rw [hk]; decide)
  rw [hspells.text]
  exact hw.upper (hspells.kind.symm.trans hk)

theorem constant (h : t.Sound) (hk : t.kind ∈ TokenKind.constants) :
    (t.value.getD .unit).Unsigned ∧ (t.value.getD .unit).isStart = true := by
  obtain ⟨w, hspells, hw⟩ := h.word fun heof => absurd hk (by rw [heof]; decide)
  rw [hspells.value]
  exact hw.constant (hspells.kind ▸ hk)

theorem stop (h : t.Sound) (hk : t.kind ∈ [.int, .float, .string]) :
    (t.value.getD .unit).isStop = true := by
  obtain ⟨w, hspells, hw⟩ := h.word fun heof => absurd hk (by rw [heof]; decide)
  rw [hspells.value]
  exact hw.stop (hspells.kind ▸ hk)

theorem regex (h : t.Sound) (hk : t.kind = .regex) : ∃ s, t.value = some (.text s) ∧ IsRegex s := by
  obtain ⟨w, hspells, hw⟩ := h.word (by rw [hk]; decide)
  obtain ⟨s, hvalue, hs⟩ := hw.regex (hspells.kind.symm.trans hk)
  exact ⟨s, by rw [hspells.value, hvalue], hs⟩

end Token.Sound

end PatternPlan
