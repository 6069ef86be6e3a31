import PatternPlan.Proofs.Source.Layout
import PatternPlan.Proofs.Source.Word

/-!
# A source on the line behind another one

* `Source.Closed` — a source that leaves nothing open where it ends;
* `tokensFrom_line` — **behind a closed source the next line is read as if nothing stood in front of
  it**;
* `offsets_tokensFrom` — tokens stand behind one another;
* `lex_joined` — the tokens of two sources, one on the line behind the other;
* `lex_appended` — the same behind any source without illegal tokens, which may end in a comment that is
  not closed: further tokens stand behind the line break.
-/

namespace PatternPlan

/-- **A source that leaves nothing open**, neither a string, a regex nor a comment: a semicolon on the
line behind it is one more token. -/
def Source.Closed (a : Text) : Prop :=
  (lex (a ++ .ofString "\n;")).tokens.length = (lex a).tokens.length + 1

instance (a : Text) : Decidable (Source.Closed a) := inferInstanceAs (Decidable (_ = _))

/-! ### What is passed over -/

/-- What is passed over at the front of `a`, when a line break follows `a`: a lexeme ends it as it does
without the line break, or all of `a` is passed over, and the line break too. -/
def BreaksOff (m : TriviaMode) (a : Text) (split : Text × Text) : Prop :=
  (split.2 ≠ [] ∧ ∀ r, splitTrivia m (a ++ .char '\n' :: r) = (split.1, split.2 ++ .char '\n' :: r)) ∨
  (split.2 = [] ∧ ∃ m' ≠ TriviaMode.lineComment, ∀ r, splitTrivia m (a ++ .char '\n' :: r) =
    (a ++ .char '\n' :: (splitTrivia m' r).1, (splitTrivia m' r).2))

theorem BreaksOff.cons {m m' : TriviaMode} {a : Text} {split : Text × Text} (front : Text) (h : BreaksOff m' a split)
    (hfront : ∀ r, splitTrivia m (front ++ (a ++ Glyph.char '\n' :: r)) =
      (front ++ (splitTrivia m' (a ++ Glyph.char '\n' :: r)).1,
        (splitTrivia m' (a ++ Glyph.char '\n' :: r)).2)) :
    BreaksOff m (front ++ a) (front ++ split.1, split.2) := by
  rcases h with ⟨hne, hmore⟩ | ⟨hend, mode, hmode, hmore⟩
  · refine .inl ⟨hne, fun r => ?_⟩
    rw [List.append_assoc, hfront, hmore]
  · refine .inr ⟨hend, mode, hmode, fun r => ?_⟩
    rw [List.append_assoc, hfront, hmore, List.append_assoc]

/-- A character in front of a line break is followed by the same character. -/
theorem head_line {a r : Text} {c : Char} {rest : Text} (h : a ++ Glyph.char '\n' :: r = .char c :: rest)
    (hc : c ≠ '\n') : ∃ more, a = .char c :: more := by
  cases a with
  | nil =>
    cases h
    exact absurd rfl hc
  | cons g a =>
    cases h
    exact ⟨a, rfl⟩

theorem breaksOff_splitTrivia (m : TriviaMode) (a : Text) : BreaksOff m a (splitTrivia m a) := by
  fun_induction splitTrivia m a with
  | case1 m =>
    refine .inr ⟨rfl, ?_⟩
    cases m with
    | blank => exact ⟨.blank, TriviaMode.noConfusion, fun r => rfl⟩
    | lineComment => exact ⟨.blank, TriviaMode.noConfusion, fun r => rfl⟩
    | blockComment => exact ⟨.blockComment, TriviaMode.noConfusion, fun r => rfl⟩
  | case2 rest r ih => exact BreaksOff.cons [.char '/', .char '/'] ih fun r => rfl
  | case3 rest r ih => exact BreaksOff.cons [.char '/', .char '*'] ih fun r => rfl
  | case4 g rest _ _ hblank r ih =>
    obtain ⟨c, rfl⟩ := isBlank_shown hblank
    refine BreaksOff.cons [.char c] ih fun r => ?_
    have hslash : c ≠ '/' := by
      rintro rfl
      cases hblank
    exact (splitTrivia_step fun hc => absurd hc hslash).trans (if_pos hblank)
  | case5 g rest hline hblock hblank =>
    refine .inl ⟨List.cons_ne_nil _ _, fun r => ?_⟩
    show splitTrivia .blank (g :: (rest ++ Glyph.char '\n' :: r)) = _
    rw [splitTrivia]
    · rw [if_neg hblank]
      rfl
    · intro more hg hmore
      obtain ⟨more, rfl⟩ := head_line hmore (by decide)
      exact hline more hg rfl
    · intro more hg hmore
      obtain ⟨more, rfl⟩ := head_line hmore (by decide)
      exact hblock more hg rfl
  | case6 g rest r ih =>
    refine BreaksOff.cons [g] ih fun r => ?_
    show splitTrivia .lineComment (g :: (rest ++ Glyph.char '\n' :: r)) = _
    rw [splitTrivia]
    rfl
  | case7 rest r ih => exact BreaksOff.cons [.char '*', .char '/'] ih fun r => rfl
  | case8 g rest hclose r ih =>
    refine BreaksOff.cons [g] ih fun r => ?_
    show splitTrivia .blockComment (g :: (rest ++ Glyph.char '\n' :: r)) = _
    rw [splitTrivia]
    · rfl
    · intro more hg hmore
      obtain ⟨more, rfl⟩ := head_line hmore (by decide)
      exact hclose more hg rfl

/-! ### Lexemes -/

theorem spanOf_line {p : Char → Bool} (hp : p '\n' = false) (rest r : Text) :
    spanOf p (rest ++ Glyph.char '\n' :: r) = spanOf p rest := by
  rw [spanOf, spanOf, List.takeWhile_append]
  split
  · rename_i hall
    have hwhole : rest.takeWhile (fun g => p g.shown) = rest :=
      List.IsPrefix.eq_of_length (List.takeWhile_prefix _) hall
    rw [List.takeWhile_cons_of_neg (by simpa [Glyph.shown] using hp), List.append_nil, hwhole]
  · rfl

/-- A line break goes on with no operator. -/
theorem symbol?_line (c : Char) (rest r : Text) :
    symbol? c ((rest ++ Glyph.char '\n' :: r).head?.map Glyph.shown)
        (((rest ++ Glyph.char '\n' :: r).drop 1).head?.map Glyph.shown) =
      symbol? c (rest.head?.map Glyph.shown) ((rest.drop 1).head?.map Glyph.shown) := by
  match rest with
  | [] =>
    show symbol? c (some '\n') _ = symbol? c none none
    rw [symbol?.eq_def, symbol?.eq_def]
    split <;> rfl
  | [g] =>
    show symbol? c (some g.shown) (some '\n') = symbol? c (some g.shown) none
    rw [symbol?.eq_def, symbol?.eq_def]
    split <;> rfl
  | g :: g' :: rest => rfl

/-- The fraction at the front of a text: a point, a digit, and what continues the number. -/
def fractionOf : Text → Text
  | .char '.' :: d :: more =>
    if Decimal.isDigit d.shown then .char '.' :: d :: spanOf continuesNumber more else []
  | _ => []

theorem fractionOf_line (t r : Text) : fractionOf (t ++ Glyph.char '\n' :: r) = fractionOf t := by
  match t with
  | [] => rfl
  | [.stray b] => rfl
  | [.char c] =>
    by_cases hc : c = '.'
    · rw [hc]
      rfl
    · show fractionOf (.char c :: .char '\n' :: r) = fractionOf [.char c]
      simp [fractionOf, hc]
  | .stray b :: d :: more => rfl
  | .char c :: d :: more =>
    by_cases hc : c = '.'
    · rw [hc]
      show (if Decimal.isDigit d.shown then
        .char '.' :: d :: spanOf continuesNumber (more ++ Glyph.char '\n' :: r) else []) = _
      rw [spanOf_line (by decide)]
      rfl
    · show fractionOf (.char c :: d :: (more ++ Glyph.char '\n' :: r)) = fractionOf (.char c :: d :: more)
      simp [fractionOf, hc]

theorem number_line (g : Glyph) (rest r : Text) :
    number g (rest ++ Glyph.char '\n' :: r) = number g rest := by
  have hspan : spanOf continuesNumber (rest ++ Glyph.char '\n' :: r) = spanOf continuesNumber rest :=
    spanOf_line (by decide) rest r
  have hdrop : (rest ++ Glyph.char '\n' :: r).drop (spanOf continuesNumber rest).length
      = rest.drop (spanOf continuesNumber rest).length ++ Glyph.char '\n' :: r :=
    List.drop_append_of_le_length (length_spanOf_le _ _)
  have hfraction := fractionOf_line (rest.drop (spanOf continuesNumber rest).length) r
  rw [← hdrop] at hfraction
  unfold number
  rw [hspan]
  extract_lets whole after fraction slice clean n value after' fraction' slice' n' value'
  have hsame : fraction = fraction' := hfraction
  have hslice : slice = slice' := by
    show g :: whole ++ fraction = g :: whole ++ fraction'
    rw [hsame]
  have hvalue : value = value' := by
    simp only [value, value', n, n', hsame, hslice]
  rw [hvalue, hslice, hsame]

/-- **The inside of a quoted literal**: closed, it is read in the same way whatever follows it; not
closed, it goes on through what follows, as far as no quote stands there. -/
def Quotes (body : Text → QuotedBody) (t : Text) : Prop :=
  ((∀ r, body (t ++ r) = body t) ∧ (body t).taken ≤ t.length) ∨
    ((body t).closed = false ∧ (body (t ++ .ofString "\n;")).taken = (t ++ .ofString "\n;").length)

theorem Quotes.cons {body : Text → QuotedBody} {t : Text} {c : Char} (front : Text) (h : Quotes body t)
    (hmore : ∀ r, body (front ++ (t ++ r)) = (body (t ++ r)).push c front.length) :
    Quotes body (front ++ t) := by
  have hplain := hmore []
  rw [List.append_nil] at hplain
  rcases h with ⟨hsame, hle⟩ | ⟨hopen, htaken⟩
  · refine .inl ⟨fun r => ?_, ?_⟩
    · rw [List.append_assoc, hmore, hsame, hplain]
    · rw [hplain, List.length_append]
      show (body t).taken + front.length ≤ _
      omega
  · refine .inr ⟨?_, ?_⟩
    · rw [hplain]
      exact hopen
    · rw [List.append_assoc, hmore, List.length_append]
      show (body _).taken + front.length = _
      omega

theorem quotes_stringBody (t : Text) : Quotes stringBody t := by
  fun_induction stringBody t with
  | case1 => exact .inr ⟨rfl, rfl⟩
  | case2 rest => exact .inl ⟨fun r => rfl, Nat.succ_le_succ (Nat.zero_le _)⟩
  | case3 => exact .inr ⟨rfl, rfl⟩
  | case4 g rest ih => exact Quotes.cons [.char '\\', g] ih fun r => rfl
  | case5 g rest hquote hlast hescape ih =>
    have hplain : g ≠ .char '\\' := by
      intro hg
      cases rest with
      | nil => exact hlast hg rfl
      | cons g' rest => exact hescape g' rest hg rfl
    refine Quotes.cons [g] (c := g.shown) ih fun r => ?_
    show stringBody (g :: (rest ++ r)) = _
    rw [stringBody]
    · rfl
    · exact hquote
    · exact fun hg _ => hplain hg
    · exact fun _ _ hg _ => hplain hg

theorem quotes_regexBody (t : Text) : Quotes regexBody t := by
  fun_induction regexBody t with
  | case1 => exact .inr ⟨rfl, rfl⟩
  | case2 rest => exact .inl ⟨fun r => rfl, Nat.succ_le_succ (Nat.zero_le _)⟩
  | case3 rest ih => exact Quotes.cons [.char '\\', .char '"'] ih fun r => rfl
  | case4 g rest hquote hescape ih =>
    have hstep (more : Text) (hmore : ∀ r, g = .char '\\' → more = .char '"' :: r → False) :
        regexBody (g :: more) = (regexBody more).push g.shown 1 := by
      rw [regexBody]
      · exact hquote
      · exact hmore
    cases rest with
    | nil =>
      refine .inr ⟨?_, ?_⟩
      · rw [hstep]
        · rfl
        · exact fun _ _ h => List.cons_ne_nil _ _ h.symm
      · show (regexBody (g :: Text.ofString "\n;")).taken = _
        rw [hstep]
        · rfl
        · intro r _ hr
          have hhead : Glyph.char '\n' = .char '"' := List.head_eq_of_cons_eq hr
          cases hhead
    | cons g' rest =>
      refine Quotes.cons [g] (c := g.shown) ih fun r => hstep _ fun more hg hmore => ?_
      cases hmore
      exact hescape rest hg rfl

/-- What a lexeme is when it is neither an operator nor a quoted literal. -/
theorem lexeme_plain {g : Glyph} {rest : Text}
    (hsymbol : symbol? g.shown (rest.head?.map Glyph.shown) ((rest.drop 1).head?.map Glyph.shown) = none)
    (hstring : g ≠ .char '"') (hregex : g = .char 'r' → ∀ body, rest ≠ .char '"' :: body) :
    lexeme g rest =
      if startsName g.shown then nameLexeme g rest
      else if Decimal.isDigit g.shown then number g rest
      else ⟨.illegal, [.char g.shown], .text (String.singleton g.shown), 0⟩ := by
  rw [lexeme.eq_def, hsymbol]
  dsimp only
  split
  · exact absurd rfl hstring
  · exact absurd rfl (hregex rfl _)
  · rfl

theorem nameLexeme_line (g : Glyph) (rest r : Text) :
    nameLexeme g (rest ++ Glyph.char '\n' :: r) = nameLexeme g rest := by
  rw [nameLexeme, nameLexeme, spanOf_line (by decide)]

theorem extra_number_le (g : Glyph) (rest : Text) : (number g rest).extra ≤ rest.length := by
  have hlength : (number g rest).slice.length = (number g rest).extra + 1 := by
    unfold number
    extract_lets whole after fraction slice clean n value
    have hslice : slice.length = whole.length + fraction.length + 1 := by
      rw [List.length_append, List.length_cons]
      omega
    clear_value value
    cases value with
    | none => exact hslice
    | some value => exact hslice
  rw [slice_number, List.length_cons, List.length_take] at hlength
  omega

theorem quotedLexeme_line {body : Text → QuotedBody} {t : Text} (h : Quotes body t) (kind : TokenKind)
    (opening : Text) :
    ((∀ r, quotedLexeme kind opening (t ++ Glyph.char '\n' :: r) (body (t ++ Glyph.char '\n' :: r)) =
        quotedLexeme kind opening t (body t)) ∧
      (quotedLexeme kind opening t (body t)).extra ≤ opening.length - 1 + t.length) ∨
    ((quotedLexeme kind opening t (body t)).kind = .illegal ∧
      (quotedLexeme kind opening (t ++ .ofString "\n;") (body (t ++ .ofString "\n;"))).extra =
        opening.length - 1 + (t ++ .ofString "\n;").length) := by
  rcases h with ⟨hsame, hle⟩ | ⟨hopen, htaken⟩
  · refine .inl ⟨fun r => ?_, Nat.add_le_add_left hle _⟩
    rw [hsame, quotedLexeme, quotedLexeme, List.take_append_of_le_length hle]
  · refine .inr ⟨?_, congrArg (_ + ·) htaken⟩
    show (if (body t).closed then kind else .illegal) = .illegal
    rw [hopen]
    rfl

/-- **A lexeme in front of a line break** is what it is without it, unless it is a quoted literal that
is not closed; that is illegal, and goes on behind the line break. -/
theorem lexeme_line (g : Glyph) (rest : Text) :
    ((∀ r, lexeme g (rest ++ Glyph.char '\n' :: r) = lexeme g rest) ∧ (lexeme g rest).extra ≤ rest.length) ∨
      ((lexeme g rest).kind = .illegal ∧
        (lexeme g (rest ++ .ofString "\n;")).extra = (rest ++ .ofString "\n;").length) := by
  cases hsymbol : symbol? g.shown (rest.head?.map Glyph.shown) ((rest.drop 1).head?.map Glyph.shown) with
  | some operator =>
    obtain ⟨kind, s⟩ := operator
    have hlexeme : lexeme g rest = ⟨kind, .ofString s, .text s, s.length - 1⟩ := by
      rw [lexeme.eq_def, hsymbol]
    refine .inl ⟨fun r => ?_, ?_⟩
    · rw [lexeme.eq_def, symbol?_line, hsymbol, hlexeme]
    · obtain ⟨more, hs, hmore, -⟩ := spelled_symbol? hsymbol
      have hlength : more.length ≤ rest.length := by
        refine hmore.length_le.trans ?_
        rcases rest with _ | ⟨_, _ | ⟨_, rest⟩⟩
        · exact Nat.le_refl _
        · exact Nat.le_refl _
        · exact Nat.le_add_left 2 rest.length
      have hspelled : s.length = more.length + 1 := by
        rw [← String.length_toList, hs, List.length_cons]
      rw [hlexeme]
      show s.length - 1 ≤ _
      omega
  | none =>
    have hsymbols (r : Text) := (symbol?_line g.shown rest r).trans hsymbol
    by_cases hstring : g = .char '"'
    · subst hstring
      have hquoted := quotedLexeme_line (quotes_stringBody rest) .string [.char '"']
      rwa [List.length_singleton, Nat.sub_self, Nat.zero_add, Nat.zero_add] at hquoted
    · by_cases hregex : g = .char 'r' ∧ ∃ body, rest = .char '"' :: body
      · obtain ⟨rfl, body, rfl⟩ := hregex
        have hquoted := quotedLexeme_line (quotes_regexBody body) .regex [.char 'r', .char '"']
        have hlength (t : Text) : [Glyph.char 'r', .char '"'].length - 1 + t.length = (.char '"' :: t).length :=
          Nat.add_comm 1 t.length
        rwa [hlength, hlength] at hquoted
      · have hplain : lexeme g rest = _ :=
          lexeme_plain hsymbol hstring fun hg body hrest => hregex ⟨hg, body, hrest⟩
        have hline (r : Text) : lexeme g (rest ++ Glyph.char '\n' :: r) = _ :=
          lexeme_plain (hsymbols r) hstring fun hg body hrest =>
            (head_line hrest (by decide)).elim fun more hmore => hregex ⟨hg, more, hmore⟩
        refine .inl ⟨fun r => ?_, ?_⟩
        · rw [hline, hplain, nameLexeme_line, number_line]
        · rw [hplain]
          split
          · exact length_spanOf_le _ _
          · split
            · exact extra_number_le g rest
            · exact Nat.zero_le _

/-! ### Tokens -/

theorem tokensFrom_nil (c : Cursor) : tokensFrom c [] = ([], c) := by
  rw [tokensFrom.eq_def]
  rfl

/-- Where no lexeme is left. -/
theorem tokensFrom_last {t : Text} (h : (splitTrivia .blank t).2 = []) (c : Cursor) :
    tokensFrom c t = ([], c.advance (splitTrivia .blank t).1) := by
  rw [tokensFrom.eq_def]
  split
  · rfl
  · rename_i hsplit
    rw [h] at hsplit
    cases hsplit

/-- Where a lexeme is next. -/
theorem tokensFrom_next {t rest : Text} {g : Glyph} (h : (splitTrivia .blank t).2 = g :: rest) (c : Cursor) :
    tokensFrom c t =
      let start := c.advance (splitTrivia .blank t).1
      let l := lexeme g rest
      let r := tokensFrom (start.advance (g :: rest.take l.extra)) (rest.drop l.extra)
      (⟨l.kind, l.slice, some l.value, start.line, start.column, start.offset⟩ :: r.1, r.2) := by
  rw [tokensFrom.eq_def]
  split
  · rename_i hsplit
    rw [h] at hsplit
    cases hsplit
  · rename_i hsplit
    rw [h] at hsplit
    cases hsplit
    rfl

/-- What is passed over in front of a text makes no difference but for the place. -/
theorem tokensFrom_passed {t r : Text}
    (h : splitTrivia .blank (t ++ r) = (t ++ (splitTrivia .blank r).1, (splitTrivia .blank r).2)) (c : Cursor) :
    tokensFrom c (t ++ r) = tokensFrom (c.advance t) r := by
  have hsame : (splitTrivia .blank (t ++ r)).2 = (splitTrivia .blank r).2 := by rw [h]
  cases hrest : (splitTrivia .blank r).2 with
  | nil => rw [tokensFrom_last hrest, tokensFrom_last (hsame.trans hrest), h, Cursor.advance_append]
  | cons g rest =>
    rw [tokensFrom_next hrest, tokensFrom_next (hsame.trans hrest), h, Cursor.advance_append]

/-- A lexeme that a line break does not change is the first of the text with the line break, too. -/
theorem tokensFrom_step {a rest : Text} {g : Glyph} (h : (splitTrivia .blank a).2 = g :: rest) (r : Text)
    (hsame : lexeme g (rest ++ Glyph.char '\n' :: r) = lexeme g rest)
    (hle : (lexeme g rest).extra ≤ rest.length) (c : Cursor) :
    tokensFrom c (a ++ Glyph.char '\n' :: r) =
      let start := c.advance (splitTrivia .blank a).1
      let l := lexeme g rest
      let u := tokensFrom (start.advance (g :: rest.take l.extra)) (rest.drop l.extra ++ Glyph.char '\n' :: r)
      (⟨l.kind, l.slice, some l.value, start.line, start.column, start.offset⟩ :: u.1, u.2) := by
  have hne : (splitTrivia .blank a).2 ≠ [] := by
    rw [h]
    nofun
  obtain ⟨-, hmore⟩ := (breaksOff_splitTrivia .blank a).resolve_right fun hend => hne hend.1
  have hnext : (splitTrivia .blank (a ++ Glyph.char '\n' :: r)).2 = g :: (rest ++ Glyph.char '\n' :: r) := by
    rw [hmore, h]
    rfl
  rw [tokensFrom_next hnext, hmore, hsame]
  dsimp only
  rw [List.take_append_of_le_length hle, List.drop_append_of_le_length hle]

/-- The place behind a text, in steps: what is passed over, a lexeme, and the rest. -/
theorem advance_step {a rest : Text} {g : Glyph} (h : (splitTrivia .blank a).2 = g :: rest) (c : Cursor)
    (n : Nat) (b : Text) :
    ((c.advance (splitTrivia .blank a).1).advance (g :: rest.take n)).advance (rest.drop n ++ b) =
      c.advance (a ++ b) := by
  have happend : a = (splitTrivia .blank a).1 ++ g :: rest := by
    rw [← h]
    exact (splitTrivia_append .blank a).symm
  rw [← Cursor.advance_append, ← Cursor.advance_append, ← List.append_assoc (g :: _), List.cons_append,
    List.take_append_drop, ← List.append_assoc, ← happend]

/-- **The line behind a text that leaves nothing open** is read as if nothing stood in front of it. -/
theorem tokensFrom_line (c : Cursor) (a : Text)
    (h : (tokensFrom c (a ++ .ofString "\n;")).1.length = (tokensFrom c a).1.length + 1) (r : Text) :
    tokensFrom c (a ++ Glyph.char '\n' :: r) =
      ((tokensFrom c a).1 ++ (tokensFrom (c.advance (a ++ [Glyph.char '\n'])) r).1,
        (tokensFrom (c.advance (a ++ [Glyph.char '\n'])) r).2) := by
  fun_induction tokensFrom c a with
  | case1 c a trivia start hsplit =>
    obtain ⟨-, mode, hmode, hmore⟩ := (breaksOff_splitTrivia .blank a).resolve_left fun h => h.1 hsplit
    cases mode with
    | blank =>
      have hline := hmore r
      rw [← List.singleton_append, ← List.append_assoc] at hline ⊢
      rw [tokensFrom_passed (hline.trans (by simp))]
      rfl
    | lineComment => exact absurd rfl hmode
    | blockComment =>
      have hprobe : (splitTrivia .blank (a ++ .ofString "\n;")).2 = [] := congrArg Prod.snd (hmore [.char ';'])
      rw [tokensFrom_last hprobe] at h
      cases h
  | case2 c a trivia start g rest hsplit l token u ih =>
    rcases lexeme_line g rest with ⟨hsame, hle⟩ | ⟨-, hopen⟩
    · rw [tokensFrom_step hsplit r (hsame r) hle]
      dsimp only
      rw [ih ?_, advance_step hsplit]
      · rfl
      · have hprobe : (tokensFrom c (a ++ .ofString "\n;")).1.length = _ :=
          congrArg (·.1.length) (tokensFrom_step hsplit [.char ';'] (hsame _) hle c)
        rw [h] at hprobe
        exact (Nat.succ.inj hprobe).symm
    · -- the literal takes the probe, too
      have hne : (splitTrivia .blank a).2 ≠ [] := by
        rw [hsplit]
        exact List.cons_ne_nil _ _
      obtain ⟨-, hmore⟩ := (breaksOff_splitTrivia .blank a).resolve_right fun h => hne h.1
      rw [hsplit] at hmore
      have hnext : (splitTrivia .blank (a ++ .ofString "\n;")).2 = g :: (rest ++ Text.ofString "\n;") :=
        congrArg Prod.snd (hmore [.char ';'])
      have hprobe : (tokensFrom c (a ++ .ofString "\n;")).1.length = 1 := by
        rw [tokensFrom_next hnext]
        dsimp only
        rw [hopen, List.drop_length, tokensFrom_nil]
        rfl
      rw [hprobe, List.length_cons] at h
      omega

/-- The line of the place behind a text: one more for each line break. -/
theorem Cursor.line_advance (c : Cursor) (t : Text) :
    (c.advance t).line = c.line + t.count (.char '\n') := by
  induction t generalizing c with
  | nil => rfl
  | cons g t ih =>
    show ((c.step g).advance t).line = _
    rw [ih, Cursor.step]
    by_cases hline : g = .char '\n'
    · rw [if_pos hline, hline, List.count_cons_self]
      show c.line + 1 + _ = _
      omega
    · rw [if_neg hline, List.count_cons_of_ne hline]

/-- **Tokens stand behind one another**, each in front of the end of the text. -/
theorem offsets_tokensFrom (c : Cursor) (t : Text) :
    (∀ x ∈ (tokensFrom c t).1, c.offset ≤ x.offset ∧ x.offset < c.offset + Text.width t) ∧
      (tokensFrom c t).1.Pairwise fun x y => x.offset < y.offset := by
  fun_induction tokensFrom c t with
  | case1 => exact ⟨fun _ h => absurd h List.not_mem_nil, .nil⟩
  | case2 c t trivia start g rest hsplit l token r ih =>
    obtain ⟨hin, hpairwise⟩ := ih
    have happend : trivia ++ g :: rest = t := hsplit ▸ splitTrivia_append .blank t
    have hwidth := congrArg Text.width happend
    have hrest := congrArg Text.width (List.take_append_drop l.extra rest)
    have hglyph : 0 < g.width := by
      have hone := Text.length_le_width [g]
      rw [Text.width_cons] at hone
      exact hone
    rw [Text.width_append, Text.width_cons] at hwidth
    rw [Text.width_append] at hrest
    have hstart : token.offset = c.offset + Text.width trivia := Cursor.offset_advance c trivia
    have hafter : (start.advance (g :: rest.take l.extra)).offset =
        token.offset + (g.width + Text.width (rest.take l.extra)) := by
      rw [Cursor.offset_advance, Text.width_cons]
    rw [hafter] at hin
    refine ⟨?_, List.pairwise_cons.mpr ⟨fun x hx => ?_, hpairwise⟩⟩
    · intro x hx
      rcases List.mem_cons.mp hx with rfl | hx
      · omega
      · have hx := hin x hx
        omega
    · have hx := hin x hx
      omega

/-- Tokens stand behind what is passed over in front of them. -/
theorem offsets_passed (c : Cursor) (t : Text) :
    ∀ x ∈ (tokensFrom c t).1, (c.advance (splitTrivia .blank t).1).offset ≤ x.offset := by
  cases hrest : (splitTrivia .blank t).2 with
  | nil =>
    rw [tokensFrom_last hrest]
    exact List.forall_mem_nil _
  | cons g rest =>
    rw [tokensFrom_next hrest]
    refine List.forall_mem_cons.mpr ⟨Nat.le_refl _, fun x hx => ?_⟩
    have hlater := (offsets_tokensFrom _ _).1 x hx
    rw [Cursor.offset_advance] at hlater
    omega

/-- **A line behind a text without illegal tokens**: the tokens of the text stay what they are, and further
ones stand behind the line break.  Where the text ends in a comment that is not closed, they are the ones
behind the end of the comment. -/
theorem tokensFrom_legal (c : Cursor) (a : Text) (h : ∀ x ∈ (tokensFrom c a).1, x.kind ≠ .illegal) (r : Text) :
    ∃ more, (tokensFrom c (a ++ Glyph.char '\n' :: r)).1 = (tokensFrom c a).1 ++ more ∧
      (∀ x ∈ more, (c.advance (a ++ [Glyph.char '\n'])).offset ≤ x.offset) ∧ (r = [] → more = []) := by
  fun_induction tokensFrom c a with
  | case1 c a trivia start hsplit =>
    obtain ⟨-, mode, -, hmore⟩ := (breaksOff_splitTrivia .blank a).resolve_left fun h => h.1 hsplit
    refine ⟨_, rfl, fun x hx => ?_, fun hr => ?_⟩
    · have hpassed := offsets_passed c (a ++ Glyph.char '\n' :: r) x hx
      rw [hmore, ← List.singleton_append, ← List.append_assoc, Cursor.advance_append, Cursor.offset_advance] at hpassed
      omega
    · have hnil : (splitTrivia mode []).2 = [] := by cases mode <;> rfl
      rw [tokensFrom_last (by rw [hmore, hr, hnil])]
  | case2 c a trivia start g rest hsplit l token u ih =>
    obtain ⟨hlegal, hrest⟩ := List.forall_mem_cons.mp h
    obtain ⟨hsame, hle⟩ := (lexeme_line g rest).resolve_right fun hopen => hlegal hopen.1
    obtain ⟨more, hmore, hplace, hend⟩ := ih hrest
    refine ⟨more, ?_, fun x hx => ?_, hend⟩
    · rw [tokensFrom_step hsplit r (hsame r) hle]
      exact congrArg (token :: ·) hmore
    · rw [← advance_step hsplit c l.extra]
      exact hplace x hx

/-! ### Sources -/

theorem visible_append {a : Text} (h : Glyph.char '\x00' ∉ a) (b : Text) :
    Source.visible (a ++ b) = a ++ Source.visible b := by
  refine List.takeWhile_append_of_pos fun g hg => decide_eq_true ?_
  rintro rfl
  exact h hg

/-- Nothing is read behind a NUL. -/
theorem visible_append_of_mem {a : Text} (h : .char '\x00' ∈ a) (b : Text) :
    Source.visible (a ++ b) = Source.visible a := by
  induction a with
  | nil => cases h
  | cons g a ih =>
    show List.takeWhile _ (g :: (a ++ b)) = List.takeWhile _ (g :: a)
    rw [List.takeWhile_cons, List.takeWhile_cons]
    split
    · rename_i hg
      have hne : g ≠ .char '\x00' := of_decide_eq_true hg
      exact congrArg (g :: ·) (ih ((List.mem_cons.mp h).resolve_left hne.symm))
    · rfl

theorem Source.Closed.not_mem {a : Text} (h : Source.Closed a) : Glyph.char '\x00' ∉ a := by
  intro hmem
  have htokens : (lex (a ++ .ofString "\n;")).tokens = (lex a).tokens := by
    rw [lex, lex, visible_append_of_mem hmem]
  rw [Source.Closed, htokens] at h
  omega

/-- **Two sources, one on the line behind the other**: the tokens of the first, if it leaves nothing
open, and those of the second, read from the place where its line starts. -/
theorem lex_joined {a : Text} (h : Source.Closed a) (b : Text) :
    let r := tokensFrom (Cursor.advance {} (a ++ [Glyph.char '\n'])) (Source.visible b)
    (lex (a ++ Glyph.char '\n' :: b)).tokens = (lex a).tokens ++ r.1 ∧
      (lex (a ++ Glyph.char '\n' :: b)).eof =
        ⟨.eof, [], none, r.2.line, r.2.column, Text.width (a ++ Glyph.char '\n' :: b)⟩ := by
  have hclean := h.not_mem
  have hplain : Source.visible a = a := by
    have hvisible := visible_append hclean []
    rwa [List.append_nil, show Source.visible [] = [] from rfl, List.append_nil] at hvisible
  have hprobe : Source.visible (a ++ .ofString "\n;") = a ++ .ofString "\n;" := visible_append hclean _
  have hboth : Source.visible (a ++ Glyph.char '\n' :: b) = a ++ Glyph.char '\n' :: Source.visible b :=
    visible_append hclean _
  rw [Source.Closed, lex, lex, hprobe, hplain] at h
  have hline := tokensFrom_line {} a h (Source.visible b)
  rw [lex, lex, hboth, hplain, hline]
  exact ⟨rfl, rfl⟩

/-- **A line behind a source without illegal tokens**: the tokens of the source stay what they are, and
further ones stand behind the line break. -/
theorem lex_appended {a : Text} (h : ∀ t ∈ (lex a).tokens, t.kind ≠ .illegal) (b : Text) :
    ∃ more, (lex (a ++ Glyph.char '\n' :: b)).tokens = (lex a).tokens ++ more ∧
      (∀ t ∈ more, Text.width (a ++ [Glyph.char '\n']) ≤ t.offset) ∧ (b = [] → more = []) := by
  by_cases hnul : .char '\x00' ∈ a
  · refine ⟨[], ?_, List.forall_mem_nil _, fun _ => rfl⟩
    rw [lex, lex, visible_append_of_mem hnul, List.append_nil]
  · have hplain : Source.visible a = a := by
      have hvisible := visible_append hnul []
      rwa [List.append_nil, show Source.visible [] = [] from rfl, List.append_nil] at hvisible
    have hboth : Source.visible (a ++ Glyph.char '\n' :: b) = a ++ Glyph.char '\n' :: Source.visible b :=
      visible_append hnul _
    rw [lex, hplain] at h
    obtain ⟨more, hmore, hplace, hend⟩ := tokensFrom_legal {} a h (Source.visible b)
    refine ⟨more, ?_, fun t ht => ?_, fun hb => hend (by rw [hb]; rfl)⟩
    · rw [lex, lex, hboth, hplain]
      exact hmore
    · have hbehind := hplace t ht
      rw [Cursor.offset_advance] at hbehind
      exact (Nat.zero_add _).symm.trans_le hbehind

end PatternPlan
