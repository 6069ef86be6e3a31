import PatternPlan.Proofs.Text.Utf8
import PatternPlan.Proofs.Source.Storable

/-!
# How a source is laid out

A text is what is passed over, then a lexeme, then what is passed over again, to its end.

* `Skipped` — one piece that is passed over: a blank, a comment to the end of its line, a comment
  that is closed;
* `Gap` — pieces that are passed over one after the other;
* `Unclosed` — a comment that nothing closes;
* `splitTrivia_gap` — what is split off in front of a lexeme is a gap, and only at the end of a text
  can an unclosed comment follow it;
* `slice_lexeme` — a token is stored with the text it takes, unless it is a stray byte;
* `Layout`, `layout_tokensFrom` — **the tokens of a text and its gaps lay it out**.
-/

namespace PatternPlan

/-! ### What is passed over -/

/-- A piece of text that is passed over when `after` follows it. -/
inductive Skipped (after : Text) : Text → Prop
  | blank {c : Char} : isBlank c = true → Skipped after [.char c]
  | line {body : Text} : .char '\n' ∉ body → (∀ g ∈ after.head?, g = .char '\n') →
    Skipped after (.char '/' :: .char '/' :: body)
  | block {body : Text} : ¬ [.char '*', .char '/'] <:+: body ++ [.char '*'] →
    Skipped after (.char '/' :: .char '*' :: (body ++ [.char '*', .char '/']))

/-- Pieces that are passed over, one after the other, in front of `after`. -/
inductive Gap (after : Text) : Text → Prop
  | nil : Gap after []
  | cons {piece more : Text} : Skipped (more ++ after) piece → Gap after more →
    Gap after (piece ++ more)

/-- A comment that nothing closes. -/
def Unclosed (t : Text) : Prop :=
  ∃ body, t = .char '/' :: .char '*' :: body ∧ ¬ [.char '*', .char '/'] <:+: body

/-- What is passed over at the end of a text: a gap, and perhaps a comment that is not closed. -/
def Trailing (t : Text) : Prop :=
  Gap [] t ∨ ∃ gap comment, t = gap ++ comment ∧ Gap comment gap ∧ Unclosed comment

/-- What may stand in front of `after`, which is empty only where the text ends. -/
def Passed (after t : Text) : Prop := Gap after t ∨ after = [] ∧ Trailing t

theorem Passed.nil {after : Text} : Passed after [] := .inl .nil

theorem Passed.cons {after piece more : Text} (hpiece : Skipped (more ++ after) piece)
    (hmore : Passed after more) : Passed after (piece ++ more) := by
  rcases hmore with hmore | ⟨hafter, hmore | ⟨gap, comment, rfl, hgap, hcomment⟩⟩
  · exact .inl (.cons hpiece hmore)
  · rw [hafter] at hpiece
    exact .inr ⟨hafter, .inl (.cons hpiece hmore)⟩
  · rw [hafter, List.append_nil] at hpiece
    exact .inr ⟨hafter, .inr ⟨piece ++ gap, comment, (List.append_assoc ..).symm, .cons hpiece hgap, hcomment⟩⟩

/-- What a mode of `splitTrivia` splits off: the rest of the comment it is in, then what is passed
over behind it. -/
def Trails (after : Text) : TriviaMode → Text → Prop
  | .blank, t => Passed after t
  | .lineComment, t => ∃ body more, t = body ++ more ∧ .char '\n' ∉ body ∧
    (∀ g ∈ (more ++ after).head?, g = .char '\n') ∧ Passed after more
  | .blockComment, t => (∃ body more, t = body ++ [.char '*', .char '/'] ++ more ∧
    ¬ [.char '*', .char '/'] <:+: body ++ [.char '*'] ∧ Passed after more) ∨
    after = [] ∧ ¬ [.char '*', .char '/'] <:+: t

theorem isBlank_shown {g : Glyph} (h : isBlank g.shown = true) : ∃ c, g = .char c := by
  cases g with
  | char c => exact ⟨c, rfl⟩
  | stray b => cases h

/-- A pair does not stand in a text that it does not begin and whose tail it does not stand in. -/
theorem not_infix_cons {α : Type} {a b x : α} {t : List α} (h : ¬ [a, b] <:+: t)
    (hx : ¬ (x = a ∧ t.head? = some b)) : ¬ [a, b] <:+: x :: t := by
  intro hinfix
  rcases List.infix_cons_iff.mp hinfix with hinitial | hinfix
  · rw [List.cons_prefix_cons] at hinitial
    obtain ⟨more, hmore⟩ := hinitial.2
    exact hx ⟨hinitial.1.symm, by rw [← hmore]; rfl⟩
  · exact h hinfix

theorem trails_splitTrivia (m : TriviaMode) (t : Text) :
    Trails (splitTrivia m t).2 m (splitTrivia m t).1 := by
  fun_induction splitTrivia m t with
  | case1 m =>
    cases m with
    | blank => exact .nil
    | lineComment => exact ⟨[], [], rfl, List.not_mem_nil, by simp, .nil⟩
    | blockComment => exact .inr ⟨rfl, by simp⟩
  | case2 rest r ih =>
    obtain ⟨body, more, hr, hbody, hhead, hmore⟩ : Trails r.2 .lineComment r.1 := ih
    show Passed _ (_ :: _ :: r.1)
    rw [hr]
    exact .cons (.line hbody hhead) hmore
  | case3 rest r ih =>
    have ih : Trails r.2 .blockComment r.1 := ih
    show Passed r.2 (_ :: _ :: r.1)
    rcases ih with ⟨body, more, hr, hbody, hmore⟩ | ⟨hafter, hopen⟩
    · rw [hr]
      exact .cons (.block hbody) hmore
    · exact .inr ⟨hafter, .inr ⟨[], _, rfl, .nil, r.1, rfl, hopen⟩⟩
  | case4 g rest _ _ hblank r ih =>
    obtain ⟨c, rfl⟩ := isBlank_shown hblank
    exact Passed.cons (.blank hblank) ih
  | case5 => exact Passed.nil
  | case6 g rest r ih =>
    have ih : Trails r.2 (if g = .char '\n' then .blank else .lineComment) r.1 := ih
    by_cases hnewline : g = .char '\n'
    · rw [if_pos hnewline] at ih
      exact ⟨[], _, rfl, List.not_mem_nil, by simp [hnewline], by
        rw [hnewline]
        exact .cons (.blank rfl) ih⟩
    · rw [if_neg hnewline] at ih
      obtain ⟨body, more, hr, hbody, hhead, hmore⟩ := ih
      refine ⟨g :: body, more, by rw [hr]; rfl, ?_, hhead, hmore⟩
      simp [hbody, Ne.symm hnewline]
  | case7 rest r ih =>
    exact .inl ⟨[], r.1, rfl, not_infix_cons (by simp) (by simp), ih⟩
  | case8 g rest hclose r ih =>
    have happend : r.1 ++ r.2 = rest := splitTrivia_append .blockComment rest
    have hhead {more : Text} (hmore : more <+: rest) :
        ¬ (g = .char '*' ∧ more.head? = some (.char '/')) := by
      rintro ⟨hg, hslash⟩
      obtain ⟨tail, htail⟩ := List.head?_eq_some_iff.mp hslash
      obtain ⟨behind, rfl⟩ := hmore
      rw [htail] at hclose
      exact hclose (tail ++ behind) hg rfl
    have ih : Trails r.2 .blockComment r.1 := ih
    rcases ih with ⟨body, more, hr, hbody, hmore⟩ | ⟨hafter, hopen⟩
    · refine .inl ⟨g :: body, more, by rw [hr]; rfl, not_infix_cons hbody (hhead ?_), hmore⟩
      rw [← happend, hr]
      simp
    · exact .inr ⟨hafter, not_infix_cons hopen (hhead ⟨r.2, happend⟩)⟩

/-- **What is passed over.**  In front of a lexeme it is a gap; at the end of a text an unclosed
comment may follow the gap. -/
theorem splitTrivia_gap (t : Text) :
    Passed (splitTrivia .blank t).2 (splitTrivia .blank t).1 :=
  trails_splitTrivia .blank t

/-! ### Lexemes -/

/-- An operator is spelled by the characters it is recognised by, none of which is U+FFFD. -/
theorem spelled_symbol? {c : Char} {next after : Option Char} {k : TokenKind} {s : String}
    (h : symbol? c next after = some (k, s)) :
    ∃ more, s.toList = c :: more ∧ more <+: next.toList ++ after.toList ∧
      Glyph.replacement ∉ s.toList := by
  rw [symbol?.eq_def] at h
  split at h <;> (try split at h) <;> (try split at h) <;> cases h <;> simp_all [Glyph.replacement]

/-- Characters that are shown in front of a text stand there. -/
theorem take_of_shown {cs : List Char} {t : Text} (h : cs <+: t.chars)
    (hcs : Glyph.replacement ∉ cs) : t.take cs.length = Text.ofChars cs := by
  induction cs generalizing t with
  | nil => rfl
  | cons c cs ih =>
    cases t with
    | nil => simp [Text.chars] at h
    | cons g t =>
      obtain ⟨hg, ht⟩ := List.cons_prefix_cons.mp h
      rw [List.mem_cons, not_or] at hcs
      rw [List.length_cons, List.take_succ_cons, ih ht hcs.2, eq_char_of_shown hg.symm (Ne.symm hcs.1)]
      rfl

theorem take_length_spanOf (p : Char → Bool) (t : Text) :
    t.take (spanOf p t).length = spanOf p t :=
  (List.prefix_iff_eq_take.mp (List.takeWhile_prefix _)).symm

theorem slice_number (g : Glyph) (rest : Text) :
    (number g rest).slice = g :: rest.take (number g rest).extra := by
  have hparts : ∃ fraction : Text,
      fraction <+: rest.drop (spanOf continuesNumber rest).length ∧
      (number g rest).slice = g :: spanOf continuesNumber rest ++ fraction ∧
      (number g rest).extra = (spanOf continuesNumber rest).length + fraction.length := by
    rw [number]
    generalize rest.drop (spanOf continuesNumber rest).length = after
    refine ⟨_, ?_, by dsimp only; split <;> rfl, by dsimp only; split <;> rfl⟩
    split
    · rename_i d more
      split
      · exact (List.prefix_append_right_inj [.char '.', d]).mpr (List.takeWhile_prefix _)
      · exact List.nil_prefix
    · exact List.nil_prefix
  obtain ⟨fraction, hfraction, hslice, hextra⟩ := hparts
  rw [hslice, hextra, List.take_add, take_length_spanOf, ← List.prefix_iff_eq_take.mp hfraction]
  rfl

/-- A token is stored with the text it takes.  Only a stray byte is stored as U+FFFD. -/
theorem slice_lexeme (g : Glyph) (rest : Text) :
    (lexeme g rest).slice = g :: rest.take (lexeme g rest).extra ∨
      (lexeme g rest).kind = .illegal ∧ (lexeme g rest).extra = 0 ∧ ∃ b, g = .stray b := by
  rw [lexeme.eq_def]
  split
  · rename_i kind s hsymbol
    obtain ⟨more, hs, hmore, hclean⟩ := spelled_symbol? hsymbol
    have hshown : s.toList <+: Text.chars (g :: rest) := by
      rw [hs]
      refine List.cons_prefix_cons.mpr ⟨rfl, hmore.trans ?_⟩
      rcases rest with _ | ⟨a, _ | ⟨b, rest⟩⟩ <;> simp
    have htake := take_of_shown hshown hclean
    rw [String.length_toList] at htake
    have hlength : s.length = s.length - 1 + 1 := by
      rw [← String.length_toList, hs]
      simp
    rw [hlength, List.take_succ_cons] at htake
    exact .inl htake.symm
  · split
    · exact .inl (by simp [quotedLexeme])
    · rename_i body _
      refine .inl ?_
      show [_, _] ++ body.take _ = _ :: (_ :: body).take (1 + _)
      rw [Nat.add_comm, List.take_succ_cons]
      rfl
    · split
      · exact .inl (congrArg (g :: ·) (take_length_spanOf continuesName rest).symm)
      · split
        · exact .inl (slice_number g rest)
        · cases g with
          | char c => exact .inl (by simp [Glyph.shown])
          | stray b => exact .inr ⟨rfl, rfl, b, rfl⟩

theorem kind_number_ne (g : Glyph) (rest : Text) : (number g rest).kind ≠ .eof := by
  unfold number
  extract_lets whole after fraction slice clean n value
  have hvalue : ∀ k l, value = some (k, l) → k ≠ .eof := by
    intro k l h
    by_cases hempty : fraction.isEmpty = true
    · simp only [value, hempty, if_true] at h
      split at h
      · cases h
        nofun
      · cases h
    · simp only [value, hempty, Bool.false_eq_true, if_false] at h
      obtain ⟨d, -, hkl⟩ := Option.map_eq_some_iff.mp h
      cases hkl
      nofun
  cases hv : value with
  | none => nofun
  | some e => exact hvalue e.1 e.2 hv

theorem kind_name_ne (cs : List Char) : TokenKind.ofName cs ≠ .eof := by
  rw [TokenKind.ofName.eq_def]
  split
  · rename_i k hk
    rw [TokenKind.keyword?.eq_def] at hk
    split at hk <;> cases hk <;> decide
  · split <;> (try split) <;> decide

/-- A lexeme is no end of input. -/
theorem kind_lexeme_ne (g : Glyph) (rest : Text) : (lexeme g rest).kind ≠ .eof := by
  have hquoted {kind : TokenKind} (hkind : kind ≠ .eof) (opening rest : Text) (body : QuotedBody) :
      (quotedLexeme kind opening rest body).kind ≠ .eof := by
    rw [quotedLexeme_kind_eq]
    split
    · exact hkind
    · decide
  rw [lexeme.eq_def]
  split
  · rename_i kind s hsymbol
    rw [symbol?.eq_def] at hsymbol
    split at hsymbol <;> (try split at hsymbol) <;> (try split at hsymbol) <;> cases hsymbol <;> decide
  · split
    · exact hquoted (by decide) _ _ _
    · exact hquoted (by decide) _ _ _
    · split
      · exact kind_name_ne _
      · split
        · exact kind_number_ne g rest
        · intro h
          cases h

/-! ### Places -/

theorem Cursor.advance_append (c : Cursor) (s t : Text) :
    c.advance (s ++ t) = (c.advance s).advance t :=
  List.foldl_append

theorem Cursor.offset_advance (c : Cursor) (t : Text) :
    (c.advance t).offset = c.offset + Text.width t :=
  (c.advance_le t).2.2

/-- A token that starts at a place. -/
structure Token.At (c : Cursor) (x : Token) : Prop where
  line : x.line = c.line
  column : x.column = c.column
  offset : x.offset = c.offset

/-- How a text that starts at `c` is laid out by its tokens. -/
inductive Layout : Cursor → Text → List Token → Prop
  | last {c : Cursor} {t : Text} : Trailing t → Layout c t []
  | token {c : Cursor} {gap rest : Text} {x : Token} {xs : List Token} :
    Gap (x.lexeme ++ rest) gap → x.At (c.advance gap) → x.kind ≠ .eof → x.lexeme ≠ [] →
    Layout (c.advance (gap ++ x.lexeme)) rest xs → Layout c (gap ++ x.lexeme ++ rest) (x :: xs)

/-- **The tokens of a text lay it out**, if none of them is illegal or the text has no stray byte. -/
theorem layout_tokensFrom (c : Cursor) (t : Text)
    (h : (∀ x ∈ (tokensFrom c t).1, x.kind ≠ .illegal) ∨ ∀ b, .stray b ∉ t) :
    Layout c t (tokensFrom c t).1 := by
  fun_induction tokensFrom c t with
  | case1 c t trivia start hsplit =>
    have hpassed := splitTrivia_gap t
    have happend := splitTrivia_append .blank t
    rw [hsplit] at hpassed happend
    rw [List.append_nil] at happend
    rw [happend] at hpassed
    rcases hpassed with hgap | ⟨-, htrailing⟩
    · exact .last (.inl hgap)
    · exact .last htrailing
  | case2 c t trivia start g rest hsplit l token r ih =>
    have hpassed := splitTrivia_gap t
    have happend : trivia ++ (splitTrivia .blank t).2 = t := splitTrivia_append .blank t
    rw [hsplit] at hpassed happend
    have hgap : Gap (g :: rest) trivia := hpassed.resolve_right fun h => List.cons_ne_nil _ _ h.1
    -- the stored slice is the text taken, because a stray byte is ruled out
    have hslice : l.slice = g :: rest.take l.extra := by
      refine (slice_lexeme g rest).resolve_right ?_
      rintro ⟨hkind, -, b, hb⟩
      rcases h with h | h
      · exact h token List.mem_cons_self hkind
      · apply h b
        rw [← happend, ← hb]
        exact List.mem_append_right _ List.mem_cons_self
    have hrest : g :: rest = l.slice ++ rest.drop l.extra := by
      rw [hslice, List.cons_append, List.take_append_drop]
    have hmore : Layout (start.advance (g :: rest.take l.extra)) (rest.drop l.extra) r.1 := by
      apply ih
      rcases h with h | h
      · exact .inl fun x hx => h x (List.mem_cons_of_mem _ hx)
      · refine .inr fun b hb => h b ?_
        rw [← happend]
        exact List.mem_append_right _ (List.mem_cons_of_mem _ (List.mem_of_mem_drop hb))
    rw [← hslice, ← Cursor.advance_append] at hmore
    rw [hrest] at hgap
    have hlayout : Layout c (trivia ++ l.slice ++ rest.drop l.extra) (token :: r.1) := by
      refine .token (x := token) hgap ⟨rfl, rfl, rfl⟩ (kind_lexeme_ne g rest) ?_ hmore
      show l.slice ≠ []
      rw [hslice]
      exact List.cons_ne_nil _ _
    rwa [List.append_assoc, ← hrest, happend] at hlayout

end PatternPlan
