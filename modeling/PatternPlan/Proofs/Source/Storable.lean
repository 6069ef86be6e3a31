import PatternPlan.Proofs.Source.Sound

/-!
# Numbers that fit their words

The numbers of a source (offsets, lines, columns and constants) fit words of 64 bits, unless the
source is larger than any memory, and its lines and columns fit words of 32 bits, unless it is larger
than any message.

* `Span.Storable`, `Literal.Storable` — spans and constants whose numbers fit a word;
* `Limits` — what is asked of the places and the lists of a file; `Limits.word` asks for words of 64
  bits, `Limits.half` for lines, columns and lists that fit words of 32 bits;
* `Token.Meets` — the same for the place of a token, which must have the value of its kind;
* `within_lex` — a source is at least as long as its tokens, lines and columns are many;
* `meets_lex` — **the tokens of every source keep to the limits**, unless it is too long.
-/

namespace PatternPlan

/-! ### Spans and constants -/

/-- A span whose numbers fit a word. -/
structure Span.Storable (s : Span) : Prop where
  start : fitsInt64 s.start = true
  stop : fitsInt64 s.stop = true
  line : fitsInt64 s.line = true
  column : fitsInt64 s.column = true

/-- The least span that covers two spans has no number that they do not have. -/
theorem Span.Storable.join {s t : Span} (hs : s.Storable) (ht : t.Storable) : (s.join t).Storable := by
  rw [Span.join]
  split
  · exact hs
  · dsimp only
    split <;> split
    · exact ⟨ht.start, ht.stop, ht.line, ht.column⟩
    · exact ⟨ht.start, hs.stop, ht.line, ht.column⟩
    · exact ⟨hs.start, ht.stop, hs.line, hs.column⟩
    · exact hs

/-- A constant whose number, if it is one, fits a word. -/
def Literal.Storable : Literal → Prop
  | .int i => fitsInt64 i = true
  | .float d => d.Canonical
  | _ => True

theorem Literal.Signed.storable {v : Literal} (h : v.Signed) : v.Storable := by
  cases v with
  | int i =>
    have hrange : i.natAbs < 2 ^ 63 := h
    show fitsInt64 i = true
    rw [fitsInt64, Bool.and_eq_true, decide_eq_true_eq, decide_eq_true_eq]
    omega
  | float d => exact h
  | _ => trivial

/-! ### Limits -/

/-- What is asked of the places and of the lists of a file.  A place that covers two others is as
good as they are. -/
structure Limits where
  place : Span → Prop
  join : ∀ {s t : Span}, place s → place t → place (s.join t)
  count : Nat

/-- Numbers of 64 bits. -/
def Limits.word : Limits := ⟨Span.Storable, Span.Storable.join, 2 ^ 60⟩

/-- A span whose position fits words of 32 bits. -/
structure Span.Sendable (s : Span) : Prop where
  line : fitsUInt32 s.line = true
  column : fitsUInt32 s.column = true

theorem Span.Sendable.join {s t : Span} (hs : s.Sendable) (ht : t.Sendable) :
    (s.join t).Sendable := by
  rw [Span.join]
  split
  · exact hs
  · dsimp only
    split <;> split
    · exact ⟨ht.line, ht.column⟩
    · exact ⟨ht.line, ht.column⟩
    · exact ⟨hs.line, hs.column⟩
    · exact hs

/-- Positions and lists of 32 bits. -/
def Limits.half : Limits := ⟨Span.Sendable, Span.Sendable.join, 2 ^ 32 - 1⟩

/-- A token at a good place, whose value is that of its kind. -/
structure Token.Meets (L : Limits) (t : Token) : Prop where
  span : L.place t.span
  sound : t.Sound

theorem Token.Meets.constant {L : Limits} {t : Token} (h : t.Meets L)
    (hk : t.kind ∈ TokenKind.constants) : (t.value.getD .unit).Storable :=
  (h.sound.constant hk).1.signed.storable

/-! ### Places -/

namespace Text

theorem length_le_width (t : Text) : t.length ≤ width t := by
  induction t with
  | nil => exact Nat.le_refl _
  | cons g t ih =>
    have hpos : 0 < g.width := by
      cases g with
      | char c => exact c.utf8Size_pos
      | stray b => exact Nat.one_pos
    rw [List.length_cons, width_cons]
    omega

theorem width_le_length (t : Text) : width t ≤ 4 * t.length := by
  induction t with
  | nil => exact Nat.le_refl _
  | cons g t ih =>
    have hle : g.width ≤ 4 := by
      cases g with
      | char c => exact c.utf8Size_le_four
      | stray b => show 1 ≤ 4; decide
    rw [List.length_cons, width_cons]
    omega

end Text

/-- The place behind a text: it is at most as many lines and columns further as the text is long. -/
theorem Cursor.advance_le (c : Cursor) (t : Text) :
    (c.advance t).line ≤ c.line + t.length ∧ (c.advance t).column ≤ c.column + t.length ∧
      (c.advance t).offset = c.offset + Text.width t := by
  induction t generalizing c with
  | nil => exact ⟨Nat.le_refl _, Nat.le_refl _, rfl⟩
  | cons g t ih =>
    have hrest := ih (c.step g)
    have hstep : (c.step g).line ≤ c.line + 1 ∧ (c.step g).column ≤ c.column + 1 ∧
        (c.step g).offset = c.offset + g.width := by
      rw [Cursor.step]
      split
      · exact ⟨Nat.le_refl _, Nat.le_add_left _ _, rfl⟩
      · exact ⟨Nat.le_succ _, Nat.le_refl _, rfl⟩
    show ((c.step g).advance t).line ≤ _ ∧ ((c.step g).advance t).column ≤ _ ∧
      ((c.step g).advance t).offset = _
    rw [List.length_cons, Text.width_cons]
    omega

theorem length_spanOf_le (p : Char → Bool) (t : Text) : (spanOf p t).length ≤ t.length :=
  (List.takeWhile_sublist _).length_le

theorem length_symbol?_le {c : Char} {next after : Option Char} {k : TokenKind} {s : String}
    (h : symbol? c next after = some (k, s)) : s.length ≤ 3 := by
  rw [symbol?.eq_def] at h
  split at h <;> (try split at h) <;> (try split at h) <;> cases h <;> decide

theorem length_number_le (g : Glyph) (rest : Text) :
    (number g rest).slice.length ≤ rest.length + 3 := by
  have hwhole := length_spanOf_le continuesNumber rest
  have hslice : ∃ fraction : Text, (number g rest).slice = g :: spanOf continuesNumber rest ++ fraction ∧
      fraction.length ≤ (rest.drop (spanOf continuesNumber rest).length).length := by
    rw [number]
    generalize rest.drop (spanOf continuesNumber rest).length = after
    refine ⟨_, by dsimp only; split <;> rfl, ?_⟩
    split
    · split
      · have hlength := length_spanOf_le continuesNumber ‹Text›
        rw [List.length_cons, List.length_cons, List.length_cons, List.length_cons]
        omega
      · exact Nat.zero_le _
    · exact Nat.zero_le _
  obtain ⟨fraction, hslice, hfraction⟩ := hslice
  rw [List.length_drop] at hfraction
  rw [hslice, List.length_append, List.length_cons]
  omega

/-- A lexeme is not much longer than the text it stands in. -/
theorem length_lexeme_le (g : Glyph) (rest : Text) :
    (lexeme g rest).slice.length ≤ rest.length + 3 := by
  rw [lexeme.eq_def]
  split
  · rename_i kind s hsymbol
    have hlength := length_symbol?_le hsymbol
    show (Text.ofString s).length ≤ _
    rw [Text.ofString, List.length_map, String.length_toList]
    omega
  · split
    · show ([_] ++ rest.take _ : Text).length ≤ _
      rw [List.length_append, List.length_take, List.length_singleton]
      omega
    · rename_i body _
      show ([_, _] ++ body.take _ : Text).length ≤ _
      rw [List.length_append, List.length_take]
      simp only [List.length_cons, List.length_nil]
      omega
    · split
      · have hlength := length_spanOf_le continuesName rest
        show (_ :: spanOf continuesName rest).length ≤ _
        rw [List.length_cons]
        omega
      · split
        · exact length_number_le g rest
        · show ([_] : Text).length ≤ _
          rw [List.length_singleton]
          omega

/-- A token that stands in a text of a given size, from a place on. -/
structure Token.Within (c : Cursor) (length width : Nat) (t : Token) : Prop where
  line : t.line ≤ c.line + length
  column : t.column ≤ c.column + length
  offset : t.offset ≤ c.offset + width
  slice : t.lexeme.length ≤ length + 3

/-- The tokens of a text stand in it, each takes a glyph at least, and the text ends in it. -/
theorem within_tokensFrom (c : Cursor) (t : Text) :
    (∀ x ∈ (tokensFrom c t).1, x.Within c t.length (Text.width t)) ∧
      (tokensFrom c t).1.length ≤ t.length ∧
      (tokensFrom c t).2.line ≤ c.line + t.length ∧
      (tokensFrom c t).2.column ≤ c.column + t.length := by
  fun_induction tokensFrom c t with
  | case1 c t trivia start hsplit =>
    have happend : trivia ++ (splitTrivia .blank t).2 = t := splitTrivia_append .blank t
    have hlength := congrArg List.length happend
    have hstart := c.advance_le trivia
    rw [List.length_append] at hlength
    refine ⟨fun x hx => ?_, Nat.zero_le _, ?_, ?_⟩
    · cases hx
    · exact Nat.le_trans hstart.1 (by omega)
    · exact Nat.le_trans hstart.2.1 (by omega)
  | case2 c t trivia start g rest hsplit l token r ih =>
    have happend : trivia ++ g :: rest = t := hsplit ▸ splitTrivia_append .blank t
    have hlength := congrArg List.length happend
    have hwidth := congrArg Text.width happend
    rw [List.length_append, List.length_cons] at hlength
    rw [Text.width_append, Text.width_cons] at hwidth
    have hstart : start.line ≤ _ ∧ start.column ≤ _ ∧ start.offset = _ := c.advance_le trivia
    have hslice : l.slice.length ≤ rest.length + 3 := length_lexeme_le g rest
    -- where reading goes on
    have hafter := start.advance_le (g :: rest.take l.extra)
    have hrest : (rest.take l.extra).length + (rest.drop l.extra).length = rest.length := by
      rw [← List.length_append, List.take_append_drop]
    have hrestWidth : Text.width (rest.take l.extra) + Text.width (rest.drop l.extra)
        = Text.width rest := by
      rw [← Text.width_append, List.take_append_drop]
    rw [List.length_cons, Text.width_cons] at hafter
    obtain ⟨hmore, hcount, hline, hcolumn⟩ :
        (∀ x ∈ r.1, x.Within _ _ _) ∧ r.1.length ≤ _ ∧ r.2.line ≤ _ ∧ r.2.column ≤ _ := ih
    refine ⟨?_, ?_, ?_, ?_⟩
    · intro x hx
      rcases List.mem_cons.mp hx with rfl | hx
      · refine ⟨?_, ?_, ?_, ?_⟩
        · show start.line ≤ _
          omega
        · show start.column ≤ _
          omega
        · show start.offset ≤ _
          omega
        · show l.slice.length ≤ _
          omega
      · obtain ⟨hl, hc, ho, hs⟩ := hmore x hx
        exact ⟨by omega, by omega, by omega, by omega⟩
    · show r.1.length + 1 ≤ _
      omega
    · show r.2.line ≤ _
      omega
    · show r.2.column ≤ _
      omega

theorem fitsInt64_ofNat {n : Nat} (h : n < 2 ^ 63) : fitsInt64 (n : Int) = true := by
  rw [fitsInt64, Bool.and_eq_true, decide_eq_true_eq, decide_eq_true_eq]
  omega

theorem fitsUInt32_ofNat {n : Nat} (h : n < 2 ^ 32) : fitsUInt32 (n : Int) = true := by
  rw [fitsUInt32, Bool.and_eq_true, decide_eq_true_eq, decide_eq_true_eq]
  omega

theorem Token.Within.mono {c : Cursor} {length width n : Nat} {t : Token}
    (h : t.Within c length width) (hlength : length ≤ n) (hwidth : width ≤ n) : t.Within c n n :=
  ⟨Nat.le_trans h.line (by omega), Nat.le_trans h.column (by omega),
    Nat.le_trans h.offset (by omega), Nat.le_trans h.slice (by omega)⟩

theorem Token.Within.storable {n : Nat} {t : Token} (h : t.Within {} n n) (hn : n < 2 ^ 60) :
    t.span.Storable := by
  obtain ⟨hline, hcolumn, hoffset, hslice⟩ := h
  have hstop : t.stop ≤ t.offset + 4 * t.lexeme.length :=
    Nat.add_le_add_left (Text.width_le_length t.lexeme) _
  change t.line ≤ 1 + n at hline
  change t.column ≤ 1 + n at hcolumn
  change t.offset ≤ 0 + n at hoffset
  exact ⟨fitsInt64_ofNat (by omega), fitsInt64_ofNat (by omega), fitsInt64_ofNat (by omega),
    fitsInt64_ofNat (by omega)⟩

theorem Token.Within.sendable {n : Nat} {t : Token} (h : t.Within {} n n) (hn : n < 2 ^ 32 - 1) :
    t.span.Sendable := by
  have hline : t.line ≤ 1 + n := h.line
  have hcolumn : t.column ≤ 1 + n := h.column
  exact ⟨fitsUInt32_ofNat (by omega), fitsUInt32_ofNat (by omega)⟩

/-- **The tokens of a source stand in it**, and there are no more of them than bytes. -/
theorem within_lex (source : Text) :
    (∀ t ∈ (lex source).tokens, t.Within {} (Text.width source) (Text.width source)) ∧
      (lex source).eof.Within {} (Text.width source) (Text.width source) ∧
      (lex source).tokens.length ≤ Text.width source := by
  have hvisible : Text.width (Source.visible source) ≤ Text.width source := by
    have happend : Source.visible source ++ source.dropWhile (fun g => g ≠ .char '\x00') = source :=
      List.takeWhile_append_dropWhile
    have hwidth := congrArg Text.width happend
    rw [Text.width_append] at hwidth
    omega
  have hlength := Text.length_le_width (Source.visible source)
  obtain ⟨htokens, hcount, hline, hcolumn⟩ := within_tokensFrom {} (Source.visible source)
  refine ⟨fun t ht => (htokens t ht).mono (by omega) hvisible, ?_, ?_⟩
  · exact ⟨Nat.le_trans hline (by omega), Nat.le_trans hcolumn (by omega),
      Nat.le_of_eq (Nat.zero_add _).symm, Nat.zero_le _⟩
  · show (tokensFrom {} (Source.visible source)).1.length ≤ _
    omega

/-- The limits that a source of `n` bytes keeps to. -/
structure Limits.Admits (L : Limits) (n : Nat) : Prop where
  place : ∀ t : Token, t.Within {} n n → L.place t.span
  count : n < L.count

theorem Limits.word_admits {n : Nat} (h : n < 2 ^ 60) : Limits.word.Admits n :=
  ⟨fun _ ht => ht.storable h, h⟩

theorem Limits.half_admits {n : Nat} (h : n < 2 ^ 32 - 1) : Limits.half.Admits n :=
  ⟨fun _ ht => ht.sendable h, h⟩

/-- **The tokens of a source keep to the limits**, unless it is too long. -/
theorem meets_lex {L : Limits} {source : Text} (h : L.Admits (Text.width source)) :
    (∀ t ∈ (lex source).tokens, t.Meets L) ∧ (lex source).eof.Meets L ∧
      (lex source).tokens.length < L.count := by
  obtain ⟨htokens, heof, hcount⟩ := within_lex source
  refine ⟨fun t ht => ?_, ?_, Nat.lt_of_le_of_lt hcount h.count⟩
  · exact ⟨h.place t (htokens t ht), sound_lex source t ht⟩
  · exact ⟨h.place _ heof, .inl rfl⟩

end PatternPlan
