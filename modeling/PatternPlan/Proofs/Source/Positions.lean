import Mathlib.Data.List.TakeWhile
import PatternPlan.Proofs.Source.Layout

/-!
# Where tokens stand, and what stands between them

* `Cursor.advance_chars` — line, column and offset of a place, counted from the characters in front
  of it;
* `Layout.places`, `Layout.pairwise` — each token of a laid out text stands where it says, behind
  the one before it;
* `lex_positions` — **the positions of the tokens of a source are exact**;
* `Layout.covers` — a byte of a laid out text is in a token or in a piece that was passed over;
* `lex_loses` — **text is lost in two ways only**: in a comment that is not closed, and behind NUL;
* `lex_loses_silently` — both happen, and no token tells of it.
-/

namespace PatternPlan

/-! ### Places, counted from the start -/

/-- The place behind characters: their line breaks, how many stand behind the last of them, their
bytes. -/
theorem Cursor.advance_chars (cs : List Char) :
    ({} : Cursor).advance (cs.map .char) = ⟨1 + cs.count '\n',
      1 + (cs.reverse.takeWhile (· ≠ '\n')).length, (String.ofList cs).utf8ByteSize⟩ := by
  induction cs using List.reverseRecOn with
  | nil => rfl
  | append_singleton cs c ih =>
    rw [List.map_append, Cursor.advance_append, ih, List.count_append, List.reverse_append,
      String.ofList_append, String.utf8ByteSize_append]
    have hsize : (String.ofList [c]).utf8ByteSize = c.utf8Size := by
      rw [← String.singleton_eq_ofList, String.utf8ByteSize_singleton]
    show Cursor.step _ (.char c) = _
    rw [Cursor.step, hsize]
    by_cases hnewline : c = '\n'
    · simp [hnewline, Nat.add_assoc, Glyph.width]
    · simp [hnewline, Nat.add_comm, Glyph.width]

variable {c : Cursor} {t : Text} {xs : List Token}

/-- Each token stands in the text, at the place behind what is in front of it. -/
theorem Layout.places (h : Layout c t xs) : ∀ x ∈ xs, x.kind ≠ .eof ∧ x.lexeme ≠ [] ∧
    ∃ before after, t = before ++ x.lexeme ++ after ∧ x.At (c.advance before) := by
  induction h with
  | last => nofun
  | @token c gap rest x xs hgap hat hkind hne hrest ih =>
    intro y hy
    rcases List.mem_cons.mp hy with rfl | hy
    · exact ⟨hkind, hne, gap, rest, rfl, hat⟩
    · obtain ⟨hkind, hne, before, after, rfl, hat⟩ := ih y hy
      refine ⟨hkind, hne, gap ++ x.lexeme ++ before, after, by simp, ?_⟩
      rwa [Cursor.advance_append c (gap ++ x.lexeme)]

theorem Token.At.offset_append {x : Token} {s : Text} (h : x.At (c.advance s)) :
    x.offset = c.offset + Text.width s :=
  h.offset.trans (Cursor.offset_advance c s)

/-- Tokens stand behind the place where the text starts. -/
theorem Layout.offset_le (h : Layout c t xs) : ∀ x ∈ xs, c.offset ≤ x.offset := by
  intro x hx
  obtain ⟨-, -, before, -, -, hat⟩ := h.places x hx
  rw [hat.offset_append]
  omega

/-- Tokens stand in front of the place where the text ends. -/
theorem Layout.offset_lt (h : Layout c t xs) : ∀ x ∈ xs, x.offset < c.offset + Text.width t := by
  intro x hx
  obtain ⟨-, hne, before, after, rfl, hat⟩ := h.places x hx
  have hpos := Nat.lt_of_lt_of_le (List.length_pos_iff.mpr hne) (Text.length_le_width x.lexeme)
  rw [hat.offset_append, Text.width_append, Text.width_append]
  omega

theorem Layout.pairwise (h : Layout c t xs) : xs.Pairwise fun x y => x.stop ≤ y.offset := by
  induction h with
  | last => exact .nil
  | @token c gap rest x xs hgap hat hkind hne hrest ih =>
    refine .cons ?_ ih
    intro y hy
    have hy := hrest.offset_le y hy
    rw [Cursor.offset_advance, Text.width_append] at hy
    rw [Token.stop, hat.offset_append]
    omega

/-! ### Positions of the tokens of a source -/

theorem visible_of_not_mem (h : .char '\x00' ∉ t) : Source.visible t = t := by
  apply List.takeWhile_eq_self_iff.mpr
  intro g hg
  rw [decide_eq_true_eq]
  rintro rfl
  exact h hg

theorem visible_ofString {s : String} (h : '\x00' ∉ s.toList) :
    Source.visible (.ofString s) = .ofString s := by
  refine visible_of_not_mem fun hmem => h ?_
  obtain ⟨c, hc, hnul⟩ := List.mem_map.mp hmem
  cases hnul
  exact hc

/-- A piece of a text, in bytes. -/
theorem bytes_extract {s u v : Text} {i : Nat} (hi : i = Text.width s) :
    u.bytes = (Text.bytes (s ++ u ++ v)).extract i (i + Text.width u) := by
  rw [List.extract_eq_take_drop, hi, Text.width_eq, Text.width_eq, List.append_assoc,
    Text.bytes_append, Text.bytes_append, List.drop_left, Nat.add_sub_cancel_left, List.take_left]

/-- **Token positions are exact.**  A string is read from its bytes, none of which is NUL. -/
theorem lex_positions (source : String) (hnul : 0 ∉ source.toUTF8.data.toList) :
    let bytes := source.toUTF8.data.toList
    let l := lex (Text.ofBytes bytes)
    (∀ x ∈ l.tokens, x.kind ≠ .eof ∧ x.lexeme ≠ [] ∧
      x.lexeme.bytes = bytes.extract x.offset x.stop ∧
      ∃ before after : List Char, source.toList = before ++ after ∧
        x.offset = (String.ofList before).utf8ByteSize ∧
        x.line = 1 + before.count '\n' ∧
        x.column = 1 + (before.reverse.takeWhile (· ≠ '\n')).length) ∧
    l.tokens.Pairwise (fun x y => x.stop ≤ y.offset) ∧
    l.eof.kind = .eof ∧ l.eof.offset = bytes.length := by
  intro bytes l
  have htext : Text.ofBytes bytes = source.toList.map .char := Text.ofBytes_toUTF8 source
  have hbytes : Text.bytes (source.toList.map .char) = bytes := by
    rw [← htext, Text.bytes_ofBytes]
  have hlayout : Layout {} (source.toList.map .char) l.tokens := by
    have hvisible : Source.visible (Text.ofBytes bytes) = source.toList.map .char := by
      rw [htext]
      apply visible_of_not_mem
      intro hmem
      apply hnul
      show 0 ∈ bytes
      rw [← hbytes]
      exact List.mem_flatMap.mpr ⟨_, hmem, List.mem_singleton_self _⟩
    show Layout {} _ (tokensFrom {} (Source.visible (Text.ofBytes bytes))).1
    rw [hvisible]
    exact layout_tokensFrom _ _ (.inr (by simp))
  refine ⟨?_, hlayout.pairwise, rfl, ?_⟩
  · intro x hx
    obtain ⟨hkind, hne, pre, post, happend, hat⟩ := hlayout.places x hx
    refine ⟨hkind, hne, ?_, ?_⟩
    · have hoffset : x.offset = Text.width pre := by
        rw [hat.offset_append]
        exact Nat.zero_add _
      rw [← hbytes, happend]
      exact bytes_extract hoffset
    · rw [List.append_assoc] at happend
      obtain ⟨before, after, hsource, rfl, -⟩ := List.map_eq_append_iff.mp happend
      rw [Cursor.advance_chars] at hat
      exact ⟨before, after, hsource, hat.offset, hat.line, hat.column⟩
  · show Text.width (Text.ofBytes bytes) = _
    rw [Text.width_eq, Text.bytes_ofBytes]

/-- A comment over two lines, a character of two bytes and a string that holds a line break. -/
theorem lex_positions_lines :
    0 ∉ "/* é\n */ x \"a\nb\" -> y".toUTF8.data.toList ∧
    (lex (Text.ofBytes "/* é\n */ x \"a\nb\" -> y".toUTF8.data.toList)).tokens.Pairwise
      (fun x y => x.stop ≤ y.offset) ∧
    (lex (Text.ofBytes "/* é\n */ x \"a\nb\" -> y".toUTF8.data.toList)).eof.offset = 22 := by
  have hnul : 0 ∉ "/* é\n */ x \"a\nb\" -> y".toUTF8.data.toList := by
    rw [Text.toUTF8_toList]
    decide
  obtain ⟨-, hpairwise, -, heof⟩ := lex_positions _ hnul
  refine ⟨hnul, hpairwise, heof.trans ?_⟩
  rw [Text.toUTF8_toList]
  decide

example : (lex (.ofString "/* é\n */ x \"a\nb\" -> y")).tokens.map
    (fun x => (x.line, x.column, x.offset, x.stop)) =
      [(2, 5, 10, 11), (2, 7, 12, 17), (3, 4, 18, 20), (3, 7, 21, 22)] := by
  decide +kernel

/-! ### What stands between tokens -/

/-- A byte of a gap is in one of its pieces. -/
theorem Gap.covers {after : Text} (h : Gap after t) {i : Nat} (hi : i < Text.width t) :
    ∃ before piece more, t = before ++ piece ++ more ∧ Skipped (more ++ after) piece ∧
      Text.width before ≤ i ∧ i < Text.width before + Text.width piece := by
  induction h generalizing i with
  | nil => cases hi
  | @cons piece more hpiece hmore ih =>
    rw [Text.width_append] at hi
    by_cases hin : i < Text.width piece
    · exact ⟨[], piece, more, rfl, hpiece, Nat.zero_le _, by simpa using hin⟩
    · obtain ⟨before, inner, behind, rfl, hinner, hlow, hhigh⟩ :=
        ih (show i - Text.width piece < _ by omega)
      refine ⟨piece ++ before, inner, behind, by simp, hinner, ?_, ?_⟩
      all_goals
        rw [Text.width_append]
        omega

/-- What is passed over in a text: a piece that is skipped, or an unclosed comment that runs to the
end of the text. -/
def Lost (after piece : Text) : Prop := Skipped after piece ∨ after = [] ∧ Unclosed piece

/-- A byte behind the last token is in a piece that is passed over. -/
theorem Trailing.covers (h : Trailing t) {i : Nat} (hi : i < Text.width t) :
    ∃ before piece more, t = before ++ piece ++ more ∧ Lost more piece ∧
      Text.width before ≤ i ∧ i < Text.width before + Text.width piece := by
  rcases h with hgap | ⟨gap, comment, rfl, hgap, hcomment⟩
  · obtain ⟨before, piece, more, rfl, hpiece, hplace⟩ := hgap.covers hi
    rw [List.append_nil] at hpiece
    exact ⟨before, piece, more, rfl, .inl hpiece, hplace⟩
  · rw [Text.width_append] at hi
    by_cases hin : i < Text.width gap
    · obtain ⟨before, piece, more, rfl, hpiece, hplace⟩ := hgap.covers hin
      exact ⟨before, piece, more ++ comment, by simp, .inl hpiece, hplace⟩
    · exact ⟨gap, comment, [], by simp, .inr ⟨rfl, hcomment⟩, by omega, by omega⟩

/-- **A byte of a laid out text is in a token, or in a piece between tokens that was passed over.** -/
theorem Layout.covers (h : Layout c t xs) {i : Nat} (hlow : c.offset ≤ i)
    (hhigh : i < c.offset + Text.width t) :
    (∃ x ∈ xs, x.offset ≤ i ∧ i < x.stop) ∨
      ∃ before piece after, t = before ++ piece ++ after ∧ Lost after piece ∧
        c.offset + Text.width before ≤ i ∧ i < c.offset + Text.width before + Text.width piece ∧
        ∀ x ∈ xs, x.stop ≤ c.offset + Text.width before ∨
          c.offset + Text.width before + Text.width piece ≤ x.offset := by
  induction h with
  | @last c t htrailing =>
    obtain ⟨before, piece, more, rfl, hpiece, hplace⟩ :=
      htrailing.covers (show i - c.offset < _ by omega)
    exact .inr ⟨before, piece, more, rfl, hpiece, by omega, by omega, nofun⟩
  | @token c gap rest x xs hgap hat hkind hne hrest ih =>
    have hoffset := hat.offset_append
    have hstop : x.stop = x.offset + Text.width x.lexeme := rfl
    have hnext : (c.advance (gap ++ x.lexeme)).offset = x.stop := by
      rw [Cursor.offset_advance, Text.width_append]
      omega
    rw [Text.width_append, Text.width_append] at hhigh
    by_cases hgapped : i < c.offset + Text.width gap
    · -- in the gap in front of the token
      obtain ⟨before, piece, more, rfl, hpiece, hplace⟩ :=
        hgap.covers (show i - c.offset < _ by omega)
      rw [Text.width_append, Text.width_append] at hoffset
      refine .inr ⟨before, piece, more ++ (x.lexeme ++ rest), by simp, .inl hpiece, by omega, by omega, ?_⟩
      intro y hy
      rcases List.mem_cons.mp hy with rfl | hy
      · omega
      · have hbehind := hrest.offset_le y hy
        omega
    · by_cases htaken : i < x.stop
      · exact .inl ⟨x, List.mem_cons_self, by omega, htaken⟩
      · -- behind the token
        rcases ih (by omega) (by omega) with ⟨y, hy, hin⟩ | ⟨before, piece, after, rfl, hpiece, hfrom, hto, hapart⟩
        · exact .inl ⟨y, List.mem_cons_of_mem _ hy, hin⟩
        · have hwidth : Text.width (gap ++ x.lexeme ++ before) =
              Text.width gap + Text.width x.lexeme + Text.width before := by
            rw [Text.width_append, Text.width_append]
          refine .inr ⟨gap ++ x.lexeme ++ before, piece, after, by simp, hpiece, by omega, by omega, ?_⟩
          intro y hy
          rcases List.mem_cons.mp hy with rfl | hy
          · omega
          · have hy := hapart y hy
            omega

/-- A source is what is read of it, and what stands behind starts with NUL. -/
theorem exists_unread (t : Text) :
    ∃ rest, t = Source.visible t ++ rest ∧ ∀ g ∈ rest.head?, g = .char '\x00' := by
  refine ⟨t.dropWhile (fun g => g ≠ .char '\x00'), List.takeWhile_append_dropWhile.symm, ?_⟩
  intro g hg
  have hfirst := List.head?_dropWhile_not (fun g : Glyph => g ≠ .char '\x00') t
  rw [Option.mem_def.mp hg] at hfirst
  simpa using hfirst

/-- The bytes behind what is read of a source have a NUL in front of them. -/
theorem nul_of_visible_le {bytes : List UInt8} {i : Nat} (hi : i < bytes.length)
    (h : Text.width (Source.visible (Text.ofBytes bytes)) ≤ i) : ∃ j ≤ i, bytes[j]? = some 0 := by
  obtain ⟨rest, happend, hnul⟩ := exists_unread (Text.ofBytes bytes)
  have hbytes := congrArg Text.bytes happend
  rw [Text.bytes_append, Text.bytes_ofBytes] at hbytes
  rw [Text.width_eq] at h
  generalize Text.bytes (Source.visible (Text.ofBytes bytes)) = front at hbytes h
  refine ⟨front.length, h, ?_⟩
  cases rest with
  | nil =>
    rw [hbytes, show Text.bytes [] = [] from rfl, List.append_nil] at hi
    omega
  | cons g rest =>
    rw [hbytes, hnul g rfl, List.getElem?_append_right (Nat.le_refl _), Nat.sub_self]
    rfl

/-- Byte `i` of a source is in a piece that no token touches, and `P` holds of the piece and of what
follows it. -/
def Between (bytes : List UInt8) (i : Nat) (P : Text → Text → Prop) : Prop :=
  ∃ before piece after, Text.ofBytes bytes = before ++ piece ++ after ∧ P after piece ∧
    Text.width before ≤ i ∧ i < Text.width before + Text.width piece ∧
    ∀ x ∈ (lex (Text.ofBytes bytes)).tokens,
      x.stop ≤ Text.width before ∨ Text.width before + Text.width piece ≤ x.offset

/-- Byte `i` of a source is in a token, or in a blank or a comment between tokens. -/
def Kept (bytes : List UInt8) (i : Nat) : Prop :=
  (∃ x ∈ (lex (Text.ofBytes bytes)).tokens, x.offset ≤ i ∧ i < x.stop) ∨ Between bytes i Skipped

/-- Byte `i` of a source is in a comment that nothing closes. -/
def InUnclosed (bytes : List UInt8) (i : Nat) : Prop :=
  Between bytes i fun after piece => Unclosed piece ∧ ∀ g ∈ after.head?, g = .char '\x00'

/-- A piece that is passed over in front of the first NUL is also passed over in the whole source: a
comment to the end of its line then goes on behind the NUL. -/
theorem Skipped.extend {after piece : Text} (rest : Text) (h : Skipped after piece) :
    ∃ tail behind, after ++ rest = tail ++ behind ∧ Skipped behind (piece ++ tail) ∧
      (tail = [] ∨ after = []) := by
  cases h with
  | blank hblank => exact ⟨[], after ++ rest, rfl, .blank hblank, .inl rfl⟩
  | block hbody =>
    refine ⟨[], after ++ rest, rfl, ?_, .inl rfl⟩
    rw [List.append_nil]
    exact .block hbody
  | @line body hbody hhead =>
    cases after with
    | cons g after =>
      refine ⟨[], g :: after ++ rest, rfl, ?_, .inl rfl⟩
      rw [List.append_nil]
      exact .line hbody hhead
    | nil =>
      refine ⟨rest.takeWhile (· ≠ .char '\n'), rest.dropWhile (· ≠ .char '\n'),
        List.takeWhile_append_dropWhile.symm, ?_, .inr rfl⟩
      show Skipped _ (.char '/' :: .char '/' :: (body ++ _))
      apply Skipped.line
      · rw [List.mem_append, not_or]
        refine ⟨hbody, ?_⟩
        intro hmem
        simpa using List.mem_takeWhile_imp hmem
      · intro g hg
        have hfirst := List.head?_dropWhile_not (fun g : Glyph => g ≠ .char '\n') rest
        rw [Option.mem_def.mp hg] at hfirst
        simpa using hfirst

/-- **What lexing loses.**  If no token is illegal, every byte of a source is in a token, or in a
blank or a comment between tokens, or it is lost: in a comment that nothing closes, or behind NUL. -/
theorem lex_loses (bytes : List UInt8)
    (h : ∀ x ∈ (lex (Text.ofBytes bytes)).tokens, x.kind ≠ .illegal) (i : Nat) (hi : i < bytes.length) :
    Kept bytes i ∨ InUnclosed bytes i ∨ ∃ j ≤ i, bytes[j]? = some 0 := by
  by_cases hread : i < Text.width (Source.visible (Text.ofBytes bytes))
  · obtain ⟨rest, happend, hnul⟩ := exists_unread (Text.ofBytes bytes)
    have hlayout : Layout {} (Source.visible (Text.ofBytes bytes)) (lex (Text.ofBytes bytes)).tokens :=
      layout_tokensFrom {} _ (.inl h)
    have hwithin := hlayout.offset_lt
    have hcovers := hlayout.covers (Nat.zero_le i) (by rwa [Nat.zero_add])
    simp only [Nat.zero_add] at hcovers hwithin
    rcases hcovers with hin | ⟨before, piece, after, hvisible, hpiece, hfrom, hto, hapart⟩
    · exact .inl (.inl hin)
    rw [hvisible] at happend hwithin
    rcases hpiece with hskipped | ⟨rfl, hunclosed⟩
    · obtain ⟨tail, behind, hafter, hskipped, hend⟩ := hskipped.extend rest
      refine .inl (.inr ⟨before, piece ++ tail, behind, ?_, hskipped, hfrom, ?_, ?_⟩)
      · rw [happend]
        simp [hafter]
      · rw [Text.width_append]
        omega
      · intro x hx
        rcases hend with rfl | rfl
        · rw [List.append_nil]
          exact hapart x hx
        · -- nothing is read behind the comment, so all tokens stand in front of it
          refine .inl ((hapart x hx).resolve_right ?_)
          have hlt := hwithin x hx
          rw [List.append_nil, Text.width_append] at hlt
          omega
    · rw [List.append_nil] at happend
      exact .inr (.inl ⟨before, piece, rest, happend, ⟨hunclosed, hnul⟩, hfrom, hto, hapart⟩)
  · exact .inr (.inr (nul_of_visible_le hi (by omega)))

/-- `1//2`, a line break and `/**/`: a number with a comment behind it, and a comment that is closed. -/
theorem lex_loses_closed :
    (∀ x ∈ (lex (Text.ofBytes [49, 47, 47, 50, 10, 47, 42, 42, 47])).tokens, x.kind ≠ .illegal) ∧
    6 < [49, 47, 47, 50, 10, 47, 42, 42, 47].length ∧
    (Kept [49, 47, 47, 50, 10, 47, 42, 42, 47] 6 ∨ InUnclosed [49, 47, 47, 50, 10, 47, 42, 42, 47] 6 ∨
      ∃ j ≤ 6, [49, 47, 47, 50, 10, 47, 42, 42, 47][j]? = some (0 : UInt8)) := by
  have hlegal : ∀ x ∈ (lex (Text.ofBytes [49, 47, 47, 50, 10, 47, 42, 42, 47])).tokens,
      x.kind ≠ .illegal := by
    decide +kernel
  exact ⟨hlegal, by decide, lex_loses _ hlegal 6 (by decide)⟩

/-- A byte that is no blank, in a source with neither comments to the end of a line nor the end of a
comment, is in no piece that is passed over. -/
theorem not_between_skipped {bytes : List UInt8} {i : Nat}
    (hblank : ∀ b ∈ bytes[i]?, b ∉ [32, 9, 10, 13])
    (hline : ¬ [.char '/', .char '/'] <:+: Text.ofBytes bytes)
    (hblock : ¬ [.char '*', .char '/'] <:+: Text.ofBytes bytes) : ¬ Between bytes i Skipped := by
  rintro ⟨before, piece, after, happend, hpiece, hfrom, hto, -⟩
  have hbytes := congrArg Text.bytes happend
  rw [Text.bytes_ofBytes] at hbytes
  cases hpiece with
  | @line body =>
    refine hline ⟨before, body ++ after, ?_⟩
    rw [happend]
    simp
  | @block body =>
    refine hblock ⟨before ++ .char '/' :: .char '*' :: body, after, ?_⟩
    rw [happend]
    simp
  | @blank c hc =>
    have hone : c.utf8Size = 1 ∧ ∃ b, String.utf8EncodeChar c = [b] ∧ b ∈ [32, 9, 10, 13] := by
      simp only [isBlank, Bool.or_eq_true, decide_eq_true_eq] at hc
      rcases hc with ((rfl | rfl) | rfl) | rfl <;> exact ⟨rfl, _, rfl, by decide⟩
    obtain ⟨hsize, b, hencode, hb⟩ := hone
    have hwidth : Text.width [.char c] = 1 := by
      show c.utf8Size + 0 = 1
      omega
    have hi : i = (Text.bytes before).length := by
      rw [← Text.width_eq]
      omega
    refine hblank b ?_ hb
    rw [hbytes, Text.bytes_append, Text.bytes_append, hi, List.append_assoc,
      List.getElem?_append_right (Nat.le_refl _), Nat.sub_self]
    show (String.utf8EncodeChar c ++ [] ++ _)[0]? = _
    rw [hencode]
    rfl

/-- **Text is lost without a trace**: what stands in a comment that is not closed, and what stands
behind NUL, is neither in a token nor passed over, and no token is illegal.  The sources are `1 /* 2`
and `1 2` with a NUL between the numbers. -/
theorem lex_loses_silently :
    ((∀ x ∈ (lex (Text.ofBytes [49, 32, 47, 42, 32, 50])).tokens, x.kind ≠ .illegal) ∧
      ¬ Kept [49, 32, 47, 42, 32, 50] 5) ∧
    (∀ x ∈ (lex (Text.ofBytes [49, 32, 0, 32, 50])).tokens, x.kind ≠ .illegal) ∧
      ¬ Kept [49, 32, 0, 32, 50] 4 := by
  refine ⟨⟨by decide +kernel, ?_⟩, by decide +kernel, ?_⟩
  all_goals
    rintro (hin | hbetween)
    · revert hin
      decide +kernel
    · exact not_between_skipped (by simp) (by decide +kernel) (by decide +kernel) hbetween

end PatternPlan
