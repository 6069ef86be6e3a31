import PatternPlan.Proofs.Source.Layout

/-!
# Tokens stand one behind the other

Also in a source with stray bytes, where the slice of an illegal token may be longer than what it
takes.

* `Token.reach` — where a token ends, as far as that can be told;
* `Ordered`, `ordered_lex` — **the tokens of a source are in order**, in front of the end of input.
-/

namespace PatternPlan

/-- Where a token ends.  A stray byte is stored as a longer character, so that an illegal token is only
known to reach to where it starts. -/
def Token.reach (t : Token) : Nat := if t.kind = .illegal then t.offset else t.stop

theorem Token.offset_le_reach (t : Token) : t.offset ≤ t.reach := by
  rw [reach]
  split
  · exact Nat.le_refl _
  · exact Nat.le_add_right _ _

theorem Token.reach_eq_stop {t : Token} (h : t.kind ≠ .illegal) : t.reach = t.stop := if_neg h

/-- Tokens that stand one behind the other, in front of the end of input. -/
structure Ordered (tokens : List Token) (eof : Token) : Prop where
  pairwise : tokens.Pairwise fun x y => x.reach ≤ y.offset
  filled : ∀ x ∈ tokens, x.kind ≠ .eof ∧ (x.kind ≠ .illegal → x.offset < x.stop)
  reach_le : ∀ x ∈ tokens, x.reach ≤ eof.offset
  eof_kind : eof.kind = .eof
  eof_stop : eof.stop = eof.offset

/-- The tokens from a place on. -/
theorem order_tokensFrom (c : Cursor) (t : Text) :
    (tokensFrom c t).1.Pairwise (fun x y => x.reach ≤ y.offset) ∧ ∀ x ∈ (tokensFrom c t).1,
      c.offset ≤ x.offset ∧ x.reach ≤ c.offset + Text.width t ∧ x.kind ≠ .eof ∧
        (x.kind ≠ .illegal → x.offset < x.stop) := by
  fun_induction tokensFrom c t with
  | case1 c t trivia start hsplit => exact ⟨.nil, List.forall_mem_nil _⟩
  | case2 c t trivia start g rest hsplit l token r ih =>
    obtain ⟨hpairwise, hrest⟩ := ih
    have happend : trivia ++ g :: rest = t := by
      have happend := splitTrivia_append .blank t
      rwa [hsplit] at happend
    have hstart : start.offset = c.offset + Text.width trivia := Cursor.offset_advance c trivia
    have hnext : (start.advance (g :: rest.take l.extra)).offset
        = start.offset + Text.width (g :: rest.take l.extra) := Cursor.offset_advance _ _
    have hwidth : Text.width t = Text.width trivia + Text.width (g :: rest.take l.extra)
        + Text.width (rest.drop l.extra) := by
      rw [← happend, Nat.add_assoc, ← Text.width_append, ← Text.width_append, List.cons_append,
        List.take_append_drop]
    have hstop : token.kind ≠ .illegal →
        token.stop = start.offset + Text.width (g :: rest.take l.extra) := by
      intro hkind
      have hslice := (slice_lexeme g rest).resolve_right fun h => hkind h.1
      show start.offset + Text.width l.slice = _
      rw [hslice]
    have hreach : token.reach ≤ start.offset + Text.width (g :: rest.take l.extra) := by
      rw [Token.reach]
      split
      · exact Nat.le_add_right _ _
      · rename_i hkind
        exact (hstop hkind).le
    have hpos : 0 < Text.width (g :: rest.take l.extra) :=
      Nat.lt_of_lt_of_le (Nat.succ_pos (rest.take l.extra).length)
        (Text.length_le_width (g :: rest.take l.extra))
    refine ⟨.cons (fun y hy => ?_) hpairwise, ?_⟩
    · have hy := (hrest y hy).1
      omega
    · rintro x (_ | ⟨_, hx⟩)
      · refine ⟨?_, by omega, kind_lexeme_ne g rest, fun hkind => ?_⟩
        · show c.offset ≤ start.offset
          omega
        · rw [hstop hkind]
          show start.offset < _
          omega
      · obtain ⟨hlow, hhigh, hkinds⟩ := hrest x hx
        exact ⟨by omega, by omega, hkinds⟩

/-- **The tokens of a source are in order.** -/
theorem ordered_lex (source : Text) : Ordered (lex source).tokens (lex source).eof := by
  obtain ⟨hpairwise, hplaces⟩ := order_tokensFrom {} (Source.visible source)
  have hvisible : Text.width (Source.visible source) ≤ Text.width source := by
    have happend : Source.visible source ++ source.dropWhile (fun g => g ≠ .char '\x00') = source :=
      List.takeWhile_append_dropWhile
    have hwidth := congrArg Text.width happend
    rw [Text.width_append] at hwidth
    omega
  refine ⟨hpairwise, fun x hx => (hplaces x hx).2.2, fun x hx => ?_, rfl, rfl⟩
  have hreach := (hplaces x hx).2.1
  rw [show ({} : Cursor).offset = 0 from rfl, Nat.zero_add] at hreach
  exact hreach.trans hvisible

end PatternPlan
