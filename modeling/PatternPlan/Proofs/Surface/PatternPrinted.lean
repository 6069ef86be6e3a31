import PatternPlan.Proofs.Source.Positions
import PatternPlan.Proofs.Surface.ParsedWritable
import PatternPlan.Proofs.Surface.PatternCost

/-!
# Printed literals and patterns are read back

Strings are printed with escapes for every character that would end or break the literal, regexes
with an escape for the quote only.  Both schemes are inverted by the lexer, for every mix and every
run of backslashes, quotes and line breaks, whatever the content is.

A pattern that was read from a source is printed in a position, and the printed tokens, with any
tokens behind them that may follow a pattern there, are read by the parser of the position.

* `ReadAlone` — a text is one word, and nothing stands behind it;
* `quoted_read_back` — **printed strings and printed regexes are read back**, and every regex that
  the lexer reads can be printed;
* `Parser.patternAt` — the parsers of the three positions;
* `Pattern.ParsedAt` — the patterns that are read from sources;
* `Pattern.Stands` — the printed form of a pattern in front of other tokens;
* `Pattern.ReadsBack` — what is read is the pattern that was printed, and no token more or less;
* `printed_reads_back` — **patterns without ranges are read back**, in every position;
* `reads_back_iff_faithful` — **a pattern is read back exactly if no recognizer in it takes a range
  without start**, which is printed without the parentheses that it needs.
-/

namespace PatternPlan.Surface

/-! ### Printed tokens -/

theorem after_snoc {ws : List Word} {x : Token} {ts : List Token} (rest : List Token)
    (h : After ws (fun _ more => more = []) x ts) :
    After ws (fun y more => more = rest ∧ (x :: ts).getLast? = some y) x (ts ++ rest) := by
  induction ws generalizing x ts with
  | nil =>
    cases (show ts = [] from h)
    exact ⟨rfl, rfl⟩
  | cons w ws ih =>
    obtain ⟨t, ts, rfl, hspells, hline, hrest⟩ := h
    refine ⟨t, ts ++ rest, rfl, hspells, hline, ?_⟩
    rw [List.getLast?_cons_cons]
    exact ih hrest

/-- A text is lexed to its words. -/
theorem after_lexed {text : String} {ws : List Word} (h : Reads true false text.toList ws []) :
    After ws (fun _ more => more = []) ⟨.eof, [], none, 1, 0, 0⟩ (lex (.ofString text)).tokens := by
  show After _ _ _ (tokensFrom {} (Source.visible (.ofString text))).1
  rw [visible_ofString h.clean, Text.ofString_eq, ← List.append_nil text.toList]
  refine h.tokens {} _ _ (fun _ => rfl) fun c y _ => ?_
  rw [tokensFrom.eq_def]
  rfl

theorem length_of_after {ws : List Word} {x : Token} {ts : List Token}
    (h : After ws (fun _ more => more = []) x ts) : ts.length = ws.length := by
  induction ws generalizing x ts with
  | nil =>
    cases (show ts = [] from h)
    rfl
  | cons w ws ih =>
    obtain ⟨t, ts, rfl, -, -, hrest⟩ := h
    rw [List.length_cons, List.length_cons, ih hrest]

/-! ### Quoted literals -/

/-- The tokens of a text are one token for a word, and the end of input. -/
def ReadAlone (text : String) (w : Word) : Prop :=
  ∃ t eof : Token, (lex (.ofString text)).all = [t, eof] ∧ t.Spells w ∧ eof.kind = .eof

theorem readAlone_of_reads {text : String} {w : Word} (h : Reads true false text.toList [w] []) :
    ReadAlone text w := by
  obtain ⟨t, more, htokens, hspells, -, hmore⟩ := after_lexed h
  refine ⟨t, (lex (.ofString text)).eof, ?_, hspells, rfl⟩
  show (lex (.ofString text)).tokens ++ [(lex (.ofString text)).eof] = _
  rw [htokens, show more = [] from hmore]
  rfl

/-- **Quoted literals are read back.**  The literal of a string is one string token with that string;
the printed form of a regex is one regex token with its content; and what a regex token holds, in
any source, is the content of such a regex. -/
theorem quoted_read_back :
    (∀ s : String, ReadAlone (sourceString s) (.string s)) ∧
    (∀ (mark : Mark) (content : String) (place : Surface.Position), IsRegex content →
      ReadAlone ((Pattern.regex mark content).print place) (.regex content)) ∧
    ∀ source : Text, ∀ t ∈ (lex source).tokens, t.kind = .regex →
      ∃ content, t.value = some (.text content) ∧ IsRegex content := by
  refine ⟨fun s => ?_, fun mark content place hcontent => ?_, fun source t ht hkind => ?_⟩
  · exact readAlone_of_reads reads_string.loosen
  · rw [Pattern.print]
    exact readAlone_of_reads (reads_regex hcontent.clean hcontent.last)
  · exact (sound_lex source t ht).regex hkind

/-- Escapes next to each other, a quote behind a run of backslashes, and a line break. -/
theorem quoted_read_back_mixed :
    ReadAlone "\"\\\\\\\\\\\"\\n\\0é\"" (.string "\\\\\"\n\x00é") ∧
      ReadAlone "r\"\\\\\\\"\n\\d\"" (.regex "\\\\\"\n\\d") := by
  obtain ⟨hstring, hregex, -⟩ := quoted_read_back
  have hs := hstring "\\\\\"\n\x00é"
  have hr := hregex default "\\\\\"\n\\d" .primary ⟨by decide, by decide⟩
  rw [show sourceString "\\\\\"\n\x00é" = "\"\\\\\\\\\\\"\\n\\0é\"" by decide] at hs
  rw [show (Pattern.regex default "\\\\\"\n\\d").print .primary
    = "r\"\\\\\\\"\n\\d\"" by rw [Pattern.print]; decide] at hr
  exact ⟨hs, hr⟩

/-! ### The parsers of the three positions -/

namespace Parser

variable {place : Position} {room depth : Nat} {fits : Prop} {p : Pattern}

/-- The parser of the patterns of a position, with at most `room` levels of nesting. -/
def patternAt : Position → (room : Nat) → Parser Pattern
  | .arm, room => orWithin room
  | .nested, room => nestedPattern (orWithin room)
  | .primary, room => primaryWithin room

theorem gives_patternAt (place : Position) (room : Nat) :
    Gives Pattern.Writable (patternAt place room) := by
  obtain ⟨hp, ha⟩ := gives_pattern room
  cases place with
  | arm => exact ha
  | nested => exact gives_nestedPattern ha
  | primary => exact hp

theorem takes_patternAt (place : Position) (room : Nat) :
    Takes (Pattern.cost place) (·.depth place ≤ room) (patternAt place room) := by
  obtain ⟨hp, ha⟩ := takes_pattern room
  cases place with
  | arm => exact ha
  | nested => exact takes_nestedPattern ha
  | primary => exact hp.takes

theorem ReadsPattern.runs (h : ReadsPattern fits p) (hroom : fits → p.depth place ≤ room) {K : Rest}
    {ts : List Token} (hK : ∀ y ts, K y ts → kindOf ts ∈ Pattern.followers place)
    (hts : Begins (p.words place) K ts) :
    Runs fits depth (patternAt place room) ts fun q ts' => q.erase = p.erase ∧ At K ts' := by
  cases place with
  | arm => exact h.arm depth room K ts hroom hK hts
  | nested => exact h.nested.runs hroom hK hts
  | primary => exact h.primary depth room K ts hroom hK hts

end Parser

namespace Pattern

variable {place : Position} {room : Nat} {p : Pattern} {s : State} {rest : List Token}

/-! ### Patterns that are read from sources -/

/-- A pattern that the parser of a position reads somewhere in a source without reporting anything. -/
def ParsedAt (place : Position) (room : Nat) (p : Pattern) : Prop :=
  ∃ (source : Text) (s t : State), s.tokens <:+ (lex source).tokens ∧ s.eof = (lex source).eof ∧
    Parser.patternAt place room s = (some p, t) ∧ t.errors = s.errors

theorem sound_of_suffix {source : Text} (htokens : s.tokens <:+ (lex source).tokens)
    (heof : s.eof = (lex source).eof) : s.Sound where
  tokens := fun x hx => sound_lex source x (htokens.subset hx)
  eof := congrArg Token.kind heof

theorem writable_of_run {t : State} (hs : s.Sound)
    (hrun : Parser.patternAt place room s = (some p, t)) (herrors : t.errors = s.errors) :
    p.Writable := by
  have hwritable := (Parser.gives_patternAt place room s hs).gives
  rw [hrun] at hwritable
  exact hwritable herrors p rfl

theorem ParsedAt.writable (h : p.ParsedAt place room) : p.Writable := by
  obtain ⟨source, s, t, htokens, heof, hrun, herrors⟩ := h
  exact writable_of_run (sound_of_suffix htokens heof) hrun herrors

/-- A pattern that was read within some levels of nesting fits in them. -/
theorem ParsedAt.depth_le (h : p.ParsedAt place room) : p.depth place ≤ room := by
  obtain ⟨source, s, t, htokens, heof, hrun, -⟩ := h
  have hbefore : s.Before s.tokens.length 0 := ⟨sound_of_suffix htokens heof, le_rfl⟩
  exact (Parser.takes_patternAt place room _ _ s hbefore p t hrun).2

/-- What is read of a source that is a pattern. -/
def readAt (place : Position) (room : Nat) (source : Text) : Option Pattern × State :=
  Parser.patternAt place room { tokens := (lex source).tokens, eof := (lex source).eof }

/-- A source that is a pattern which passes a test. -/
theorem exists_parsedAt (source : Text) {test : Pattern → Bool}
    (htest : (readAt place room source).1.any test = true)
    (herrors : (readAt place room source).2.errors = []) :
    ∃ p, p.ParsedAt place room ∧ test p = true := by
  cases hrun : readAt place room source with
  | mk r t =>
    rw [hrun] at htest herrors
    cases r with
    | none => cases htest
    | some p => exact ⟨p, ⟨source, _, t, List.suffix_refl _, rfl, hrun, herrors⟩, htest⟩

/-! ### Printed patterns -/

/-- The tokens of the printed form of a pattern. -/
def printed (place : Position) (p : Pattern) : List Token := (lex (.ofString (p.print place))).tokens

/-- The printed form of a pattern is read as its words. -/
theorem after_printed (h : p.Writable) (place : Position) :
    After (p.words place) (fun _ more => more = []) ⟨.eof, [], none, 1, 0, 0⟩ (p.printed place) :=
  after_lexed (reads_print h place rfl)

theorem length_printed (h : p.Writable) (place : Position) :
    (p.printed place).length = (p.words place).length := length_of_after (after_printed h place)

theorem printed_ne (h : p.Writable) (place : Position) : p.printed place ≠ [] := by
  have hwords := List.length_pos_iff.mpr (words_ne h place)
  rw [← length_printed h] at hwords
  exact List.length_pos_iff.mp hwords

/-- A state on the printed form of a pattern, behind which stands what may follow there. -/
structure Stands (place : Position) (p : Pattern) (rest : List Token) (s : State) : Prop where
  eof : s.eof.kind = .eof
  tokens : s.tokens = p.printed place ++ rest
  follows : kindOf rest ∈ followers place

theorem Stands.sound (hs : p.Stands place rest s)
    (hrest : ∀ x ∈ rest, ∃ source, x ∈ (lex source).tokens) : s.Sound where
  tokens := by
    intro x hx
    rw [hs.tokens] at hx
    rcases List.mem_append.mp hx with hx | hx
    · exact sound_lex _ x hx
    · obtain ⟨source, hx⟩ := hrest x hx
      exact sound_lex source x hx
  eof := hs.eof

/-- The printed pattern is read, places aside, and the last printed token is current then. -/
def ReadsBack (place : Position) (room : Nat) (p : Pattern) (rest : List Token) (s : State) : Prop :=
  ∃ q last, Parser.patternAt place room s = (some q, { s with tokens := last :: rest }) ∧
    q.erase = p.erase ∧ (p.printed place).getLast? = some last

/-- What is written faithfully is read back, or does not fit. -/
theorem Stands.reads (hs : p.Stands place rest s) (h : p.Writable) (hfaithful : p.faithful = true)
    (room : Nat) : p.ReadsBack place room rest s ∨ ¬ p.depth place ≤ room ∧
      ∃ t, Parser.patternAt place room s = (none, t) ∧ t.TooDeep := by
  have hafter := after_snoc rest (after_printed h place)
  have hbegins := begins_of_after (words_ne h place) hafter
  have hfollows : ∀ (y : Token) (ts : List Token),
      ts = rest ∧ (⟨.eof, [], none, 1, 0, 0⟩ :: p.printed place).getLast? = some y →
      kindOf ts ∈ followers place := by
    rintro y ts ⟨rfl, -⟩
    exact hs.follows
  have hreads : Parser.ReadsPattern (p.depth place ≤ room) p := Parser.readsPattern h hfaithful
  rcases hreads.runs id hfollows hbegins s hs.eof rfl hs.tokens with
    ⟨q, ts, hrun, -, herase, y, _, rfl, rfl, hlast⟩ | hdeep
  · refine .inl ⟨q, y, hrun, herase, ?_⟩
    rwa [List.getLast?_cons_of_ne_nil (printed_ne h place)] at hlast
  · exact .inr hdeep

/-- What is not written faithfully is never read back: too many tokens are missing. -/
theorem Stands.not_readsBack (hs : p.Stands place rest s) (h : p.Writable)
    (hunfaithful : p.faithful = false) (hsound : s.Sound) (room : Nat) :
    ¬ p.ReadsBack place room rest s := by
  rintro ⟨q, last, hrun, herase, -⟩
  have hcost : q.cost place = p.cost place := by
    rw [← cost_erase (writable_of_run hsound hrun rfl), herase, cost_erase h]
  have hwords := length_words h place
  rw [hunfaithful] at hwords
  have hbefore : s.Before s.tokens.length 0 := ⟨hsound, le_rfl⟩
  have htaken := (Parser.takes_patternAt place room _ _ s hbefore q _ hrun).1.count
  rw [hs.tokens, List.length_append, length_printed h, List.length_cons] at htaken
  have hone : lacking false = 1 := rfl
  omega

/-! ### Patterns without ranges -/

mutual

/-- Whether no part of a pattern is a range. -/
def rangeFree : Pattern → Bool
  | wildcard _ | var _ _ | literal _ _ | regex _ _ => true
  | range _ _ _ _ => false
  | tuple _ ps | construct _ _ ps | or _ ps => allRangeFree ps
  | record _ fs _ => fieldsRangeFree fs
  | binding _ _ _ p => rangeFree p
  | slice _ items => itemsRangeFree items
  | active _ _ _ none => true
  | active _ _ _ (some p) => rangeFree p

def allRangeFree : List Pattern → Bool
  | [] => true
  | p :: ps => rangeFree p && allRangeFree ps

def fieldsRangeFree : List (String × Pattern) → Bool
  | [] => true
  | (_, p) :: fs => rangeFree p && fieldsRangeFree fs

def itemsRangeFree : List (SliceItem Pattern) → Bool
  | [] => true
  | .element p :: items => rangeFree p && itemsRangeFree items
  | .rest _ _ :: items => itemsRangeFree items

end

mutual

theorem faithful_of_rangeFree : (p : Pattern) → p.rangeFree = true → p.faithful = true
  | wildcard _, _ | var _ _, _ | literal _ _, _ | regex _ _, _ | range _ _ _ _, _ => rfl
  | tuple _ ps, h | construct _ _ ps, h | or _ ps, h => allFaithful_of_rangeFree ps h
  | record _ fs _, h => fieldsFaithful_of_rangeFree fs h
  | binding _ _ _ p, h => faithful_of_rangeFree p h
  | slice _ items, h => itemsFaithful_of_rangeFree items h
  | active _ _ _ none, _ => rfl
  | active _ _ _ (some p), h => by
    have hp : p.rangeFree = true := h
    have hstart : p.isStartless = false := by
      cases p with
      | range m start stop inclusive => cases hp
      | _ => rfl
    rw [faithful, hstart, faithful_of_rangeFree p hp]
    rfl

theorem allFaithful_of_rangeFree : (ps : List Pattern) → allRangeFree ps = true → allFaithful ps = true
  | [], _ => rfl
  | p :: ps, h => by
    rw [allRangeFree, Bool.and_eq_true] at h
    rw [allFaithful, faithful_of_rangeFree p h.1, allFaithful_of_rangeFree ps h.2]
    rfl

theorem fieldsFaithful_of_rangeFree :
    (fs : List (String × Pattern)) → fieldsRangeFree fs = true → fieldsFaithful fs = true
  | [], _ => rfl
  | (_, p) :: fs, h => by
    rw [fieldsRangeFree, Bool.and_eq_true] at h
    rw [fieldsFaithful, faithful_of_rangeFree p h.1, fieldsFaithful_of_rangeFree fs h.2]
    rfl

theorem itemsFaithful_of_rangeFree :
    (items : List (SliceItem Pattern)) → itemsRangeFree items = true → itemsFaithful items = true
  | [], _ => rfl
  | .element p :: items, h => by
    rw [itemsRangeFree, Bool.and_eq_true] at h
    rw [itemsFaithful, faithful_of_rangeFree p h.1, itemsFaithful_of_rangeFree items h.2]
    rfl
  | .rest _ _ :: items, h => itemsFaithful_of_rangeFree items h

end

/-! ### What is read back -/

/-- **Printed patterns are read back.**  A pattern without ranges that was read from a source is
printed in any position and read there by any parser that has levels enough: what is read is the
pattern, places aside, and exactly the printed tokens have been read.  Only where the printed form
nests too deep, the limit is reported instead. -/
theorem printed_reads_back {origin : Position} {levels : Nat} (h : p.ParsedAt origin levels)
    (hfree : p.rangeFree = true) (hs : p.Stands place rest s) (room : Nat) :
    p.ReadsBack place room rest s ∨ ¬ p.depth place ≤ room ∧
      ∃ t, Parser.patternAt place room s = (none, t) ∧ t.TooDeep :=
  hs.reads h.writable (p.faithful_of_rangeFree hfree) room

/-- Alternatives with a binding, a rest, a record in short form, a recognizer and constants. -/
def mixedSource : Text := .ofString ("[(Some(-1) | None) as a, ..more] | \x7b name, tag: \"x\", .. \x7d"
  ++ " | whole@(1, -2.5, (|Even|_|) n)")

/-- The tokens of an arm behind its pattern. -/
def armEnd : List Token := (lex (.ofString "-> 0")).tokens

/-- The printed form of a pattern and what stands behind it. -/
def standing (place : Position) (p : Pattern) (rest : List Token) : State :=
  { tokens := p.printed place ++ rest, eof := ⟨.eof, [], none, 0, 0, 0⟩ }

theorem stands_armEnd (place : Position) (p : Pattern) (h : .arrow ∈ followers place) :
    p.Stands place armEnd (p.standing place armEnd) where
  eof := rfl
  tokens := rfl
  follows := by
    have hkind : kindOf armEnd = .arrow := by decide +kernel
    rwa [hkind]

theorem printed_reads_back_mixed : ∃ p : Pattern,
    (p.ParsedAt .arm 256 ∧ p.rangeFree = true ∧ p.Stands .primary armEnd (p.standing .primary armEnd)) ∧
    (p.ReadsBack .primary 256 armEnd (p.standing .primary armEnd) ∨ ¬ p.depth .primary ≤ 256 ∧
      ∃ t, Parser.patternAt .primary 256 (p.standing .primary armEnd) = (none, t) ∧ t.TooDeep) := by
  obtain ⟨p, hparsed, hfree⟩ : ∃ p : Pattern, p.ParsedAt .arm 256 ∧ p.rangeFree = true :=
    exists_parsedAt mixedSource (by decide +kernel) (by decide +kernel)
  have hs := stands_armEnd .primary p (by decide)
  exact ⟨p, ⟨hparsed, hfree, hs⟩, printed_reads_back hparsed hfree hs 256⟩

/-- **Which patterns are read back.**  A pattern that was read in a position, ranges in it or not, is
printed there and read as the same pattern, places aside, exactly if no recognizer in it takes a range
without start: such an argument is printed without its parentheses, and is no argument then. -/
theorem reads_back_iff_faithful (h : p.ParsedAt place room) (hs : p.Stands place rest s)
    (hrest : ∀ x ∈ rest, ∃ source, x ∈ (lex source).tokens) :
    p.ReadsBack place room rest s ↔ p.faithful = true := by
  refine ⟨fun hback => ?_, fun hfaithful => ?_⟩
  · by_contra hunfaithful
    exact hs.not_readsBack h.writable (Bool.eq_false_of_not_eq_true hunfaithful) (hs.sound hrest) room
      hback
  · exact (hs.reads h.writable hfaithful room).resolve_right fun hdeep => hdeep.1 h.depth_le

/-- Ranges in every position: with both bounds or one, of numbers and strings, and as an argument. -/
def rangesSource : Text := .ofString ("0..-5 | (..=-1, Some(2.5..)) | [..5, \"a\"..=\"z\", ..]"
  ++ " | \x7b x: 1.. \x7d | n@..3 | (|E|) 1..")

theorem reads_back_iff_faithful_ranges : ∃ p : Pattern,
    (p.ParsedAt .arm 256 ∧ p.Stands .arm armEnd (p.standing .arm armEnd) ∧
      ∀ x ∈ armEnd, ∃ source, x ∈ (lex source).tokens) ∧ p.faithful = true ∧
    (p.ReadsBack .arm 256 armEnd (p.standing .arm armEnd) ↔ p.faithful = true) := by
  obtain ⟨p, hparsed, hfaithful⟩ : ∃ p : Pattern, p.ParsedAt .arm 256 ∧ p.faithful = true :=
    exists_parsedAt rangesSource (by decide +kernel) (by decide +kernel)
  have hs := stands_armEnd .arm p (by decide)
  have hrest : ∀ x ∈ armEnd, ∃ source, x ∈ (lex source).tokens := fun x hx => ⟨_, hx⟩
  exact ⟨p, ⟨hparsed, hs, hrest⟩, hfaithful, reads_back_iff_faithful hparsed hs hrest⟩

/-- **Not every pattern is read back**: of a recognizer with a range without start as its argument,
printing drops the parentheses of the argument. -/
theorem printing_drops_parentheses : ¬ ∀ (place : Position) (room : Nat) (p : Pattern)
    (rest : List Token) (s : State), p.ParsedAt place room → p.Stands place rest s →
    (∀ x ∈ rest, ∃ source, x ∈ (lex source).tokens) → p.ReadsBack place room rest s := by
  intro hall
  obtain ⟨p, hparsed, hunfaithful⟩ : ∃ p : Pattern, p.ParsedAt .arm 256 ∧ (!p.faithful) = true :=
    exists_parsedAt (.ofString "(|E|) (..5)") (by decide +kernel) (by decide +kernel)
  have hs : p.Stands .arm [] (p.standing .arm []) := ⟨rfl, rfl, by decide⟩
  have hnone : ∀ x ∈ ([] : List Token), ∃ source, x ∈ (lex source).tokens := List.forall_mem_nil _
  refine hs.not_readsBack hparsed.writable (by simpa using hunfaithful) (hs.sound hnone) 256 ?_
  exact hall .arm 256 p [] _ hparsed hs hnone

end Pattern

end PatternPlan.Surface
