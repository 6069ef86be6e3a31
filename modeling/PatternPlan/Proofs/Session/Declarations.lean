import PatternPlan.Proofs.Compile.Reported
import PatternPlan.Proofs.Surface.Appended
import PatternPlan.Proofs.Surface.Recovery
import PatternPlan.Session

/-!
# The declarations of a session

Each input is compiled behind the declarations that were accepted before, and may go on where they end.
Whether it is accepted is decided by everything that is wrong with the whole, but only what stands behind
the earlier declarations is shown.

* `compile?_line` — a line break behind a text without errors changes nothing but the text;
* `illegalTokens_appended`, `errors_appended` — what lexing and parsing find in a text that goes on stands
  behind the line break, if they find nothing in front of it;
* `Session.Accepted` — a text that compiles without errors and is not cut short;
* `Session.Sound`, `Session.sound_eval?`, `Session.sound_after?` — the declarations of a session are such a
  text with a line break behind it, and **inputs keep it so**;
* `Session.declarations_compile` — **what stands in front of the next input always compiles**, and only an
  input that brings no error is kept;
* `Session.behind_lead` — **what lexing and parsing find wrong stands in the input**;
* `Session.rejection_shown` — **a declaration is not rejected without a word**, unless the checks blame
  earlier declarations alone;
* `Session.unshown_of_blamesEarlier`, `Session.rejection_unshown` — then nothing is shown: a recognizer is blamed for the function that takes its name.
-/

namespace PatternPlan

/-! ### The end of a text -/

/-- A file in which no range lost its end compiles. -/
theorem compile?_of_bounds (config : Config) {file : String} {source : Text}
    (h : (Reading.of file source).program.hasMissingBound = false) :
    ∃ c, compile? config file source = some c :=
  ⟨_, if_neg (Bool.eq_false_iff.mp h)⟩

/-- **A line break behind a text without errors** changes nothing but the text. -/
theorem compile?_line {config : Config} {file : String} {a : Text} {c : Compilation}
    (hc : compile? config file a = some c) (h : c.diagnostics.hasErrors = false) :
    ∃ c', compile? config file (a ++ [Glyph.char '\n']) = some c' ∧ c'.typed = c.typed ∧
      c'.lowered = c.lowered ∧ c'.diagnostics = c.diagnostics ∧
      c'.reading.incomplete = c.reading.incomplete := by
  obtain ⟨hlegal, herrors⟩ := Reading.clean_iff.mp (Reading.clean_of_compile hc h)
  obtain ⟨more, htokens, -, hnone⟩ := lex_appended (Reading.illegalTokens_eq_nil.mp hlegal) []
  rw [hnone rfl, List.append_nil] at htokens
  have hparse : Surface.parse (lex (a ++ [Glyph.char '\n'])) = Surface.parse (lex a) := by
    rw [← Surface.parse_end (Surface.whole_lex a) (e := (lex (a ++ [Glyph.char '\n'])).eof) rfl herrors,
      ← htokens]
  have hprogram : (Reading.of file (a ++ [Glyph.char '\n'])).program = (Reading.of file a).program :=
    congrArg Surface.Parsed.program hparse
  have hdiagnostics :
      (Reading.of file (a ++ [Glyph.char '\n'])).diagnostics = (Reading.of file a).diagnostics := by
    unfold Reading.of Reading.illegalTokens
    dsimp only
    rw [hparse, htokens]
  obtain ⟨hbounds, rfl⟩ := compile?_eq_some hc
  obtain ⟨c', hc'⟩ := compile?_of_bounds config (hprogram ▸ hbounds)
  refine ⟨c', hc', ?_⟩
  obtain ⟨-, rfl⟩ := compile?_eq_some hc'
  dsimp only
  rw [hprogram, hdiagnostics]
  exact ⟨rfl, rfl, rfl, congrArg Surface.Parsed.incomplete hparse⟩

/-- Places behind a number of bytes, in a list of limited length. -/
def Limits.behind (width n : Nat) : Limits where
  place span := width ≤ span.start
  join hs ht := by
    rw [Span.join]
    split
    · exact hs
    · dsimp only
      split <;> split <;> assumption
  count := n

section Appended

variable {a : Text} (hlegal : ∀ t ∈ (lex a).tokens, t.kind ≠ .illegal) (b : Text)

include hlegal

/-- Behind a text without illegal tokens, what lexing finds stands behind the line break. -/
theorem illegalTokens_appended : ∀ d ∈ Reading.illegalTokens (lex (a ++ Glyph.char '\n' :: b)),
    Text.width (a ++ [Glyph.char '\n']) ≤ d.span.start := by
  intro d hd
  obtain ⟨more, htokens, hplace, -⟩ := lex_appended hlegal b
  obtain ⟨t, ht, rfl⟩ := List.mem_map.mp hd
  obtain ⟨ht, hkind⟩ := List.mem_filter.mp ht
  rw [htokens] at ht
  rcases List.mem_append.mp ht with ht | ht
  · exact absurd (of_decide_eq_true hkind) (hlegal t ht)
  · exact Int.ofNat_le.mpr (hplace t ht)

/-- **So does what parsing finds**, if it finds nothing in front of it. -/
theorem errors_appended (herrors : (Surface.parse (lex a)).errors = []) :
    ∀ d ∈ (Surface.parse (lex (a ++ Glyph.char '\n' :: b))).errors,
      Text.width (a ++ [Glyph.char '\n']) ≤ d.span.start := by
  obtain ⟨more, htokens, hplace, -⟩ := lex_appended hlegal b
  let L := Limits.behind (Text.width (a ++ [Glyph.char '\n'])) (more.length + 1)
  have hmore : ∀ t ∈ more, t.kind ≠ .eof ∧ t.Meets L := by
    intro t ht
    have hmem : t ∈ (lex (a ++ Glyph.char '\n' :: b)).tokens := htokens ▸ List.mem_append_right _ ht
    exact ⟨(Surface.whole_lex _).tokens t hmem, Int.ofNat_le.mpr (hplace t ht), sound_lex _ t hmem⟩
  have hwidth : Text.width (a ++ [Glyph.char '\n']) ≤ Text.width (a ++ Glyph.char '\n' :: b) := by
    rw [List.append_cons a _ b, Text.width_append _ b]
    exact Nat.le_add_right _ _
  have hend : (lex (a ++ Glyph.char '\n' :: b)).eof.Meets L := ⟨Int.ofNat_le.mpr hwidth, .inl rfl⟩
  have happended := Surface.parse_appended (Surface.whole_lex a) herrors hmore rfl hend (Nat.lt_succ_self _)
  rw [← htokens] at happended
  exact fun d hd => (happended d hd).place

end Appended

namespace Session

/-! ### What a session keeps -/

/-- A text that compiles without errors and is not cut short. -/
def Accepted (config : Config) (text : Text) : Prop :=
  ∃ c, compile? config fileName text = some c ∧ c.diagnostics.hasErrors = false ∧
    c.reading.incomplete = false

theorem Accepted.line {config : Config} {a : Text} (h : Accepted config a) :
    Accepted config (a ++ [Glyph.char '\n']) := by
  obtain ⟨c, hc, herrors, hcomplete⟩ := h
  obtain ⟨c', hc', -, -, hdiagnostics, hincomplete⟩ := compile?_line hc herrors
  exact ⟨c', hc', hdiagnostics ▸ herrors, hincomplete.trans hcomplete⟩

theorem accepted_nil (config : Config) : Accepted config [] := by
  have hlex : lex [] = ⟨[], ⟨.eof, [], none, 1, 1, 0⟩⟩ := by
    show (⟨(tokensFrom {} []).1, ⟨.eof, [], none, (tokensFrom {} []).2.line, (tokensFrom {} []).2.column, 0⟩⟩ : Lexed) = _
    rw [tokensFrom_nil]
  have hbounds : (Reading.of fileName []).program.hasMissingBound = false := by
    unfold Reading.of
    rw [hlex]
    rfl
  obtain ⟨c, hc⟩ := compile?_of_bounds config hbounds
  refine ⟨c, hc, ?_⟩
  obtain ⟨-, rfl⟩ := compile?_eq_some hc
  unfold Reading.of
  rw [hlex]
  exact ⟨rfl, rfl⟩

/-- What an input does to the declarations. -/
theorem eval?_eq_some {s s' : Session} {input : Text} {e : Option Entry} (h : s.eval? input = some (e, s')) :
    ∃ c, compile? s.config fileName (s.lead ++ input) = some c ∧
      e = (if c.reading.incomplete then none else some (entryFrom s.lead.width c)) ∧
      s' = if c.reading.incomplete || c.diagnostics.hasErrors || isExpression input then s else s.keep input := by
  obtain ⟨c, hc, heq⟩ := Option.map_eq_some_iff.mp h
  refine ⟨c, hc, ?_⟩
  cases hcomplete : c.reading.incomplete <;> rw [hcomplete] at heq <;> cases heq <;> exact ⟨rfl, rfl⟩

/-- A session that is configured in some way, whose declarations are an accepted text with a line break
behind it. -/
structure Sound (config : Config) (s : Session) : Prop where
  config_eq : s.config = config
  declarations : s.decls = [] ∨ ∃ a, s.lead = a ++ [.char '\n'] ∧ Accepted config a

variable {config : Config} {s s' : Session} {input : Text}

theorem sound_start (config : Config) : Sound (start config).config (start config) := ⟨rfl, .inl rfl⟩

theorem Sound.lead (h : s.Sound config) : Accepted config s.lead := by
  rcases h.declarations with hnone | ⟨a, ha, haccepted⟩
  · rw [Session.lead, hnone]
    exact accepted_nil config
  · rw [ha]
    exact haccepted.line

theorem lead_keep (s : Session) (input : Text) :
    (s.keep input).lead = (s.lead ++ input) ++ [Glyph.char '\n'] := by
  rw [Session.lead, keep, List.flatMap_append, List.flatMap_singleton, ← List.append_assoc]
  rfl

/-- **An input keeps it so.** -/
theorem sound_eval? (h : s.Sound config) {e : Option Entry} (he : s.eval? input = some (e, s')) :
    s'.Sound config := by
  obtain ⟨c, hc, -, rfl⟩ := eval?_eq_some he
  split
  · exact h
  · rename_i hclean
    simp only [Bool.or_eq_true, not_or, Bool.not_eq_true] at hclean
    obtain ⟨⟨hcomplete, herrors⟩, -⟩ := hclean
    exact ⟨h.config_eq, .inr ⟨_, lead_keep s input, c, h.config_eq ▸ hc, herrors, hcomplete⟩⟩

/-- The session after inputs, one after the other; `none` if one of them does not compile. -/
def after? (s : Session) (inputs : List Text) : Option Session :=
  inputs.foldlM (fun s input => (s.eval? input).map Prod.snd) s

/-- **So do all inputs.** -/
theorem sound_after? (h : s.Sound config) {inputs : List Text} (hs : s.after? inputs = some s') :
    s'.Sound config := by
  induction inputs generalizing s with
  | nil =>
    cases hs
    exact h
  | cons input inputs ih =>
    rw [after?, List.foldlM_cons] at hs
    obtain ⟨s₁, hs₁, hs⟩ := Option.bind_eq_some_iff.mp hs
    obtain ⟨⟨e, s₁⟩, he, rfl⟩ := Option.map_eq_some_iff.mp hs₁
    exact ih (sound_eval? h he) hs

def identity : Text := .ofString "fn f(x: Int) -> Int = x"

def bracket : Text := .ofString "fn g() = )"

/-- **What lexing and parsing find wrong stands in the input**, not in the declarations in front of it. -/
theorem behind_lead (h : s.Sound config) (input : Text) :
    (∀ d ∈ Reading.illegalTokens (lex (s.lead ++ input)), s.lead.width ≤ d.span.start) ∧
      ∀ d ∈ (Surface.parse (lex (s.lead ++ input))).errors, s.lead.width ≤ d.span.start := by
  rcases h.declarations with hnone | ⟨a, ha, c, hc, hclean, -⟩
  · have hadmits : (Limits.behind 0 (Text.width input + 1)).Admits (Text.width input) :=
      ⟨fun _ _ => Int.natCast_nonneg _, Nat.lt_succ_self _⟩
    rw [lead, hnone]
    exact ⟨fun d hd => (registered_illegalTokens hadmits d hd).place,
      fun d hd => ((Surface.meets_parse hadmits).2 d hd).place⟩
  · obtain ⟨hlegal, herrors⟩ := Reading.clean_iff.mp (Reading.clean_of_compile hc hclean)
    have hlegal := Reading.illegalTokens_eq_nil.mp hlegal
    rw [ha, List.append_assoc]
    exact ⟨illegalTokens_appended hlegal input, errors_appended hlegal input herrors⟩

/-- Without settings every diagnostic is reported as it is. -/
theorem mem_report {c : Compilation} (h : c.config.policy = {}) {d : Diagnostic} :
    d ∈ c.report ↔ d ∈ c.diagnostics.items := by
  have hadjust : Policy.adjust {} = some := rfl
  rw [Compilation.report, h, Policy.apply, hadjust, List.filterMap_some]
  exact List.mem_mergeSort

/-- The checks alone reject a program, and only at declarations that were accepted before. -/
def BlamesEarlier (s : Session) (c : Compilation) : Prop :=
  c.diagnostics.hasErrors = true ∧
    ∀ d ∈ c.diagnostics.items, d.isError = true → d.code.stage = .checker ∧ d.span.start < s.lead.width

instance (s : Session) (c : Compilation) : Decidable (s.BlamesEarlier c) :=
  inferInstanceAs (Decidable (_ ∧ _))

theorem exists_of_not_blamesEarlier {c : Compilation} (h : ¬ s.BlamesEarlier c)
    (herrors : c.diagnostics.hasErrors = true) :
    ∃ d ∈ c.diagnostics.items, d.isError = true ∧
      (d.code.stage = .checker → s.lead.width ≤ d.span.start) := by
  unfold BlamesEarlier at h
  push Not at h
  exact h herrors

theorem entry_of_eval? {e : Entry} (he : s.eval? input = some (some e, s')) :
    e = entryFrom s.lead.width e.compilation ∧ e.compilation.reading.incomplete = false ∧
      compile? s.config fileName (s.lead ++ input) = some e.compilation ∧
      s' = if e.compilation.diagnostics.hasErrors || isExpression input then s else s.keep input := by
  obtain ⟨c, hc, hentry, hkept⟩ := eval?_eq_some he
  cases hcomplete : c.reading.incomplete <;> rw [hcomplete] at hentry hkept <;> cases hentry
  exact ⟨rfl, hcomplete, hc, hkept⟩

/-- What a session shows, as long as the configuration changes nothing about diagnostics: what stands in
the input. -/
theorem mem_diagnostics (hpolicy : s.config.policy = {}) {e : Entry} (he : s.eval? input = some (some e, s'))
    {d : Diagnostic} :
    d ∈ e.diagnostics ↔ d ∈ e.compilation.diagnostics.items ∧ s.lead.width ≤ d.span.start := by
  obtain ⟨hentry, -, hc, -⟩ := entry_of_eval? he
  have hconfig : e.compilation.config = s.config := congrArg Compilation.config (compile?_eq_some hc).2
  rw [hentry]
  refine List.mem_filter.trans (and_congr (mem_report (hconfig ▸ hpolicy)) ?_)
  exact decide_eq_true_iff

/-- Nothing of a rejection at earlier declarations is shown as an error. -/
theorem unshown_of_blamesEarlier (hpolicy : s.config.policy = {}) {e : Entry}
    (he : s.eval? input = some (some e, s')) (h : s.BlamesEarlier e.compilation) :
    ∀ d ∈ e.diagnostics, d.isError = false := by
  intro d hd
  obtain ⟨hitem, hplace⟩ := (mem_diagnostics hpolicy he).mp hd
  rw [← Bool.not_eq_true]
  exact fun herror => absurd hplace (not_le.mpr (h.2 d hitem herror).2)

/-- **A session does not reject a declaration without a word.**  As long as the configuration changes
nothing about diagnostics, after any inputs, a declaration that is not kept is answered with an error,
unless the checks alone reject it, and only at declarations that were accepted before. -/
theorem rejection_shown {config : Config} (hpolicy : config.policy = {}) {inputs : List Text}
    {s s' : Session} (hs : (start config).after? inputs = some s) {input : Text}
    (hdeclaration : isExpression input = false) {e : Entry} (he : s.eval? input = some (some e, s'))
    (hrejected : s'.decls = s.decls) (hnew : ¬ s.BlamesEarlier e.compilation) :
    ∃ d ∈ e.diagnostics, d.isError = true := by
  have hsound := sound_after? (sound_start config) hs
  obtain ⟨-, -, hc, hkept⟩ := entry_of_eval? he
  have herrors : e.compilation.diagnostics.hasErrors = true := by
    by_contra hclean
    rw [hkept, hdeclaration, Bool.eq_false_iff.mpr hclean] at hrejected
    exact absurd hrejected (by simp [keep])
  obtain ⟨d, hd, herror, hplace⟩ := exists_of_not_blamesEarlier hnew herrors
  obtain ⟨htokens, hparsed⟩ := behind_lead hsound input
  have hbehind : s.lead.width ≤ d.span.start :=
    (placed_compile (S := (s.lead.width ≤ ·.start)) hc htokens hparsed d hd).elim hplace id
  exact ⟨d, (mem_diagnostics (hsound.config_eq ▸ hpolicy) he).mpr ⟨hd, hbehind⟩, herror⟩

/-! A declaration that does not parse is rejected with a word.  A function with the name of a recognizer
is not: the recognizer is blamed, and it was accepted before. -/

/-- What comes of an input behind other ones: the declarations before and after it, and whether only
earlier ones are blamed. -/
def outcome? (inputs : List Text) (input : Text) : Option (List Text × List Text × Option Bool) :=
  ((start {}).after? inputs).bind fun s => (s.eval? input).map fun r =>
    (s.decls, r.2.decls, r.1.map fun e => decide (s.BlamesEarlier e.compilation))

theorem outcome?_eq_some {inputs : List Text} {input : Text} {ds ds' : List Text} {b : Bool}
    (h : outcome? inputs input = some (ds, ds', some b)) :
    ∃ s e s', (start {}).after? inputs = some s ∧ s.eval? input = some (some e, s') ∧ s.decls = ds ∧
      s'.decls = ds' ∧ decide (s.BlamesEarlier e.compilation) = b := by
  obtain ⟨s, hs, h⟩ := Option.bind_eq_some_iff.mp h
  obtain ⟨⟨e, s'⟩, he, h⟩ := Option.map_eq_some_iff.mp h
  cases e with
  | none => cases h
  | some e =>
    cases h
    exact ⟨s, e, s', hs, he, rfl, rfl, rfl⟩

theorem rejection_shown_bracket :
    ∃ s e s', (start {}).after? [identity] = some s ∧ isExpression bracket = false ∧
      s.eval? bracket = some (some e, s') ∧ s'.decls = s.decls ∧ ¬ s.BlamesEarlier e.compilation ∧
      ∃ d ∈ e.diagnostics, d.isError = true := by
  have houtcome : outcome? [identity] bracket = some ([identity], [identity], some false) := by decide +kernel
  have hdeclaration : isExpression bracket = false := by decide +kernel
  obtain ⟨s, e, s', hs, he, hbefore, hafter, hblames⟩ := outcome?_eq_some houtcome
  have hrejected : s'.decls = s.decls := hafter.trans hbefore.symm
  have hnew := of_decide_eq_false hblames
  exact ⟨s, e, s', hs, hdeclaration, he, hrejected, hnew, rejection_shown rfl hs hdeclaration he hrejected hnew⟩

def recognizer : Text := .ofString "pattern (|Foo|)(x: Int) -> Int = x"

def namesake : Text := .ofString "fn Foo(x: Int) -> Int = x"

/-- **A function with the name of a recognizer is rejected without a word.** -/
theorem rejection_unshown :
    ∃ s e s', (start {}).after? [recognizer] = some s ∧ isExpression namesake = false ∧
      s.eval? namesake = some (some e, s') ∧ s'.decls = s.decls ∧ ∀ d ∈ e.diagnostics, d.isError = false := by
  have houtcome : outcome? [recognizer] namesake = some ([recognizer], [recognizer], some true) := by decide +kernel
  obtain ⟨s, e, s', hs, he, hbefore, hafter, hblames⟩ := outcome?_eq_some houtcome
  have hpolicy : s.config.policy = {} := by
    rw [(sound_after? (sound_start {}) hs).config_eq]
    rfl
  exact ⟨s, e, s', hs, by decide +kernel, he, hafter.trans hbefore.symm,
    unshown_of_blamesEarlier hpolicy he (of_decide_eq_true hblames)⟩

end Session

end PatternPlan
