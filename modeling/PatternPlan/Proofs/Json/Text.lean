import PatternPlan.Document.Reader
import PatternPlan.Proofs.Json.Numeral

/-!
# Values in texts

* `scanString_quote` — a quoted string is read back;
* `Layout`, `chars` — a value written with given blanks, of which both forms of writing are cases;
* `readsBack` — **a written value is read back if there is room for it**, and refused if it nests
  deeper;
* `readFirst?_render` — the same for whole documents.
-/

namespace PatternPlan.Json

/-! ### Strings -/

theorem hexValue?_hexDigit {d : Nat} (h : d < 16) : hexValue? (Quoted.hexDigit d) = some d := by
  have hall : ∀ d < 16, hexValue? (Quoted.hexDigit d) = some d := by decide
  exact hall d h

theorem hex_four (n : Nat) : Quoted.hex 4 n = [Quoted.hexDigit (n / 16 / 16 / 16 % 16),
    Quoted.hexDigit (n / 16 / 16 % 16), Quoted.hexDigit (n / 16 % 16), Quoted.hexDigit (n % 16)] :=
  rfl

/-- A character that stands for itself in a string. -/
def Plain (c : Char) : Prop := c ≠ '"' ∧ c ≠ '\\' ∧ ¬ c.toNat < 0x20

theorem plain_hexDigit {d : Nat} (h : d < 16) : Plain (Quoted.hexDigit d) := by
  have hall : ∀ d < 16, Quoted.hexDigit d ≠ '"' ∧ Quoted.hexDigit d ≠ '\\' ∧
      ¬ (Quoted.hexDigit d).toNat < 0x20 := by decide
  exact hall d h

/-- A character that is escaped by its number. -/
theorem unicodeEscape?_hex {c : Char} (h : c.toNat < 0xD800) (rest : List Char) :
    unicodeEscape? (Quoted.hex 4 c.toNat ++ rest) = some (c, rest) := by
  have hread : hex4? (Quoted.hex 4 c.toNat ++ rest) = some (c.toNat, rest) := by
    rw [hex_four]
    simp only [List.cons_append, List.nil_append, hex4?]
    rw [hexValue?_hexDigit (Nat.mod_lt _ (by decide)), hexValue?_hexDigit (Nat.mod_lt _ (by decide)),
      hexValue?_hexDigit (Nat.mod_lt _ (by decide)), hexValue?_hexDigit (Nat.mod_lt _ (by decide))]
    simp only [Option.bind_eq_bind, Option.bind_some, Option.some.injEq, Prod.mk.injEq, and_true]
    omega
  rw [unicodeEscape?, hread]
  dsimp only
  rw [if_neg (by simp; omega), ofUnit, if_neg (by simp; omega), Char.ofNat_toNat]

/-- The three ways in which a character is written. -/
inductive Escape (c : Char) : List Char → Prop
  | letter {e : Char} (hu : e ≠ 'u') (h : letterEscape? e = some c) : Escape c ['\\', e]
  | number (h : c.toNat < 0xD800) : Escape c ('\\' :: 'u' :: Quoted.hex 4 c.toNat)
  | plain (h : Plain c) : Escape c [c]

theorem escape_escaped (c : Char) : Escape c (escaped c) := by
  unfold escaped
  split
  · rename_i h
    rcases (by simpa using h : c = '"' ∨ c = '\\') with rfl | rfl
    · exact .letter (by decide) rfl
    · exact .letter (by decide) rfl
  · rename_i hplain
    -- the five characters with a letter of their own
    iterate 5
      split
      · subst c
        exact .letter (by decide) rfl
    split
    · rename_i h
      refine .number ?_
      simp only [Bool.or_eq_true, decide_eq_true_eq] at h
      rcases h with ((((h | rfl) | rfl) | rfl) | rfl) | rfl
      · omega
      all_goals decide
    · rename_i h
      refine .plain ?_
      simp only [Bool.or_eq_true, decide_eq_true_eq, not_or] at h hplain
      exact ⟨hplain.1, hplain.2, h.1.1.1.1.1⟩

theorem rawString_plain {c : Char} (h : Plain c) (rest : List Char) :
    rawString (c :: rest) = (rawString rest).map fun r => (c :: r.1, r.2) := by
  obtain ⟨hquote, hslash, hcontrol⟩ := h
  rw [rawString.eq_def]
  split
  · cases ‹c :: rest = []›
  · rename_i heq
    exact absurd (List.cons.inj heq).1 hquote
  · rename_i heq
    exact absurd (List.cons.inj heq).1 hslash
  · rename_i heq
    cases heq
    rw [if_neg hcontrol]

theorem rawString_escape {c : Char} {e : List Char} (h : Escape c e) (rest : List Char) :
    rawString (e ++ rest) = (rawString rest).map fun r => (e ++ r.1, r.2) := by
  cases h with
  | @letter e hu hread => rfl
  | number h =>
    show (rawString (Quoted.hex 4 c.toNat ++ rest)).map (fun r => ('\\' :: 'u' :: r.1, r.2)) = _
    rw [hex_four]
    simp only [List.cons_append, List.nil_append]
    rw [rawString_plain (plain_hexDigit (Nat.mod_lt _ (by decide))),
      rawString_plain (plain_hexDigit (Nat.mod_lt _ (by decide))),
      rawString_plain (plain_hexDigit (Nat.mod_lt _ (by decide))),
      rawString_plain (plain_hexDigit (Nat.mod_lt _ (by decide)))]
    simp only [Option.map_map, Function.comp_def]
  | plain h => exact rawString_plain h rest

theorem unescape?_escape {c : Char} {e : List Char} (h : Escape c e) (fuel : Nat) (rest : List Char) :
    unescape? (fuel + 1) (e ++ rest) = (unescape? fuel rest).map (c :: ·) := by
  cases h with
  | @letter e hu hread =>
    show unescape? (fuel + 1) ('\\' :: e :: rest) = _
    rw [unescape?]
    · rw [hread]
      simp [Option.map_eq_bind]
    · exact hu
  | number h =>
    show unescape? (fuel + 1) ('\\' :: 'u' :: (Quoted.hex 4 c.toNat ++ rest)) = _
    rw [unescape?, unicodeEscape?_hex h]
    simp [Option.map_eq_bind]
  | plain h =>
    show unescape? (fuel + 1) (c :: rest) = _
    rw [unescape?]
    · intro rest' heq
      exact absurd heq h.2.1
    · intro e rest' heq
      exact absurd heq h.2.1

theorem rawString_escaped (cs rest : List Char) :
    rawString (cs.flatMap escaped ++ '"' :: rest) = some (cs.flatMap escaped, rest) := by
  induction cs with
  | nil => rfl
  | cons c cs ih =>
    rw [List.flatMap_cons, List.append_assoc, rawString_escape (escape_escaped c), ih]
    rfl

theorem length_escaped_pos (c : Char) : 0 < (escaped c).length := by
  have h := escape_escaped c
  revert h
  generalize escaped c = e
  intro h
  cases h <;> simp

theorem unescape?_escaped (cs : List Char) {fuel : Nat} (h : (cs.flatMap escaped).length ≤ fuel) :
    unescape? fuel (cs.flatMap escaped) = some cs := by
  induction cs generalizing fuel with
  | nil => cases fuel <;> rfl
  | cons c cs ih =>
    rw [List.flatMap_cons, List.length_append] at h
    have hpos := length_escaped_pos c
    obtain ⟨fuel, rfl⟩ := Nat.exists_eq_succ_of_ne_zero (Nat.ne_of_gt (by omega : 0 < fuel))
    rw [List.flatMap_cons, unescape?_escape (escape_escaped c), ih (by omega)]
    rfl

/-- **A quoted string is read back**, whatever follows it. -/
theorem scanString_quote (s : String) (rest : List Char) :
    scanString (s.toList.flatMap escaped ++ '"' :: rest) = some (s, rest) := by
  rw [scanString, rawString_escaped]
  simp only [Option.bind_eq_bind, Option.bind_some]
  rw [unescape?_escaped _ (Nat.le_refl _)]
  simp [String.ofList_toList]

/-! ### Layouts -/

/-- The induction principle of values, with its hypotheses by membership. -/
@[elab_as_elim]
theorem induction {motive : Json → Prop} (null : motive .null) (bool : ∀ b, motive (.bool b))
    (number : ∀ n, motive (.number n)) (text : ∀ s, motive (.text s))
    (array : ∀ items, (∀ v ∈ items, motive v) → motive (.array items))
    (object : ∀ fields, (∀ f ∈ fields, motive f.2) → motive (.object fields)) : ∀ j, motive j := by
  intro j
  induction hs : sizeOf j using Nat.strongRecOn generalizing j with
  | ind n ih =>
    subst hs
    have inner : ∀ v : Json, sizeOf v < sizeOf j → motive v := fun v hv => ih _ hv v rfl
    cases j with
    | null => exact null
    | bool b => exact bool b
    | number n => exact number n
    | text s => exact text s
    | array items =>
      refine array items fun v hv => inner v ?_
      have := List.sizeOf_lt_of_mem hv
      simp only [Json.array.sizeOf_spec]
      omega
    | object fields =>
      refine object fields fun f hf => inner f.2 ?_
      have := List.sizeOf_lt_of_mem hf
      obtain ⟨k, v⟩ := f
      simp only [Json.object.sizeOf_spec, Prod.mk.sizeOf_spec] at *
      omega

/-- Where blanks stand: in front of what is on a level, and behind the colon of a field. -/
structure Layout where
  gap : (level : Nat) → List Char
  space : List Char

/-- A layout that consists of blanks. -/
structure Layout.Blank (l : Layout) : Prop where
  gap : ∀ level, ∀ c ∈ l.gap level, isSpace c = true
  space : ∀ c ∈ l.space, isSpace c = true

mutual

/-- A value in a layout. -/
def chars (l : Layout) (level : Nat) : Json → List Char
  | .null => "null".toList
  | .bool b => if b then "true".toList else "false".toList
  | .number n => n.toList
  | .text s => (quote s).toList
  | .array [] => ['[', ']']
  | .array (v :: vs) =>
    '[' :: (l.gap (level + 1) ++ chars l (level + 1) v ++ itemChars l (level + 1) vs
      ++ (l.gap level ++ [']']))
  | .object [] => ['\x7b', '\x7d']
  | .object ((k, v) :: fs) =>
    '\x7b' :: (l.gap (level + 1) ++ ((quote k).toList ++ ':' :: (l.space ++ chars l (level + 1) v))
      ++ fieldChars l (level + 1) fs ++ (l.gap level ++ ['\x7d']))

/-- Further items, each behind a comma. -/
def itemChars (l : Layout) (level : Nat) : List Json → List Char
  | [] => []
  | v :: vs => ',' :: (l.gap level ++ chars l level v ++ itemChars l level vs)

/-- Further fields, each behind a comma. -/
def fieldChars (l : Layout) (level : Nat) : List (String × Json) → List Char
  | [] => []
  | (k, v) :: fs =>
    ',' :: (l.gap level ++ ((quote k).toList ++ ':' :: (l.space ++ chars l level v))
      ++ fieldChars l level fs)

end

/-- A field in a layout. -/
def pairChars (l : Layout) (level : Nat) (f : String × Json) : List Char :=
  (quote f.1).toList ++ ':' :: (l.space ++ chars l level f.2)

theorem itemChars_eq (l : Layout) (level : Nat) (vs : List Json) :
    itemChars l level vs = vs.flatMap fun v => ',' :: (l.gap level ++ chars l level v) := by
  induction vs with
  | nil => rfl
  | cons v vs ih =>
    rw [itemChars, ih, List.flatMap_cons]
    rfl

theorem fieldChars_eq (l : Layout) (level : Nat) (fs : List (String × Json)) :
    fieldChars l level fs = fs.flatMap fun f => ',' :: (l.gap level ++ pairChars l level f) := by
  induction fs with
  | nil => rfl
  | cons f fs ih =>
    rw [fieldChars, ih, List.flatMap_cons]
    rfl

/-- Texts with commas between them. -/
theorem toList_commas {α : Type} {sep : String} (gap : List Char) (hsep : sep.toList = ',' :: gap)
    {f : α → String} {g : α → List Char} {x : α} {xs : List α}
    (h : ∀ y ∈ x :: xs, (f y).toList = g y) :
    (sep.intercalate ((x :: xs).map f)).toList = g x ++ xs.flatMap fun y => ',' :: (gap ++ g y) := by
  rw [String.toList_intercalate, hsep]
  induction xs generalizing x with
  | nil =>
    rw [List.map_singleton, List.map_singleton, List.intercalate_singleton, h x List.mem_cons_self,
      List.flatMap_nil, List.append_nil]
  | cons y ys ih =>
    rw [List.forall_mem_cons] at h
    rw [List.map_cons, List.map_cons, List.map_cons, List.map_cons, List.intercalate_cons_cons,
      ← List.map_cons, ← List.map_cons, ih h.2, h.1, List.flatMap_cons]
    simp only [List.cons_append, List.append_assoc]

/-- The layout without blanks. -/
def tight : Layout := ⟨fun _ => [], []⟩

/-- One item per line. -/
def airy : Layout := ⟨fun level => (newline level).toList, [' ']⟩

theorem blank_tight : tight.Blank :=
  ⟨fun _ _ hc => absurd hc List.not_mem_nil, fun _ hc => absurd hc List.not_mem_nil⟩

theorem blank_airy : airy.Blank := by
  constructor
  · intro level c hc
    have hc : c ∈ '\n' :: List.replicate (2 * level) ' ' := by
      rw [← String.toList_ofList (l := '\n' :: List.replicate (2 * level) ' ')]
      exact hc
    rcases List.mem_cons.mp hc with rfl | hc
    · decide
    · rw [(List.mem_replicate.mp hc).2]
      decide
  · exact forall_mem_of_all (by decide)

theorem compactItems_eq (vs : List Json) : compactItems vs = vs.map compact := by
  induction vs with
  | nil => rfl
  | cons v vs ih => rw [compactItems, ih, List.map_cons]

theorem compactFields_eq (fs : List (String × Json)) :
    compactFields fs = fs.map fun f => quote f.1 ++ ":" ++ compact f.2 := by
  induction fs with
  | nil => rfl
  | cons f fs ih => rw [compactFields, ih, List.map_cons]

theorem indentedItems_eq (level : Nat) (vs : List Json) :
    indentedItems level vs = vs.map (indentedAt level) := by
  induction vs with
  | nil => rfl
  | cons v vs ih => rw [indentedItems, ih, List.map_cons]

theorem indentedFields_eq (level : Nat) (fs : List (String × Json)) :
    indentedFields level fs = fs.map fun f => quote f.1 ++ ": " ++ indentedAt level f.2 := by
  induction fs with
  | nil => rfl
  | cons f fs ih => rw [indentedFields, ih, List.map_cons]

/-- Values without blanks are in the tight layout. -/
theorem toList_compact (level : Nat) (j : Json) : j.compact.toList = chars tight level j := by
  induction j using Json.induction generalizing level with
  | null => rfl
  | bool b => cases b <;> rfl
  | number n => rfl
  | text s => rfl
  | array items ih =>
    cases items with
    | nil => rfl
    | cons v vs =>
      have hitems : (",".intercalate ((v :: vs).map compact)).toList = _ :=
        toList_commas [] rfl fun w hw => ih w hw (level + 1)
      rw [compact, compactItems_eq, String.toList_append, String.toList_append, hitems, chars,
        itemChars_eq, show "[".toList = ['['] from rfl, show "]".toList = [']'] from rfl]
      simp only [tight, List.cons_append, List.nil_append]
  | object fields ih =>
    cases fields with
    | nil => rfl
    | cons f fs =>
      have hpair : ∀ f' ∈ f :: fs, (quote f'.1 ++ ":" ++ compact f'.2).toList
          = pairChars tight (level + 1) f' := by
        intro f' hf'
        rw [String.toList_append, String.toList_append, ih f' hf' (level + 1), List.append_assoc]
        rfl
      have hitems : (",".intercalate ((f :: fs).map fun f' => quote f'.1 ++ ":" ++ compact f'.2)).toList
          = _ := toList_commas [] rfl hpair
      rw [compact, compactFields_eq, String.toList_append, String.toList_append, hitems, chars,
        fieldChars_eq, show "\x7b".toList = ['\x7b'] from rfl, show "\x7d".toList = ['\x7d'] from rfl]
      simp only [tight, pairChars, List.cons_append, List.nil_append]

theorem toList_bracketed {α : Type} {opening closing : String} (o c : Char)
    (ho : opening.toList = [o]) (hc : closing.toList = [c]) {f : α → String} {g : α → List Char}
    {level : Nat} {x : α} {xs : List α} (h : ∀ y ∈ x :: xs, (f y).toList = g y) :
    (bracketed opening closing level ((x :: xs).map f)).toList = o :: (airy.gap (level + 1) ++ g x
      ++ xs.flatMap (fun y => ',' :: (airy.gap (level + 1) ++ g y)) ++ (airy.gap level ++ [c])) := by
  have hsep : ("," ++ newline (level + 1)).toList = ',' :: airy.gap (level + 1) :=
    String.toList_append
  show (opening ++ newline (level + 1) ++ ("," ++ newline (level + 1)).intercalate ((x :: xs).map f)
    ++ newline level ++ closing).toList = _
  rw [String.toList_append, String.toList_append, String.toList_append, String.toList_append,
    toList_commas _ hsep h, ho, hc]
  simp only [List.append_assoc]
  rfl

/-- Values with one item per line are in the airy layout. -/
theorem toList_indentedAt (level : Nat) (j : Json) :
    (j.indentedAt level).toList = chars airy level j := by
  induction j using Json.induction generalizing level with
  | null => rfl
  | bool b => cases b <;> rfl
  | number n => rfl
  | text s => rfl
  | array items ih =>
    cases items with
    | nil => rw [indentedAt, indentedItems, bracketed, chars]; rfl
    | cons v vs =>
      rw [indentedAt, indentedItems_eq,
        toList_bracketed '[' ']' rfl rfl fun w hw => ih w hw (level + 1), chars, itemChars_eq]
  | object fields ih =>
    cases fields with
    | nil => rw [indentedAt, indentedFields, bracketed, chars]; rfl
    | cons f fs =>
      have hpair : ∀ f' ∈ f :: fs, (quote f'.1 ++ ": " ++ indentedAt (level + 1) f'.2).toList
          = pairChars airy (level + 1) f' := by
        intro f' hf'
        rw [String.toList_append, String.toList_append, ih f' hf' (level + 1), List.append_assoc]
        rfl
      rw [indentedAt, indentedFields_eq, toList_bracketed '\x7b' '\x7d' rfl rfl hpair, chars,
        fieldChars_eq]
      rfl

/-! ### Reading a value -/

theorem skipSpace_append {b rest : List Char} (hb : ∀ c ∈ b, isSpace c = true) :
    skipSpace (b ++ rest) = skipSpace rest :=
  List.dropWhile_append_of_pos hb

theorem skipSpace_cons {c : Char} (hc : isSpace c = false) (rest : List Char) :
    skipSpace (c :: rest) = c :: rest :=
  List.dropWhile_cons_of_neg (by rw [hc]; decide)

mutual

/-- All numbers in a value are numerals. -/
def Proper : Json → Prop
  | .number n => IsNumeral n
  | .array items => ProperItems items
  | .object fields => ProperFields fields
  | .null | .bool _ | .text _ => True

def ProperItems : List Json → Prop
  | [] => True
  | v :: vs => Proper v ∧ ProperItems vs

def ProperFields : List (String × Json) → Prop
  | [] => True
  | (_, v) :: fs => Proper v ∧ ProperFields fs

end

theorem properItems_iff {items : List Json} : ProperItems items ↔ ∀ v ∈ items, v.Proper := by
  induction items with
  | nil => simp [ProperItems]
  | cons v vs ih => simp [ProperItems, ih]

theorem properFields_iff {fields : List (String × Json)} :
    ProperFields fields ↔ ∀ f ∈ fields, f.2.Proper := by
  induction fields with
  | nil => simp [ProperFields]
  | cons f fs ih => simp [ProperFields, ih]

-- written values are large, and nothing is gained by computing this of them
attribute [irreducible] Proper ProperItems ProperFields

/-- `v` is read from its text if there is room for it, and refused if there is not. -/
def ReadsBack (l : Layout) (size : Nat) (v : Json) : Prop :=
  ∀ (level room : Nat) (b rest : List Char), (∀ c ∈ b, isSpace c = true) → Stops rest →
    (chars l level v).length < size →
    scan size room (b ++ (chars l level v ++ rest)) = if v.depth ≤ room then some (v, rest) else none

variable {l : Layout} {size : Nat}

theorem stops_blank {b rest : List Char} (hb : ∀ c ∈ b, isSpace c = true) {c : Char}
    (hc : c = ']' ∨ c = '\x7d') : Stops (b ++ c :: rest) := by
  intro d hd
  cases b with
  | nil =>
    cases Option.some.inj hd
    rcases hc with rfl | rfl <;> decide
  | cons e b =>
    have he : isSpace d = true := Option.some.inj hd ▸ hb e List.mem_cons_self
    simp only [isSpace, Bool.or_eq_true, decide_eq_true_eq] at he
    rcases he with ((rfl | rfl) | rfl) | rfl <;> decide

theorem stops_comma (rest : List Char) : Stops (',' :: rest) := by
  intro d hd
  cases Option.some.inj hd
  decide

/-- The items of an array are read up to its end. -/
theorem scanItems_chars (hl : l.Blank) {level room : Nat} {b : List Char}
    (hb : ∀ c ∈ b, isSpace c = true) (rest : List Char) {v : Json} {vs : List Json} {fuel : Nat}
    (h : ∀ w ∈ v :: vs, ReadsBack l size w) (hfuel : vs.length < fuel)
    (hsize : (chars l level v ++ itemChars l level vs).length < size) :
    scanItems (scan size room) fuel
      (l.gap level ++ (chars l level v ++ (itemChars l level vs ++ (b ++ ']' :: rest))))
      = if depth.depthOfItems (v :: vs) ≤ room then some (v :: vs, rest) else none := by
  obtain ⟨fuel, rfl⟩ := Nat.exists_eq_succ_of_ne_zero (Nat.ne_zero_of_lt hfuel)
  induction vs generalizing v fuel with
  | nil =>
    rw [itemChars, List.append_nil] at hsize
    have hv := h v List.mem_cons_self level room (l.gap level) (b ++ ']' :: rest) (hl.gap level)
      (stops_blank hb (.inl rfl)) hsize
    have hclose : skipSpace (b ++ ']' :: rest) = ']' :: rest := by
      rw [skipSpace_append hb, skipSpace_cons (by decide)]
    rw [scanItems, itemChars, List.nil_append, hv, depth.depthOfItems, depth.depthOfItems, Nat.max_zero]
    by_cases hroom : v.depth ≤ room
    · simp [hroom, hclose]
    · simp [hroom]
  | cons w ws ih =>
    rw [List.length_append] at hsize
    have hv := h v List.mem_cons_self level room (l.gap level)
      (itemChars l level (w :: ws) ++ (b ++ ']' :: rest)) (hl.gap level) (stops_comma _) (by omega)
    have hcomma : skipSpace (itemChars l level (w :: ws) ++ (b ++ ']' :: rest))
        = ',' :: (l.gap level ++ (chars l level w ++ (itemChars l level ws ++ (b ++ ']' :: rest)))) := by
      rw [itemChars, List.cons_append, skipSpace_cons (by decide)]
      simp only [List.append_assoc]
    rw [itemChars] at hsize
    simp only [List.length_cons, List.length_append] at hsize hfuel
    obtain ⟨fuel, rfl⟩ := Nat.exists_eq_succ_of_ne_zero (Nat.ne_of_gt (by omega : 0 < fuel))
    have hws := ih (fun w hw => h w (List.mem_cons_of_mem _ hw)) (by
      rw [List.length_append]; omega) fuel (by omega)
    have hdepth : depth.depthOfItems (v :: w :: ws) ≤ room ↔
        v.depth ≤ room ∧ depth.depthOfItems (w :: ws) ≤ room := max_le_iff
    rw [scanItems, hv]
    simp only [hdepth]
    by_cases hroom : v.depth ≤ room
    · by_cases hmore : depth.depthOfItems (w :: ws) ≤ room <;> simp [hroom, hmore, hcomma, hws]
    · simp [hroom]

/-- The fields of an object are read up to its end. -/
theorem scanFields_chars (hl : l.Blank) {level room : Nat} {b : List Char}
    (hb : ∀ c ∈ b, isSpace c = true) (rest : List Char) {f : String × Json}
    {fs : List (String × Json)} {fuel : Nat} (h : ∀ g ∈ f :: fs, ReadsBack l size g.2)
    (hfuel : fs.length < fuel)
    (hsize : (pairChars l level f ++ fieldChars l level fs).length < size) :
    scanFields (scan size room) fuel
      (l.gap level ++ (pairChars l level f ++ (fieldChars l level fs ++ (b ++ '\x7d' :: rest))))
      = if depth.depthOfFields (f :: fs) ≤ room then some (f :: fs, rest) else none := by
  obtain ⟨fuel, rfl⟩ := Nat.exists_eq_succ_of_ne_zero (Nat.ne_zero_of_lt hfuel)
  -- the key and the colon, whatever stands behind the value
  have hkey : ∀ (k : String) (v : Json) (tail : List Char), skipSpace (l.gap level
      ++ (pairChars l level (k, v) ++ tail)) = '"' :: (k.toList.flatMap escaped
      ++ '"' :: (':' :: (l.space ++ (chars l level v ++ tail)))) := by
    intro k v tail
    rw [skipSpace_append (hl.gap level), pairChars, quote, String.toList_ofList]
    simp only [List.cons_append, List.append_assoc, List.nil_append]
    exact skipSpace_cons (by decide) _
  have hcolon : ∀ tail, skipSpace (':' :: tail) = ':' :: tail := skipSpace_cons (by decide)
  induction fs generalizing f fuel with
  | nil =>
    obtain ⟨k, v⟩ := f
    have hlength : (chars l level v).length < size := by
      rw [fieldChars, List.append_nil, pairChars] at hsize
      simp only [List.length_cons, List.length_append] at hsize
      omega
    have hv := h (k, v) List.mem_cons_self level room l.space (b ++ '\x7d' :: rest) hl.space
      (stops_blank hb (.inr rfl)) hlength
    have hclose : skipSpace (b ++ '\x7d' :: rest) = '\x7d' :: rest := by
      rw [skipSpace_append hb, skipSpace_cons (by decide)]
    have hdepth : depth.depthOfFields [(k, v)] = v.depth := Nat.max_zero _
    rw [scanFields, fieldChars, List.nil_append, hkey, hdepth]
    simp only [scanString_quote, Option.bind_eq_bind, Option.bind_some, hcolon, hv]
    by_cases hroom : v.depth ≤ room
    · simp [hroom, hclose]
    · simp [hroom]
  | cons g gs ih =>
    obtain ⟨k, v⟩ := f
    have hlength : (chars l level v).length < size := by
      rw [pairChars] at hsize
      simp only [List.length_cons, List.length_append] at hsize
      omega
    have hv := h (k, v) List.mem_cons_self level room l.space
      (fieldChars l level (g :: gs) ++ (b ++ '\x7d' :: rest)) hl.space (stops_comma _) hlength
    have hcomma : skipSpace (fieldChars l level (g :: gs) ++ (b ++ '\x7d' :: rest))
        = ',' :: (l.gap level ++ (pairChars l level g
          ++ (fieldChars l level gs ++ (b ++ '\x7d' :: rest)))) := by
      show skipSpace (',' :: (l.gap level ++ pairChars l level g ++ fieldChars l level gs)
        ++ (b ++ '\x7d' :: rest)) = _
      rw [List.cons_append, skipSpace_cons (by decide)]
      simp only [List.append_assoc]
    have hmore : (pairChars l level g ++ fieldChars l level gs).length < size := by
      have hcons : fieldChars l level (g :: gs)
          = ',' :: (l.gap level ++ pairChars l level g ++ fieldChars l level gs) := rfl
      rw [hcons] at hsize
      simp only [List.length_cons, List.length_append] at hsize ⊢
      omega
    rw [List.length_cons] at hfuel
    obtain ⟨fuel, rfl⟩ := Nat.exists_eq_succ_of_ne_zero (Nat.ne_of_gt (by omega : 0 < fuel))
    have hgs := ih (fun g hg => h g (List.mem_cons_of_mem _ hg)) hmore fuel (by omega)
    have hdepth : depth.depthOfFields ((k, v) :: g :: gs) ≤ room ↔
        v.depth ≤ room ∧ depth.depthOfFields (g :: gs) ≤ room := max_le_iff
    rw [scanFields, hkey]
    simp only [scanString_quote, Option.bind_eq_bind, Option.bind_some, hcolon, hv, hdepth]
    by_cases hroom : v.depth ≤ room
    · by_cases hrest : depth.depthOfFields (g :: gs) ≤ room <;> simp [hroom, hrest, hcomma, hgs]
    · simp [hroom]

-- the equations of the reader are generated here, once for all the lemmas about it
attribute [local simp] scan

theorem scan_blank {b : List Char} (hb : ∀ c ∈ b, isSpace c = true) (room : Nat) (cs : List Char) :
    scan size room (b ++ cs) = scan size room cs := by
  rw [scan.eq_def, scan.eq_def size room cs]
  dsimp only
  rw [skipSpace_append hb]

/-- The first character of a number. -/
theorem IsNumeral.exists_cons {n : String} (h : IsNumeral n) :
    ∃ c more, n.toList = c :: more ∧ (Decimal.isDigit c = true ∨ c = '-') := by
  obtain ⟨n, hvalid, rfl⟩ := h
  obtain ⟨d, more, hwhole⟩ := hvalid.whole.exists_cons
  rw [String.toList_ofList, Numeral.text, hwhole]
  cases n.negative with
  | true => exact ⟨'-', _, rfl, .inr rfl⟩
  | false => exact ⟨d, _, rfl, .inl (hvalid.digits d (by rw [hwhole]; simp))⟩

/-- A character that starts a number starts nothing else. -/
theorem number_start {c : Char} (h : Decimal.isDigit c = true ∨ c = '-') :
    isSpace c = false ∧ c ∉ ['n', 't', 'f', '"', '[', '\x7b', ']', '\x7d'] := by
  have hother : ∀ d ∈ [' ', '\t', '\n', '\r', 'n', 't', 'f', '"', '[', '\x7b', ']', '\x7d'],
      Decimal.isDigit d = false ∧ d ≠ '-' := forall_mem_of_all (by decide)
  have hne : ∀ d ∈ [' ', '\t', '\n', '\r', 'n', 't', 'f', '"', '[', '\x7b', ']', '\x7d'],
      c ≠ d := by
    rintro d hd rfl
    rcases h with h | h
    · exact absurd h (by rw [(hother c hd).1]; decide)
    · exact (hother c hd).2 h
  simp only [List.forall_mem_cons, List.not_mem_nil, false_imp_iff, implies_true, and_true] at hne
  simp [isSpace, hne]

theorem scan_number {n : String} (h : IsNumeral n) {rest : List Char} (hrest : Stops rest)
    (room : Nat) : scan size room (n.toList ++ rest) = some (.number n, rest) := by
  obtain ⟨c, more, hcons, hc⟩ := h.exists_cons
  obtain ⟨hspace, hstart⟩ := number_start hc
  simp only [List.mem_cons, not_or] at hstart
  have hskip : skipSpace (n.toList ++ rest) = n.toList ++ rest := by
    rw [hcons]
    exact skipSpace_cons hspace _
  obtain ⟨m, hvalid, rfl⟩ := h
  rw [scan.eq_def]
  dsimp only
  rw [hskip]
  rw [String.toList_ofList] at hcons ⊢
  have hscan := scanNumber_text hvalid hrest
  rw [hcons] at hscan ⊢
  split
  iterate 6
    rename_i heq
    have := (List.cons.inj heq).1
    simp_all
  rw [hscan]
  rfl

/-- A value starts with a character that is no blank and closes nothing. -/
theorem chars_cons {v : Json} (h : v.Proper) (l : Layout) (level : Nat) :
    ∃ c more, chars l level v = c :: more ∧ isSpace c = false ∧ c ≠ ']' := by
  cases v with
  | null => exact ⟨'n', _, rfl, by decide, by decide⟩
  | bool b =>
    cases b with
    | true => exact ⟨'t', _, rfl, by decide, by decide⟩
    | false => exact ⟨'f', _, rfl, by decide, by decide⟩
  | number n =>
    obtain ⟨c, more, hcons, hc⟩ := IsNumeral.exists_cons (by rw [Proper] at h; exact h)
    have hstart := number_start hc
    refine ⟨c, more, by rw [chars]; exact hcons, hstart.1, ?_⟩
    rintro rfl
    exact hstart.2 (by decide)
  | text s => exact ⟨'"', _, by rw [chars, quote, String.toList_ofList]; rfl, by decide, by decide⟩
  | array items =>
    cases items with
    | nil => exact ⟨'[', _, by rw [chars], by decide, by decide⟩
    | cons v vs => exact ⟨'[', _, by rw [chars], by decide, by decide⟩
  | object fields =>
    cases fields with
    | nil => exact ⟨'\x7b', _, by rw [chars], by decide, by decide⟩
    | cons f fs => exact ⟨'\x7b', _, by rw [chars], by decide, by decide⟩

theorem scan_array {cs more : List Char} {c : Char} (h : skipSpace cs = c :: more) (hc : c ≠ ']')
    (room : Nat) : scan size (room + 1) ('[' :: cs)
      = (scanItems (scan size room) size cs).map fun r => (.array r.1, r.2) := by
  rw [scan.eq_def]
  simp only [skipSpace_cons (show isSpace '[' = false by decide)]
  rw [h]
  split
  · rename_i heq
    exact absurd (List.cons.inj heq).1 hc
  · rfl

theorem scan_object {cs more : List Char} {c : Char} (h : skipSpace cs = c :: more)
    (hc : c ≠ '\x7d') (room : Nat) : scan size (room + 1) ('\x7b' :: cs)
      = (scanFields (scan size room) size cs).map fun r => (.object r.1, r.2) := by
  rw [scan.eq_def]
  simp only [skipSpace_cons (show isSpace '\x7b' = false by decide)]
  rw [h]
  split
  · rename_i heq
    exact absurd (List.cons.inj heq).1 hc
  · rfl

/-- Nothing is opened where there is no room. -/
theorem scan_zero {c : Char} (hc : c = '[' ∨ c = '\x7b') (cs : List Char) :
    scan size 0 (c :: cs) = none := by
  rw [scan.eq_def]
  dsimp only
  rcases hc with rfl | rfl <;> rw [skipSpace_cons (by decide)] <;> rfl

theorem length_le_itemChars (l : Layout) (level : Nat) (vs : List Json) :
    vs.length ≤ (itemChars l level vs).length := by
  induction vs with
  | nil => exact Nat.zero_le _
  | cons v vs ih =>
    rw [itemChars]
    simp only [List.length_cons, List.length_append]
    omega

theorem length_le_fieldChars (l : Layout) (level : Nat) (fs : List (String × Json)) :
    fs.length ≤ (fieldChars l level fs).length := by
  induction fs with
  | nil => exact Nat.zero_le _
  | cons f fs ih =>
    rw [fieldChars]
    simp only [List.length_cons, List.length_append]
    omega

theorem readsBack_text (s : String) : ReadsBack l size (.text s) := by
  intro level room b rest hb _ _
  have hquote : chars l level (.text s) ++ rest
      = '"' :: (s.toList.flatMap escaped ++ '"' :: rest) := by
    rw [chars, quote, String.toList_ofList]
    simp only [List.cons_append, List.append_assoc, List.nil_append]
  rw [scan_blank hb, hquote, scan.eq_def]
  simp only [skipSpace_cons (show isSpace '"' = false by decide), scanString_quote]
  rfl

theorem readsBack_array (hl : l.Blank) {items : List Json} (hproper : ∀ v ∈ items, v.Proper)
    (h : ∀ v ∈ items, ReadsBack l size v) : ReadsBack l size (.array items) := by
  intro level room b rest hb hrest hsize
  rw [scan_blank hb]
  cases items with
  | nil => cases room <;> (rw [scan.eq_def]; rfl)
  | cons v vs =>
    rw [chars] at hsize ⊢
    simp only [List.length_cons, List.length_append] at hsize
    simp only [List.cons_append, List.append_assoc, List.nil_append]
    cases room with
    | zero => rw [scan_zero (.inl rfl), depth, if_neg (by omega)]
    | succ room =>
      obtain ⟨c, more, hcons, hspace, hc⟩ := chars_cons (hproper v List.mem_cons_self) l (level + 1)
      have hfirst : skipSpace (l.gap (level + 1) ++ (chars l (level + 1) v
          ++ (itemChars l (level + 1) vs ++ (l.gap level ++ ']' :: rest)))) = c :: (more
          ++ (itemChars l (level + 1) vs ++ (l.gap level ++ ']' :: rest))) := by
        rw [skipSpace_append (hl.gap _), hcons]
        exact skipSpace_cons hspace _
      have hlength := length_le_itemChars l (level + 1) vs
      have hitems : scanItems (scan size room) size (l.gap (level + 1) ++ (chars l (level + 1) v
          ++ (itemChars l (level + 1) vs ++ (l.gap level ++ ']' :: rest))))
          = if depth.depthOfItems (v :: vs) ≤ room then some (v :: vs, rest) else none :=
        scanItems_chars hl (hl.gap level) rest h (by omega) (by rw [List.length_append]; omega)
      rw [scan_array hfirst hc, hitems, depth]
      simp only [Nat.add_le_add_iff_right]
      split <;> rfl

theorem readsBack_object (hl : l.Blank) {fields : List (String × Json)}
    (h : ∀ f ∈ fields, ReadsBack l size f.2) : ReadsBack l size (.object fields) := by
  intro level room b rest hb hrest hsize
  rw [scan_blank hb]
  cases fields with
  | nil => cases room <;> (rw [scan.eq_def]; rfl)
  | cons f fs =>
    have hchars : chars l level (.object (f :: fs)) = '\x7b' :: (l.gap (level + 1)
        ++ pairChars l (level + 1) f ++ fieldChars l (level + 1) fs
        ++ (l.gap level ++ ['\x7d'])) := by
      rw [chars]
      rfl
    rw [hchars] at hsize ⊢
    simp only [List.length_cons, List.length_append] at hsize
    simp only [List.cons_append, List.append_assoc, List.nil_append]
    cases room with
    | zero => rw [scan_zero (.inr rfl), depth, if_neg (by omega)]
    | succ room =>
      have hquote : ∃ more, skipSpace (l.gap (level + 1) ++ (pairChars l (level + 1) f
          ++ (fieldChars l (level + 1) fs ++ (l.gap level ++ '\x7d' :: rest)))) = '"' :: more := by
        rw [skipSpace_append (hl.gap _), pairChars, quote, String.toList_ofList]
        exact ⟨_, skipSpace_cons (by decide) _⟩
      obtain ⟨more, hfirst⟩ := hquote
      have hlength := length_le_fieldChars l (level + 1) fs
      have hfields : scanFields (scan size room) size (l.gap (level + 1)
          ++ (pairChars l (level + 1) f
          ++ (fieldChars l (level + 1) fs ++ (l.gap level ++ '\x7d' :: rest))))
          = if depth.depthOfFields (f :: fs) ≤ room then some (f :: fs, rest) else none :=
        scanFields_chars hl (hl.gap level) rest h (by omega) (by rw [List.length_append]; omega)
      rw [scan_object hfirst (by decide), hfields, depth]
      simp only [Nat.add_le_add_iff_right]
      split <;> rfl

/-- **A written value is read back if there is room for it**, and refused if it nests deeper. -/
theorem readsBack (hl : l.Blank) {v : Json} (h : v.Proper) : ReadsBack l size v := by
  induction v using Json.induction with
  | null =>
    intro level room b rest hb _ _
    rw [scan_blank hb, scan.eq_def]
    rfl
  | bool t =>
    intro level room b rest hb _ _
    rw [scan_blank hb, scan.eq_def]
    cases t <;> rfl
  | number n =>
    intro level room b rest hb hrest _
    rw [scan_blank hb]
    rw [Proper] at h
    exact scan_number h hrest room
  | text s => exact readsBack_text s
  | array items ih =>
    rw [Proper, properItems_iff] at h
    exact readsBack_array hl h fun v hv => ih v hv (h v hv)
  | object fields ih =>
    rw [Proper, properFields_iff] at h
    exact readsBack_object hl fun f hf => ih f hf (h f hf)

/-- **A document is read back as the value it was written from**, unless it nests too deep. -/
theorem readFirst?_render (indent : Bool) {v : Json} (h : v.Proper) :
    readFirst? (v.render indent) = if v.depth ≤ maxNesting then some v else none := by
  have hread : ∀ l : Layout, l.Blank → (scanText (chars l 0 v)).map (·.1)
      = if v.depth ≤ maxNesting then some v else none := by
    intro l hl
    have hscan := readsBack hl h 0 maxNesting [] [] (fun _ hc => absurd hc List.not_mem_nil)
      (fun _ hc => by cases hc) (Nat.lt_succ_self (chars l 0 v).length)
    rw [List.nil_append, List.append_nil] at hscan
    rw [scanText, hscan]
    split <;> rfl
  rw [readFirst?]
  cases indent with
  | false =>
    rw [show v.render false = v.compact from rfl, toList_compact 0]
    exact hread tight blank_tight
  | true =>
    rw [show v.render true = v.indentedAt 0 from rfl, toList_indentedAt]
    exact hread airy blank_airy

end PatternPlan.Json
