import PatternPlan.Proofs.Matching.Exhaustive

/-!
# Descriptions of missing values as patterns

What the search for missing values reports is a text, put together from the texts of its parts.  The
text is that of a pattern, and of no other one.

* `Witness`, `Witness.text`, `Witness.pattern` — the patterns that descriptions are made of: anything,
  a truth value, the unit value, tuples, open records, constructors, and arrays with or without a
  rest marker at the end;
* `Witness.Plain` — names that can be told from the signs around them;
* `Shape.witness`, `text_witness` — the pattern that is put together for a shape, and its text;
* `scan`, `Closed` — texts that have no comma outside brackets, and `intercalate_inj`: **a list of
  such texts can be read back**;
* `text_inj` — **a text describes one plain pattern**, by induction on the pattern.
-/

namespace PatternPlan.Typed

/-! ### Patterns that describe missing values -/

/-- A pattern that describes missing values. -/
inductive Witness where
  | any
  | truth (value : Bool)
  | unit
  | tuple (parts : List Witness)
  | record (fields : List (String × Witness))
  | variant (name : String) (args : List Witness)
  /-- An array; `isOpen` if more elements may follow. -/
  | array (parts : List Witness) (isOpen : Bool)
deriving Inhabited

namespace Witness

mutual

/-- The text of a pattern. -/
def text : Witness → String
  | any => "_"
  | truth b => if b then "true" else "false"
  | unit => "()"
  | tuple ws => "(" ++ ", ".intercalate (texts ws) ++ ")"
  | record fs => "\x7b" ++ ", ".intercalate (fieldTexts fs) ++ "\x7d"
  | variant n ws => if ws.isEmpty then n else n ++ "(" ++ ", ".intercalate (texts ws) ++ ")"
  | array ws isOpen =>
    "[" ++ ", ".intercalate (if isOpen then texts ws ++ [".."] else texts ws) ++ "]"

def texts : List Witness → List String
  | [] => []
  | w :: ws => text w :: texts ws

def fieldTexts : List (String × Witness) → List String
  | [] => []
  | (n, w) :: fs => (n ++ ": " ++ text w) :: fieldTexts fs

end

mutual

/-- The pattern itself. -/
def pattern : Witness → Pattern
  | any => .wildcard default
  | truth b => .literal default (.bool b)
  | unit => .literal default .unit
  | tuple ws => .tuple default (patterns ws)
  | record fs => .record default (fieldPatterns fs) true
  | variant n ws => .construct default n (patterns ws)
  | array ws isOpen => .slice default (items ws isOpen)

def patterns : List Witness → List Pattern
  | [] => []
  | w :: ws => pattern w :: patterns ws

def fieldPatterns : List (String × Witness) → List (String × Pattern)
  | [] => []
  | (n, w) :: fs => (n, pattern w) :: fieldPatterns fs

def items : List Witness → (isOpen : Bool) → List (SliceItem Pattern)
  | [], isOpen => if isOpen then [.rest "" default] else []
  | w :: ws, isOpen => .element (pattern w) :: items ws isOpen

end

theorem texts_eq (ws : List Witness) : texts ws = ws.map text := by
  induction ws with
  | nil => rfl
  | cons w ws ih => rw [texts, ih, List.map_cons]

theorem fieldTexts_eq (fs : List (String × Witness)) :
    fieldTexts fs = fs.map fun f => f.1 ++ ": " ++ f.2.text := by
  induction fs with
  | nil => rfl
  | cons f fs ih => rw [fieldTexts, ih, List.map_cons]

theorem patterns_eq (ws : List Witness) : patterns ws = ws.map pattern := by
  induction ws with
  | nil => rfl
  | cons w ws ih => rw [patterns, ih, List.map_cons]

theorem fieldPatterns_eq (fs : List (String × Witness)) :
    fieldPatterns fs = fs.map fun f => (f.1, f.2.pattern) := by
  induction fs with
  | nil => rfl
  | cons f fs ih => rw [fieldPatterns, ih, List.map_cons]

theorem sliceShape?_items (ws : List Witness) (isOpen : Bool) :
    sliceShape? (items ws isOpen) = some ⟨ws.map pattern, [], isOpen⟩ := by
  induction ws with
  | nil => cases isOpen <;> rfl
  | cons w ws ih => rw [items, sliceShape?, ih, Option.map_some, List.map_cons]

/-- Whether a pattern matches a value. -/
def accepts (m : Meaning) (w : Witness) (v : Value) : Prop := w.pattern.accepts m v = true

end Witness

/-- The pattern for a shape with patterns for its parts. -/
def Shape.witness : Shape → List Witness → Witness
  | .truth b, _ => .truth b
  | .unit, _ => .unit
  | .tuple _, ws => .tuple ws
  | .record fs, ws => .record (List.zipWith (fun f w => (f.1, w)) fs ws)
  | .variant n _, ws => .variant n ws
  | .slice _ isOpen, ws => .array ws isOpen

theorem text_witness (s : Shape) (ws : List Witness) :
    (s.witness ws).text = s.render (ws.map Witness.text) := by
  cases s with
  | truth b => rfl
  | unit => rfl
  | tuple ts => rw [Shape.witness, Witness.text, Witness.texts_eq, Shape.render]
  | record fs =>
    rw [Shape.witness, Witness.text, Witness.fieldTexts_eq, Shape.render, List.map_zipWith,
      List.zipWith_map_right]
  | variant n ts =>
    rw [Shape.witness, Witness.text, Witness.texts_eq, Shape.render]
    cases ws <;> rfl
  | slice ts isOpen => rw [Shape.witness, Witness.text, Witness.texts_eq, Shape.render]

/-! ### Texts without a comma outside brackets -/

def isOpening (c : Char) : Bool := c = '(' || c = '[' || c = '\x7b'

def isClosing (c : Char) : Bool := c = ')' || c = ']' || c = '\x7d'

/-- How deep a text ends that starts inside `depth` brackets; `none` if it has a comma outside all
brackets, or closes one that it did not open. -/
def scan : (depth : Nat) → List Char → Option Nat
  | depth, [] => some depth
  | depth, c :: cs =>
    if isOpening c then scan (depth + 1) cs
    else if isClosing c then
      match depth with
      | 0 => none
      | depth + 1 => scan depth cs
    else if c = ',' && depth = 0 then none
    else scan depth cs

/-- A text that closes the brackets it opens and has no comma outside of them. -/
def Closed (s : String) : Prop := scan 0 s.toList = some 0

theorem scan_cons (depth : Nat) (c : Char) (cs : List Char) :
    scan depth (c :: cs) =
      if isOpening c then scan (depth + 1) cs
      else if isClosing c then
        match depth with
        | 0 => none
        | depth + 1 => scan depth cs
      else if c = ',' && depth = 0 then none
      else scan depth cs := by
  rw [scan.eq_def]

theorem scan_append (depth : Nat) (as bs : List Char) :
    scan depth (as ++ bs) = (scan depth as).bind fun d => scan d bs := by
  induction as generalizing depth with
  | nil => rfl
  | cons a as ih =>
    rw [List.cons_append, scan_cons, scan_cons]
    split
    · exact ih _
    · split
      · cases depth with
        | zero => rfl
        | succ depth => exact ih _
      · split
        · rfl
        · exact ih _

/-- Inside more brackets a text does the same. -/
theorem scan_deeper {depth d : Nat} {as : List Char} (k : Nat) (h : scan depth as = some d) :
    scan (depth + k) as = some (d + k) := by
  induction as generalizing depth with
  | nil =>
    cases h
    rfl
  | cons a as ih =>
    rw [scan_cons] at h ⊢
    split at h
    · rename_i hopening
      rw [if_pos hopening, show depth + k + 1 = depth + 1 + k by omega]
      exact ih h
    · rename_i hopening
      rw [if_neg hopening]
      split at h
      · rename_i hclosing
        rw [if_pos hclosing]
        cases depth with
        | zero => cases h
        | succ depth =>
          rw [show depth + 1 + k = depth + k + 1 by omega]
          exact ih h
      · rename_i hclosing
        rw [if_neg hclosing]
        split at h
        · cases h
        · rename_i hcomma
          have hcomma' : ¬ (decide (a = ',') && decide (depth + k = 0)) = true := by
            simp only [Bool.and_eq_true, decide_eq_true_eq, not_and] at hcomma ⊢
            intro ha hzero
            exact hcomma ha (by omega)
          rw [if_neg hcomma']
          exact ih h

/-- The signs that stand in descriptions. -/
def signs : List Char := ['(', ')', '[', ']', '\x7b', '\x7d', ',', ':', '.']

theorem scan_of_signless {cs : List Char} (h : ∀ c ∈ cs, c ∉ signs) : scan 0 cs = some 0 := by
  induction cs with
  | nil => rfl
  | cons c cs ih =>
    obtain ⟨hc, hcs⟩ := List.forall_mem_cons.mp h
    simp only [signs, List.mem_cons, List.not_mem_nil, or_false, not_or] at hc
    rw [scan_cons]
    simp [isOpening, isClosing, hc, ih hcs]

/-- What stands before a comma or the end is found again. -/
theorem append_inj_of_scan {as bs rs ss : List Char} (ha : scan 0 as = some 0)
    (hb : scan 0 bs = some 0) (hr : ∀ c ∈ rs.head?, c = ',') (hs : ∀ c ∈ ss.head?, c = ',')
    (h : as ++ rs = bs ++ ss) : as = bs ∧ rs = ss := by
  -- a longer one of the two would go on with the comma
  have hempty : ∀ {as xs rs ss : List Char}, scan 0 as = some 0 → scan 0 (as ++ xs) = some 0 →
      (∀ c ∈ rs.head?, c = ',') → rs = xs ++ ss → xs = [] := by
    intro as xs rs ss ha hb hr heq
    cases xs with
    | nil => rfl
    | cons x xs =>
      obtain rfl : x = ',' := hr x (by rw [heq]; rfl)
      rw [scan_append, ha, Option.bind_some, scan_cons] at hb
      simp [isOpening, isClosing] at hb
  rcases List.append_eq_append_iff.mp h with ⟨xs, rfl, rfl⟩ | ⟨xs, rfl, rfl⟩
  · obtain rfl := hempty ha hb hr rfl
    exact ⟨(List.append_nil _).symm, rfl⟩
  · obtain rfl := hempty hb ha hs rfl
    exact ⟨List.append_nil _, rfl⟩

/-- What has no signs and stands before a sign or the end is found again. -/
theorem append_inj_of_signless {as bs rs ss : List Char} (ha : ∀ c ∈ as, c ∉ signs)
    (hb : ∀ c ∈ bs, c ∉ signs) (hr : ∀ c ∈ rs.head?, c ∈ signs) (hs : ∀ c ∈ ss.head?, c ∈ signs)
    (h : as ++ rs = bs ++ ss) : as = bs ∧ rs = ss := by
  have hempty : ∀ {xs bs rs ss : List Char}, (∀ c ∈ bs ++ xs, c ∉ signs) →
      (∀ c ∈ rs.head?, c ∈ signs) → rs = xs ++ ss → xs = [] := by
    intro xs bs rs ss hb hr heq
    cases xs with
    | nil => rfl
    | cons x xs => exact absurd (hr x (by rw [heq]; rfl)) (hb x (by simp))
  rcases List.append_eq_append_iff.mp h with ⟨xs, rfl, rfl⟩ | ⟨xs, rfl, rfl⟩
  · obtain rfl := hempty hb hr rfl
    exact ⟨(List.append_nil _).symm, rfl⟩
  · obtain rfl := hempty ha hs rfl
    exact ⟨List.append_nil _, rfl⟩

theorem intercalate_toList (ls : List String) :
    (", ".intercalate ls).toList = [',', ' '].intercalate (ls.map String.toList) :=
  String.toList_intercalate

/-- What follows the first item of a list is empty, or begins with a comma. -/
theorem intercalate_cons_eq (as : List Char) (ls : List (List Char)) :
    ∃ rs, [',', ' '].intercalate (as :: ls) = as ++ rs ∧ (∀ c ∈ rs.head?, c = ',') ∧
      (ls ≠ [] → rs = ',' :: ' ' :: [',', ' '].intercalate ls) ∧ (ls = [] → rs = []) := by
  cases ls with
  | nil => exact ⟨[], by simp, by simp, by simp, fun _ => rfl⟩
  | cons l ls =>
    refine ⟨',' :: ' ' :: [',', ' '].intercalate (l :: ls), ?_, by simp, fun _ => rfl, by simp⟩
    rw [List.intercalate_cons_cons, List.append_assoc]
    rfl

theorem intercalate_chars_inj {ls ks : List (List Char)}
    (hl : ∀ l ∈ ls, l ≠ [] ∧ scan 0 l = some 0) (hk : ∀ k ∈ ks, k ≠ [] ∧ scan 0 k = some 0)
    (h : [',', ' '].intercalate ls = [',', ' '].intercalate ks) : ls = ks := by
  induction ls generalizing ks with
  | nil =>
    cases ks with
    | nil => rfl
    | cons k ks =>
      obtain ⟨rs, heq, -⟩ := intercalate_cons_eq k ks
      rw [heq] at h
      exact absurd (List.append_eq_nil_iff.mp h.symm).1 (hk k List.mem_cons_self).1
  | cons l ls ih =>
    obtain ⟨rs, hrs, hcomma, hmore, hend⟩ := intercalate_cons_eq l ls
    cases ks with
    | nil =>
      rw [hrs] at h
      exact absurd (List.append_eq_nil_iff.mp h).1 (hl l List.mem_cons_self).1
    | cons k ks =>
      obtain ⟨ss, hss, hcomma', hmore', hend'⟩ := intercalate_cons_eq k ks
      rw [hrs, hss] at h
      obtain ⟨rfl, rfl⟩ := append_inj_of_scan (hl l List.mem_cons_self).2
        (hk k List.mem_cons_self).2 hcomma hcomma' h
      congr 1
      by_cases hls : ls = []
      · by_cases hks : ks = []
        · rw [hls, hks]
        · rw [hend hls] at hmore'
          cases hmore' hks
      · by_cases hks : ks = []
        · rw [hend' hks] at hmore
          cases hmore hls
        · have htail := (hmore hls).symm.trans (hmore' hks)
          refine ih (fun l h => hl l (List.mem_cons_of_mem _ h))
            (fun k h => hk k (List.mem_cons_of_mem _ h)) ?_
          simpa using htail

/-- **Lists are read back**, if their items are not empty and have no comma outside brackets. -/
theorem intercalate_inj {ls ks : List String} (hl : ∀ l ∈ ls, l ≠ "" ∧ Closed l)
    (hk : ∀ k ∈ ks, k ≠ "" ∧ Closed k) (h : ", ".intercalate ls = ", ".intercalate ks) :
    ls = ks := by
  have hchars : ∀ {ls : List String}, (∀ l ∈ ls, l ≠ "" ∧ Closed l) →
      ∀ l ∈ ls.map String.toList, l ≠ [] ∧ scan 0 l = some 0 := by
    intro ls hls l hl
    obtain ⟨s, hs, rfl⟩ := List.mem_map.mp hl
    exact ⟨fun hnil => (hls s hs).1 (String.toList_eq_nil_iff.mp hnil), (hls s hs).2⟩
  have hlists := congrArg String.toList h
  rw [intercalate_toList, intercalate_toList] at hlists
  exact List.map_injective_iff.mpr (fun _ _ => String.toList_inj.mp)
    (intercalate_chars_inj (hchars hl) (hchars hk) hlists)

/-- Brackets around a list of such texts. -/
theorem scan_bracketed {o c : Char} (ho : isOpening o = true) (hc : isClosing c = true)
    {ls : List (List Char)} (hl : ∀ l ∈ ls, scan 0 l = some 0) :
    scan 0 (o :: ([',', ' '].intercalate ls ++ [c])) = some 0 := by
  have hinside : scan 1 ([',', ' '].intercalate ls) = some 1 := by
    induction ls with
    | nil => rfl
    | cons l ls ih =>
      obtain ⟨hl, hls⟩ := List.forall_mem_cons.mp hl
      obtain ⟨rs, hrs, -, hmore, hend⟩ := intercalate_cons_eq l ls
      rw [hrs, scan_append, scan_deeper 1 hl, Option.bind_some]
      by_cases hnil : ls = []
      · rw [hend hnil]
        rfl
      · rw [hmore hnil]
        rw [scan_cons, scan_cons]
        exact ih hls
  have hclosing : isOpening c = false := by
    simp only [isClosing, Bool.or_eq_true, decide_eq_true_eq] at hc
    rcases hc with (rfl | rfl) | rfl <;> rfl
  rw [scan_cons, if_pos ho, scan_append, hinside, Option.bind_some, scan_cons, hclosing, hc]
  rfl

/-! ### One text, one pattern -/

/-- A name that can be told from the signs around it. -/
structure IsName (n : String) : Prop where
  ne_empty : n ≠ ""
  signless : ∀ c ∈ n.toList, c ∉ signs

/-- A text that can stand in a list: it is closed, and it begins with a letter that is not a dot. -/
structure Item (s : String) : Prop where
  closed : Closed s
  head : ∃ c cs, s.toList = c :: cs ∧ c ≠ '.'

theorem Item.ne_empty {s : String} (h : Item s) : s ≠ "" := by
  obtain ⟨c, cs, hs, -⟩ := h.head
  rintro rfl
  cases hs

theorem bracketed_toList {o c : String} {a b : Char} (ho : o.toList = [a]) (hc : c.toList = [b])
    (ls : List String) : (o ++ ", ".intercalate ls ++ c).toList
      = a :: ([',', ' '].intercalate (ls.map String.toList) ++ [b]) := by
  rw [String.toList_append, String.toList_append, ho, hc, intercalate_toList]
  rfl

/-- A list in brackets is an item. -/
theorem item_bracketed {o c : String} {a b : Char} (ho : o.toList = [a]) (hc : c.toList = [b])
    (ha : isOpening a = true) (hb : isClosing b = true) {ls : List String}
    (hls : ∀ l ∈ ls, Closed l) : Item (o ++ ", ".intercalate ls ++ c) := by
  refine ⟨?_, a, _, bracketed_toList ho hc ls, ?_⟩
  · rw [Closed, bracketed_toList ho hc]
    refine scan_bracketed ha hb fun l hl => ?_
    obtain ⟨s, hs, rfl⟩ := List.mem_map.mp hl
    exact hls s hs
  · rintro rfl
    cases ha

theorem IsName.exists_head {n : String} (h : IsName n) : ∃ c cs, n.toList = c :: cs ∧ c ∉ signs := by
  cases hn : n.toList with
  | nil => exact absurd (String.toList_eq_nil_iff.mp hn) h.ne_empty
  | cons c cs => exact ⟨c, cs, rfl, h.signless c (hn ▸ List.mem_cons_self)⟩

theorem IsName.closed {n : String} (h : IsName n) : Closed n := scan_of_signless h.signless

theorem ne_dot_of_notMem_signs {c : Char} (h : c ∉ signs) : c ≠ '.' := by
  rintro rfl
  exact h (by decide)

/-- A name with an item in front of or behind it. -/
theorem IsName.item_append {n s : String} (h : IsName n) (hs : Closed s) : Item (n ++ s) := by
  obtain ⟨c, cs, hn, hc⟩ := h.exists_head
  refine ⟨?_, c, cs ++ s.toList, by rw [String.toList_append, hn]; rfl, ne_dot_of_notMem_signs hc⟩
  rw [Closed, String.toList_append, scan_append, h.closed]
  exact hs

theorem closed_colon {s : String} (h : Closed s) : Closed (": " ++ s) := by
  rw [Closed, String.toList_append]
  exact h

theorem IsName.item_field {n s : String} (h : IsName n) (hs : Closed s) : Item (n ++ ": " ++ s) := by
  rw [String.append_assoc]
  exact h.item_append (closed_colon hs)

theorem IsName.field_inj {n k s t : String} (hn : IsName n) (hk : IsName k)
    (h : n ++ ": " ++ s = k ++ ": " ++ t) : n = k ∧ s = t := by
  have hlists := congrArg String.toList h
  rw [String.append_assoc, String.append_assoc, String.toList_append, String.toList_append (s := k),
    String.toList_append, String.toList_append] at hlists
  obtain ⟨hname, hrest⟩ := append_inj_of_signless hn.signless hk.signless (by simp [signs])
    (by simp [signs]) hlists
  exact ⟨String.toList_inj.mp hname, String.toList_inj.mp (List.append_cancel_left hrest)⟩

/-- The words that are patterns of their own. -/
def words : List String := ["_", "true", "false"]

namespace Witness

/-- A pattern in which all names can be told from signs and words, and no tuple is empty. -/
inductive Plain : Witness → Prop
  | any : Plain any
  | truth (b : Bool) : Plain (truth b)
  | unit : Plain unit
  | tuple {ws : List Witness} : ws ≠ [] → (∀ w ∈ ws, Plain w) → Plain (tuple ws)
  | record {fs : List (String × Witness)} : (∀ f ∈ fs, IsName f.1) → (∀ f ∈ fs, Plain f.2) →
      Plain (record fs)
  | variant {n : String} {ws : List Witness} : IsName n → n ∉ words → (∀ w ∈ ws, Plain w) →
      Plain (variant n ws)
  | array {ws : List Witness} (isOpen : Bool) : (∀ w ∈ ws, Plain w) → Plain (array ws isOpen)

/-- The text of a plain pattern is an item. -/
theorem item_text {w : Witness} (h : w.Plain) : Item w.text := by
  induction h with
  | any => exact ⟨rfl, _, _, rfl, by decide⟩
  | truth b => cases b <;> exact ⟨rfl, _, _, rfl, by decide⟩
  | unit => exact ⟨rfl, _, _, rfl, by decide⟩
  | @tuple ws _ _ ih =>
    rw [text, texts_eq]
    refine item_bracketed rfl rfl rfl rfl fun l hl => ?_
    obtain ⟨w, hw, rfl⟩ := List.mem_map.mp hl
    exact (ih w hw).closed
  | @record fs hnames _ ih =>
    rw [text, fieldTexts_eq]
    refine item_bracketed rfl rfl rfl rfl fun l hl => ?_
    obtain ⟨f, hf, rfl⟩ := List.mem_map.mp hl
    exact ((hnames f hf).item_field (ih f hf).closed).closed
  | @variant n ws hname _ _ ih =>
    rw [text]
    split
    · rw [← String.append_empty (s := n)]
      exact hname.item_append rfl
    · have hassoc : n ++ "(" ++ ", ".intercalate (texts ws) ++ ")"
          = n ++ ("(" ++ ", ".intercalate (texts ws) ++ ")") := by
        simp only [String.append_assoc]
      rw [hassoc, texts_eq]
      refine hname.item_append (item_bracketed rfl rfl rfl rfl fun l hl => ?_).closed
      obtain ⟨w, hw, rfl⟩ := List.mem_map.mp hl
      exact (ih w hw).closed
  | @array ws isOpen _ ih =>
    rw [text, texts_eq]
    refine item_bracketed rfl rfl rfl rfl fun l hl => ?_
    have hws : ∀ l ∈ ws.map text, Closed l := by
      intro l hl
      obtain ⟨w, hw, rfl⟩ := List.mem_map.mp hl
      exact (ih w hw).closed
    split at hl
    · rcases List.mem_append.mp hl with hl | hl
      · exact hws l hl
      · obtain rfl := List.mem_singleton.mp hl
        rfl
    · exact hws l hl

/-- What kind of pattern a text shows. -/
def kindOf : List Char → Nat
  | ['_'] => 0
  | ['t', 'r', 'u', 'e'] => 1
  | ['f', 'a', 'l', 's', 'e'] => 2
  | ['(', ')'] => 3
  | '(' :: _ => 4
  | '[' :: _ => 5
  | '\x7b' :: _ => 6
  | _ => 7

/-- The kind of a pattern. -/
def kind : Witness → Nat
  | any => 0
  | truth b => if b then 1 else 2
  | unit => 3
  | tuple _ => 4
  | array _ _ => 5
  | record _ => 6
  | variant _ _ => 7

/-- The arguments of a constructor as they follow its name. -/
def argsText (ws : List Witness) : String :=
  if ws.isEmpty then "" else "(" ++ ", ".intercalate (texts ws) ++ ")"

theorem text_variant (n : String) (ws : List Witness) : (variant n ws).text = n ++ argsText ws := by
  rw [text, argsText]
  split
  · exact String.append_empty.symm
  · simp only [String.append_assoc]

theorem head?_argsText (ws : List Witness) : ∀ c ∈ (argsText ws).toList.head?, c = '(' := by
  rw [argsText]
  split
  · simp
  · rw [bracketed_toList (a := '(') (b := ')') rfl rfl]
    simp

/-- **A text shows its kind.** -/
theorem kindOf_text {w : Witness} (h : w.Plain) : kindOf w.text.toList = w.kind := by
  cases h with
  | any => rfl
  | truth b => cases b <;> rfl
  | unit => rfl
  | @tuple ws hne hws =>
    -- between the brackets stands something
    have hinside : [',', ' '].intercalate ((ws.map text).map String.toList) ≠ [] := by
      cases ws with
      | nil => exact absurd rfl hne
      | cons w ws =>
        obtain ⟨rs, hrs, -⟩ := intercalate_cons_eq w.text.toList ((ws.map text).map String.toList)
        obtain ⟨c, cs, hc, -⟩ := (item_text (hws w List.mem_cons_self)).head
        rw [List.map_cons, List.map_cons, hrs, hc]
        exact List.cons_ne_nil _ _
    rw [text, texts_eq, bracketed_toList (a := '(') (b := ')') rfl rfl]
    obtain ⟨x, xs, hx⟩ := List.exists_cons_of_ne_nil hinside
    rw [hx, kindOf]
    · rfl
    · intro h
      simp at h
  | record hnames hfs =>
    rw [text, bracketed_toList (a := '\x7b') (b := '\x7d') rfl rfl]
    rfl
  | @variant n ws hname hword hws =>
    obtain ⟨c, cs, hn, hc⟩ := hname.exists_head
    -- a word would be the name itself, since no word has a sign
    have hnot : ∀ word ∈ words, n.toList ++ (argsText ws).toList ≠ word.toList := by
      intro word hmem heq
      have hsignless : ∀ word ∈ words, ∀ c ∈ word.toList, c ∉ signs := by simp [words, signs]
      have hargs : ∀ c ∈ (argsText ws).toList.head?, c ∈ signs := by
        intro c hc
        rw [head?_argsText ws c hc]
        decide
      rw [← List.append_nil word.toList] at heq
      obtain ⟨heq, -⟩ := append_inj_of_signless hname.signless (hsignless word hmem) hargs (by simp)
        heq
      exact hword (String.toList_inj.mp heq ▸ hmem)
    simp only [signs, List.mem_cons, List.not_mem_nil, or_false, not_or] at hc
    rw [text_variant, String.toList_append, kind]
    unfold kindOf
    split
    · rename_i heq
      exact absurd heq (hnot "_" (by decide))
    · rename_i heq
      exact absurd heq (hnot "true" (by decide))
    · rename_i heq
      exact absurd heq (hnot "false" (by decide))
    all_goals first
      | rfl
      | rename_i heq
        rw [hn, List.cons_append, List.cons.injEq] at heq
        simp [heq.1] at hc
  | array isOpen hws =>
    rw [text, bracketed_toList (a := '[') (b := ']') rfl rfl]
    rfl

/-- Lists of patterns with the same texts are equal if the patterns in one of them are each the only
one with its text. -/
theorem eq_of_map_text {ws us : List Witness}
    (hws : ∀ w ∈ ws, ∀ u : Witness, u.Plain → w.text = u.text → w = u) (hus : ∀ u ∈ us, u.Plain)
    (h : ws.map text = us.map text) : ws = us := by
  induction ws generalizing us with
  | nil => rw [List.map_eq_nil_iff.mp h.symm]
  | cons w ws ih =>
    cases us with
    | nil => cases h
    | cons u us =>
      obtain ⟨hhead, htail⟩ := List.cons.inj h
      rw [hws w List.mem_cons_self u (hus u List.mem_cons_self) hhead,
        ih (fun w hw => hws w (List.mem_cons_of_mem _ hw))
          (fun u hu => hus u (List.mem_cons_of_mem _ hu)) htail]

/-- The same for fields, if their names are names. -/
theorem eq_of_map_fieldText {fs gs : List (String × Witness)} (hfs : ∀ f ∈ fs, IsName f.1)
    (hgs : ∀ g ∈ gs, IsName g.1)
    (h : (fs.map fun f => f.1 ++ ": " ++ f.2.text) = gs.map fun g => g.1 ++ ": " ++ g.2.text) :
    fs.map (·.1) = gs.map (·.1) ∧ (fs.map (·.2)).map text = (gs.map (·.2)).map text := by
  induction fs generalizing gs with
  | nil => rw [List.map_eq_nil_iff.mp h.symm]; exact ⟨rfl, rfl⟩
  | cons f fs ih =>
    cases gs with
    | nil => cases h
    | cons g gs =>
      obtain ⟨hhead, htail⟩ := List.cons.inj h
      obtain ⟨hname, htext⟩ :=
        (hfs f List.mem_cons_self).field_inj (hgs g List.mem_cons_self) hhead
      obtain ⟨hnames, htexts⟩ := ih (fun f hf => hfs f (List.mem_cons_of_mem _ hf))
        (fun g hg => hgs g (List.mem_cons_of_mem _ hg)) htail
      simp only [List.map_cons, hname, htext, hnames, htexts, and_self]

/-- A list between the same brackets. -/
theorem bracketed_inj {o c : String} {a b : Char} (ho : o.toList = [a]) (hc : c.toList = [b])
    {ls ks : List String} (hl : ∀ l ∈ ls, l ≠ "" ∧ Closed l) (hk : ∀ k ∈ ks, k ≠ "" ∧ Closed k)
    (h : o ++ ", ".intercalate ls ++ c = o ++ ", ".intercalate ks ++ c) : ls = ks := by
  have hinside := congrArg String.toList h
  rw [bracketed_toList ho hc, bracketed_toList ho hc, ← intercalate_toList,
    ← intercalate_toList] at hinside
  exact intercalate_inj hl hk
    (String.toList_inj.mp (List.append_cancel_right (List.cons.inj hinside).2))

theorem items_of_plain {ws : List Witness} (h : ∀ w ∈ ws, w.Plain) :
    ∀ l ∈ ws.map text, l ≠ "" ∧ Closed l := by
  intro l hl
  obtain ⟨w, hw, rfl⟩ := List.mem_map.mp hl
  exact ⟨(item_text (h w hw)).ne_empty, (item_text (h w hw)).closed⟩

theorem items_of_open {ws : List Witness} (h : ∀ w ∈ ws, w.Plain) (isOpen : Bool) :
    ∀ l ∈ if isOpen then ws.map text ++ [".."] else ws.map text, l ≠ "" ∧ Closed l := by
  intro l hl
  split at hl
  · rcases List.mem_append.mp hl with hl | hl
    · exact items_of_plain h l hl
    · obtain rfl := List.mem_singleton.mp hl
      exact ⟨by decide, rfl⟩
  · exact items_of_plain h l hl

/-- No plain pattern is written as the rest marker. -/
theorem dots_notMem {ws : List Witness} (h : ∀ w ∈ ws, w.Plain) : ".." ∉ ws.map text := by
  intro hmem
  obtain ⟨w, hw, htext⟩ := List.mem_map.mp hmem
  obtain ⟨c, cs, hc, hdot⟩ := (item_text (h w hw)).head
  rw [htext] at hc
  cases hc
  exact hdot rfl

theorem args_inj {ws us : List Witness} (hws : ∀ w ∈ ws, w.Plain) (hus : ∀ u ∈ us, u.Plain)
    (ih : ∀ w ∈ ws, ∀ {u : Witness}, u.Plain → w.text = u.text → w = u)
    (h : argsText ws = argsText us) : ws = us := by
  have hbracket : ∀ {ws us : List Witness}, ws.isEmpty = true → us.isEmpty ≠ true →
      argsText ws ≠ argsText us := by
    intro ws us hws hus heq
    have hlists := congrArg String.toList heq
    rw [argsText, if_pos hws, argsText, if_neg hus,
      bracketed_toList (a := '(') (b := ')') rfl rfl] at hlists
    cases hlists
  by_cases hempty : ws.isEmpty = true
  · by_cases hempty' : us.isEmpty = true
    · rw [List.isEmpty_iff.mp hempty, List.isEmpty_iff.mp hempty']
    · exact absurd h (hbracket hempty hempty')
  · by_cases hempty' : us.isEmpty = true
    · exact absurd h.symm (hbracket hempty' hempty)
    · rw [argsText, argsText, if_neg hempty, if_neg hempty', texts_eq, texts_eq] at h
      exact eq_of_map_text (fun w hw u => ih w hw) hus
        (bracketed_inj rfl rfl (items_of_plain hws) (items_of_plain hus) h)

theorem items_of_fields {fs : List (String × Witness)} (hnames : ∀ f ∈ fs, IsName f.1)
    (hfs : ∀ f ∈ fs, f.2.Plain) : ∀ l ∈ fs.map fun f => f.1 ++ ": " ++ f.2.text, l ≠ "" ∧ Closed l := by
  intro l hl
  obtain ⟨f, hf, rfl⟩ := List.mem_map.mp hl
  have hitem := (hnames f hf).item_field (item_text (hfs f hf)).closed
  exact ⟨hitem.ne_empty, hitem.closed⟩

theorem record_inj {fs gs : List (String × Witness)} (hnames : ∀ f ∈ fs, IsName f.1)
    (hfs : ∀ f ∈ fs, f.2.Plain) (hnames' : ∀ g ∈ gs, IsName g.1) (hgs : ∀ g ∈ gs, g.2.Plain)
    (ih : ∀ f ∈ fs, ∀ {u : Witness}, u.Plain → f.2.text = u.text → f.2 = u)
    (h : (record fs).text = (record gs).text) : fs = gs := by
  rw [text, text, fieldTexts_eq, fieldTexts_eq] at h
  obtain ⟨hkeys, htexts⟩ := eq_of_map_fieldText hnames hnames'
    (bracketed_inj rfl rfl (items_of_fields hnames hfs) (items_of_fields hnames' hgs) h)
  have hparts : fs.map (·.2) = gs.map (·.2) := by
    refine eq_of_map_text (fun w hw u => ?_) (fun u hu => ?_) htexts
    · obtain ⟨f, hf, rfl⟩ := List.mem_map.mp hw
      exact ih f hf
    · obtain ⟨g, hg, rfl⟩ := List.mem_map.mp hu
      exact hgs g hg
  rw [← List.zip_unzip fs, ← List.zip_unzip gs, List.unzip_eq_map, List.unzip_eq_map, hkeys, hparts]

theorem variant_inj {n k : String} {ws us : List Witness} (hn : IsName n) (hk : IsName k)
    (hws : ∀ w ∈ ws, w.Plain) (hus : ∀ u ∈ us, u.Plain)
    (ih : ∀ w ∈ ws, ∀ {u : Witness}, u.Plain → w.text = u.text → w = u)
    (h : (variant n ws).text = (variant k us).text) : n = k ∧ ws = us := by
  rw [text_variant, text_variant] at h
  have hlists := congrArg String.toList h
  rw [String.toList_append, String.toList_append] at hlists
  have hargs : ∀ ws : List Witness, ∀ c ∈ (argsText ws).toList.head?, c ∈ signs := by
    intro ws c hc
    rw [head?_argsText ws c hc]
    decide
  obtain ⟨hname, hrest⟩ := append_inj_of_signless hn.signless hk.signless (hargs ws) (hargs us) hlists
  exact ⟨String.toList_inj.mp hname, args_inj hws hus ih (String.toList_inj.mp hrest)⟩

theorem array_inj {ws us : List Witness} {isOpen isOpen' : Bool} (hws : ∀ w ∈ ws, w.Plain)
    (hus : ∀ u ∈ us, u.Plain) (ih : ∀ w ∈ ws, ∀ {u : Witness}, u.Plain → w.text = u.text → w = u)
    (h : (array ws isOpen).text = (array us isOpen').text) : ws = us ∧ isOpen = isOpen' := by
  rw [text, text, texts_eq, texts_eq] at h
  have hitems := bracketed_inj rfl rfl (items_of_open hws isOpen) (items_of_open hus isOpen') h
  have hdots : ∀ {ws us : List Witness}, (∀ u ∈ us, u.Plain) → ws.map text ++ [".."] ≠ us.map text :=
    fun hus heq => dots_notMem hus (heq ▸ List.mem_append_right _ (List.mem_singleton_self _))
  cases isOpen <;> cases isOpen'
  · exact ⟨eq_of_map_text (fun w hw u => ih w hw) hus hitems, rfl⟩
  · exact absurd hitems.symm (hdots hws)
  · exact absurd hitems (hdots hus)
  · exact ⟨eq_of_map_text (fun w hw u => ih w hw) hus (List.append_cancel_right hitems), rfl⟩

theorem kind_eq_of_text {w u : Witness} (hw : w.Plain) (hu : u.Plain) (h : w.text = u.text) :
    w.kind = u.kind := by
  rw [← kindOf_text hw, ← kindOf_text hu, h]

/-- **A text describes one plain pattern.** -/
theorem text_inj {w u : Witness} (hw : w.Plain) (hu : u.Plain) (h : w.text = u.text) : w = u := by
  induction hw generalizing u with
  | any =>
    have hkind := kind_eq_of_text .any hu h
    cases hu with
    | any => rfl
    | truth c => cases c <;> cases hkind
    | _ => cases hkind
  | truth b =>
    have hkind := kind_eq_of_text (.truth b) hu h
    cases hu with
    | truth c => cases b <;> cases c <;> first | rfl | cases hkind
    | _ => cases b <;> cases hkind
  | unit =>
    have hkind := kind_eq_of_text .unit hu h
    cases hu with
    | unit => rfl
    | truth c => cases c <;> cases hkind
    | _ => cases hkind
  | tuple hne hws ih =>
    have hkind := kind_eq_of_text (.tuple hne hws) hu h
    cases hu with
    | tuple _ hus =>
      rw [text, text, texts_eq, texts_eq] at h
      have htexts := bracketed_inj rfl rfl (items_of_plain hws) (items_of_plain hus) h
      rw [eq_of_map_text (fun w hw u => ih w hw) hus htexts]
    | truth c => cases c <;> cases hkind
    | _ => cases hkind
  | record hnames hfs ih =>
    have hkind := kind_eq_of_text (.record hnames hfs) hu h
    cases hu with
    | record hnames' hgs => rw [record_inj hnames hfs hnames' hgs ih h]
    | truth c => cases c <;> cases hkind
    | _ => cases hkind
  | variant hname hword hws ih =>
    have hkind := kind_eq_of_text (.variant hname hword hws) hu h
    cases hu with
    | variant hname' _ hus =>
      obtain ⟨rfl, rfl⟩ := variant_inj hname hname' hws hus ih h
      rfl
    | truth c => cases c <;> cases hkind
    | _ => cases hkind
  | array isOpen hws ih =>
    have hkind := kind_eq_of_text (.array isOpen hws) hu h
    cases hu with
    | array isOpen' hus =>
      obtain ⟨rfl, rfl⟩ := array_inj hws hus ih h
      rfl
    | truth c => cases c <;> cases hkind
    | _ => cases hkind

end Witness

end PatternPlan.Typed
