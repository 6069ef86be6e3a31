import PatternPlan.Proofs.Surface.Lines
import PatternPlan.Sample.Generator

/-!
# The words of sample programs

* `Leaf.pattern` — the pattern that a pattern without patterns inside is the written form of;
* `Form.induction` — what holds of a pattern whenever it holds of the patterns inside it holds of all
  patterns;
* `Form.words`, `Arm.words`, `Function.words` — the words that the parts of a program consist of;
* `Form.reads_text`, `Function.reads_text` — **the text of a part is read as its words**;
* `readsLines_program` — **a program is read line by line**: the declarations that its matches use,
  and its functions.
-/

namespace PatternPlan.Sample

/-! ### Names with numbers -/

/-- The second letter of a keyword is no digit. -/
theorem ofName_numbered {c d : Char} {cs : List Char} (hc : c.isUpper = false)
    (hd : Decimal.isDigit d = true) : TokenKind.ofName (c :: d :: cs) = .lower := by
  have hkeyword : TokenKind.keyword? (String.ofList (c :: d :: cs)) = none := by
    rw [TokenKind.keyword?.eq_def]
    split
    case h_18 => rfl
    all_goals
      rename_i hname
      have hlist := congrArg String.toList hname
      rw [String.toList_ofList] at hlist
      injection hlist with _ hlist
      injection hlist with hd'
      rw [hd'] at hd
      cases hd
  rw [TokenKind.ofName.eq_def, hkeyword]
  simp [hc]

theorem isLowerName_numbered {c : Char} (hc : startsName c = true) (hlower : c.isUpper = false) (n : Nat) :
    isLowerName (String.ofList [c] ++ decimal n) = true := by
  obtain ⟨d, ds, hdigits⟩ := List.exists_cons_of_ne_nil (Decimal.digits_ne_nil n)
  have hall : ∀ d' ∈ d :: ds, Decimal.isDigit d' = true := by
    rw [← hdigits]
    exact Decimal.isDigit_of_mem_digits
  have hlist : (String.ofList [c] ++ decimal n).toList = c :: d :: ds := by
    rw [decimal, if_neg (by omega), ← hdigits]
    simp
  have hcontinues : (d :: ds).all continuesName = true := by
    rw [List.all_eq_true]
    intro d' hd'
    rw [continuesName, hall d' hd', Bool.or_true]
  rw [isLowerName, spellsName, hlist]
  simp only [hc, hcontinues, ofName_numbered hlower (hall d List.mem_cons_self)]
  rfl

theorem isLowerName_nameText (i : Nat) : isLowerName (nameText i) = true :=
  isLowerName_numbered (c := 'x') (by decide) (by decide) i

/-! ### Patterns without patterns inside -/

/-- The pattern that is written. -/
def Leaf.pattern : Leaf → Surface.Pattern
  | wildcard => .wildcard default
  | name i => .var default (nameText i)
  | number n => .literal default (.int n.val)
  | negative n => .literal default (.int (-(n.val + 1 : Nat)))
  | range first more =>
    .range default (some ⟨default, .int first.val⟩) (some ⟨default, .int (first.val + more.val : Nat)⟩) true
  | truth b => .literal default (.bool b)
  | string i => .literal default (.text (stringText i))
  | regex => .regex default "^[a-z]+$"
  | bare c => .construct default c.name []

theorem decimal_neg_succ (n : Nat) : decimal (-(n + 1 : Nat)) = "-" ++ decimal (n + 1 : Nat) := by
  rw [decimal, if_pos (by omega), decimal, if_neg (by omega), Int.natAbs_neg, ← String.toList_inj]
  simp

theorem Leaf.text_eq (l : Leaf) : l.text = l.pattern.print .primary := by
  cases l with
  | negative n => exact (decimal_neg_succ n.val).symm
  | truth b => revert b; decide
  | string i => revert i; decide
  | regex => decide
  | bare c => cases c <;> rfl
  | _ => rfl

theorem Leaf.writable_pattern (l : Leaf) : l.pattern.Writable := by
  cases l with
  | wildcard => exact .wildcard
  | name i => exact .var (isLowerName_nameText i)
  | number n =>
    have hn : n.val < 10 := n.isLt
    exact .literal (show (n.val : Int).natAbs < 2 ^ 63 by omega)
  | negative n =>
    have hn : n.val < 5 := n.isLt
    exact .literal (show (-(n.val + 1 : Nat) : Int).natAbs < 2 ^ 63 by omega)
  | range first more =>
    have hfirst : first.val < 10 := first.isLt
    have hmore : more.val < 10 := more.isLt
    refine .range (.inl rfl) (fun _ => rfl) ?_ ?_
    · rintro b ⟨⟩
      exact ⟨rfl, show (first.val : Int).natAbs < 2 ^ 63 by omega⟩
    · rintro b ⟨⟩
      exact ⟨rfl, show ((first.val + more.val : Nat) : Int).natAbs < 2 ^ 63 by omega⟩
  | truth b => exact .literal trivial
  | string i => exact .literal trivial
  | regex => exact .regex ⟨by decide, by decide⟩
  | bare c => exact .construct (by cases c <;> decide) (by simp)

/-! ### Patterns -/

/-- The kind of a recognizer, and its name. -/
def Recognizer.kind : Recognizer → RecognizerKind
  | even => .optional
  | sign => .total

def Recognizer.name : Recognizer → String
  | even => "Even"
  | sign => "Sign"

theorem Recognizer.text_eq (r : Recognizer) : r.text = r.kind.label r.name := by
  cases r <;> rfl

theorem Recognizer.isUpperName_name (r : Recognizer) : isUpperName r.name = true := by
  cases r <;> decide

theorem Wrapper.isUpperName_name (c : Wrapper) : isUpperName c.name = true := by
  cases c <;> decide

/-- The words of a rest marker. -/
def restWords (n : Option Nat) : List Word :=
  [Word.sign .dotDot] ++ (n.map fun i => [Word.name (nameText i)]).getD []

namespace Form

@[elab_as_elim]
theorem induction {motive : Form → Prop}
    (leaf : ∀ l, motive (.leaf l))
    (apply : ∀ c p, motive p → motive (.apply c p))
    (call : ∀ r p, motive p → motive (.call r p))
    (pair : ∀ p q, motive p → motive q → motive (.pair p q))
    (either : ∀ p q, motive p → motive q → motive (.either p q))
    (named : ∀ p i, motive p → motive (.named p i))
    (slice : ∀ items rest, (∀ p ∈ items, motive p) → motive (.slice items rest)) (p : Form) : motive p := by
  -- on the size, so that the hypothesis for arrays can be stated by membership
  induction hs : sizeOf p using Nat.strongRecOn generalizing p with
  | ind n ih =>
    subst hs
    have inner : ∀ q : Form, sizeOf q < sizeOf p → motive q := fun q hq => ih _ hq q rfl
    cases p with
    | leaf l => exact leaf l
    | apply c p => exact apply c p (inner p (by simp only [Form.apply.sizeOf_spec]; omega))
    | call r p => exact call r p (inner p (by simp only [Form.call.sizeOf_spec]; omega))
    | pair p q =>
      exact pair p q (inner p (by simp only [Form.pair.sizeOf_spec]; omega))
        (inner q (by simp only [Form.pair.sizeOf_spec]; omega))
    | either p q =>
      exact either p q (inner p (by simp only [Form.either.sizeOf_spec]; omega))
        (inner q (by simp only [Form.either.sizeOf_spec]; omega))
    | named p i => exact named p i (inner p (by simp only [Form.named.sizeOf_spec]; omega))
    | slice items rest =>
      refine slice items rest fun q hq => inner q ?_
      have := List.sizeOf_lt_of_mem hq
      simp only [Form.slice.sizeOf_spec]
      omega

theorem texts_eq (ps : List Form) : texts ps = ps.map text := by
  induction ps with
  | nil => rfl
  | cons p ps ih => rw [texts, ih, List.map_cons]

mutual

/-- The words of a pattern. -/
def words : Form → List Word
  | leaf l => l.pattern.words .primary
  | apply c p => [.name c.name] ++ ([.sign .lparen] ++ (p.words ++ [.sign .rparen]))
  | call r p => r.kind.words r.name ++ p.words
  | pair p q => [.sign .lparen] ++ (commaWords [p.words, q.words] ++ [.sign .rparen])
  | either p q =>
    [.sign .lparen] ++ ([Word.sign .pipe].intercalate [p.words, q.words] ++ [.sign .rparen])
  | named p i =>
    [.sign .lparen] ++ ((p.words ++ [.name "as", .name (nameText i)]) ++ [.sign .rparen])
  | slice items rest =>
    [.sign .lbracket] ++ (commaWords (wordsAll items ++ rest.toList.map restWords) ++ [.sign .rbracket])

def wordsAll : List Form → List (List Word)
  | [] => []
  | p :: ps => p.words :: wordsAll ps

end

theorem wordsAll_eq (ps : List Form) : wordsAll ps = ps.map words := by
  induction ps with
  | nil => rfl
  | cons p ps ih => rw [wordsAll, ih, List.map_cons]

/-- What stands in an array: patterns, and a rest marker. -/
def itemsOf (items : List Form) (rest : Option (Option Nat)) : List (Form ⊕ Option Nat) :=
  items.map .inl ++ rest.toList.map .inr

theorem texts_items (items : List Form) (rest : Option (Option Nat)) :
    texts items ++ rest.toList.map restText = (itemsOf items rest).map (Sum.elim text restText) := by
  rw [texts_eq, itemsOf, List.map_append, List.map_map, List.map_map]
  rfl

theorem words_items (items : List Form) (rest : Option (Option Nat)) :
    wordsAll items ++ rest.toList.map restWords = (itemsOf items rest).map (Sum.elim words restWords) := by
  rw [wordsAll_eq, itemsOf, List.map_append, List.map_map, List.map_map]
  rfl

end Form

section Reading

variable {next : List Char}

theorem reads_restText (n : Option Nat) (hnext : ended next = true) :
    Reads true true (restText n).toList (restWords n) next := by
  cases n with
  | none => exact Surface.Pattern.reads_rest (n := "") (.inl rfl) hnext
  | some i =>
    have hname := isLowerName_nameText i
    have hne : nameText i ≠ "" := by
      intro hempty
      rw [hempty] at hname
      cases hname
    have hreads := Surface.Pattern.reads_rest (.inr hname) hnext
    rw [if_neg hne] at hreads
    exact hreads

/-- Whatever follows a pattern, it is read as its words. -/
def Form.Legible (p : Form) : Prop :=
  ∀ {next : List Char}, ended next = true → Reads true false p.text.toList p.words next

namespace Form.Legible

variable {p q : Form}

-- the equations of both definitions are generated here, once for all the cases below
attribute [local simp] text words

theorem apply {c : Wrapper} (hp : p.Legible) : (Form.apply c p).Legible := by
  intro next _
  rw [text, words]
  simp only [String.toList_append, List.append_assoc]
  have hname := Surface.spellsName_of_isUpperName c.isUpperName_name
  refine (reads_name hname (ended_delimiter (by decide) _)).append (reads_open.append ?_)
  exact (hp (ended_delimiter (by decide) _)).append reads_close.loosen

theorem call {r : Recognizer} (hp : p.Legible) : (Form.call r p).Legible := by
  intro next hnext
  rw [text, words, r.text_eq]
  simp only [String.toList_append]
  have hname := Surface.spellsName_of_isUpperName r.isUpperName_name
  have hlabel : Reads true true ((r.kind.label r.name).toList ++ " ".toList) (r.kind.words r.name)
      (p.text.toList ++ next) := by
    simpa using (Surface.reads_label hname).append reads_space
  exact hlabel.append (hp hnext)

theorem of_mem_two (hp : p.Legible) (hq : q.Legible) : ∀ x ∈ [p, q], x.Legible :=
  List.forall_mem_cons.mpr ⟨hp, List.forall_mem_singleton.mpr hq⟩

theorem pair (hp : p.Legible) (hq : q.Legible) : (Form.pair p q).Legible := by
  intro next _
  have hitems : Reads true false (", ".intercalate ([p, q].map text)).toList
      (commaWords ([p, q].map words)) (")".toList ++ next) :=
    reads_commas (fun x hx _ hnext => of_mem_two hp hq x hx hnext) (ended_delimiter (by decide) _)
  have htext : text (.pair p q) = "(" ++ (", ".intercalate ([p, q].map text) ++ ")") := by
    rw [text, ← String.toList_inj]
    simp
  rw [htext, words]
  simp only [String.toList_append]
  exact reads_open.append (hitems.append reads_close.loosen)

theorem either (hp : p.Legible) (hq : q.Legible) : (Form.either p q).Legible := by
  intro next _
  have hitems : Reads true false (" | ".toList.intercalate ([p, q].map fun p => p.text.toList))
      ([Word.sign .pipe].intercalate ([p, q].map words)) (")".toList ++ next) :=
    reads_intercalate (fun _ => reads_blank_sign (k := .pipe) (by decide) (by decide))
      (fun _ => ended_delimiter (by decide) _) (fun x hx _ hnext => of_mem_two hp hq x hx hnext)
      (ended_delimiter (by decide) _)
  have htext : (text (.either p q)).toList
      = "(".toList ++ (" | ".toList.intercalate ([p, q].map fun p => p.text.toList) ++ ")".toList) := by
    rw [text]
    simp
  rw [htext, words]
  exact reads_open.append (hitems.append reads_close.loosen)

theorem named {i : Nat} (hp : p.Legible) : (Form.named p i).Legible := by
  intro next _
  have hname := Surface.spellsName_of_isLowerName (isLowerName_nameText i)
  have has : Reads false true " as ".toList [.name "as"] ((nameText i).toList ++ (")".toList ++ next)) :=
    reads_blank_name (n := "as") (by decide)
  have hgiven := has.append (reads_name hname (ended_delimiter (by decide) _))
  have hinner := (hp (ended_delimiter (by decide) _)).append hgiven
  have hall := reads_open.append (hinner.append reads_close)
  rw [text, words]
  simp only [String.toList_append, List.append_assoc] at hall ⊢
  exact hall.loosen

theorem slice {items : List Form} {rest : Option (Option Nat)} (h : ∀ p ∈ items, p.Legible) :
    (Form.slice items rest).Legible := by
  intro next _
  have hitems : Reads true false
      (", ".intercalate ((itemsOf items rest).map (Sum.elim text restText))).toList
      (commaWords ((itemsOf items rest).map (Sum.elim words restWords))) ("]".toList ++ next) := by
    refine reads_commas (fun item hitem next hnext => ?_) (ended_delimiter (by decide) _)
    simp only [itemsOf, List.mem_append, List.mem_map] at hitem
    rcases hitem with ⟨p, hp, rfl⟩ | ⟨n, -, rfl⟩
    · exact h p hp hnext
    · exact (reads_restText n hnext).loosen
  rw [text, words, texts_items, words_items]
  simp only [String.toList_append, List.append_assoc]
  exact reads_lbracket.append (hitems.append reads_rbracket.loosen)

end Form.Legible

theorem Form.legible (p : Form) : p.Legible := by
  induction p using Form.induction with
  | leaf l =>
    intro next hnext
    rw [text, words, l.text_eq]
    exact Surface.Pattern.reads_print l.writable_pattern .primary hnext
  | apply c p ih => exact ih.apply
  | call r p ih => exact ih.call
  | pair p q ihp ihq => exact ihp.pair ihq
  | either p q ihp ihq => exact ihp.either ihq
  | named p i ih => exact ih.named
  | slice items rest ih => exact Legible.slice ih

/-- **The text of a pattern is read as its words.** -/
theorem Form.reads_text (p : Form) (hnext : ended next = true) :
    Reads true false p.text.toList p.words next := p.legible hnext

end Reading

/-! ### Arms -/

/-- The name that an arm gives to what it matches. -/
def Arm.given (a : Arm) : Option Alias := a.asName.map fun i => ⟨nameText i, default⟩

/-- The condition of a guard. -/
def Guard.condition (g : Guard) : Surface.Expr :=
  .binary default .greater (.literal default (.int g.bound.val)) (.literal default (.int 0))

/-- Whether an arm has a guard that starts with `if`. -/
def Arm.usedIf (a : Arm) : Bool := (a.guard.map Guard.usedIf).getD false

/-- The result of an arm. -/
def Arm.result (a : Arm) : Surface.Expr := .literal default (.int a.body.val)

/-- The words of an arm. -/
def Arm.words (a : Arm) : List Word :=
  [Word.sign .pipe] ++ (a.pattern.words ++ (Surface.Expr.aliasWords a.given
    ++ (Surface.Expr.guardWords a.usedIf (a.guard.map Guard.condition)
      ++ ([Word.sign .arrow] ++ a.result.words))))

theorem Guard.writable_condition (g : Guard) : g.condition.Writable := by
  have hg : g.bound.val < 3 := g.bound.isLt
  exact .binary (.literal (show 0 ≤ (g.bound.val : Int) ∧ _ by omega))
    (.literal (show 0 ≤ (0 : Int) ∧ _ by omega))

theorem Arm.writable_result (a : Arm) : a.result.Writable := by
  have ha : a.body.val < 100 := a.body.isLt
  exact .literal (show 0 ≤ (a.body.val : Int) ∧ _ by omega)

theorem Arm.isLowerName_given (a : Arm) :
    ∀ given, a.given = some given → isLowerName given.name = true := by
  intro given hgiven
  obtain ⟨i, -, rfl⟩ := Option.map_eq_some_iff.mp hgiven
  exact isLowerName_nameText i

theorem Guard.text_eq (g : Guard) :
    g.text = Surface.Expr.guardText 0 g.usedIf (some g.condition) := by
  have hcondition : Surface.Expr.followed g.condition (g.condition.print 0)
      = decimal g.bound.val ++ " > 0" := by
    rw [Guard.condition, Surface.Expr.print, Surface.Expr.print, Surface.Expr.print]
    show decimal g.bound.val ++ " " ++ ">" ++ " " ++ decimal 0 = _
    rw [show decimal 0 = "0" by decide +kernel]
    simp only [String.append_assoc]
    rfl
  rw [Guard.text, Surface.Expr.guardText, hcondition, String.append_assoc]

theorem Arm.text_eq (a : Arm) : a.text = (if a.newLine then "\n" else " ") ++ "| " ++ a.pattern.text
    ++ Surface.Expr.printAlias a.given
    ++ Surface.Expr.guardText 0 a.usedIf (a.guard.map Guard.condition) ++ " -> " ++ a.result.text := by
  have hgiven : (a.asName.map fun i => " as " ++ nameText i).getD "" = Surface.Expr.printAlias a.given := by
    rw [Arm.given]
    cases a.asName <;> rfl
  have hguard : (a.guard.map Guard.text).getD ""
      = Surface.Expr.guardText 0 a.usedIf (a.guard.map Guard.condition) := by
    rw [Arm.usedIf]
    cases a.guard with
    | none => rfl
    | some g => exact g.text_eq
  rw [Arm.text, hgiven, hguard]
  rfl

section Reading

variable {next : List Char}

theorem Arm.reads_text (a : Arm) (hnext : ended next = true) :
    Reads true true a.text.toList a.words next := by
  have hbar : ∀ next, Reads false true "| ".toList [.sign .pipe] next := fun _ =>
    reads_sign_blank (k := .pipe) (by decide) (by decide)
  have harrow : ∀ next, Reads false true " -> ".toList [.sign .arrow] next := fun _ =>
    reads_blank_sign (k := .arrow) (by decide) (by decide)
  have hbreak : ∀ next, Reads true false (if a.newLine then "\n" else " ").toList [] next := by
    intro next
    cases a.newLine with
    | true => exact reads_newline
    | false => exact reads_space.loosen
  have hblank : ∀ rest, ended (" -> ".toList ++ rest) = true := fun _ => ended_delimiter (by decide) _
  have hguards : ∀ g, a.guard.map Guard.condition = some g → g.Legible := by
    intro g hg
    obtain ⟨g, -, rfl⟩ := Option.map_eq_some_iff.mp hg
    exact Surface.Expr.legible_of_writable g.writable_condition
  have hresult := Surface.Expr.legible_of_writable a.writable_result 0 hnext
  have hguard := Surface.Expr.ended_guard 0 a.usedIf (a.guard.map Guard.condition) (hblank
    (a.result.text.toList ++ next))
  have hfront := (((hbreak _).append (hbar _)).append
    (a.pattern.reads_text (Surface.Expr.ended_alias a.given hguard))).append
      (Surface.Expr.reads_alias a.isLowerName_given hguard)
  have hall := ((hfront.append (Surface.Expr.reads_guard hguards 0 (hblank _))).append
    (harrow _)).append hresult
  rw [a.text_eq, Arm.words]
  simp only [String.toList_append, List.append_assoc, List.nil_append] at hall ⊢
  exact hall

end Reading

/-! ### Functions -/

/-- The type of numbers. -/
def intType : Surface.TypeExpr := .named default "Int" []

theorem writable_intType : intType.Writable := .named (by decide) (by simp)

/-- The type that is matched on. -/
def Target.type : Target → Surface.TypeExpr
  | int => intType
  | bool => .named default "Bool" []
  | string => .named default "String" []
  | option => .named default "Option" [intType]
  | pair => .tuple default [intType, .named default "Bool" []]
  | shape => .named default "Shape" []
  | array => .array default intType

theorem Target.text_eq (t : Target) : t.text = t.type.text := by
  cases t <;> rfl

theorem Target.writable_type (t : Target) : t.type.Writable := by
  have hbool : Surface.TypeExpr.Writable (.named default "Bool" []) := .named (by decide) (by simp)
  cases t with
  | int => exact writable_intType
  | bool => exact hbool
  | string => exact .named (by decide) (by simp)
  | option => exact .named (by decide) (by simpa using writable_intType)
  | pair => exact .tuple (by decide) (by simpa using ⟨writable_intType, hbool⟩)
  | shape => exact .named (by decide) (by simp)
  | array => exact .array writable_intType

/-- The parameter `v` or `n` of a type. -/
theorem writable_params {n : String} (hn : isLowerName n = true) {t : Surface.TypeExpr} (ht : t.Writable) :
    ∀ p ∈ [(⟨n, some t⟩ : Surface.Param)], p.Writable := by
  rw [List.forall_mem_singleton]
  refine ⟨hn, fun u hu => ?_⟩
  cases hu
  exact ht

namespace Function

variable (f : Function)

def name : String := "f" ++ decimal f.number

/-- The parameter, which the match is on. -/
def params : List Surface.Param := [⟨"v", some f.target.type⟩]

/-- The type of the results. -/
def returns : Option Surface.TypeExpr := some intType

/-- The words of the match. -/
def matchWords : List Word :=
  [Word.name "match"] ++ ([Word.name "v"] ++ ([Word.name "with"] ++ f.arms.flatMap Arm.words))

/-- The words of a function. -/
def words : List Word :=
  [Word.name "fn"] ++ ([Word.name f.name] ++ (Surface.paramWords f.params
    ++ (Surface.resultWords returns ++ ([Word.sign .assign] ++ f.matchWords))))

theorem isLowerName_name : isLowerName f.name = true :=
  isLowerName_numbered (c := 'f') (by decide) (by decide) f.number

theorem writable_returns : Surface.WritableType returns := by
  rintro t ⟨⟩
  exact writable_intType

theorem writable_params : ∀ p ∈ f.params, p.Writable :=
  Sample.writable_params (by decide) f.target.writable_type

theorem text_eq : f.text = "fn " ++ f.name ++ Surface.printParams f.params ++ Surface.printResult returns
    ++ " = " ++ "match v with" ++ String.join (f.arms.map Arm.text) := by
  have hparams : Surface.printParams f.params = "(" ++ ("v" ++ ": " ++ f.target.type.text) ++ ")" := rfl
  have hresult : Surface.printResult returns = " -> Int" := rfl
  rw [hparams, hresult, text, name, f.target.text_eq, ← String.toList_inj]
  simp

end Function

section Reading

variable {next : List Char}

theorem ended_arms (as : List Arm) (hnext : ended next = true) :
    ended ((as.map Arm.text).flatMap String.toList ++ next) = true := by
  cases as with
  | nil => exact hnext
  | cons a as =>
    rw [List.map_cons, List.flatMap_cons, Arm.text]
    simp only [String.toList_append, List.append_assoc]
    cases a.newLine <;> exact ended_delimiter (by decide) _

theorem reads_arms (as : List Arm) (hnext : ended next = true) :
    Reads true true ((as.map Arm.text).flatMap String.toList) (as.flatMap Arm.words) next := by
  induction as with
  | nil => exact .nil
  | cons a as ih =>
    rw [List.map_cons, List.flatMap_cons, List.flatMap_cons]
    exact (a.reads_text (ended_arms as hnext)).append ih

/-- **The text of a function is read as its words.** -/
theorem Function.reads_text (f : Function) (hnext : ended next = true) :
    Reads true true f.text.toList f.words next := by
  have hfn : ∀ next, Reads true true "fn ".toList [.name "fn"] next := fun _ =>
    reads_name_blank (n := "fn") (by decide)
  have hassign : ∀ next, Reads true true " = ".toList [.sign .assign] next := fun _ =>
    reads_blank_sign (k := .assign) (by decide) (by decide)
  have hmatch : ∀ next, Reads true true "match ".toList [.name "match"] next := fun _ =>
    reads_name_blank (n := "match") (by decide)
  have htarget : ∀ next, Reads true true "v ".toList [.name "v"] next := fun _ =>
    reads_name_blank (n := "v") (by decide)
  have harms := reads_arms f.arms hnext
  have hwith : Reads true true "with".toList [.name "with"]
      ((f.arms.map Arm.text).flatMap String.toList ++ next) :=
    reads_name (n := "with") (by decide) (ended_arms f.arms hnext)
  have hbody := (hmatch _).append ((htarget _).append (hwith.append harms))
  have hdefinition :=
    (Surface.reads_result Function.writable_returns (ended_delimiter (by decide) _)).append
      ((hassign _).append hbody)
  have hname : ∀ rest, Reads true true f.name.toList [.name f.name]
      ((Surface.printParams f.params).toList ++ rest) := by
    intro rest
    refine reads_name (Surface.spellsName_of_isLowerName f.isLowerName_name) ?_
    unfold Surface.printParams
    simp only [String.toList_append, List.append_assoc]
    exact ended_delimiter (by decide) _
  have hall := (((hfn _).append (hname _)).append (Surface.reads_params f.writable_params)).append
    hdefinition
  rw [f.text_eq, Function.words]
  simp only [String.toList_append, String.toList_join, List.append_assoc] at hall ⊢
  exact hall

end Reading

/-! ### Programs -/

/-- `type Shape = | Circle(Int) | Square(Int) | Dot` -/
def shape : Surface.TypeDecl :=
  ⟨default, "Shape", [⟨"Circle", [intType]⟩, ⟨"Square", [intType]⟩, ⟨"Dot", []⟩], [], false⟩

/-- A recognizer of numbers. -/
def recognizer (r : Recognizer) (isPure : Bool) (test yes no : Surface.Expr) : Surface.Recognizer :=
  ⟨default, r.name, r.kind, [⟨"n", some intType⟩], none, .cond default test yes (some no), false, isPure⟩

/-- The parameter of a recognizer, and a number. -/
def parameter : Surface.Expr := .ident default "n"

def number (n : Nat) : Surface.Expr := .literal default (.int n)

/-- `pattern (|Even|_|)(n: Int) = if n % 2 == 0 then Some(n) else None` -/
def even : Surface.Recognizer :=
  recognizer .even false
    (.binary default .eq (.binary default .mod parameter (number 2)) (number 0))
    (.construct default "Some" [parameter]) (.construct default "None" [])

/-- `@pure pattern (|Sign|)(n: Int) = if n < 0 then -1 else 1` -/
def sign : Surface.Recognizer :=
  recognizer .sign true (.binary default .less parameter (number 0))
    (.unary default .negate (number 1)) (number 1)

/-- The declarations that the matches use. -/
def declarations : List Surface.Decl := [.type shape, .recognizer even, .recognizer sign]

theorem prelude_eq : prelude = "\n".intercalate (declarations.map fun d => d.print ++ "\n") := by
  decide +kernel

theorem writable_shape : shape.Writable where
  name := by decide
  variants := by
    have hint : ∀ t ∈ [intType], t.Writable := by simpa using writable_intType
    have hcircle : Surface.Variant.Writable ⟨"Circle", [intType]⟩ := ⟨by decide, hint⟩
    have hsquare : Surface.Variant.Writable ⟨"Square", [intType]⟩ := ⟨by decide, hint⟩
    have hdot : Surface.Variant.Writable ⟨"Dot", []⟩ := ⟨by decide, by simp⟩
    simpa [shape] using ⟨hcircle, hsquare, hdot⟩
  names := by simp [shape]
  fields := by simp [shape]
  sum := fun _ => rfl

theorem writable_number {n : Nat} (hn : n < 2 ^ 63) : (number n).Writable :=
  .literal (show 0 ≤ (n : Int) ∧ (n : Int) < 2 ^ 63 by omega)

theorem writable_parameter : parameter.Writable := .ident (by decide)

theorem writable_recognizer {r : Recognizer} {isPure : Bool} {test yes no : Surface.Expr}
    (htest : test.Writable) (hyes : yes.Writable) (hno : no.Writable) :
    (recognizer r isPure test yes no).Writable where
  name := r.isUpperName_name
  params := writable_params (by decide) writable_intType
  returns := nofun
  body := by
    refine .cond htest hyes ?_
    rintro e ⟨⟩
    exact hno

theorem writable_declarations : ∀ d ∈ declarations, d.Writable := by
  have heven : even.Writable := writable_recognizer
    (.binary (.binary writable_parameter (writable_number (by decide))) (writable_number (by decide)))
    (.construct (by decide) (by simpa using writable_parameter)) (.construct (by decide) (by simp))
  have hsign : sign.Writable := writable_recognizer
    (.binary writable_parameter (writable_number (by decide))) (.unary (writable_number (by decide)))
    (writable_number (by decide))
  simpa [declarations] using ⟨writable_shape, heven, hsign⟩

/-- The words of the lines of a program. -/
def lines (bytes : List UInt8) : List (List Word) :=
  declarations.map Surface.Decl.words ++ (functions bytes).map Function.words

theorem readsLines_functions (fs : List Function) :
    ReadsLines (String.join (fs.map fun f => "\n" ++ f.text ++ "\n")).toList (fs.map Function.words) := by
  rw [String.toList_join]
  induction fs with
  | nil => exact .nil
  | cons f fs ih =>
    have hne : f.words ≠ [] := List.cons_ne_nil _ _
    have hbreak : "\n".toList = ['\n'] := by decide
    have hall := (ih.line hne (f.reads_text (ended_delimiter (by decide) _))).newline
    rw [List.map_cons, List.map_cons, List.flatMap_cons]
    simp only [String.toList_append, List.append_assoc, hbreak, List.cons_append, List.nil_append]
    exact hall

/-- **A program is read line by line.** -/
theorem readsLines_program (bytes : List UInt8) : ReadsLines (program bytes).toList (lines bytes) := by
  rw [program, prelude_eq, String.toList_append]
  exact Surface.readsLines_declsBefore writable_declarations (readsLines_functions (functions bytes))

end PatternPlan.Sample
