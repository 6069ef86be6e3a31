import PatternPlan.Proofs.Surface.Runs
import PatternPlan.Surface.Parser.Type

/-!
# Types are read back

* `readsType`, `runs_type` — **a type is read from its words**, before anything but `<`;
* `runs_typeDeclaration` — the same for type declarations.
-/

namespace PatternPlan.Surface

namespace TypeExpr

theorem words_cons {t : TypeExpr} (h : t.Writable) :
    ∃ w ws, t.words = w :: ws ∧ w.kind ∈ [TokenKind.upper, .lparen, .lbracket] := by
  cases h with
  | @named mark n args hname hargs =>
    have hkind := kind_of_isUpperName hname
    cases args with
    | nil => exact ⟨_, [], rfl, by rw [hkind]; decide⟩
    | cons t ts =>
      rw [words]
      exact ⟨_, _, rfl, by rw [hkind]; decide⟩
  | tuple =>
    rw [words]
    exact ⟨_, _, rfl, by decide⟩
  | array =>
    rw [words]
    exact ⟨_, _, rfl, by decide⟩

theorem words_ne {t : TypeExpr} (h : t.Writable) : t.words ≠ [] := by
  obtain ⟨w, ws, hw, -⟩ := words_cons h
  rw [hw]
  exact List.cons_ne_nil w ws

end TypeExpr

theorem length_le_commaWords {ws : List Word} {wss : List (List Word)} (h : ws ∈ wss) :
    ws.length ≤ (commaWords wss).length := by
  induction wss with
  | nil => cases h
  | cons vs wss ih =>
    cases wss with
    | nil =>
      rw [List.mem_singleton.mp h, commaWords, List.intercalate_singleton]
    | cons us wss =>
      rw [commaWords_cons_cons, List.length_append, List.length_append]
      rcases List.mem_cons.mp h with rfl | h
      · omega
      · have hle := ih h
        omega

namespace Parser

variable {fits : Prop} {depth : Nat}

/-- A type is read from its words when there is fuel for all of them. -/
def ReadsType (fits : Prop) (depth : Nat) (t : TypeExpr) : Prop :=
  ∀ (fuel : Nat) (K : Rest) (ts : List Token), t.words.length ≤ fuel →
    (∀ y ts, K y ts → kindOf ts ≠ .less) → Begins t.words K ts →
    Runs fits depth (typeWithin fuel) ts fun u ts' => u.erase = t.erase ∧ At K ts'

/-- The types inside another one have fewer words, so that they need less fuel. -/
theorem readsItem_type {close : TokenKind} {fuel : Nat} {args : List TypeExpr} (hclose : close ≠ .less)
    (h : ∀ t ∈ args, ReadsType fits depth t)
    (hfuel : (commaWords (args.map TypeExpr.words)).length ≤ fuel) :
    ∀ t ∈ args, ReadsItem fits depth (typeWithin fuel) close TypeExpr.words TypeExpr.erase t := by
  intro t ht K ts hends hts
  have hlength := length_le_commaWords (List.mem_map_of_mem (f := TypeExpr.words) ht)
  refine h t ht fuel K ts (hlength.trans hfuel) (fun y ts hy => ?_) hts
  rcases hends y ts hy with hkind | hkind
  · rw [hkind]
    decide
  · rw [hkind]
    exact hclose

theorem readsType_name {mark : Mark} {n : String} (hname : isUpperName n = true) :
    ReadsType fits depth (.named mark n []) := by
  rintro (_ | fuel) K ts hfuel hK hts
  · cases hfuel
  obtain ⟨x, ts, rfl, hx, hrest⟩ := hts
  refine Runs.current ?_
  simp only [hx.kind.trans (kind_of_isUpperName hname)]
  refine Runs.stay (hK x ts hrest) (Runs.given (Runs.mark fun m => Runs.pure ?_))
  refine ⟨?_, x, ts, rfl, hrest⟩
  rw [TypeExpr.erase, TypeExpr.erase, hx.text]
  rfl

theorem readsType_named {mark : Mark} {n : String} {t : TypeExpr} {args : List TypeExpr}
    (hname : isUpperName n = true) (hargs : ∀ u ∈ t :: args, u.Writable)
    (h : ∀ u ∈ t :: args, ReadsType fits depth u) :
    ReadsType fits depth (.named mark n (t :: args)) := by
  rintro (_ | fuel) K ts hfuel hK hts
  all_goals rw [TypeExpr.words, TypeExpr.wordsAll_eq, ← List.map_cons, List.append_assoc] at hts hfuel
  · simp at hfuel
  obtain ⟨x, ts, rfl, hx, y, ts, rfl, hy, -, hrest⟩ := hts
  replace hrest : After (commaWords ((t :: args).map TypeExpr.words) ++ [Word.sign .greater])
      K y ts := hrest
  have hle : (commaWords ((t :: args).map TypeExpr.words)).length ≤ fuel := by
    simp only [List.length_append, List.length_cons, List.length_nil] at hfuel
    omega
  refine Runs.current ?_
  simp only [hx.kind.trans (kind_of_isUpperName hname)]
  have hlist := runs_commaList ">" (List.cons_ne_nil t args)
    (fun u hu => TypeExpr.words_ne (hargs u hu)) (readsItem_type (by decide) h hle) hrest rfl
    (by decide)
  refine Runs.skip hy.kind (Runs.bind hlist ?_)
  rintro args' ts' - ⟨herase, hat⟩
  refine Runs.mark fun m => Runs.pure ⟨?_, hat⟩
  rw [TypeExpr.erase, TypeExpr.erase, hx.text, TypeExpr.eraseAll_eq, TypeExpr.eraseAll_eq, herase]
  rfl

/-- One type in parentheses would be that type. -/
theorem readsType_tuple {mark : Mark} {elements : List TypeExpr} (hlength : elements.length ≠ 1)
    (helements : ∀ t ∈ elements, t.Writable) (h : ∀ t ∈ elements, ReadsType fits depth t) :
    ReadsType fits depth (.tuple mark elements) := by
  rintro (_ | fuel) K ts hfuel hK hts
  all_goals rw [TypeExpr.words, TypeExpr.wordsAll_eq, List.append_assoc] at hts hfuel
  · simp at hfuel
  obtain ⟨x, ts, rfl, hx, hrest⟩ := hts
  replace hrest : After (commaWords (elements.map TypeExpr.words) ++ [Word.sign .rparen]) K x ts := hrest
  have hle : (commaWords (elements.map TypeExpr.words)).length ≤ fuel := by
    simp only [List.length_append, List.length_cons, List.length_nil] at hfuel
    omega
  have hfirst : ∀ t ∈ elements, ∃ w ws, t.words = w :: ws ∧ w.kind ≠ .rparen := by
    intro t ht
    obtain ⟨w, ws, hw, hmem⟩ := TypeExpr.words_cons (helements t ht)
    refine ⟨w, ws, hw, fun hk => ?_⟩
    rw [hk] at hmem
    exact absurd hmem (by decide)
  refine Runs.current ?_
  simp only [show x.kind = .lparen from hx.kind]
  refine Runs.bind (runs_commaListOrNone ")" hfirst (readsItem_type (by decide) h hle) hrest rfl
    (by decide)) ?_
  rintro elements' ts' - ⟨herase, hat⟩
  have hlengths : elements'.length = elements.length := by
    simpa using congrArg List.length herase
  have hsame : ∀ m, (TypeExpr.tuple m elements').erase = (TypeExpr.tuple mark elements).erase := by
    intro m
    rw [TypeExpr.erase, TypeExpr.erase, TypeExpr.eraseAll_eq, TypeExpr.eraseAll_eq, herase]
  rcases elements' with _ | ⟨t, _ | ⟨u, elements'⟩⟩
  · exact Runs.mark fun m => Runs.pure ⟨hsame m, hat⟩
  · exact absurd hlengths.symm hlength
  · exact Runs.mark fun m => Runs.pure ⟨hsame m, hat⟩

theorem readsType_array {mark : Mark} {element : TypeExpr} (helement : element.Writable)
    (h : ReadsType fits depth element) : ReadsType fits depth (.array mark element) := by
  rintro (_ | fuel) K ts hfuel hK hts
  all_goals rw [TypeExpr.words, List.append_assoc] at hts hfuel
  · simp at hfuel
  obtain ⟨x, ts, rfl, hx, hrest⟩ := hts
  replace hrest : After element.words (After [.sign .rbracket] K) x ts := by
    rw [← after_append]
    exact hrest
  refine Runs.current ?_
  simp only [show x.kind = .lbracket from hx.kind]
  refine Runs.advance (Runs.bind (h fuel _ ts ?_ (fun y ts hy => ?_)
    (begins_of_after (TypeExpr.words_ne helement) hrest)) ?_)
  · simp only [List.length_append, List.length_cons, List.length_nil] at hfuel
    omega
  · rw [kindOf_of_after hy]
    decide
  rintro element' ts' - ⟨herase, y, ts, rfl, hy⟩
  refine Runs.expect (kindOf_of_after hy) (Runs.mark fun m => Runs.pure ?_)
  obtain ⟨z, ts, rfl, -, -, hz⟩ := hy
  refine ⟨?_, z, ts, rfl, hz⟩
  rw [TypeExpr.erase, TypeExpr.erase, herase]

/-- **A type is read from its words.** -/
theorem readsType {t : TypeExpr} (h : t.Writable) : ReadsType fits depth t := by
  induction h with
  | @named mark n args hname hargs ih =>
    cases args with
    | nil => exact readsType_name hname
    | cons t args => exact readsType_named hname hargs ih
  | tuple hlength helements ih => exact readsType_tuple hlength helements ih
  | array helement ih => exact readsType_array helement ih

theorem runs_type {t : TypeExpr} (h : t.Writable) {K : Rest}
    (hK : ∀ y ts, K y ts → kindOf ts ≠ .less) {ts : List Token} (hts : Begins t.words K ts) :
    Runs fits depth type ts fun u ts' => u.erase = t.erase ∧ At K ts' := by
  intro s heof hdepth hs
  rw [type, hs]
  have hfuel : t.words.length ≤ ts.length + 1 := (length_le_of_begins hts).trans (Nat.le_succ _)
  exact readsType h _ _ _ hfuel hK hts s heof hdepth hs

theorem readsItem_ofWritable {close : TokenKind} (hclose : close ≠ .less) {args : List TypeExpr}
    (h : ∀ t ∈ args, t.Writable) :
    ∀ t ∈ args, ReadsItem fits depth type close TypeExpr.words TypeExpr.erase t := by
  intro t ht K ts hends hts
  refine runs_type (h t ht) (fun y ts hy => ?_) hts
  rcases hends y ts hy with hkind | hkind
  · rw [hkind]
    decide
  · rw [hkind]
    exact hclose

/-! ### Type declarations -/

/-- A field without the places of its type. -/
def eraseField (f : String × TypeExpr) : String × TypeExpr := (f.1, f.2.erase)

/-- The words of a field of a record type. -/
def fieldWords (f : String × TypeExpr) : List Word := [Word.name f.1] ++ [Word.sign .colon] ++ f.2.words

/-- A field up to its type, whatever is done behind it. -/
theorem runs_typeField {α : Type} {f : String × TypeExpr} (hname : isLowerName f.1 = true)
    (hf : f.2.Writable) {K : Rest} (hK : ∀ y ts, K y ts → kindOf ts ≠ .less) {x : Token}
    {ts : List Token} (hts : After (fieldWords f) K x ts) {rest : Token → TypeExpr → Parser α}
    {post : α → List Token → Prop}
    (hrest : ∀ n t ts', eraseField (n.text, t) = eraseField f → At K ts' →
      Runs fits depth (rest n t) ts' post) :
    Runs fits depth (do
      expect .lower "field name"
      let n ← current
      expect .colon ":"
      advance
      let t ← type
      rest n t) (x :: ts) post := by
  obtain ⟨y, ts, rfl, hy, -, z, ts, rfl, hz, -, htype⟩ := hts
  refine Runs.expect (hy.kind.trans (kind_of_isLowerName hname)) (Runs.current ?_)
  refine Runs.expect hz.kind (Runs.advance ?_)
  refine Runs.bind (runs_type hf hK (begins_of_after (TypeExpr.words_ne hf) htype)) ?_
  rintro t ts' - ⟨herase, hat⟩
  refine hrest y t ts' ?_ hat
  rw [eraseField, eraseField, hy.text, herase]
  rfl

theorem runs_recordTypeFields {fs : List (String × TypeExpr)} (hnames : ∀ f ∈ fs, isLowerName f.1 = true)
    (hfields : ∀ f ∈ fs, f.2.Writable) {K : Rest} {x : Token} {ts : List Token}
    (hts : After (commaWords (fs.map fieldWords) ++ [Word.sign .rbrace]) K x ts) :
    Runs fits depth recordTypeFields (x :: ts) fun gs ts' =>
      gs.map eraseField = fs.map eraseField ∧ At (After [.sign .rbrace] K) ts' := by
  by_cases hne : fs = []
  · subst hne
    refine Runs.iterate (Loops.step (Runs.choose (kindOf_of_after hts) (Runs.pure ?_)))
    exact ⟨rfl, x, ts, rfl, hts⟩
  have hfirst : ∀ {f : String × TypeExpr} {K : Rest} {x : Token} {ts : List Token}, f ∈ fs →
      After (fieldWords f) K x ts → kindOf ts ≠ .rbrace := by
    intro f K x ts hf hts
    rw [kindOf_of_after hts, kind_of_isLowerName (hnames f hf)]
    decide
  obtain ⟨front, last, rfl⟩ := (List.eq_nil_or_concat' fs).resolve_left hne
  rw [commaWords_concat, List.append_assoc] at hts
  refine Runs.iterate (Loops.commas (I := fun (done fields : List (String × TypeExpr)) =>
    fields.map eraseField = done.map eraseField) ?_ ?_ rfl hts)
  · intro done f hf fields hdone K' x ts _ hts
    have hf : f ∈ front ++ [last] := List.mem_append_left _ hf
    rw [after_append] at hts
    refine Runs.refuse (hfirst hf hts) (runs_typeField (hnames f hf) (hfields f hf) ?_ hts ?_)
    · intro y ts hy
      rw [kindOf_of_after hy]
      decide
    rintro n t ts' herase ⟨y, ts₁, rfl, hy⟩
    refine Runs.skip (kindOf_of_after hy) (Runs.pure ?_)
    obtain ⟨z, ts₂, rfl, -, -, hz⟩ := hy
    exact ⟨_, rfl, map_snoc hdone herase, z, ts₂, rfl, hz⟩
  · intro fields hdone x ts hts
    have hf : last ∈ front ++ [last] := List.mem_append_right _ List.mem_cons_self
    rw [after_append] at hts
    refine Runs.refuse (hfirst hf hts) (runs_typeField (hnames last hf) (hfields last hf) ?_ hts ?_)
    · intro y ts hy
      rw [kindOf_of_after hy]
      decide
    rintro n t ts' herase ⟨y, ts₁, rfl, hy⟩
    refine Runs.stay (by rw [kindOf_of_after hy]; decide) (Runs.pure ?_)
    exact ⟨_, rfl, map_snoc hdone herase, y, ts₁, rfl, hy⟩

/-- The words of a constructor behind its bar. -/
def variantWords (v : Variant) : List Word :=
  match v.fields with
  | [] => [Word.name v.name]
  | fs => [Word.name v.name] ++ [Word.sign .lparen] ++ commaWords (fs.map TypeExpr.words) ++ [Word.sign .rparen]

theorem words_variant (v : Variant) : v.words = Word.sign .pipe :: variantWords v := by
  rw [Variant.words, variantWords]
  cases v.fields <;> rfl

/-- One constructor up to its fields, whatever is done behind it. -/
theorem runs_variant {α : Type} {v : Variant} (hv : v.Writable) {K : Rest}
    (hK : v.fields = [] → ∀ y ts, K y ts → kindOf ts ≠ .lparen) {x : Token} {ts : List Token}
    (hts : After (variantWords v) K x ts) {rest : Token → List TypeExpr → Parser α}
    {post : α → List Token → Prop}
    (hrest : ∀ n fields ts', (Variant.mk n.text fields).erase = v.erase → At K ts' →
      Runs fits depth (rest n fields) ts' post) :
    Runs fits depth (do
      expect .upper "constructor name"
      let n ← current
      let fields ← if ← skip .lparen then commaList type .rparen ")" else pure []
      rest n fields) (x :: ts) post := by
  have hkind := kind_of_isUpperName hv.name
  have herase : ∀ (n : Token) (fields : List TypeExpr), n.text = v.name →
      fields.map TypeExpr.erase = v.fields.map TypeExpr.erase →
      (Variant.mk n.text fields).erase = v.erase := by
    intro n fields hn hfields
    rw [Variant.erase, Variant.erase, hn, hfields]
  rw [variantWords] at hts
  have hfields := hv.fields
  cases hargs : v.fields with
  | nil =>
    rw [hargs] at hts herase
    obtain ⟨y, ts, rfl, hy, -, hend⟩ := hts
    refine Runs.expect (hy.kind.trans hkind) (Runs.current ?_)
    refine Runs.stay (hK hargs y ts hend) (Runs.given ?_)
    exact hrest y [] (y :: ts) (herase y [] hy.text rfl) ⟨y, ts, rfl, hend⟩
  | cons t fs =>
    rw [hargs] at hts herase hfields
    simp only [List.append_assoc] at hts
    obtain ⟨y, ts, rfl, hy, -, z, ts, rfl, hz, -, hlist⟩ := hts
    replace hlist : After (commaWords ((t :: fs).map TypeExpr.words) ++ [Word.sign .rparen]) K z ts := hlist
    have hargs : Runs fits depth (commaList type .rparen ")") (z :: ts)
        fun us ts' => us.map TypeExpr.erase = (t :: fs).map TypeExpr.erase ∧ At K ts' :=
      runs_commaList ")" (List.cons_ne_nil t fs) (fun u hu => TypeExpr.words_ne (hfields u hu))
        (readsItem_ofWritable (by decide) hfields) hlist rfl (by decide)
    refine Runs.expect (hy.kind.trans hkind) (Runs.current ?_)
    refine Runs.skip hz.kind (Runs.bind hargs ?_)
    rintro fields ts' - ⟨hera, hat⟩
    exact hrest y fields ts' (herase y fields hy.text hera) hat

/-- Whether the last constructor has no fields. -/
def bareLast (vs : List Variant) : Bool :=
  match vs.getLast? with
  | some v => v.fields.isEmpty
  | none => false

theorem runs_variants {v : Variant} {vs : List Variant} (h : ∀ u ∈ v :: vs, u.Writable) {K : Rest}
    (hbar : ∀ y ts, K y ts → kindOf ts ≠ .pipe)
    (hparen : bareLast (v :: vs) = true → ∀ y ts, K y ts → kindOf ts ≠ .lparen)
    {x : Token} {ts : List Token} (hts : After (variantWords v ++ vs.flatMap Variant.words) K x ts) :
    Runs fits depth variants (x :: ts) fun us ts' =>
      us.map Variant.erase = (v :: vs).map Variant.erase ∧ At K ts' := by
  refine Runs.iterate ?_
  suffices hloop : ∀ (vs : List Variant) (v : Variant) (before : List Variant) (x : Token)
      (ts : List Token), (∀ u ∈ v :: vs, u.Writable) →
      (bareLast (v :: vs) = true → ∀ y ts, K y ts → kindOf ts ≠ .lparen) →
      After (variantWords v ++ vs.flatMap Variant.words) K x ts →
      Loops fits depth (fun vs => do
        expect .upper "constructor name"
        let name := (← current).text
        let fields ← if ← skip .lparen then commaList type .rparen ")" else pure []
        let vs := vs ++ [⟨name, fields⟩]
        if ← skip .pipe then return .again vs else return .done vs) before (x :: ts) fun us ts' =>
        us.map Variant.erase = (before ++ v :: vs).map Variant.erase ∧ At K ts' from
    hloop vs v [] x ts h hparen hts
  intro vs
  induction vs with
  | nil =>
    intro v before x ts hv hparen hts
    rw [List.flatMap_nil, List.append_nil] at hts
    refine Loops.step (runs_variant (hv v List.mem_cons_self) ?_ hts ?_)
    · intro hbare
      exact hparen (by simp [bareLast, hbare])
    rintro n fields ts' herase ⟨y, ts, rfl, hy⟩
    refine Runs.stay (hbar y ts hy) (Runs.pure ⟨?_, y, ts, rfl, hy⟩)
    exact map_snoc rfl herase
  | cons u us ih =>
    intro v before x ts hv hparen hts
    rw [List.forall_mem_cons] at hv
    rw [List.flatMap_cons, words_variant, after_append] at hts
    refine Loops.step (runs_variant hv.1 ?_ (after_shorter (by rw [variantWords]; split <;> simp) hts) ?_)
    · rintro - y ts ⟨hy, -⟩
      rw [kindOf_of_after hy]
      decide
    rintro n fields ts' herase ⟨y, ts₁, rfl, hy, hlength⟩
    refine Runs.skip (kindOf_of_after hy) (Runs.pure ?_)
    obtain ⟨z, ts₂, rfl, -, -, hz⟩ := hy
    have hrest := ih u (before ++ [⟨n.text, fields⟩]) z ts₂ hv.2 ?_ hz
    · simp only [List.map_append, List.map_cons, List.append_assoc, List.cons_append,
        List.nil_append, herase] at hrest ⊢
      refine ⟨?_, hrest⟩
      simp only [List.length_cons] at hlength ⊢
      omega
    · intro hbare
      exact hparen (by simpa [bareLast] using hbare)

/-- The words of a type declaration behind its keyword. -/
def typeWords (d : TypeDecl) : List Word :=
  .name d.name :: .sign .assign :: (if d.isRecord then
      [Word.sign .lbrace] ++ commaWords (d.fields.map fieldWords) ++ [Word.sign .rbrace]
    else d.variants.flatMap Variant.words)

theorem words_typeDecl (d : TypeDecl) :
    d.words = publicWords d.isPublic ++ Word.name "type" :: typeWords d := by
  rw [TypeDecl.words, typeWords]
  simp only [List.append_assoc]
  rfl

/-- **A type declaration is read from its words.** -/
theorem runs_typeDeclaration {d : TypeDecl} (h : d.Writable) {K : Rest}
    (hbar : ∀ y ts, K y ts → kindOf ts ≠ .pipe)
    (hparen : d.endsBare = true → ∀ y ts, K y ts → kindOf ts ≠ .lparen) (start : Token)
    {x : Token} {ts : List Token} (hts : After (typeWords d) K x ts) :
    Runs fits depth (typeDeclaration start d.isPublic) (x :: ts)
      fun d' ts' => d'.erase = d.erase ∧ At K ts' := by
  obtain ⟨y, ts, rfl, hy, -, z, ts, rfl, hz, -, hbody⟩ := hts
  refine Runs.current (Runs.expect (hy.kind.trans (kind_of_isUpperName h.name)) (Runs.current ?_))
  refine Runs.expect hz.kind ?_
  by_cases hrecord : d.isRecord = true
  · rw [if_pos hrecord, List.append_assoc] at hbody
    obtain ⟨o, ts, rfl, ho, -, hfields⟩ := hbody
    refine Runs.skip ho.kind (Runs.bind (runs_recordTypeFields h.names h.fields hfields) ?_)
    rintro fields ts' - ⟨herase, c, ts₁, rfl, hc⟩
    refine Runs.expect (kindOf_of_after hc) (Runs.span fun m => Runs.pure ?_)
    obtain ⟨e, ts₂, rfl, -, -, he⟩ := hc
    refine ⟨?_, e, ts₂, rfl, he⟩
    have hvariants : d.variants = [] := List.isEmpty_iff.mp hrecord
    rw [TypeDecl.erase, TypeDecl.erase, hvariants, hy.text]
    exact congrArg (fun fs => TypeDecl.mk default d.name [] fs d.isPublic) herase
  · rw [if_neg hrecord] at hbody
    have hne : d.variants ≠ [] := fun hnil => hrecord (by rw [TypeDecl.isRecord, hnil]; rfl)
    obtain ⟨v, vs, hvs⟩ := List.exists_cons_of_ne_nil hne
    have hvariants := h.variants
    have hend : bareLast (v :: vs) = true → ∀ y ts, K y ts → kindOf ts ≠ .lparen := by
      rw [← hvs]
      exact hparen
    rw [hvs] at hbody hvariants
    rw [List.flatMap_cons, words_variant] at hbody
    obtain ⟨o, ts, rfl, ho, -, hrest⟩ := hbody
    refine Runs.stay (by rw [show kindOf (o :: ts) = .pipe from ho.kind]; decide) ?_
    refine Runs.skipped ho.kind (Runs.bind (runs_variants hvariants hbar hend hrest) ?_)
    rintro us ts' - ⟨herase, hat⟩
    refine Runs.span fun m => Runs.pure ⟨?_, hat⟩
    rw [TypeDecl.erase, TypeDecl.erase, h.sum hne, hvs, hy.text, herase]
    rfl

end Parser

end PatternPlan.Surface
