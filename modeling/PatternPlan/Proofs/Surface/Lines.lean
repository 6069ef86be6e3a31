import PatternPlan.Proofs.Surface.Written

/-!
# Written files are read line by line

Every declaration starts on a line of its own, so that a parenthesis in front of it opens no call.

* `Begins`, `Lines` — tokens that start with some words, and tokens that stand for some lines;
* `ReadsLines` — **a text is read as some lines**, each of them by `Reads`;
* `Program.lines`, `readsLines_print` — the written form of a file is read as the words of its
  declarations, a line for each.
-/

namespace PatternPlan

/-- The tokens start with some words, and then `K` holds. -/
def Begins : List Word → Rest → List Token → Prop
  | [], _ => fun _ => False
  | w :: ws, K => fun ts => ∃ t ts', ts = t :: ts' ∧ t.Spells w ∧ After ws K t ts'

/-- The tokens behind a token stand for some lines, and end then.  No line starts on the line of the
token before it. -/
def Lines : List (List Word) → Rest
  | [] => fun _ ts => ts = []
  | ws :: lines => fun x ts => Begins ws (Lines lines) ts ∧ ∀ t, ts.head? = some t → x.line ≠ t.line

/-! ### The lines of tokens -/

theorem line_le_advance (c : Cursor) (t : Text) : c.line ≤ (c.advance t).line := by
  induction t generalizing c with
  | nil => exact le_rfl
  | cons g t ih =>
    have hstep : c.line ≤ (c.step g).line := by
      rw [Cursor.step]
      split
      · exact Nat.le_succ _
      · exact le_rfl
    exact hstep.trans (ih (c.step g))

/-- No token stands on a line before the one reading starts on. -/
theorem line_le_of_mem (c : Cursor) (t : Text) : ∀ x ∈ (tokensFrom c t).1, c.line ≤ x.line := by
  fun_induction tokensFrom c t with
  | case1 => simp
  | case2 c t trivia start g rest hsplit l token r ih =>
    have hstart : c.line ≤ start.line := line_le_advance c trivia
    intro x hx
    rcases List.mem_cons.mp hx with rfl | hx
    · exact hstart
    · exact (hstart.trans (line_le_advance start (g :: rest.take l.extra))).trans (ih x hx)

/-- **A text is read as some lines**, whatever stands on the lines before it. -/
structure ReadsLines (cs : List Char) (lines : List (List Word)) : Prop where
  clean : '\x00' ∉ cs
  legal : ∀ ws ∈ lines, ∀ w ∈ ws, w.kind ≠ .illegal
  tokens : ∀ (c : Cursor) (x : Token), x.line < c.line →
    Lines lines x (tokensFrom c (.ofChars cs)).1

namespace ReadsLines

variable {cs : List Char} {lines : List (List Word)}

theorem nil : ReadsLines [] [] where
  clean := by simp
  legal := by simp
  tokens := by
    intro c x _
    rw [tokensFrom.eq_def]
    rfl

theorem newline (h : ReadsLines cs lines) : ReadsLines ('\n' :: cs) lines where
  clean := by
    rw [List.mem_cons, not_or]
    exact ⟨by decide, h.clean⟩
  legal := h.legal
  tokens := by
    intro c x hx
    show Lines lines x (tokensFrom c (.char '\n' :: Text.ofChars cs)).1
    rw [tokensFrom_blank rfl]
    have hline : (c.step (.char '\n')).line = c.line + 1 := rfl
    exact h.tokens _ x (by omega)

/-- A piece of text that is a line. -/
theorem line {text : List Char} {ws : List Word} (hne : ws ≠ [])
    (htext : Reads true true text ws ('\n' :: cs)) (h : ReadsLines cs lines) :
    ReadsLines (text ++ '\n' :: cs) (ws :: lines) where
  clean := by
    rw [List.mem_append, not_or]
    exact ⟨htext.clean, h.newline.clean⟩
  legal := List.forall_mem_cons.mpr ⟨htext.legal, h.legal⟩
  tokens := by
    intro c x hx
    have hstarts : ∀ t, (tokensFrom c (.ofChars (text ++ '\n' :: cs))).1.head? = some t →
        x.line ≠ t.line := by
      intro t ht
      have hle := line_le_of_mem c _ t (List.mem_of_head? ht)
      omega
    refine ⟨?_, hstarts⟩
    -- nothing is known of the line of the token before, so a token on this line stands for it
    have hafter := htext.tokens c ⟨.eof, [], none, c.line, 0, 0⟩ (Lines lines) (fun _ => rfl) ?_
    · cases ws with
      | nil => exact absurd rfl hne
      | cons w ws =>
        obtain ⟨t, ts, hts, hspells, -, hrest⟩ := hafter
        exact ⟨t, ts, hts, hspells, hrest⟩
    · intro c' y hy
      show Lines lines y (tokensFrom c' (.char '\n' :: Text.ofChars cs)).1
      rw [tokensFrom_blank rfl]
      have hline : (c'.step (.char '\n')).line = c'.line + 1 := rfl
      have hsame := hy rfl
      exact h.tokens _ y (by omega)

end ReadsLines

/-! ### No token of a written file is illegal -/

theorem after_legal {ws : List Word} {K : Rest} {x : Token} {ts : List Token} (h : After ws K x ts)
    (hlegal : ∀ w ∈ ws, w.kind ≠ .illegal)
    (hK : ∀ y ts', K y ts' → ∀ t ∈ ts', t.kind ≠ .illegal) : ∀ t ∈ ts, t.kind ≠ .illegal := by
  induction ws generalizing x ts with
  | nil => exact hK x ts h
  | cons w ws ih =>
    obtain ⟨t, ts', rfl, hspells, -, hrest⟩ := h
    rw [List.forall_mem_cons] at hlegal
    refine List.forall_mem_cons.mpr ⟨?_, ih hrest hlegal.2⟩
    rw [hspells.kind]
    exact hlegal.1

theorem lines_legal {lines : List (List Word)} {x : Token} {ts : List Token} (h : Lines lines x ts)
    (hlegal : ∀ ws ∈ lines, ∀ w ∈ ws, w.kind ≠ .illegal) : ∀ t ∈ ts, t.kind ≠ .illegal := by
  induction lines generalizing x ts with
  | nil =>
    rw [show ts = [] from h]
    simp
  | cons ws lines ih =>
    rw [List.forall_mem_cons] at hlegal
    cases ws with
    | nil => exact h.1.elim
    | cons w ws =>
      obtain ⟨⟨t, ts', rfl, hspells, hrest⟩, -⟩ := h
      have hwords := List.forall_mem_cons.mp hlegal.1
      refine List.forall_mem_cons.mpr ⟨?_, after_legal hrest hwords.2 fun y ts' hK => ih hK hlegal.2⟩
      rw [hspells.kind]
      exact hwords.1

namespace Surface

/-! ### Declarations -/

section Declarations

variable {next : List Char}

theorem reads_params {ps : List Param} (h : ∀ p ∈ ps, p.Writable) :
    Reads true true (printParams ps).toList (paramWords ps) next := by
  unfold printParams paramWords
  dsimp only
  simp only [String.toList_append]
  have hclose : Reads true true ")".toList [.sign .rparen] next := reads_close
  refine (reads_open.append (reads_commas (fun p hp next hnext => ?_)
    (ended_delimiter (by decide) _))).append hclose
  have hname := spellsName_of_isLowerName (h p hp).name
  have hty := (h p hp).ty
  cases hp : p.ty with
  | none => exact reads_name hname hnext
  | some t =>
    dsimp only
    simp only [String.toList_append]
    have hcolon : Reads true true ": ".toList [.sign .colon] (t.text.toList ++ next) :=
      reads_sign_blank (k := .colon) (by decide) (by decide)
    exact ((reads_name hname (ended_delimiter (by decide) _)).append hcolon).append
      (TypeExpr.reads_text (hty t hp) hnext)

theorem reads_result {t : Option TypeExpr} (h : WritableType t) (hnext : ended next = true) :
    Reads true true (printResult t).toList (resultWords t) next := by
  cases t with
  | none => exact .nil
  | some t =>
    rw [printResult, resultWords, String.toList_append]
    have harrow : Reads true true " -> ".toList [.sign .arrow] (t.text.toList ++ next) :=
      reads_blank_sign (k := .arrow) (by decide) (by decide)
    exact harrow.append (TypeExpr.reads_text (h t rfl) hnext)

theorem reads_public (isPublic : Bool) :
    Reads true true (printPublic isPublic).toList (publicWords isPublic) next := by
  cases isPublic with
  | false => exact .nil
  | true => exact reads_name_blank (n := "pub") (by decide)

/-- The result type, if there is one, and the body of a definition. -/
theorem reads_definition {t : Option TypeExpr} {e : Expr} (ht : WritableType t) (he : e.Writable)
    (hnext : ended next = true) :
    Reads true true ((printResult t).toList ++ " = ".toList ++ e.text.toList)
      (resultWords t ++ [Word.sign .assign] ++ e.words) next := by
  have hassign : Reads true true " = ".toList [.sign .assign] (e.text.toList ++ next) :=
    reads_blank_sign (k := .assign) (by decide) (by decide)
  exact ((reads_result ht (ended_delimiter (by decide) _)).append hassign).append
    (Expr.legible_of_writable he 0 hnext)

theorem reads_annotations {names : List String} (h : ∀ a ∈ names, isLowerName a = true) :
    Reads true true (String.join (names.map fun a => "@" ++ a ++ " ")).toList
      (names.flatMap fun a => [Word.sign .atSign] ++ [Word.name a]) next := by
  rw [String.toList_join]
  induction names with
  | nil => exact .nil
  | cons a names ih =>
    rw [List.forall_mem_cons] at h
    rw [List.map_cons, List.flatMap_cons, List.flatMap_cons]
    simp only [String.toList_append]
    have hat : ∀ next, Reads true true "@".toList [.sign .atSign] next := fun _ =>
      reads_closed (k := .atSign) (by decide) rfl (by decide)
    have hname : ∀ next, Reads true true ("@".toList ++ a.toList ++ " ".toList)
        ([Word.sign .atSign] ++ [Word.name a]) next := by
      intro next
      rw [List.append_assoc]
      exact (hat _).append (reads_name_blank (spellsName_of_isLowerName h.1))
    exact (hname _).append (ih h.2)

theorem Function.reads_print {f : Function} (h : f.Writable) (hnext : ended next = true) :
    Reads true true f.print.toList f.words next := by
  have hname : spellsName f.name = true :=
    h.name.elim spellsName_of_isLowerName spellsName_of_isUpperName
  have hfn : ∀ next, Reads true true "fn ".toList [.name "fn"] next := fun _ =>
    reads_name_blank (n := "fn") (by decide)
  have hdefinition := reads_definition h.returns h.body hnext
  have hfront : ∀ next, Reads true true
      ((String.join (f.annotations.map fun a => "@" ++ a ++ " ")).toList
        ++ (printPublic f.isPublic).toList ++ "fn ".toList)
      (f.annotations.flatMap (fun a => [Word.sign .atSign] ++ [Word.name a]) ++ publicWords f.isPublic
        ++ [Word.name "fn"]) next := fun _ =>
    ((reads_annotations h.annotations).append (reads_public f.isPublic)).append (hfn _)
  have hparams := (reads_params h.params).append hdefinition
  have hended : ended ((printParams f.params).toList ++ ((printResult f.returns).toList
      ++ " = ".toList ++ f.body.text.toList) ++ next) = true := by
    unfold printParams
    simp only [String.toList_append, List.append_assoc]
    exact ended_delimiter (by decide) _
  have hall := (hfront _).append ((reads_name hname hended).append hparams)
  rw [Function.print, Function.words]
  simp only [String.toList_append, List.append_assoc] at hall ⊢
  exact hall

theorem Recognizer.reads_print {r : Recognizer} (h : r.Writable) (hnext : ended next = true) :
    Reads true true r.print.toList r.words next := by
  have hname := spellsName_of_isUpperName h.name
  have hpattern : ∀ next, Reads true true "pattern ".toList [.name "pattern"] next := fun _ =>
    reads_name_blank (n := "pattern") (by decide)
  have hpure : ∀ next, Reads true true (if r.isPure then "@pure " else "").toList
      (if r.isPure then [Word.sign .atSign] ++ [Word.name "pure"] else []) next := by
    intro next
    cases r.isPure with
    | false => exact .nil
    | true =>
      have hat : Reads true true "@".toList [.sign .atSign] ("pure ".toList ++ next) :=
        reads_closed (k := .atSign) (by decide) rfl (by decide)
      exact hat.append (reads_name_blank (n := "pure") (by decide))
  have hparams := (reads_params h.params).append (reads_definition h.returns h.body hnext)
  have hfront : ∀ next, Reads true true
      ((if r.isPure then "@pure " else "").toList ++ (printPublic r.isPublic).toList
        ++ "pattern ".toList)
      ((if r.isPure then [Word.sign .atSign] ++ [Word.name "pure"] else []) ++ publicWords r.isPublic
        ++ [Word.name "pattern"]) next := fun _ =>
    ((hpure _).append (reads_public r.isPublic)).append (hpattern _)
  have hlabel : ∀ next, Reads true true (r.kind.label r.name).toList (r.kind.words r.name) next :=
    fun _ => reads_label hname
  have hall := (hfront _).append ((hlabel _).append hparams)
  rw [Recognizer.print, Recognizer.words]
  simp only [String.toList_append, List.append_assoc] at hall ⊢
  exact hall

theorem Variant.reads_print {v : Variant} (h : v.Writable) (hnext : ended next = true) :
    Reads true true v.print.toList v.words next := by
  have hname := spellsName_of_isUpperName h.name
  have hbar : ∀ next, Reads true true "| ".toList [.sign .pipe] next := fun _ =>
    reads_sign_blank (k := .pipe) (by decide) (by decide)
  rw [Variant.print, Variant.words]
  have hfields := h.fields
  cases hv : v.fields with
  | nil =>
    dsimp only
    rw [String.toList_append]
    exact (hbar _).append (reads_name hname hnext)
  | cons t ts =>
    rw [hv] at hfields
    simp only [String.toList_append]
    have hclose : Reads true true ")".toList [.sign .rparen] next := reads_close
    refine Reads.append (Reads.append (Reads.append (Reads.append (hbar _) ?_) reads_open) ?_) hclose
    · exact reads_name hname (ended_delimiter (by decide) _)
    · exact reads_commas (fun t ht _ hnext => TypeExpr.reads_text (hfields t ht) hnext)
        (ended_delimiter (by decide) _)

theorem reads_variants {vs : List Variant} (h : ∀ v ∈ vs, v.Writable) (hnext : ended next = true) :
    Reads true true (" ".intercalate (vs.map Variant.print)).toList (vs.flatMap Variant.words) next := by
  have hflat : vs.flatMap Variant.words = ([] : List Word).intercalate (vs.map Variant.words) := by
    rw [List.intercalate, List.flatMap_def]
    generalize vs.map Variant.words = wss
    induction wss with
    | nil => rfl
    | cons ws wss ih =>
      cases wss with
      | nil => rfl
      | cons ws' wss =>
        rw [List.intersperse_cons_cons, List.flatten_cons, ih]
        rfl
  rw [String.toList_intercalate, List.map_map, hflat]
  refine reads_intercalate (fun rest => reads_space) (fun rest => ?_)
    (fun v hv _ hnext => Variant.reads_print (h v hv) hnext) hnext
  exact ended_delimiter (by decide) _

theorem TypeDecl.reads_print {d : TypeDecl} (h : d.Writable) (hnext : ended next = true) :
    Reads true true d.print.toList d.words next := by
  have hname := spellsName_of_isUpperName h.name
  have htype : ∀ next, Reads true true "type ".toList [.name "type"] next := fun _ =>
    reads_name_blank (n := "type") (by decide)
  have hassign : ∀ next, Reads true true " = ".toList [.sign .assign] next := fun _ =>
    reads_blank_sign (k := .assign) (by decide) (by decide)
  rw [TypeDecl.print, TypeDecl.words]
  simp only [String.toList_append]
  refine Reads.append (Reads.append (Reads.append (Reads.append (reads_public d.isPublic) (htype _)) ?_)
    (hassign _)) ?_
  · exact reads_name hname (ended_delimiter (by decide) _)
  · split
    · have hclose : Reads true true " \x7d".toList [.sign .rbrace] next := reads_blank_rbrace
      simp only [String.toList_append]
      refine (reads_lbrace_blank.append (reads_commas (fun f hf next hnext => ?_)
        (ended_delimiter (by decide) _))).append hclose
      simp only [String.toList_append]
      have hcolon : Reads true true ": ".toList [.sign .colon] (f.2.text.toList ++ next) :=
        reads_sign_blank (k := .colon) (by decide) (by decide)
      have hfield := spellsName_of_isLowerName (h.names f hf)
      exact ((reads_name hfield (ended_delimiter (by decide) _)).append hcolon).append
        (TypeExpr.reads_text (h.fields f hf) hnext)
    · exact reads_variants h.variants hnext

theorem Decl.reads_print {d : Decl} (h : d.Writable) (hnext : ended next = true) :
    Reads true true d.print.toList d.words next := by
  cases d with
  | function f => exact Function.reads_print h hnext
  | recognizer r => exact Recognizer.reads_print h hnext
  | type t => exact TypeDecl.reads_print h hnext
  | expr m e => exact Expr.legible_of_writable h 0 hnext

/-- A path with points between its names. -/
theorem reads_path {path : List String} (hnames : ∀ n ∈ path, spellsName n = true)
    (hnext : ended next = true) :
    Reads true true (".".intercalate path).toList
      ([Word.sign .dot].intercalate (path.map fun n => [.name n])) next := by
  rw [String.toList_intercalate]
  induction path with
  | nil => exact .nil
  | cons n path ih =>
    rw [List.forall_mem_cons] at hnames
    cases path with
    | nil =>
      simp only [List.map_cons, List.map_nil, List.intercalate_singleton]
      exact reads_name hnames.1 hnext
    | cons m path =>
      obtain ⟨c, cs, hm, hc⟩ := exists_startsName (hnames.2 m List.mem_cons_self)
      have hrest := ih hnames.2
      simp only [List.map_cons, List.intercalate_cons_cons] at hrest ⊢
      have hhead : ∃ rest, ".".toList.intercalate (m.toList :: path.map String.toList) ++ next
          = c :: rest := by
        cases path with
        | nil => exact ⟨cs ++ next, by simp [hm]⟩
        | cons k path => exact ⟨_, by rw [List.map_cons, List.intercalate_cons_cons, hm]; rfl⟩
      obtain ⟨rest, hhead⟩ := hhead
      have hdot : Reads true true ".".toList [.sign .dot]
          (".".toList.intercalate (m.toList :: path.map String.toList) ++ next) := by
        rw [hhead]
        refine reads_apart (k := .dot) (by decide) (head?_ne_joined fun hmem => ?_) (by decide)
        rw [List.mem_singleton.mp hmem] at hc
        exact absurd hc (by decide)
      have hended : ended (".".toList
          ++ (".".toList.intercalate (m.toList :: path.map String.toList) ++ next)) = true := by
        rw [hhead]
        exact ended_dot (isDigit_of_startsName hc)
      exact ((reads_name hnames.1 hended).append hdot).append hrest

theorem reads_pathLine {keyword : String} (hkeyword : spellsName keyword = true) {l : PathLine}
    (h : l.Writable) (hnext : ended next = true) :
    Reads true true (keyword ++ " " ++ ".".intercalate l.path).toList (l.words keyword) next := by
  have hnames : ∀ n ∈ l.path, spellsName n = true := fun n hn =>
    (h.names n hn).elim spellsName_of_isLowerName spellsName_of_isUpperName
  rw [String.toList_append, String.toList_append]
  exact (reads_name_blank hkeyword).append (reads_path hnames hnext)

end Declarations

/-! ### Files -/

theorem Decl.words_ne_nil {d : Decl} (h : d.Writable) : d.words ≠ [] := by
  cases d with
  | function f => simp [Decl.words, Function.words]
  | recognizer r => simp [Decl.words, Recognizer.words]
  | type t => simp [Decl.words, TypeDecl.words]
  | expr m e =>
    obtain ⟨w, ws, hwords, -⟩ := Expr.opening_words h
    rw [Decl.words, hwords]
    exact List.cons_ne_nil w ws

/-- The lines of a file. -/
def Program.lines (p : Program) : List (List Word) :=
  p.header.toList.map (PathLine.words "module") ++ p.uses.map (PathLine.words "use")
    ++ p.decls.map Decl.words

/-- Declarations with a blank line between them, in front of other lines. -/
theorem readsLines_declsBefore {ds : List Decl} (h : ∀ d ∈ ds, d.Writable) {cs : List Char}
    {lines : List (List Word)} (hrest : ReadsLines cs lines) :
    ReadsLines (("\n".intercalate (ds.map fun d => d.print ++ "\n")).toList ++ cs)
      (ds.map Decl.words ++ lines) := by
  rw [String.toList_intercalate, List.map_map]
  induction ds with
  | nil => exact hrest
  | cons d ds ih =>
    rw [List.forall_mem_cons] at h
    have hd : ∀ cs, Reads true true d.print.toList d.words ('\n' :: cs) := fun cs =>
      Decl.reads_print h.1 (ended_delimiter (by decide) cs)
    have hne := Decl.words_ne_nil h.1
    have hlines := ih h.2
    cases ds with
    | nil =>
      have hall := hrest.line hne (hd cs)
      simp only [List.map_cons, List.map_nil, List.intercalate_singleton, Function.comp,
        String.toList_append, List.append_assoc] at hall ⊢
      exact hall
    | cons d' ds =>
      have hall := hlines.newline.line hne (hd _)
      simp only [List.map_cons, List.intercalate_cons_cons, Function.comp, String.toList_append,
        List.append_assoc] at hall ⊢
      exact hall

theorem readsLines_decls {ds : List Decl} (h : ∀ d ∈ ds, d.Writable) :
    ReadsLines ("\n".intercalate (ds.map fun d => d.print ++ "\n")).toList (ds.map Decl.words) := by
  simpa using readsLines_declsBefore h .nil

theorem readsLines_paths {keyword : String} (hkeyword : spellsName keyword = true)
    {ls : List PathLine} (h : ∀ l ∈ ls, l.Writable) {cs : List Char} {lines : List (List Word)}
    (hrest : ReadsLines cs lines) :
    ReadsLines ((String.join (ls.map fun l => keyword ++ " " ++ ".".intercalate l.path ++ "\n")).toList
      ++ cs) (ls.map (PathLine.words keyword) ++ lines) := by
  rw [String.toList_join]
  induction ls with
  | nil => exact hrest
  | cons l ls ih =>
    rw [List.forall_mem_cons] at h
    have hl : ∀ cs, Reads true true (keyword ++ " " ++ ".".intercalate l.path).toList
        (l.words keyword) ('\n' :: cs) := fun cs =>
      reads_pathLine hkeyword h.1 (ended_delimiter (by decide) cs)
    have hne : l.words keyword ≠ [] := List.cons_ne_nil _ _
    have hall := (ih h.2).line hne (hl _)
    simp only [List.map_cons, List.flatMap_cons, String.toList_append, List.append_assoc,
      List.cons_append] at hall ⊢
    exact hall

/-- **The written form of a file is read as its lines.** -/
theorem readsLines_print {p : Program} (h : p.Writable) : ReadsLines p.print.toList p.lines := by
  have hheader : ∀ l ∈ p.header.toList, l.Writable := fun l hl => h.header l (Option.mem_toList.mp hl)
  have hdecls := readsLines_decls h.decls
  have hblank : ∀ b : Bool, ReadsLines ((if b then "" else "\n").toList
      ++ ("\n".intercalate (p.decls.map fun d => d.print ++ "\n")).toList) (p.decls.map Decl.words) := by
    intro b
    cases b with
    | true => exact hdecls
    | false => exact hdecls.newline
  have huses := readsLines_paths (by decide : spellsName "use" = true) h.uses (hblank
    (p.header.toList.map (fun l : PathLine => "module" ++ " " ++ ".".intercalate l.path ++ "\n")
      ++ p.uses.map fun l => "use" ++ " " ++ ".".intercalate l.path ++ "\n").isEmpty)
  have hall := readsLines_paths (by decide : spellsName "module" = true) hheader huses
  have htext : p.print = String.join (p.header.toList.map fun l => "module" ++ " " ++ ".".intercalate l.path
        ++ "\n") ++ (String.join (p.uses.map fun l => "use" ++ " " ++ ".".intercalate l.path ++ "\n")
      ++ ((if (p.header.toList.map (fun l : PathLine => "module" ++ " " ++ ".".intercalate l.path ++ "\n")
        ++ p.uses.map fun l => "use" ++ " " ++ ".".intercalate l.path ++ "\n").isEmpty then "" else "\n")
      ++ "\n".intercalate (p.decls.map fun d => d.print ++ "\n"))) := by
    rw [Program.print]
    dsimp only
    rw [String.join_append, String.append_assoc, String.append_assoc]
  rw [htext, Program.lines, List.append_assoc]
  simp only [String.toList_append] at hall ⊢
  exact hall

end Surface

end PatternPlan
