import PatternPlan.Proofs.Document.Parts

/-!
# Modules in documents

* `Expr.Storable`, `Function.Storable`, `Recognizer.Storable`, `Module.Storable` — rows, declarations
  and modules whose numbers fit their words and whose patterns are regular;
* `Module.recovers` — **storable modules are read back**;
* `Module.decode_render` — the text of a valid module is read back as the module, **unless it nests
  deeper than documents may**: then it is refused.
-/

namespace PatternPlan.Lowered

open Reader

/-! ### Rows -/

/-- An arm whose numbers fit their words. -/
structure MatchArm.Storable (a : MatchArm) : Prop where
  pattern : ∀ p ∈ a.pattern, p.Regular
  guard : ∀ r ∈ a.guard, r < 2 ^ 32
  body : a.body < 2 ^ 32

/-- The values that an arm gives to its keys. -/
def MatchArm.slots (a : MatchArm) : List (String × List Json) :=
  [("pattern", [Pattern.itemJson a.pattern]), ("guard", (a.guard.map Json.nat).toList),
    ("alias", textValues a.asName), ("body", [.nat a.body])]

theorem MatchArm.toJson_eq (a : MatchArm) : a.toJson = .object (fieldsOf a.slots) := by
  have hpattern : Json.option Pattern.toJson a.pattern = Pattern.itemJson a.pattern := by
    cases a.pattern <;> rfl
  rw [toJson, hpattern, optionField_eq, textField_eq]
  simp [fieldsOf, slots]

theorem nat_ne_null (n : Nat) : Json.nat n ≠ .null := fun h => Json.noConfusion h

/-- A row that may be missing. -/
theorem option_nat {o : Option Nat} (h : ∀ r ∈ o, r < 2 ^ 32) :
    option nat (o.map Json.nat).toList = some o :=
  option_toList nat_ne_null fun r hr => nat_nat (h r hr)

theorem proper_option_nat (o : Option Nat) : Json.ProperItems (o.map Json.nat).toList :=
  properItems_toList.mpr fun r _ => proper_nat r

theorem MatchArm.recovers {a : MatchArm} (h : a.Storable) : Recovers MatchArm.reader toJson a := by
  constructor
  · have hpattern : (Pattern.itemJson a.pattern).Proper := by
      cases hp : a.pattern with
      | none => exact proper_null
      | some p => exact (Pattern.recovers (h.pattern p hp)).proper
    rw [toJson_eq, proper_fieldsOf]
    simp [slots, hpattern, proper_option_nat]
  · intro room hroom
    rw [toJson_eq] at hroom ⊢
    have hpattern : option (Pattern.reader room) [Pattern.itemJson a.pattern] = some a.pattern := by
      have hdepth : (Pattern.itemJson a.pattern).depth ≤ room :=
        depth_le_of_slot hroom "pattern" (by simp [slots])
      refine Pattern.option_itemJson fun p hp => (Pattern.recovers (h.pattern p hp)).reads room ?_
      rw [Option.mem_def.mp hp] at hdepth
      exact hdepth
    refine Eq.trans (record_fieldsOf true rfl (by decide)) ?_
    simp only [slots, slotValues_head, slotValues_tail, ne_eq, String.reduceEq, not_false_eq_true]
    rw [hpattern, option_nat h.guard, text_textValues, nat_nat h.body]
    rfl

/-- What has to hold of a row, besides the rows it refers to, to be read back. -/
structure Expr.Plain (e : Expr) : Prop where
  span : e.span.Storable
  form : ExprForm.ofName e.form.name = e.form
  literal : ∀ v ∈ e.literal, v.Storable
  patterns : ∀ a ∈ e.arms, ∀ p ∈ a.pattern, p.Regular
  plan : ∀ p ∈ e.plan, p.Storable

/-- A row whose numbers fit their words. -/
structure Expr.Storable (e : Expr) : Prop extends e.Plain where
  id : e.id < 2 ^ 32
  references : ∀ r ∈ e.references, r < 2 ^ 32

/-- What is written for a binding of a block. -/
def statementJson (s : String × Nat) : Json :=
  .object (fieldsOf [("name", [.text s.1]), ("value", [.nat s.2])])

/-- The values that a row gives to its keys. -/
def Expr.slots (e : Expr) : List (String × List Json) :=
  [("id", [.nat e.id]), ("span", [e.span.toJson]), ("ty", [.text e.ty]), ("kind", [.text e.form.name]),
    ("name", textValues e.name), ("literal", (e.literal.map Literal.toJson).toList),
    ("operator", textValues e.operator), ("callee", (e.callee.map Json.nat).toList),
    ("args", listValues (e.args.map Json.nat)), ("keys", listValues (e.keys.map Json.text)),
    ("statements", listValues (e.statements.map statementJson)),
    ("tail", (e.tail.map Json.nat).toList), ("condition", (e.condition.map Json.nat).toList),
    ("then_branch", (e.yes.map Json.nat).toList), ("else_branch", (e.no.map Json.nat).toList),
    ("target", (e.target.map Json.nat).toList), ("arms", listValues (e.arms.map MatchArm.toJson)),
    ("lowering", (e.plan.map Plan.toJson).toList)]

theorem Expr.toJson_eq (e : Expr) : e.toJson = .object (fieldsOf e.slots) := by
  have hstatements : (fun s : String × Nat => Json.object [("name", .text s.1), ("value", .nat s.2)])
      = statementJson := rfl
  simp only [toJson, hstatements, textField_eq, listField_eq, optionField_eq, fieldsOf, slots,
    List.flatMap_cons, List.flatMap_nil, List.map_cons, List.map_nil, List.append_nil,
    List.append_assoc, List.cons_append, List.nil_append]

theorem statementReader_json {s : String × Nat} (h : s.2 < 2 ^ 32) :
    statementReader [statementJson s] = some s := by
  refine Eq.trans (record_fieldsOf true rfl (by decide)) ?_
  simp only [slotValues_head, slotValues_tail, ne_eq, String.reduceEq, not_false_eq_true]
  rw [text_text, nat_nat h]
  rfl

theorem Expr.Storable.arms {e : Expr} (h : e.Storable) : ∀ a ∈ e.arms, a.Storable := by
  intro a ha
  have hrefs : ∀ r ∈ a.body :: a.guard.toList, r < 2 ^ 32 := fun r hr =>
    h.references r (List.mem_append_right _ (List.mem_flatMap.mpr ⟨a, ha, hr⟩))
  refine ⟨h.patterns a ha, fun r hr => hrefs r ?_, hrefs _ List.mem_cons_self⟩
  exact List.mem_cons_of_mem _ (Option.mem_toList.mpr hr)

theorem Expr.proper_toJson {e : Expr} (h : e.Storable) : e.toJson.Proper := by
  have hliteral : Json.ProperItems (e.literal.map Literal.toJson).toList :=
    properItems_toList.mpr fun v hv => Literal.proper_toJson (h.literal v hv)
  have hargs : Json.ProperItems (e.args.map Json.nat) := properItems_map.mpr fun r _ => proper_nat r
  have hkeys : Json.ProperItems (e.keys.map Json.text) := properItems_map.mpr fun k _ => proper_text k
  have hstatements : Json.ProperItems (e.statements.map statementJson) := by
    refine properItems_map.mpr fun s _ => proper_fieldsOf.mpr ?_
    simp
  have harms : Json.ProperItems (e.arms.map MatchArm.toJson) :=
    properItems_map.mpr fun a ha => (MatchArm.recovers (h.arms a ha)).proper
  have hplan : Json.ProperItems (e.plan.map Plan.toJson).toList :=
    properItems_toList.mpr fun p hp => (Plan.recovers true (h.plan p hp)).proper
  rw [toJson_eq, proper_fieldsOf]
  simp only [slots, List.forall_mem_cons, properItems_cons, properItems_nil, proper_text, proper_nat,
    properItems_textValues, properItems_listValues, e.span.proper_toJson, proper_option_nat, hliteral,
    hargs, hkeys, hstatements, harms, hplan, List.not_mem_nil, false_imp_iff, implies_true, and_true]

theorem Expr.recovers {e : Expr} (h : e.Storable) : Recovers Expr.reader toJson e := by
  refine ⟨proper_toJson h, fun room hroom => ?_⟩
  rw [toJson_eq] at hroom ⊢
  have href : ∀ {o : Option Nat}, (∀ r ∈ o, r ∈ e.references) →
      option nat (o.map Json.nat).toList = some o :=
    fun ho => option_nat fun r hr => h.references r (ho r hr)
  have hargs : list nat (listValues (e.args.map Json.nat)) = some e.args :=
    list_listValues fun r hr => nat_nat (h.references r (by simp [references, hr]))
  have hkeys : list text (listValues (e.keys.map Json.text)) = some e.keys :=
    list_listValues fun k _ => text_text k
  have hstatements : list statementReader (listValues (e.statements.map statementJson))
      = some e.statements := by
    refine list_listValues fun s hs => statementReader_json (h.references s.2 ?_)
    have hmem : s.2 ∈ e.statements.map (·.2) := List.mem_map_of_mem hs
    simp only [references, List.mem_append]
    tauto
  have hliteral : option Literal.reader (e.literal.map Literal.toJson).toList = some e.literal :=
    option_toList Literal.toJson_ne_null fun v hv => Literal.reader_toJson (h.literal v hv)
  have harms : list (MatchArm.reader room) (listValues (e.arms.map MatchArm.toJson))
      = some e.arms := by
    refine list_listValues fun a ha => (MatchArm.recovers (h.arms a ha)).reads room ?_
    have hdepth : a.toJson.depth < (Json.object (fieldsOf e.slots)).depth :=
      depth_lt_items "arms" (by simp [slots]) (List.mem_map_of_mem ha)
    omega
  have hplan : option (Plan.reader true room) (e.plan.map Plan.toJson).toList = some e.plan := by
    refine option_toList (fun p h => Json.noConfusion h) fun p hp =>
      (Plan.recovers true (h.plan p hp)).reads room ?_
    have hdepth : p.toJson.depth < (Json.object (fieldsOf e.slots)).depth :=
      depth_lt_fieldsOf (s := ("lowering", (e.plan.map Plan.toJson).toList)) (by simp [slots])
        (by rw [Option.mem_def.mp hp]; exact List.mem_singleton_self _)
    omega
  refine Eq.trans (record_fieldsOf true rfl (by decide)) ?_
  simp only [slots, slotValues_head, slotValues_tail, ne_eq, String.reduceEq, not_false_eq_true]
  rw [nat_nat h.id, Span.reader_toJson h.span, text_text, text_text, text_textValues, hliteral,
    text_textValues, href fun r hr => ?_, hargs, hkeys, hstatements, href fun r hr => ?_,
    href fun r hr => ?_, href fun r hr => ?_, href fun r hr => ?_, href fun r hr => ?_, harms, hplan]
  · simp only [Option.bind_eq_bind, Option.bind_some, h.form]
    rfl
  all_goals
    simp only [references, List.mem_append, Option.mem_toList]
    tauto

/-! ### Declarations -/

/-- The values that a parameter gives to its keys. -/
def Param.slots (p : Param) : List (String × List Json) :=
  [("name", [.text p.name]), ("ty", [.text p.ty])]

theorem Param.reader_toJson (p : Param) : Param.reader [p.toJson] = some p := by
  have hslots : p.toJson = .object (fieldsOf p.slots) := rfl
  rw [hslots]
  refine Eq.trans (record_fieldsOf true rfl (by decide)) ?_
  simp only [slots, slotValues_head, slotValues_tail, ne_eq, String.reduceEq, not_false_eq_true]
  rw [text_text, text_text]
  rfl

theorem proper_params (ps : Listed Param) : (Json.listed Param.toJson ps).Proper := by
  refine proper_listed.mpr fun _ _ p _ => ?_
  have hslots : p.toJson = .object (fieldsOf p.slots) := rfl
  rw [hslots, proper_fieldsOf]
  simp [Param.slots]

theorem listed_params (ps : Listed Param) :
    listed Param.reader [Json.listed Param.toJson ps] = some ps := by
  cases ps with
  | none => rfl
  | some ps => exact listed_array fun p _ => p.reader_toJson

/-- A table whose rows are storable. -/
def StorableRows (rows : Listed Expr) : Prop := ∀ es ∈ rows, ∀ e ∈ es, e.Storable

/-- A function whose numbers fit their words. -/
structure Function.Storable (f : Function) : Prop where
  span : f.span.Storable
  body : f.body < 2 ^ 32
  rows : StorableRows f.exprs

/-- The values that a function gives to its keys. -/
def Function.slots (f : Function) : List (String × List Json) :=
  [("name", [.text f.name]), ("span", [f.span.toJson]), ("params", [Json.listed Param.toJson f.params]),
    ("return_type", [.text f.returnType]), ("body", [.nat f.body]),
    ("exprs", [Json.listed Expr.toJson f.exprs])]

theorem Function.recovers {f : Function} (h : f.Storable) : Recovers Function.reader toJson f := by
  have hslots : f.toJson = .object (fieldsOf f.slots) := rfl
  constructor
  · have hrows : (Json.listed Expr.toJson f.exprs).Proper :=
      proper_listed.mpr fun es hes e he => Expr.proper_toJson (h.rows es hes e he)
    rw [hslots, proper_fieldsOf]
    simp [slots, f.span.proper_toJson, proper_params, hrows]
  · intro room hroom
    rw [hslots] at hroom ⊢
    have hrows : listed (Expr.reader room) [Json.listed Expr.toJson f.exprs] = some f.exprs :=
      Recovers.listed (fun es hes e he => Expr.recovers (h.rows es hes e he))
        (depth_le_of_slot hroom "exprs" (by simp [slots]))
    refine Eq.trans (record_fieldsOf true rfl (by decide)) ?_
    simp only [slots, slotValues_head, slotValues_tail, ne_eq, String.reduceEq, not_false_eq_true]
    rw [text_text, Span.reader_toJson h.span, listed_params, text_text, nat_nat h.body, hrows]
    rfl

/-- A recognizer whose numbers fit their words. -/
structure Recognizer.Storable (r : Recognizer) : Prop where
  span : r.span.Storable
  body : r.body < 2 ^ 32
  rows : StorableRows r.exprs

/-- The values that a recognizer gives to its keys. -/
def Recognizer.slots (r : Recognizer) : List (String × List Json) :=
  [("name", [.text r.name]), ("span", [r.span.toJson]), ("kind", [.text r.kind.name]),
    ("return_carrier", [.text r.carrier.name]), ("has_miss_path", [.bool r.hasMissPath]),
    ("params", [Json.listed Param.toJson r.params]), ("body", [.nat r.body]),
    ("exprs", [Json.listed Expr.toJson r.exprs])]

theorem Recognizer.recovers {r : Recognizer} (h : r.Storable) :
    Recovers Recognizer.reader toJson r := by
  have hslots : r.toJson = .object (fieldsOf r.slots) := rfl
  constructor
  · have hrows : (Json.listed Expr.toJson r.exprs).Proper :=
      proper_listed.mpr fun es hes e he => Expr.proper_toJson (h.rows es hes e he)
    rw [hslots, proper_fieldsOf]
    simp [slots, r.span.proper_toJson, proper_params, hrows]
  · intro room hroom
    rw [hslots] at hroom ⊢
    have hkind : RecognizerKind.ofName? r.kind.name = some r.kind := by cases r.kind <;> rfl
    have hcarrier : Carrier.ofName? r.carrier.name = some r.carrier := by cases r.carrier <;> rfl
    have hrows : listed (Expr.reader room) [Json.listed Expr.toJson r.exprs] = some r.exprs :=
      Recovers.listed (fun es hes e he => Expr.recovers (h.rows es hes e he))
        (depth_le_of_slot hroom "exprs" (by simp [slots]))
    refine Eq.trans (record_fieldsOf true rfl (by decide)) ?_
    simp only [slots, slotValues_head, slotValues_tail, ne_eq, String.reduceEq, not_false_eq_true]
    rw [text_text, Span.reader_toJson h.span, named_text hkind, named_text hcarrier, flag_bool,
      listed_params, nat_nat h.body, hrows]
    rfl

/-! ### Modules -/

/-- A module whose numbers fit their words. -/
structure Module.Storable (m : Module) : Prop where
  functions : ∀ fs ∈ m.functions, ∀ f ∈ fs, f.Storable
  recognizers : ∀ rs ∈ m.recognizers, ∀ r ∈ rs, r.Storable
  plans : ∀ ps ∈ m.plans, ∀ p ∈ ps, p.Storable

/-- The values that a module gives to its keys. -/
def Module.slots (m : Module) : List (String × List Json) :=
  [("schema_version", [.text m.schema]), ("file", textValues m.file),
    ("functions", [Json.listed Function.toJson m.functions]),
    ("active_patterns", [Json.listed Recognizer.toJson m.recognizers]),
    ("match_lowerings", [Json.listed Plan.toJson m.plans])]

theorem Module.toJson_eq (m : Module) : m.toJson = .object (fieldsOf m.slots) := by
  rw [toJson, textField_eq]
  simp [fieldsOf, slots]

/-- **Storable modules are read back.** -/
theorem Module.recovers {m : Module} (h : m.Storable) : Recovers Module.reader toJson m := by
  have hfunction := fun fs hfs f hf => Function.recovers (h.functions fs hfs f hf)
  have hrecognizer := fun rs hrs r hr => Recognizer.recovers (h.recognizers rs hrs r hr)
  have hplan := fun ps hps p hp => Plan.recovers true (h.plans ps hps p hp)
  constructor
  · have hfunctions : (Json.listed Function.toJson m.functions).Proper :=
      proper_listed.mpr fun fs hfs f hf => (hfunction fs hfs f hf).proper
    have hrecognizers : (Json.listed Recognizer.toJson m.recognizers).Proper :=
      proper_listed.mpr fun rs hrs r hr => (hrecognizer rs hrs r hr).proper
    have hplans : (Json.listed Plan.toJson m.plans).Proper :=
      proper_listed.mpr fun ps hps p hp => (hplan ps hps p hp).proper
    rw [toJson_eq, proper_fieldsOf]
    simp [slots, hfunctions, hrecognizers, hplans]
  · intro room hroom
    rw [toJson_eq] at hroom ⊢
    have hfunctions : listed (Function.reader room) [Json.listed Function.toJson m.functions]
        = some m.functions :=
      Recovers.listed hfunction (depth_le_of_slot hroom "functions" (by simp [slots]))
    have hrecognizers : listed (Recognizer.reader room) [Json.listed Recognizer.toJson m.recognizers]
        = some m.recognizers :=
      Recovers.listed hrecognizer (depth_le_of_slot hroom "active_patterns" (by simp [slots]))
    have hplans : listed (Plan.reader true room) [Json.listed Plan.toJson m.plans] = some m.plans :=
      Recovers.listed hplan (depth_le_of_slot hroom "match_lowerings" (by simp [slots]))
    refine Eq.trans (record_fieldsOf true rfl (by decide)) ?_
    simp only [slots, slotValues_head, slotValues_tail, ne_eq, String.reduceEq, not_false_eq_true]
    rw [text_text, text_textValues, hfunctions, hrecognizers, hplans]
    rfl

/-- The document of a module nests deeper than the documents of its plans. -/
theorem Module.depth_of_plan {m : Module} {p : Plan} (hp : p ∈ m.plans.getD []) :
    p.toJson.depth < m.toJson.depth := by
  rw [toJson_eq]
  exact Nat.lt_of_succ_lt (succ_depth_lt_listed "match_lowerings" (by simp [slots]) hp)

/-- The document of an arm nests deeper than that of its pattern. -/
theorem depth_of_pattern {a : MatchArm} {p : Pattern} (hp : a.pattern = some p) :
    p.toJson.depth < a.toJson.depth := by
  rw [MatchArm.toJson_eq]
  refine depth_lt_fieldsOf (s := ("pattern", [Pattern.itemJson a.pattern]))
    (by simp [MatchArm.slots]) ?_
  rw [hp]
  exact List.mem_singleton_self _

/-- The document of a row nests deeper than those of the patterns of its arms. -/
theorem depth_of_arm {e : Expr} {a : MatchArm} {p : Pattern} (ha : a ∈ e.arms)
    (hp : a.pattern = some p) : p.toJson.depth < e.toJson.depth := by
  have harm : a.toJson.depth < e.toJson.depth := by
    rw [Expr.toJson_eq]
    exact depth_lt_items "arms" (by simp [Expr.slots]) (List.mem_map_of_mem ha)
  exact Nat.lt_trans (depth_of_pattern hp) harm

/-- The document of a module nests deeper than the documents of its patterns. -/
theorem Module.depth_of_mem_patterns {m : Module} {p : Pattern} (hp : p ∈ m.patterns) :
    p.toJson.depth < m.toJson.depth := by
  obtain ⟨e, he, hmem⟩ := List.mem_flatMap.mp hp
  obtain ⟨a, ha, hpattern⟩ := List.mem_filterMap.mp hmem
  have hrow : p.toJson.depth < e.toJson.depth := depth_of_arm ha hpattern
  rcases List.mem_append.mp he with he | he
  · obtain ⟨f, hf, hrows⟩ := List.mem_flatMap.mp he
    have hfunction : e.toJson.depth + 1 < f.toJson.depth := by
      rw [show f.toJson = .object (fieldsOf f.slots) from rfl]
      exact succ_depth_lt_listed "exprs" (by simp [Function.slots]) hrows
    have hmodule : f.toJson.depth + 1 < m.toJson.depth := by
      rw [Module.toJson_eq]
      exact succ_depth_lt_listed "functions" (by simp [slots]) hf
    omega
  · obtain ⟨r, hr, hrows⟩ := List.mem_flatMap.mp he
    have hrecognizer : e.toJson.depth + 1 < r.toJson.depth := by
      rw [show r.toJson = .object (fieldsOf r.slots) from rfl]
      exact succ_depth_lt_listed "exprs" (by simp [Recognizer.slots]) hrows
    have hmodule : r.toJson.depth + 1 < m.toJson.depth := by
      rw [Module.toJson_eq]
      exact succ_depth_lt_listed "active_patterns" (by simp [slots]) hr
    omega

/-- A valid module that nests no deeper than documents may is written. -/
theorem Module.encode_eq {m : Module} (hvalid : m.errors = [])
    (hdepth : m.toJson.depth ≤ Json.maxNesting) (indent : Bool) :
    m.encode indent = .ok (m.toJson.render indent) := by
  have hpatterns : m.patterns.findSome? Pattern.refusal? = none := by
    refine List.findSome?_eq_none_iff.mpr fun p hp => if_pos ?_
    have hlt := depth_of_mem_patterns hp
    omega
  rw [encode, hvalid]
  simp only [hpatterns]
  rw [Json.written_eq hdepth]
  rfl

/-- Whatever is written for a valid module is the text of its document. -/
theorem Module.eq_render_of_encode {m : Module} {indent : Bool} {text : String}
    (h : m.encode indent = .ok text) : text = m.toJson.render indent := by
  rw [encode] at h
  split at h
  · split at h
    · cases h
    · refine Json.eq_render_of_written ?_
      cases hwritten : m.toJson.written indent with
      | error e =>
        rw [hwritten] at h
        cases h
      | ok written =>
        rw [hwritten] at h
        exact congrArg Except.ok (Except.ok.inj h)
  · cases h

/-- The text of a valid module is read back, unless it nests deeper than documents may. -/
theorem Module.decode_render {m : Module} (h : m.Storable) (hvalid : m.errors = []) (indent : Bool) :
    Module.decode (m.toJson.render indent)
      = if m.toJson.depth ≤ Json.maxNesting then .ok m else .error .unreadable := by
  have hread := Json.readFirst?_render indent (recovers h).proper
  have hmodule : Module.ofJson? m.toJson = some m := (recovers h).reads _ (Nat.le_succ _)
  rw [decode, hread]
  by_cases hdepth : m.toJson.depth ≤ Json.maxNesting
  · rw [if_pos hdepth, if_pos hdepth, Option.bind_some, hmodule]
    dsimp only
    rw [hvalid]
  · rw [if_neg hdepth, if_neg hdepth]
    rfl

end PatternPlan.Lowered
