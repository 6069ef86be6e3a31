import PatternPlan.Proofs.Document.Places
import PatternPlan.Proofs.Source.Storable

/-!
# The parts of a module

Spans, constants, plans and patterns are read back from what is written for them.

* `Plan.Storable` — plans whose numbers fit their words;
* `PlanNode.recovers`, `Plan.recovers` — **plans are read back**, wherever there is room for them;
* `PlanNode.Chain` — nodes below nodes, each of which takes two levels of a document;
* `Pattern.parts`, `Pattern.Regular` — the patterns directly inside one, and patterns whose form
  has a tag of its own and whose shared key is used as the form says;
* `Pattern.recovers` — **regular patterns are read back**.
-/

namespace PatternPlan

open Reader

/-! ### Spans and constants -/

/-- What is written for a number that is left out when zero. -/
def Reader.numberValues (i : Int) : List Json := if i = 0 then [] else [.int i]

theorem Reader.int_numberValues {i : Int} (h : fitsInt64 i = true) : int (numberValues i) = some i := by
  rw [numberValues]
  split
  · rename_i hi
    rw [hi]
    rfl
  · exact int_int h

/-- The values that a span gives to its keys. -/
def Span.slots (s : Span) : List (String × List Json) :=
  [("start", [.int s.start]), ("end", [.int s.stop]), ("line", numberValues s.line),
    ("column", numberValues s.column)]

theorem Span.toJson_eq (s : Span) : s.toJson = .object (fieldsOf s.slots) := by
  rw [Span.toJson, Span.slots, numberValues, numberValues]
  by_cases hl : s.line = 0 <;> by_cases hc : s.column = 0 <;> simp [fieldsOf, hl, hc]

theorem Span.reader_toJson {s : Span} (h : s.Storable) (strict : Bool) :
    Span.reader strict [s.toJson] = some s := by
  rw [Span.toJson_eq]
  refine Eq.trans (record_fieldsOf strict rfl (by decide)) ?_
  simp only [Span.slots, slotValues_head, slotValues_tail, ne_eq, String.reduceEq, not_false_eq_true]
  rw [int_int h.start, int_int h.stop, int_numberValues h.line, int_numberValues h.column]
  rfl

theorem Span.proper_toJson (s : Span) : s.toJson.Proper := by
  rw [Span.toJson_eq, proper_fieldsOf]
  have hnumber : ∀ i, Json.ProperItems (numberValues i) := by
    intro i
    rw [numberValues]
    split <;> simp
  simp [Span.slots, hnumber]

theorem Literal.toJson_ne_null (v : Literal) : v.toJson ≠ .null := by
  cases v <;> exact fun h => Json.noConfusion h

theorem Literal.proper_toJson {v : Literal} (h : v.Storable) : v.toJson.Proper := by
  cases v with
  | float d =>
    rw [toJson, Json.Proper, Json.properFields_iff]
    have hnumeral : (Json.double d).Proper := by
      rw [Json.double, Json.Proper]
      exact Json.isNumeral_render _ h
    simp [hnumeral]
  | _ =>
    rw [toJson, Json.Proper, Json.properFields_iff]
    simp

/-- The five types of constants are told apart by the type beside the value. -/
theorem Literal.reader_toJson {v : Literal} (h : v.Storable) : Literal.reader [v.toJson] = some v := by
  have hread : ∀ (type : String) (values : List Json),
      Literal.ofParts? type values.getLast? = some v →
      Literal.ofJson? (.object (fieldsOf [("type", [.text type]), ("value", values)])) = some v := by
    intro type values hparts
    refine Eq.trans (record_fieldsOf false rfl (by decide)) ?_
    simp only [slotValues_head, slotValues_tail, ne_eq, String.reduceEq, not_false_eq_true]
    exact hparts
  have hobject : ∀ fields, Literal.reader [.object fields] = Literal.ofJson? (.object fields) := by
    intro fields
    show (Literal.ofJson? (.object fields)).bind some = _
    cases Literal.ofJson? (.object fields) <;> rfl
  cases v with
  | int i =>
    refine (hobject _).trans (hread "int" [.int i] ?_)
    show (Reader.int [.int i]).map Literal.int = _
    rw [int_int h]
    rfl
  | float d =>
    refine (hobject _).trans (hread "float" [.double d] ?_)
    show (Json.doubleOfNumeral? (d.render Json.doubleStyle)).map Literal.float = _
    rw [Json.doubleOfNumeral?_render _ h]
    rfl
  | text s => exact (hobject _).trans (hread "string" [.text s] rfl)
  | bool b => exact (hobject _).trans (hread "bool" [.bool b] rfl)
  | unit => exact (hobject _).trans (hread "unit" [] rfl)

/-! ### Plans -/

theorem PlanNode.toJsonList_eq (ns : List PlanNode) : toJsonList ns = ns.map toJson := by
  induction ns with
  | nil => rfl
  | cons n ns ih => rw [toJsonList, ih, List.map_cons]

/-- The values that a node gives to its keys. -/
def PlanNode.slots (n : PlanNode) : List (String × List Json) :=
  [("label", [.text n.label]), ("miss_on_none", [.bool n.missOnNone]),
    ("always_matches", [.bool n.alwaysMatches]), ("children", listValues (n.children.map toJson))]

theorem PlanNode.toJson_eq (n : PlanNode) : n.toJson = .object (fieldsOf n.slots) := by
  cases n
  rw [toJson, toJsonList_eq, listField_eq]
  simp [fieldsOf, slots]

theorem PlanNode.children_induction {P : PlanNode → Prop}
    (h : ∀ n : PlanNode, (∀ c ∈ n.children, P c) → P n) : ∀ n, P n := by
  intro n
  induction hs : sizeOf n using Nat.strongRecOn generalizing n with
  | ind k ih =>
    subst hs
    refine h n fun c hc => ih _ ?_ c rfl
    have hlt := List.sizeOf_lt_of_mem hc
    cases n
    simp only [PlanNode.mk.sizeOf_spec] at hlt ⊢
    omega

theorem PlanNode.proper_toJson (n : PlanNode) : n.toJson.Proper := by
  induction n using PlanNode.children_induction with
  | h n ih =>
    rw [toJson_eq, proper_fieldsOf]
    simpa [slots, properItems_map] using ih

theorem PlanNode.recovers (strict : Bool) (n : PlanNode) :
    Recovers (PlanNode.reader strict) toJson n := by
  refine ⟨n.proper_toJson, ?_⟩
  induction n using PlanNode.children_induction with
  | h n ih =>
    intro room hroom
    rw [toJson_eq] at hroom ⊢
    cases room with
    | zero => exact absurd hroom (Nat.not_succ_le_zero _)
    | succ room =>
      have hchildren : ∀ c ∈ n.children, PlanNode.reader strict room [c.toJson] = some c := by
        intro c hc
        have hdepth : c.toJson.depth < (Json.object (fieldsOf n.slots)).depth :=
          depth_lt_items "children" (by simp [slots]) (List.mem_map_of_mem hc)
        exact ih c hc room (by omega)
      refine Eq.trans (record_fieldsOf strict rfl (by decide)) ?_
      simp only [slots, slotValues_head, slotValues_tail, ne_eq, String.reduceEq, not_false_eq_true]
      rw [text_text, flag_bool, flag_bool, list_listValues hchildren]
      cases n
      rfl

/-- The values that an arm of a plan gives to its keys. -/
def PlanArm.slots (a : PlanArm) : List (String × List Json) :=
  [("pattern", [a.node.toJson]), ("has_guard", [.bool a.hasGuard]), ("alias", textValues a.asName)]

theorem PlanArm.toJson_eq (a : PlanArm) : a.toJson = .object (fieldsOf a.slots) := by
  rw [toJson, textField_eq]
  simp [fieldsOf, slots]

theorem PlanArm.recovers (strict : Bool) (a : PlanArm) :
    Recovers (PlanArm.reader strict) toJson a := by
  constructor
  · rw [toJson_eq, proper_fieldsOf]
    simp [slots, a.node.proper_toJson]
  · intro room hroom
    rw [toJson_eq] at hroom ⊢
    have hnode : PlanNode.reader strict room [a.node.toJson] = some a.node :=
      (a.node.recovers strict).reads room (depth_le_of_slot hroom "pattern" (by simp [slots]))
    refine Eq.trans (record_fieldsOf strict rfl (by decide)) ?_
    simp only [slots, slotValues_head, slotValues_tail, ne_eq, String.reduceEq, not_false_eq_true]
    rw [hnode, flag_bool, text_textValues]
    rfl

/-- A plan whose numbers fit a word. -/
structure Plan.Storable (p : Plan) : Prop where
  span : p.span.Storable
  armCount : fitsInt64 p.armCount = true

/-- The values that a plan gives to its keys. -/
def Plan.slots (p : Plan) : List (String × List Json) :=
  [("owner", [.text p.owner]), ("span", [p.span.toJson]), ("target_type", [.text p.targetType]),
    ("arm_count", [.int p.armCount]), ("arms", [Json.listed PlanArm.toJson p.arms])]

/-- **Plans are read back.** -/
theorem Plan.recovers (strict : Bool) {p : Plan} (h : p.Storable) :
    Recovers (Plan.reader strict) toJson p := by
  have hslots : p.toJson = .object (fieldsOf p.slots) := rfl
  constructor
  · have harms : (Json.listed PlanArm.toJson p.arms).Proper :=
      proper_listed.mpr fun _ _ a _ => (a.recovers strict).proper
    rw [hslots, proper_fieldsOf]
    simp [slots, p.span.proper_toJson, harms]
  · intro room hroom
    rw [hslots] at hroom ⊢
    have harms : listed (PlanArm.reader strict room) [Json.listed PlanArm.toJson p.arms]
        = some p.arms :=
      Recovers.listed (fun _ _ a _ => a.recovers strict)
        (depth_le_of_slot hroom "arms" (by simp [slots]))
    refine Eq.trans (record_fieldsOf strict rfl (by decide)) ?_
    simp only [slots, slotValues_head, slotValues_tail, ne_eq, String.reduceEq, not_false_eq_true]
    rw [text_text, Span.reader_toJson h.span, text_text, int_int h.armCount, harms]
    rfl

/-! How deep the documents of plans nest. -/

/-- Nodes below nodes, down to a number of levels. -/
def PlanNode.Chain : Nat → PlanNode → Prop
  | 0, _ => True
  | k + 1, n => ∃ c ∈ n.children, Chain k c

/-- Each level below a node takes two levels of its document. -/
theorem PlanNode.depth_of_chain {k : Nat} {n : PlanNode} (h : n.Chain k) :
    2 * k + 1 ≤ n.toJson.depth := by
  induction k generalizing n with
  | zero =>
    rw [toJson_eq, Json.depth.eq_2]
    omega
  | succ k ih =>
    obtain ⟨c, hc, hchain⟩ := h
    have hchild := ih hchain
    have hbelow : c.toJson.depth + 1 < n.toJson.depth := by
      rw [toJson_eq n]
      exact succ_depth_lt_items "children" (by simp [slots]) (List.mem_map_of_mem hc)
    omega

/-- The document of a plan nests deeper than the documents of its arms' nodes. -/
theorem Plan.depth_of_chain {p : Plan} {k : Nat} {a : PlanArm} (ha : a ∈ p.armList)
    (h : a.node.Chain k) : 2 * k + 1 < p.toJson.depth := by
  have hnode := PlanNode.depth_of_chain h
  have harm : a.node.toJson.depth < a.toJson.depth := by
    rw [PlanArm.toJson_eq]
    exact depth_lt_fieldsOf (s := ("pattern", [a.node.toJson])) (by simp [PlanArm.slots])
      (List.mem_singleton_self _)
  have hplan : a.toJson.depth + 1 < p.toJson.depth := by
    rw [show p.toJson = .object (fieldsOf p.slots) from rfl]
    exact succ_depth_lt_listed "arms" (by simp [slots]) ha
  omega

/-! ### Patterns -/

namespace Lowered

namespace Pattern

/-- The patterns directly inside a pattern. -/
def parts (p : Pattern) : List Pattern :=
  p.elements.filterMap id ++ p.fields.filterMap (·.2) ++ p.args.filterMap id ++ p.inner.toList
    ++ p.variants.filterMap id ++ p.head.filterMap id ++ p.tail.filterMap id ++ p.start.toList
    ++ p.stop.toList ++ (p.call.bind Call.argument).toList

variable {p q : Pattern}

theorem mem_parts_field {f : String × Option Pattern} (hf : f ∈ p.fields) (hq : q ∈ f.2) :
    q ∈ p.parts := by
  have hmem : q ∈ p.fields.filterMap (·.2) := List.mem_filterMap.mpr ⟨f, hf, hq⟩
  simp only [parts, List.mem_append]
  tauto

theorem mem_parts_call {c : Call Pattern} (hc : c ∈ p.call) (hq : q ∈ c.argument) :
    q ∈ p.parts := by
  have hmem : q ∈ (p.call.bind Call.argument).toList :=
    Option.mem_toList.mpr (Option.mem_bind_iff.mpr ⟨c, hc, hq⟩)
  simp only [parts, List.mem_append]
  tauto

/-- What is written for a pattern that may be missing. -/
def itemJson (p : Option Pattern) : Json := (p.map toJson).getD .null

/-- What is written for a field. -/
def fieldJson (f : String × Option Pattern) : Json :=
  .object (fieldsOf [("key", [.text f.1]), ("value", (f.2.map toJson).toList)])

/-- What is written for what a rest marker binds. -/
def restJson (name : String) : Json := .object (Json.textField "binding" name)

/-- The values that a call gives to its keys. -/
def callSlots (c : Call Pattern) : List (String × List Json) :=
  [("name", [.text c.name]), ("kind", [.text c.kind.name]), ("argument", (c.argument.map toJson).toList),
    ("input_binding", textValues c.inputBinding),
    ("miss_target", (c.missTarget.map fun j => Json.text j.name).toList)]

/-- What is written for a call. -/
def callJson (c : Call Pattern) : Json := .object (fieldsOf (callSlots c))

/-- What the shared key holds. -/
def sharedValues (form : PatternForm) (inner : Option Pattern) (regex : String) : List Json :=
  match form with
  | .binding => (inner.map toJson).toList
  | .regex => [.text regex]
  | _ => []

/-- The values that a pattern gives to its keys. -/
def slots (p : Pattern) : List (String × List Json) :=
  [("kind", [.text p.form.name]), ("span", [p.span.toJson]), ("ty", textValues p.ty),
    ("name", textValues p.name), ("literal", (p.literal.map Literal.toJson).toList),
    ("elements", listValues (p.elements.map itemJson)), ("fields", listValues (p.fields.map fieldJson)),
    ("has_rest", flagValues p.hasRest), ("args", listValues (p.args.map itemJson)),
    ("via_at", flagValues p.viaAt), ("variants", listValues (p.variants.map itemJson)),
    ("head", listValues (p.head.map itemJson)), ("rest", (p.rest.map restJson).toList),
    ("tail", listValues (p.tail.map itemJson)), ("start", (p.start.map toJson).toList),
    ("end", (p.stop.map toJson).toList), ("inclusive", flagValues p.inclusive),
    ("call", (p.call.map callJson).toList), (sharedKey, sharedValues p.form p.inner p.regex)]

theorem toJson?_eq (p : Option Pattern) : toJson? p = p.map toJson := by
  cases p <;> rfl

theorem toJsonList_eq (ps : List (Option Pattern)) : toJsonList ps = ps.map itemJson := by
  induction ps with
  | nil => rfl
  | cons p ps ih => rw [toJsonList, ih, toJson?_eq, List.map_cons, itemJson]

theorem toJsonFields_eq (fs : List (String × Option Pattern)) :
    toJsonFields fs = fs.map fieldJson := by
  induction fs with
  | nil => rfl
  | cons f fs ih =>
    rw [toJsonFields, ih, toJson?_eq, optionField_eq, List.map_cons, fieldJson]
    simp [fieldsOf]

theorem callToJson?_eq (c : Option (Call Pattern)) : callToJson? c = c.map callJson := by
  cases c with
  | none => rfl
  | some c =>
    cases c
    rw [callToJson?, toJson?_eq, optionField_eq, textField_eq, optionField_eq, Option.map_some,
      callJson, callSlots]
    simp [fieldsOf]

theorem sharedField_eq (form : PatternForm) (inner : Option Pattern) (regex : String) :
    sharedField form (inner.map toJson) regex
      = (sharedValues form inner regex).map fun j => (sharedKey, j) := by
  cases form with
  | binding => exact optionField_eq _ _
  | _ => rfl

theorem toJson_eq (p : Pattern) : p.toJson = .object (fieldsOf p.slots) := by
  have hrest : (fun n => Json.object (Json.textField "binding" n)) = restJson := rfl
  cases p
  simp only [toJson, toJson?_eq, toJsonList_eq, toJsonFields_eq, callToJson?_eq, sharedField_eq, hrest,
    fieldsOf, slots, List.flatMap_cons, List.flatMap_nil, List.map_cons, List.map_nil,
    List.append_nil, List.append_assoc, List.cons_append, List.nil_append]
  simp only [textField_eq, listField_eq, optionField_eq, flagField_eq]

theorem toJson_ne_null (p : Pattern) : p.toJson ≠ .null := by
  rw [toJson_eq]
  exact fun h => Json.noConfusion h

/-- What has to hold of a pattern, besides the patterns inside it, to be read back: its form has a
tag of its own, the shared key is used as the form says, and numbers fit their words. -/
structure Plain (p : Pattern) : Prop where
  form : PatternForm.ofName p.form.name = p.form
  inner : p.form ≠ .binding → p.inner = none
  regex : p.form ≠ .regex → p.regex = ""
  span : p.span.Storable
  literal : ∀ v ∈ p.literal, v.Storable

/-- Patterns that are plain all the way down. -/
inductive Regular : Pattern → Prop
  | mk {p : Pattern} (plain : p.Plain) (parts : ∀ q ∈ p.parts, Regular q) : Regular p

section Build

variable {inner : Reader Pattern}

theorem option_itemJson {p : Option Pattern} (h : ∀ q ∈ p, inner [q.toJson] = some q) :
    option inner [itemJson p] = some p :=
  option_null toJson_ne_null h

theorem list_itemJson {ps : List (Option Pattern)}
    (h : ∀ q ∈ ps.filterMap id, inner [q.toJson] = some q) :
    list (option inner) (listValues (ps.map itemJson)) = some ps := by
  refine list_listValues fun p hp => option_itemJson fun q hq => h q ?_
  exact List.mem_filterMap.mpr ⟨p, hp, hq⟩

theorem fieldReader_fieldJson {f : String × Option Pattern}
    (h : ∀ q ∈ f.2, inner [q.toJson] = some q) : fieldReader inner [fieldJson f] = some f := by
  refine Eq.trans (record_fieldsOf false rfl (by decide)) ?_
  simp only [slotValues_head, slotValues_tail, ne_eq, String.reduceEq, not_false_eq_true]
  rw [text_text, option_toList toJson_ne_null h]
  rfl

theorem restJson_eq (name : String) :
    restJson name = .object (fieldsOf [("binding", textValues name)]) := by
  rw [restJson, textField_eq]
  simp [fieldsOf]

theorem reader_restJson (name : String) :
    record false ["binding"] (fun values => text (values "binding")) [restJson name] = some name := by
  rw [restJson_eq]
  refine Eq.trans (record_fieldsOf false rfl (by decide)) ?_
  rw [slotValues_head, text_textValues]

theorem reader_callJson {c : Call Pattern} (h : ∀ q ∈ c.argument, inner [q.toJson] = some q) :
    Call.reader inner [callJson c] = some c := by
  have hkind : RecognizerKind.ofName? c.kind.name = some c.kind := by cases c.kind <;> rfl
  have hmiss : option (named JumpTarget.ofName? .nextArm)
      (c.missTarget.map fun j => Json.text j.name).toList = some c.missTarget := by
    refine option_toList (fun j h => Json.noConfusion h) fun j _ => named_text ?_ _
    cases j
    rfl
  refine Eq.trans (record_fieldsOf false rfl (by decide)) ?_
  simp only [callSlots, slotValues_head, slotValues_tail, ne_eq, String.reduceEq, not_false_eq_true]
  rw [text_text, named_text hkind, option_toList toJson_ne_null h, text_textValues, hmiss]
  rfl

/-- What the fields of a plain pattern are read as, the shared key apart. -/
theorem build_slots {p : Pattern} (h : p.Plain) (hparts : ∀ q ∈ p.parts, inner [q.toJson] = some q) :
    build inner (slotValues p.slots) = some { p with inner := none, regex := "" } := by
  have hsome : ∀ {o : Option Pattern}, (∀ q ∈ o, q ∈ p.parts) →
      option inner (o.map toJson).toList = some o :=
    fun ho => option_toList toJson_ne_null fun q hq => hparts q (ho q hq)
  have hall : ∀ {ps : List (Option Pattern)}, (∀ q ∈ ps.filterMap id, q ∈ p.parts) →
      list (option inner) (listValues (ps.map itemJson)) = some ps :=
    fun hps => list_itemJson fun q hq => hparts q (hps q hq)
  have hfields : list (fieldReader inner) (listValues (p.fields.map fieldJson)) = some p.fields := by
    refine list_listValues fun f hf => fieldReader_fieldJson fun q hq => hparts q ?_
    exact mem_parts_field hf hq
  have hcall : option (Call.reader inner) (p.call.map callJson).toList = some p.call := by
    refine option_toList (fun c h => Json.noConfusion h) fun c hc =>
      reader_callJson fun q hq => hparts q ?_
    exact mem_parts_call hc hq
  have hliteral : option Literal.reader (p.literal.map Literal.toJson).toList = some p.literal :=
    option_toList Literal.toJson_ne_null fun v hv => Literal.reader_toJson (h.literal v hv)
  have hrest : option (record false ["binding"] fun values => text (values "binding"))
      (p.rest.map restJson).toList = some p.rest :=
    option_toList (fun c h => Json.noConfusion h) fun n _ => reader_restJson n
  simp only [build, slots, slotValues_head, slotValues_tail, ne_eq, String.reduceEq,
    not_false_eq_true]
  rw [text_text, Span.reader_toJson h.span, text_textValues, text_textValues, hliteral,
    hall fun q hq => ?_, hfields, flag_flagValues, hall fun q hq => ?_, flag_flagValues,
    hall fun q hq => ?_, hall fun q hq => ?_, hrest, hall fun q hq => ?_, hsome fun q hq => ?_,
    hsome fun q hq => ?_, flag_flagValues, hcall]
  · simp only [Option.bind_eq_bind, Option.bind_some, h.form]
    cases p
    rfl
  all_goals
    simp only [parts, List.mem_append, Option.mem_toList]
    tauto

theorem valuesOf_slots (p : Pattern) : valuesOf (fieldsOf p.slots) = slotValues p.slots :=
  valuesOf_fieldsOf (show (p.slots.map (·.1)).Nodup from (by decide : Pattern.keys.Nodup))

/-- What the shared key of a plain pattern is read as. -/
theorem step_slots {p : Pattern} (h : p.Plain) (hparts : ∀ q ∈ p.parts, inner [q.toJson] = some q) :
    Shared.step inner {} (fieldsOf p.slots) = some ⟨p.form.name, p.inner, p.regex⟩ := by
  have hkind : text (.text "" :: valuesOf (fieldsOf p.slots) "kind") = some p.form.name := by
    rw [valuesOf_slots, slots, slotValues_head]
    rfl
  have hshared : valuesOf (fieldsOf p.slots) sharedKey = sharedValues p.form p.inner p.regex := by
    rw [valuesOf_slots]
    simp only [slots, sharedKey, slotValues_head, slotValues_tail, ne_eq, String.reduceEq,
      not_false_eq_true]
  have hinner : p.form ≠ .binding → p.inner = none := h.inner
  have hregex : p.form ≠ .regex → p.regex = "" := h.regex
  rw [Shared.step, hkind, hshared, Option.bind_eq_bind, Option.bind_some]
  dsimp only
  rw [h.form]
  cases hp : p.form with
  | binding =>
    rw [hregex (by rw [hp]; decide)]
    cases hq : p.inner with
    | none => rfl
    | some q =>
      show (inner [q.toJson]).map _ = _
      rw [hparts q (by simp [parts, hq])]
      rfl
  | regex =>
    rw [hinner (by rw [hp]; decide)]
    rfl
  | _ =>
    rw [hinner (by rw [hp]; exact fun h => PatternForm.noConfusion h),
      hregex (by rw [hp]; exact fun h => PatternForm.noConfusion h)]
    rfl

end Build

/-- A plain pattern is read back if the patterns inside it are. -/
theorem reader_slots {p : Pattern} (h : p.Plain) {room : Nat}
    (hparts : ∀ q ∈ p.parts, reader room [q.toJson] = some q) :
    reader (room + 1) [p.toJson] = some p := by
  have hobjects : objects false Pattern.keys [.object (fieldsOf p.slots)] = some [fieldsOf p.slots] :=
    objects_fieldsOf false rfl
  rw [toJson_eq, reader]
  dsimp only
  rw [hobjects, Option.bind_eq_bind, Option.bind_some, List.flatten_singleton, valuesOf_slots,
    build_slots h hparts, Option.bind_eq_bind, Option.bind_some, List.foldlM_cons,
    step_slots h hparts]
  cases p
  rfl

/-- The patterns inside a pattern nest less deep. -/
theorem depth_lt_of_mem_parts {p : Pattern} (h : p.Plain) {q : Pattern} (hq : q ∈ p.parts) :
    q.toJson.depth < p.toJson.depth := by
  rw [toJson_eq p]
  have hitems : ∀ (key : String) {ps : List (Option Pattern)},
      (key, listValues (ps.map itemJson)) ∈ p.slots → q ∈ ps.filterMap id →
      q.toJson.depth < (Json.object (fieldsOf p.slots)).depth := by
    intro key ps hkey hmem
    obtain ⟨o, ho, hid⟩ := List.mem_filterMap.mp hmem
    obtain rfl : o = some q := hid
    exact depth_lt_items key hkey (List.mem_map_of_mem ho)
  have hsome : ∀ (key : String) {o : Option Pattern}, (key, (o.map toJson).toList) ∈ p.slots →
      q ∈ o.toList → q.toJson.depth < (Json.object (fieldsOf p.slots)).depth := by
    intro key o hkey hmem
    rw [Option.mem_toList] at hmem
    exact depth_lt_fieldsOf hkey (by rw [hmem]; exact List.mem_singleton_self _)
  simp only [parts, List.mem_append] at hq
  rcases hq with ((((((((hq | hq) | hq) | hq) | hq) | hq) | hq) | hq) | hq) | hq
  · exact hitems "elements" (by simp [slots]) hq
  · obtain ⟨f, hf, hvalue⟩ := List.mem_filterMap.mp hq
    have hinside : q.toJson.depth < (fieldJson f).depth :=
      depth_lt_fieldsOf (s := ("value", (f.2.map toJson).toList)) (by simp)
        (by rw [hvalue]; exact List.mem_singleton_self _)
    have hfield : (fieldJson f).depth < (Json.object (fieldsOf p.slots)).depth :=
      depth_lt_items "fields" (by simp [slots]) (List.mem_map_of_mem hf)
    omega
  · exact hitems "args" (by simp [slots]) hq
  · have hbinding : p.form = .binding := by
      by_contra hother
      rw [h.inner hother] at hq
      cases hq
    exact hsome sharedKey (by simp [slots, hbinding, sharedValues]) hq
  · exact hitems "variants" (by simp [slots]) hq
  · exact hitems "head" (by simp [slots]) hq
  · exact hitems "tail" (by simp [slots]) hq
  · exact hsome "start" (by simp [slots]) hq
  · exact hsome "end" (by simp [slots]) hq
  · rw [Option.mem_toList] at hq
    obtain ⟨c, hc, hargument⟩ := Option.bind_eq_some_iff.mp hq
    have hinside : q.toJson.depth < (callJson c).depth :=
      depth_lt_fieldsOf (s := ("argument", (c.argument.map toJson).toList)) (by simp [callSlots])
        (by rw [hargument]; exact List.mem_singleton_self _)
    have hcall : (callJson c).depth < (Json.object (fieldsOf p.slots)).depth :=
      depth_lt_fieldsOf (s := ("call", (p.call.map callJson).toList)) (by simp [slots])
        (by rw [hc]; exact List.mem_singleton_self _)
    omega

/-- The numbers of a plain pattern are numerals if those of the patterns inside it are. -/
theorem proper_slots {p : Pattern} (h : p.Plain) (hparts : ∀ q ∈ p.parts, q.toJson.Proper) :
    p.toJson.Proper := by
  have hsome : ∀ {o : Option Pattern}, (∀ q ∈ o, q ∈ p.parts) →
      Json.ProperItems (o.map toJson).toList :=
    fun ho => properItems_toList.mpr fun q hq => hparts q (ho q hq)
  have hitems : ∀ {ps : List (Option Pattern)}, (∀ q ∈ ps.filterMap id, q ∈ p.parts) →
      Json.ProperItems (ps.map itemJson) := by
    intro ps hps
    refine properItems_map.mpr fun o ho => ?_
    cases o with
    | none => exact proper_null
    | some q => exact hparts q (hps q (List.mem_filterMap.mpr ⟨some q, ho, rfl⟩))
  have hfields : Json.ProperItems (p.fields.map fieldJson) := by
    refine properItems_map.mpr fun f hf => proper_fieldsOf.mpr ?_
    have hvalue : Json.ProperItems (f.2.map toJson).toList :=
      hsome fun q hq => mem_parts_field hf hq
    simp [hvalue]
  have hcall : Json.ProperItems (p.call.map callJson).toList := by
    refine properItems_toList.mpr fun c hc => proper_fieldsOf.mpr ?_
    have hargument : Json.ProperItems (c.argument.map toJson).toList :=
      hsome fun q hq => mem_parts_call hc hq
    have hmiss : Json.ProperItems (c.missTarget.map fun j => Json.text j.name).toList :=
      properItems_toList.mpr fun j _ => proper_text _
    simp [callSlots, hargument, hmiss]
  have hliteral : Json.ProperItems (p.literal.map Literal.toJson).toList :=
    properItems_toList.mpr fun v hv => Literal.proper_toJson (h.literal v hv)
  have hrest : Json.ProperItems (p.rest.map restJson).toList := by
    refine properItems_toList.mpr fun n _ => ?_
    rw [restJson_eq, proper_fieldsOf]
    simp
  have hshared : Json.ProperItems (sharedValues p.form p.inner p.regex) := by
    cases p.form with
    | binding => exact hsome fun q hq => by simp [parts, Option.mem_def.mp hq]
    | regex => exact properItems_cons.mpr ⟨proper_text _, properItems_nil⟩
    | _ => exact properItems_nil
  rw [toJson_eq, proper_fieldsOf]
  simp only [slots, List.forall_mem_cons, properItems_cons, properItems_nil, proper_text,
    properItems_textValues, properItems_flagValues, properItems_listValues, p.span.proper_toJson,
    hliteral, hfields, hcall, hrest, hshared, List.not_mem_nil, false_imp_iff, implies_true, true_and,
    and_true]
  refine ⟨hitems fun q hq => ?_, hitems fun q hq => ?_, hitems fun q hq => ?_, hitems fun q hq => ?_,
    hitems fun q hq => ?_, hsome fun q hq => ?_, hsome fun q hq => ?_⟩
  all_goals
    simp only [parts, List.mem_append, Option.mem_toList]
    tauto

/-- **Regular patterns are read back.** -/
theorem recovers {p : Pattern} (h : p.Regular) : Recovers reader toJson p := by
  induction h with
  | @mk p plain _ ih =>
    refine ⟨proper_slots plain fun q hq => (ih q hq).proper, fun room hroom => ?_⟩
    cases room with
    | zero =>
      rw [toJson_eq] at hroom
      exact absurd hroom (Nat.not_succ_le_zero _)
    | succ room =>
      refine reader_slots plain fun q hq => (ih q hq).reads room ?_
      have hdepth := depth_lt_of_mem_parts plain hq
      omega

end Pattern

end Lowered

end PatternPlan
