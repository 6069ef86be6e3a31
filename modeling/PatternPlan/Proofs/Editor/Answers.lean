import Mathlib
import PatternPlan.Proofs.Editor.Documents
import PatternPlan.Proofs.Json.Numeral

/-!
# Answers to an editor

A message with an id wants an answer, and an answer carries the id of what it answers.  The id goes
back as the server read it: as a plain value, with numbers as doubles.

* `Json.plain?_idem` — a plain value is its own plain value, so that whoever reads numbers as doubles
  finds the id it sent;
* `Server.answers_request` — **a method that takes parameters is answered exactly if it can read
  them**, every other method always;
* `Server.answers_notification?` — **nothing without an id is answered**;
* `requests_answered` — both, for each message of a session;
* `requests_unanswered`, `hover_unanswered` — a message whose parameters cannot be read gets no
  answer at all, though it has an id.
-/

namespace PatternPlan

/-! ### Plain values -/

namespace Json

/-- Removing repetitions leaves none. -/
theorem nodup_eraseDups (ks : List String) : ks.eraseDups.Nodup := by
  induction h : ks.length using Nat.strong_induction_on generalizing ks with
  | _ n ih =>
    cases ks with
    | nil => exact List.nodup_nil
    | cons k ks =>
      rw [List.eraseDups_cons]
      have hlt : (ks.filter fun b => !b == k).length < n :=
        h ▸ Nat.lt_succ_of_le (List.length_filter_le _ _)
      refine List.nodup_cons.mpr ⟨fun hmem => ?_, ih _ hlt _ rfl⟩
      simpa using (List.mem_filter.mp (List.mem_eraseDups.mp hmem)).2

/-- Where there are no repetitions none is removed. -/
theorem eraseDups_of_nodup {ks : List String} (h : ks.Nodup) : ks.eraseDups = ks := by
  induction ks with
  | nil => rfl
  | cons k ks ih =>
    obtain ⟨hk, hks⟩ := List.nodup_cons.mp h
    have hkeep : (ks.filter fun b => !b == k) = ks := List.filter_eq_self.mpr fun b hb => by
      simpa using fun heq : b = k => hk (heq ▸ hb)
    rw [List.eraseDups_cons, hkeep, ih hks]

/-- The keys of an object in order. -/
def orderedKeys (fields : List (String × Json)) : List String :=
  (fields.map (·.1)).eraseDups.mergeSort fun a b => a ≤ b

theorem mem_orderedKeys {fields : List (String × Json)} {k : String} :
    k ∈ orderedKeys fields ↔ ∃ v, (k, v) ∈ fields := by
  rw [orderedKeys, List.mem_mergeSort, List.mem_eraseDups]
  simp

theorem nodup_orderedKeys (fields : List (String × Json)) : (orderedKeys fields).Nodup :=
  (List.mergeSort_perm _ _).nodup_iff.mpr (nodup_eraseDups _)

theorem pairwise_orderedKeys (fields : List (String × Json)) :
    (orderedKeys fields).Pairwise fun a b => decide (a ≤ b) = true := by
  refine List.pairwise_mergeSort (fun a b c hab hbc => ?_) (fun a b => ?_) _
  · exact decide_eq_true (String.le_trans (of_decide_eq_true hab) (of_decide_eq_true hbc))
  · simpa using String.le_total a b

/-- The field that is kept of a key. -/
def lastField? (fields : List (String × Json)) (k : String) : Option (String × Json) :=
  (fields.reverse.find? fun f => f.1 = k).map fun f => (k, f.2)

theorem orderedFields_eq (fields : List (String × Json)) :
    orderedFields fields = (orderedKeys fields).filterMap (lastField? fields) := rfl

theorem lastField?_mem {fields : List (String × Json)} {k : String} {f : String × Json}
    (h : lastField? fields k = some f) : f ∈ fields ∧ f.1 = k := by
  obtain ⟨g, hg, rfl⟩ := Option.map_eq_some_iff.mp h
  have hkey : g.1 = k := by simpa using List.find?_some hg
  exact ⟨by simpa [← hkey] using List.mem_of_find?_eq_some hg, rfl⟩

theorem mem_orderedFields {fields : List (String × Json)} {f : String × Json}
    (h : f ∈ orderedFields fields) : f ∈ fields := by
  obtain ⟨k, -, hk⟩ := List.mem_filterMap.mp h
  exact (lastField?_mem hk).1

/-- Each key keeps one field. -/
theorem map_orderedFields (fields : List (String × Json)) :
    (orderedFields fields).map (·.1) = orderedKeys fields := by
  have hkey : ∀ k ∈ orderedKeys fields, (lastField? fields k).map (·.1) = some k := by
    intro k hk
    obtain ⟨v, hv⟩ := mem_orderedKeys.mp hk
    have hsome : (fields.reverse.find? fun f => f.1 = k).isSome :=
      List.find?_isSome.mpr ⟨(k, v), List.mem_reverse.mpr hv, decide_eq_true rfl⟩
    obtain ⟨f, hf⟩ := Option.isSome_iff_exists.mp hsome
    rw [lastField?, hf]
    rfl
  rw [orderedFields_eq, List.map_filterMap, List.filterMap_congr hkey, List.filterMap_some]

/-- A field is the one kept of its key if it is the only one. -/
theorem lastField?_of_mem {fields : List (String × Json)} (h : (fields.map (·.1)).Nodup)
    {f : String × Json} (hf : f ∈ fields) : lastField? fields f.1 = some f := by
  have hsome : (fields.reverse.find? fun g => g.1 = f.1).isSome :=
    List.find?_isSome.mpr ⟨f, List.mem_reverse.mpr hf, decide_eq_true rfl⟩
  obtain ⟨g, hg⟩ := Option.isSome_iff_exists.mp hsome
  have hkey : g.1 = f.1 := by simpa using List.find?_some hg
  have hmem : g ∈ fields := List.mem_reverse.mp (List.mem_of_find?_eq_some hg)
  rw [lastField?, hg, List.inj_on_of_nodup_map h hmem hf hkey]
  rfl

/-- Ordered fields are in order. -/
theorem orderedFields_idem (fields : List (String × Json)) :
    orderedFields (orderedFields fields) = orderedFields fields := by
  have hnodup : ((orderedFields fields).map (·.1)).Nodup :=
    map_orderedFields fields ▸ nodup_orderedKeys fields
  have hkeys : orderedKeys (orderedFields fields) = (orderedFields fields).map (·.1) := by
    rw [orderedKeys, eraseDups_of_nodup hnodup, map_orderedFields,
      List.mergeSort_of_pairwise (pairwise_orderedKeys fields)]
  rw [orderedFields_eq (orderedFields fields), hkeys, List.filterMap_map]
  have hself : ∀ f ∈ orderedFields fields,
      (lastField? (orderedFields fields) ∘ (·.1)) f = some f :=
    fun f hf => lastField?_of_mem hnodup hf
  rw [List.filterMap_congr hself, List.filterMap_some]

theorem canonical_doubleOfNumeral? {n : String} {d : Double} (h : doubleOfNumeral? n = some d) :
    d.Canonical := Double.canonical_ofDecimal h

theorem plainItems?_self {vs : List Json} (h : ∀ v ∈ vs, plain? v = some v) :
    plainItems? vs = some vs := by
  induction vs with
  | nil => rfl
  | cons v vs ih =>
    obtain ⟨hv, hvs⟩ := List.forall_mem_cons.mp h
    rw [plainItems?, hv, ih hvs]
    rfl

theorem plainFields?_self {fs : List (String × Json)} (h : ∀ f ∈ fs, plain? f.2 = some f.2) :
    plainFields? fs = some fs := by
  induction fs with
  | nil => rfl
  | cons f fs ih =>
    obtain ⟨hf, hfs⟩ := List.forall_mem_cons.mp h
    obtain ⟨k, v⟩ := f
    rw [plainFields?, hf, ih hfs]
    rfl

mutual

/-- **What is plain stays as it is.** -/
theorem plain?_idem : ∀ {v w : Json}, plain? v = some w → plain? w = some w
  | .null, _, h => by cases h; rfl
  | .bool _, _, h => by cases h; rfl
  | .text _, _, h => by cases h; rfl
  | .number n, w, h => by
    obtain ⟨d, hd, rfl⟩ := Option.map_eq_some_iff.mp h
    rw [double, plain?, doubleOfNumeral?_render _ (canonical_doubleOfNumeral? hd)]
    rfl
  | .array vs, w, h => by
    obtain ⟨ws, hws, rfl⟩ := Option.map_eq_some_iff.mp h
    rw [plain?, plainItems?_self (plainItems?_idem hws)]
    rfl
  | .object fs, w, h => by
    obtain ⟨gs, hgs, rfl⟩ := Option.map_eq_some_iff.mp h
    have hplain := plainFields?_idem hgs
    rw [plain?, plainFields?_self fun f hf => hplain f (mem_orderedFields hf), Option.map_some,
      orderedFields_idem]

theorem plainItems?_idem : ∀ {vs ws : List Json}, plainItems? vs = some ws →
    ∀ w ∈ ws, plain? w = some w
  | [], _, h => by cases h; exact List.forall_mem_nil _
  | v :: vs, _, h => by
    obtain ⟨w, hw, h⟩ := Option.bind_eq_some_iff.mp h
    obtain ⟨ws, hws, h⟩ := Option.bind_eq_some_iff.mp h
    cases h
    exact List.forall_mem_cons.mpr ⟨plain?_idem hw, plainItems?_idem hws⟩

theorem plainFields?_idem : ∀ {fs gs : List (String × Json)}, plainFields? fs = some gs →
    ∀ g ∈ gs, plain? g.2 = some g.2
  | [], _, h => by cases h; exact List.forall_mem_nil _
  | (k, v) :: fs, _, h => by
    obtain ⟨w, hw, h⟩ := Option.bind_eq_some_iff.mp h
    obtain ⟨gs, hgs, h⟩ := Option.bind_eq_some_iff.mp h
    cases h
    exact List.forall_mem_cons.mpr ⟨plain?_idem hw, plainFields?_idem hgs⟩

end

/-- One value stands for another one: read with numbers as doubles they are the same. -/
structure Echoes (sent v : Json) : Prop where
  plain : plain? v = some sent
  same : plain? sent = some sent

theorem Echoes.of_plain {sent v : Json} (h : plain? v = some sent) : sent.Echoes v :=
  ⟨h, plain?_idem h⟩

end Json

namespace Editor

open Reader

/-! ### What a message asks -/

/-- The names that every message may give a value to. -/
def Envelope.names : List String := ["jsonrpc", "id", "method"]

/-- The values that the fields of a message give to a name, oldest first. -/
def Envelope.values (fields : List (String × Json)) (name : String) : List Json :=
  fields.filterMap fun f => if nameOf? names f.1 = some name then some f.2 else none

/-- A message that wants an answer: an object with an id that is not `null`, and a method.  Of values
given more than once the last id counts, and the last method that is not `null`. -/
structure Request (body : List UInt8) (fields : List (String × Json)) (id : Json)
    (method : String) : Prop where
  read : Json.read? (Text.shown (Text.ofBytes body)) = some (.object fields)
  last : (Envelope.values fields "id").getLast? = some id
  ne_null : id ≠ .null
  named : text (Envelope.values fields "method") = some method

/-- Whether a method can read the parameters of a message, if it takes any. -/
def readsParams (method : String) (j : Json) : Bool :=
  match method with
  | "initialize" => (params? InitializeParams.reader j).isSome
  | "textDocument/hover" => (params? HoverParams.reader j).isSome
  | "textDocument/formatting" => (params? namedReader j).isSome
  | _ => true

/-- What a server understands of a message that wants an answer: the version is a text, no number of
the id is too large for a double, and the method can read its parameters. -/
structure Understood (fields : List (String × Json)) (method : String) : Prop where
  version : (text (Envelope.values fields "jsonrpc")).isSome
  plain : ∀ v ∈ Envelope.values fields "id", (Json.plain? v).isSome
  params : readsParams method (.object fields) = true

/-- The id of the message that a message answers; one without an id answers none. -/
def answered? : Json → Option Json
  | .object fields => fields.lookup "id"
  | _ => none

/-- The ids of the messages that are answered. -/
def Outcome.answers (r : Outcome) : List Json := r.sent.filterMap answered?

/-! ### Reading what every message has -/

theorem known_lenient (names : List String) (fields : List (String × Json)) :
    ∃ ks, known false names fields = some ks ∧ ∀ name, valuesOf ks name =
      fields.filterMap fun f => if nameOf? names f.1 = some name then some f.2 else none := by
  induction fields with
  | nil => exact ⟨[], rfl, fun name => rfl⟩
  | cons f fields ih =>
    obtain ⟨ks, hks, hvalues⟩ := ih
    obtain ⟨key, v⟩ := f
    cases hname : nameOf? names key with
    | none => exact ⟨ks, by simp [known, hname, hks], fun name => by simp [hvalues, hname]⟩
    | some n =>
      refine ⟨(n, v) :: ks, by simp [known, hname, hks], fun name => ?_⟩
      rw [valuesOf, List.filterMap_cons, List.filterMap_cons]
      by_cases hn : n = name <;> simp [hname, hn, ← hvalues, valuesOf]

theorem Envelope.ofJson?_object (fields : List (String × Json)) :
    ofJson? (.object fields) = (do
      let version ← text (values fields "jsonrpc")
      let id ← anyId none (values fields "id")
      let method ← text (values fields "method")
      return { version, id, method }) := by
  obtain ⟨ks, hks, hvalues⟩ := known_lenient names fields
  have hobjects : objects false names [.object fields] = some [ks] := by
    simp only [objects, hks]
    rfl
  show (objects false names [.object fields]).bind _ = _
  rw [hobjects]
  simp only [Option.bind_some, List.flatten_cons, List.flatten_nil, List.append_nil, hvalues]
  rfl

/-- An object is all that has the parts of a message. -/
theorem Envelope.exists_fields {j : Json} {m : Envelope} (h : ofJson? j = some m) {id : Json}
    (hid : m.id = some id) : ∃ fields, j = .object fields := by
  cases j with
  | object fields => exact ⟨fields, rfl⟩
  | null =>
    cases h
    cases hid
  | _ => cases h

theorem anyId_cons {kept : Option Json} {v : Json} {vs : List Json} (h : v ≠ .null) :
    anyId kept (v :: vs) = (Json.plain? v).bind fun w => anyId (some w) vs := by
  cases v with
  | null => exact absurd rfl h
  | _ => rfl

/-- The id that is kept: the last one, if all that are given are plain. -/
theorem anyId_eq_some {kept : Option Json} {v : Json} {vs : List Json} {sent : Json} :
    anyId kept (v :: vs) = some (some sent) ↔ (∀ u ∈ v :: vs, (Json.plain? u).isSome) ∧
      ∃ u, (v :: vs).getLast? = some u ∧ u ≠ .null ∧ Json.plain? u = some sent := by
  induction vs generalizing kept v with
  | nil =>
    by_cases hv : v = .null
    · simp [hv, anyId]
    · rw [anyId_cons hv]
      cases hplain : Json.plain? v <;> simp [anyId, hplain, hv]
  | cons w ws ih =>
    rw [List.forall_mem_cons, List.getLast?_cons_cons]
    by_cases hv : v = .null
    · rw [hv, anyId, ih]
      simp [Json.plain?]
    · rw [anyId_cons hv]
      cases hplain : Json.plain? v with
      | none => simp
      | some p => simp only [Option.bind_some, ih, Option.isSome_some, true_and]

/-- The id of a message is the last one, if the message is understood as far as the server reads it
first. -/
theorem Envelope.id_eq_some {fields : List (String × Json)} {sent : Json} {method : String} :
    (∃ m, ofJson? (.object fields) = some m ∧ m.id = some sent ∧ m.method = method) ↔
      (text (values fields "jsonrpc")).isSome ∧
      (∀ v ∈ values fields "id", (Json.plain? v).isSome) ∧
      (∃ id, (values fields "id").getLast? = some id ∧ id ≠ .null ∧ Json.plain? id = some sent) ∧
      text (values fields "method") = some method := by
  have hid : anyId none (values fields "id") = some (some sent) ↔
      (∀ v ∈ values fields "id", (Json.plain? v).isSome) ∧
      ∃ id, (values fields "id").getLast? = some id ∧ id ≠ .null ∧ Json.plain? id = some sent := by
    cases values fields "id" with
    | nil => simp [anyId]
    | cons v vs => exact anyId_eq_some
  rw [ofJson?_object, ← and_assoc (a := ∀ v ∈ _, _), ← hid]
  cases text (values fields "jsonrpc") with
  | none => simp
  | some version =>
    cases anyId none (values fields "id") with
    | none => simp
    | some id =>
      cases text (values fields "method") with
      | none => simp
      | some name => simp

/-! ### What one message leads to -/

/-- The id is read if all that are given are plain. -/
theorem anyId_isSome (kept : Option Json) {vs : List Json} :
    (anyId kept vs).isSome ↔ ∀ v ∈ vs, (Json.plain? v).isSome := by
  induction vs generalizing kept with
  | nil => simp [anyId]
  | cons v vs ih =>
    rw [List.forall_mem_cons]
    by_cases hv : v = .null
    · rw [hv, anyId, ih]
      simp [Json.plain?]
    · rw [anyId_cons hv]
      cases Json.plain? v with
      | none => simp
      | some p => simp only [Option.bind_some, ih, Option.isSome_some, true_and]

namespace Server

variable {s : Server}

/-- **A message with an id is answered once if its method can read its parameters**, and else not
at all. -/
theorem answers_request (s : Server) (id : Json) (method : String) (j : Json) :
    (s.request id method j).answers = if readsParams method j then [id] else [] := by
  unfold request readsParams
  split
  · cases params? InitializeParams.reader j <;> rfl
  · rfl
  · cases params? HoverParams.reader j <;> rfl
  · cases params? namedReader j <;> rfl
  · rw [if_pos]
    · rfl
    · split <;> simp_all

theorem answers_update? {uri content : String} {r : Outcome} (hr : s.update? uri content = some r) :
    r.answers = [] := by
  obtain ⟨d, -, rfl⟩ := Option.map_eq_some_iff.mp hr
  rfl

/-- **Nothing without an id is answered.** -/
theorem answers_notification? {method : String} {j : Json} {r : Outcome}
    (hr : s.notification? method j = some r) : r.answers = [] := by
  unfold notification? at hr
  split at hr
  · split at hr
    · cases hr
      rfl
    · exact answers_update? hr
  · split at hr
    · cases hr
      rfl
    · split at hr
      · cases hr
        rfl
      · split at hr
        · cases hr
          rfl
        · exact answers_update? hr
  · split at hr <;> cases hr <;> rfl
  · cases hr
    rfl

/-- A method that cannot read its parameters refuses the message. -/
theorem request_of_unread {id : Json} {method : String} {j : Json}
    (h : readsParams method j = false) : s.request id method j = s.refuse .malformed := by
  unfold readsParams at h
  unfold request
  split <;> simp_all

variable {body : List UInt8} {fields : List (String × Json)} {id : Json} {method : String}

/-- A message whose version is a text and whose id can go back is handled by its method. -/
theorem handle?_request (h : Request body fields id method)
    (hversion : (text (Envelope.values fields "jsonrpc")).isSome)
    (hplain : ∀ v ∈ Envelope.values fields "id", (Json.plain? v).isSome) :
    ∃ sent, sent.Echoes id ∧ s.handle? body = some (s.request sent method (.object fields)) := by
  obtain ⟨sent, hsent⟩ := Option.isSome_iff_exists.mp (hplain id (List.mem_of_getLast? h.last))
  obtain ⟨m, hm, hid, rfl⟩ := Envelope.id_eq_some.mpr
    ⟨hversion, hplain, ⟨id, h.last, h.ne_null, hsent⟩, h.named⟩
  exact ⟨sent, .of_plain hsent, by simp only [handle?, h.read, hm, hid]⟩

/-- **A message with an id that is not understood is refused**, and nothing is sent. -/
theorem handle?_of_not_understood (h : Request body fields id method)
    (hnot : ¬ Understood fields method) : s.handle? body = some (s.refuse .malformed) := by
  by_cases hread : (text (Envelope.values fields "jsonrpc")).isSome ∧
      ∀ v ∈ Envelope.values fields "id", (Json.plain? v).isSome
  · obtain ⟨sent, -, hhandle⟩ := handle?_request (s := s) h hread.1 hread.2
    have hunread : readsParams method (.object fields) = false :=
      Bool.eq_false_iff.mpr fun hparams => hnot ⟨hread.1, hread.2, hparams⟩
    rw [hhandle, request_of_unread hunread]
  · have henvelope : Envelope.ofJson? (.object fields) = none := by
      rw [← anyId_isSome none] at hread
      rw [Envelope.ofJson?_object]
      cases hversion : text (Envelope.values fields "jsonrpc") with
      | none => rfl
      | some version =>
        cases hid : anyId none (Envelope.values fields "id") with
        | none => rfl
        | some id => exact absurd ⟨by rw [hversion]; rfl, by rw [hid]; rfl⟩ hread
    simp only [handle?, h.read, henvelope]

/-- A message with an id that is understood is answered once. -/
theorem handle?_of_understood (h : Request body fields id method)
    (hu : Understood fields method) :
    ∃ r sent, s.handle? body = some r ∧ r.answers = [sent] ∧ sent.Echoes id := by
  obtain ⟨sent, hechoes, hhandle⟩ := handle?_request (s := s) h hu.version hu.plain
  exact ⟨_, sent, hhandle, by rw [answers_request, if_pos hu.params], hechoes⟩

/-- A message that wants no answer is not answered. -/
theorem answers_of_not_request {r : Outcome} (hr : s.handle? body = some r)
    (h : ∀ fields id method, ¬ Request body fields id method) : r.answers = [] := by
  unfold handle? at hr
  split at hr
  · cases hr
    rfl
  · rename_i j hread
    split at hr
    · cases hr
      rfl
    · rename_i m hm
      split at hr
      · rename_i sent hid
        obtain ⟨fields, rfl⟩ := Envelope.exists_fields hm hid
        obtain ⟨-, -, ⟨id, hlast, hne, -⟩, hmethod⟩ := Envelope.id_eq_some.mp ⟨m, hm, hid, rfl⟩
        exact absurd ⟨hread, hlast, hne, hmethod⟩ (h fields id m.method)
      · split at hr
        · cases hr
          rfl
        · exact answers_notification? hr

/-! ### Sessions -/

/-- What messages lead to, one after the other, up to one that ends the session; `none` if one of
them has no outcome. -/
def outcomes? : Server → List (List UInt8) → Option (List Outcome)
  | _, [] => some []
  | s, body :: bodies => do
    let r ← s.handle? body
    if r.done then some [r]
    else
      let rs ← outcomes? r.server bodies
      some (r :: rs)

/-- The next message of a session that goes on is handled by the server as it then is. -/
theorem outcomes?_snoc {bodies : List (List UInt8)} {rs : List Outcome}
    (hrun : s.outcomes? bodies = some rs) (hgoing : ∀ r ∈ rs, r.done = false) :
    ∃ t : Server, ∀ body, s.outcomes? (bodies ++ [body]) =
      (t.handle? body).map fun r => rs ++ [r] := by
  induction bodies generalizing s rs with
  | nil =>
    cases hrun
    refine ⟨s, fun body => ?_⟩
    cases hr : s.handle? body with
    | none => simp [outcomes?, hr]
    | some r => simp [outcomes?, hr]
  | cons b bodies ih =>
    obtain ⟨r, hr, hrest⟩ := Option.bind_eq_some_iff.mp hrun
    split at hrest
    · rename_i hdone
      cases hrest
      rw [hgoing r (List.mem_singleton_self r)] at hdone
      cases hdone
    · rename_i hdone
      obtain ⟨rest, hafter, heq⟩ := Option.bind_eq_some_iff.mp hrest
      cases heq
      obtain ⟨t, ht⟩ := ih hafter fun r hr => hgoing r (List.mem_cons_of_mem _ hr)
      refine ⟨t, fun body => ?_⟩
      rw [List.cons_append, outcomes?, hr, Option.bind_eq_bind, Option.bind_some, if_neg hdone,
        ht body]
      cases t.handle? body <;> rfl

end Server

/-- **Requests are answered once, and nothing else is.**  In every session that has not ended, the
next message leads to exactly one answer, with its id, if it has an id that is not `null` and a
method, and is understood; and to none if it has no id.  What it leads to is sent before the
next message is handled. -/
theorem requests_answered {s : Server} {bodies : List (List UInt8)} {rs : List Outcome}
    (hrun : s.outcomes? bodies = some rs) (hgoing : ∀ r ∈ rs, r.done = false)
    (body : List UInt8) :
    (∀ fields id method, Request body fields id method → Understood fields method →
      ∃ r sent, s.outcomes? (bodies ++ [body]) = some (rs ++ [r]) ∧ r.answers = [sent] ∧
        sent.Echoes id) ∧
    ∀ r, s.outcomes? (bodies ++ [body]) = some (rs ++ [r]) →
      (∀ fields id method, ¬ Request body fields id method) → r.answers = [] := by
  obtain ⟨t, ht⟩ := Server.outcomes?_snoc hrun hgoing
  constructor
  · intro fields id method h hu
    obtain ⟨r, sent, hr, hanswers, hechoes⟩ := Server.handle?_of_understood (s := t) h hu
    exact ⟨r, sent, by rw [ht, hr, Option.map_some], hanswers, hechoes⟩
  · intro r hr hnot
    rw [ht] at hr
    obtain ⟨r', hr', heq⟩ := Option.map_eq_some_iff.mp hr
    cases List.append_cancel_left heq
    exact Server.answers_of_not_request hr' hnot

/-! A message that asks about a document that is not open, behind one that says that the editor is
ready. -/

def readyMessage : List UInt8 := messageOf "\x7b\"method\":\"initialized\"\x7d"

def hoverMessage : List UInt8 := messageOf
  "\x7b\"id\":1,\"method\":\"textDocument/hover\",\"params\":\x7b\x7d\x7d"

theorem request_hoverMessage : Request hoverMessage
    [("id", .number "1"), ("method", .text "textDocument/hover"), ("params", .object [])]
    (.number "1") "textDocument/hover" where
  read := by cbv
  last := rfl
  ne_null := Json.noConfusion
  named := rfl

theorem requests_answered_hover :
    ∃ rs fields id method, Server.outcomes? {} [readyMessage] = some rs ∧
      (∀ r ∈ rs, r.done = false) ∧ Request hoverMessage fields id method ∧
      Understood fields method ∧ ∃ r sent,
        Server.outcomes? {} [readyMessage, hoverMessage] = some (rs ++ [r]) ∧
        r.answers = [sent] ∧ sent.Echoes id := by
  have hrun : (Server.outcomes? {} [readyMessage]).map (·.map (·.done)) = some [false] := by
    decide +kernel
  obtain ⟨rs, hrs, hdone⟩ := Option.map_eq_some_iff.mp hrun
  have hgoing : ∀ r ∈ rs, r.done = false := fun r hr => by
    simpa [hdone] using List.mem_map_of_mem (f := Outcome.done) hr
  have hunderstood : Understood
      [("id", .number "1"), ("method", .text "textDocument/hover"), ("params", .object [])]
      "textDocument/hover" := ⟨by decide, by decide +kernel, by decide +kernel⟩
  exact ⟨rs, _, _, _, hrs, hgoing, request_hoverMessage, hunderstood,
    (requests_answered hrs hgoing hoverMessage).1 _ _ _ request_hoverMessage hunderstood⟩

/-- **A request that is not understood gets no answer.** -/
theorem requests_unanswered {s : Server} {bodies : List (List UInt8)} {rs : List Outcome}
    (hrun : s.outcomes? bodies = some rs) (hgoing : ∀ r ∈ rs, r.done = false)
    {body : List UInt8} {fields : List (String × Json)} {id : Json} {method : String}
    (h : Request body fields id method) (hnot : ¬ Understood fields method) :
    ∃ r, s.outcomes? (bodies ++ [body]) = some (rs ++ [r]) ∧ r.sent = [] := by
  obtain ⟨t, ht⟩ := Server.outcomes?_snoc hrun hgoing
  refine ⟨t.refuse .malformed, ?_, rfl⟩
  rw [ht, Server.handle?_of_not_understood h hnot, Option.map_some]

/-! The same request with a number for parameters. -/

def unreadMessage : List UInt8 := messageOf
  "\x7b\"id\":1,\"method\":\"textDocument/hover\",\"params\":5\x7d"

/-- **A request for what is below the cursor is left without an answer** if its parameters are not
an object. -/
theorem hover_unanswered :
    Request unreadMessage
      [("id", .number "1"), ("method", .text "textDocument/hover"), ("params", .number "5")]
      (.number "1") "textDocument/hover" ∧
    ∃ r, Server.outcomes? {} [unreadMessage] = some [r] ∧ r.answers = [] := by
  have hrequest : Request unreadMessage
      [("id", .number "1"), ("method", .text "textDocument/hover"), ("params", .number "5")]
      (.number "1") "textDocument/hover" := ⟨by cbv, rfl, Json.noConfusion, rfl⟩
  have hnot : ¬ Understood
      [("id", .number "1"), ("method", .text "textDocument/hover"), ("params", .number "5")]
      "textDocument/hover" := fun h => absurd h.params (by decide +kernel)
  have hstart : Server.outcomes? {} [] = some [] := rfl
  obtain ⟨r, hr, hsent⟩ := requests_unanswered hstart (List.forall_mem_nil _) hrequest hnot
  exact ⟨hrequest, r, hr, by rw [Outcome.answers, hsent]; rfl⟩

end Editor

end PatternPlan
