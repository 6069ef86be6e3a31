import PatternPlan.Config.Document
import PatternPlan.Editor.Server
import PatternPlan.Proofs.Compile.Formatting
import PatternPlan.Proofs.Compile.Reported

/-!
# Documents that an editor has open

What the server keeps between messages, and what it does with a document in which the text itself is
wrong.  Whether a document may be formatted is read off its report, so that a class that the
configuration drops does not count.

* `stage_report` — what lexing and parsing find is reported in their phases;
* `Server.Compiled` — every open document is compiled under its name, as the server is configured;
* `Server.compiled_handle?`, `Server.compiled_after?` — **messages keep it so**;
* `formatting_leaves_broken` — **a document is left alone if anything is wrong with its text that the
  configuration does not drop**;
* `formatting_drops_broken` — with a class dropped, the part of a document that does not parse is
  taken out.
-/

namespace PatternPlan

/-! ### What is wrong with a text -/

/-- What a policy does not drop it keeps, in its phase. -/
theorem Policy.mem_apply {p : Policy} {ds : List Diagnostic} {d : Diagnostic} (hd : d ∈ ds)
    (h : d.code ∉ p.disabled) : ∃ e ∈ p.apply ds, e.stage = d.stage := by
  have hadjust : ∃ e, p.adjust d = some e ∧ e.stage = d.stage := by
    rw [adjust, if_neg h]
    split
    · exact ⟨_, rfl, rfl⟩
    · exact ⟨_, rfl, rfl⟩
  obtain ⟨e, he, hstage⟩ := hadjust
  exact ⟨e, List.mem_filterMap.mpr ⟨d, List.mem_mergeSort.mpr hd, he⟩, hstage⟩

/-- **What lexing or parsing finds is reported in its phase**, unless the configuration drops its
class. -/
theorem stage_report {config : Config} {file : String} {source : Text} {c : Compilation}
    (hc : compile? config file source = some c) {d : Diagnostic}
    (hd : d ∈ (Reading.of file source).diagnostics.items) (h : d.code ∉ config.policy.disabled) :
    ∃ e ∈ c.report, e.stage = .lexer ∨ e.stage = .parser := by
  let anywhere : Limits := ⟨fun _ => True, fun _ _ => trivial, Text.width source + 1⟩
  have hadmits : anywhere.Admits (Text.width source) := ⟨fun _ _ => trivial, Nat.lt_succ_self _⟩
  have hregistered := registered_compile hadmits hc
  have hcode : d.code ∈ c.diagnostics.items.map Diagnostic.code := by
    obtain ⟨-, rfl⟩ := compile?_eq_some hc
    refine Collector.mem_codes_addAll.mpr (.inl (Collector.mem_codes_addAll.mpr (.inl ?_)))
    exact List.mem_map_of_mem hd
  obtain ⟨e, he, heq⟩ := List.mem_map.mp hcode
  have hconfig : c.config = config := by
    obtain ⟨-, rfl⟩ := compile?_eq_some hc
    rfl
  obtain ⟨x, hx, hstage⟩ := Policy.mem_apply (p := c.config.policy) he (by rwa [heq, hconfig])
  refine ⟨x, hx, ?_⟩
  rw [hstage, (hregistered e he).stage, heq]
  exact Reading.stage_of hd

namespace Editor

/-- A document with an error in its text is not formatted. -/
theorem Document.formatting_of_hasTextErrors {d : Document} (h : d.hasTextErrors = true) :
    d.formatting = .array [] := by
  rw [formatting]
  split
  · rfl
  · rw [h, Bool.true_or, if_pos rfl]

/-- What is wrong with the text of a document counts as an error in it, unless it is dropped. -/
theorem Document.hasTextErrors_of {config : Config} {uri : String} {d : Document}
    (hd : Document.of? config uri d.content = some d) {x : Diagnostic}
    (hx : x ∈ (Reading.of (Uri.path uri) (Text.ofString d.content)).diagnostics.items)
    (h : x.code ∉ config.policy.disabled) : d.hasTextErrors = true := by
  obtain ⟨c, hc, heq⟩ := Option.map_eq_some_iff.mp hd
  have hcompilation : d.compilation = c := congrArg compilation heq.symm
  obtain ⟨e, he, hstage⟩ := stage_report hc hx h
  rw [hasTextErrors, List.any_eq_true, hcompilation]
  refine ⟨e, he, ?_⟩
  rw [Bool.or_eq_true, decide_eq_true_eq, decide_eq_true_eq]
  exact hstage.symm

namespace Server

/-! ### What the server keeps -/

/-- Every open document is compiled under its name, as the server is configured. -/
structure Compiled (config : Config) (s : Server) : Prop where
  config_eq : s.config = config
  documents : ∀ e ∈ s.documents, Document.of? config e.1 e.2.content = some e.2

variable {config : Config} {s : Server}

theorem Compiled.document? (h : s.Compiled config) {uri : String} {d : Document}
    (hd : s.document? uri = some d) : Document.of? config uri d.content = some d := by
  obtain ⟨l, r, heq, -⟩ := List.lookup_eq_some_iff.mp hd
  exact h.documents (uri, d) (heq ▸ List.mem_append_right _ List.mem_cons_self)

theorem compiled_close (h : s.Compiled config) (uri : String) : (s.close uri).Compiled config :=
  ⟨h.config_eq, fun e he => h.documents e (List.mem_of_mem_filter he)⟩

theorem compiled_put (h : s.Compiled config) {uri : String} {d : Document}
    (hd : Document.of? config uri d.content = some d) : (s.put uri d).Compiled config := by
  refine ⟨h.config_eq, List.forall_mem_append.mpr ⟨(compiled_close h uri).documents, ?_⟩⟩
  exact List.forall_mem_singleton.mpr hd

theorem compiled_update? (h : s.Compiled config) {uri content : String} {r : Outcome}
    (hr : s.update? uri content = some r) : r.server.Compiled config := by
  obtain ⟨d, hd, rfl⟩ := Option.map_eq_some_iff.mp hr
  have hcontent : d.content = content := by
    obtain ⟨c, -, rfl⟩ := Option.map_eq_some_iff.mp hd
    rfl
  refine compiled_put h ?_
  rw [hcontent, ← h.config_eq]
  exact hd

/-- Nothing that wants an answer touches a document. -/
theorem compiled_request (h : s.Compiled config) (id : Json) (method : String) (j : Json) :
    (s.request id method j).server.Compiled config := by
  unfold request
  split
  · split
    · exact h
    · exact ⟨h.config_eq, h.documents⟩
  · exact ⟨h.config_eq, h.documents⟩
  · split <;> exact h
  · split <;> exact h
  · exact h

theorem compiled_notification? (h : s.Compiled config) {method : String} {j : Json} {r : Outcome}
    (hr : s.notification? method j = some r) : r.server.Compiled config := by
  unfold notification? at hr
  split at hr
  · split at hr
    · cases hr
      exact h
    · exact compiled_update? h hr
  · split at hr
    · cases hr
      exact h
    · split at hr
      · cases hr
        exact h
      · split at hr
        · cases hr
          exact h
        · exact compiled_update? h hr
  · split at hr <;> cases hr
    · exact h
    · exact compiled_close h _
  · cases hr
    exact h

/-- **A message keeps every open document compiled.** -/
theorem compiled_handle? (h : s.Compiled config) {body : List UInt8} {r : Outcome}
    (hr : s.handle? body = some r) : r.server.Compiled config := by
  unfold handle? at hr
  split at hr
  · cases hr
    exact h
  · split at hr
    · cases hr
      exact h
    · split at hr
      · cases hr
        exact compiled_request h _ _ _
      · split at hr
        · cases hr
          exact h
        · exact compiled_notification? h hr

/-- The server after messages, one after the other; `none` if one of them has no outcome. -/
def after? (s : Server) (bodies : List (List UInt8)) : Option Server :=
  bodies.foldlM (fun s body => (s.handle? body).map Outcome.server) s

/-- **So does every sequence of messages.** -/
theorem compiled_after? (h : s.Compiled config) {bodies : List (List UInt8)} {t : Server}
    (ht : s.after? bodies = some t) : t.Compiled config := by
  induction bodies generalizing s with
  | nil =>
    cases ht
    exact h
  | cons body bodies ih =>
    rw [after?, List.foldlM_cons] at ht
    obtain ⟨s', hs', ht⟩ := Option.bind_eq_some_iff.mp ht
    obtain ⟨r, hr, rfl⟩ := Option.map_eq_some_iff.mp hs'
    exact ih (compiled_handle? h hr) ht

end Server

/-! ### Formatting -/

/-- The id and the document of a message that asks for the edits that format a document. -/
def formattingRequest? (body : List UInt8) : Option (Json × String) := do
  let j ← Json.read? (Text.shown (Text.ofBytes body))
  let m ← Envelope.ofJson? j
  let id ← m.id
  let p ← params? namedReader j
  if m.method = "textDocument/formatting" then some (id, p.uri) else none

/-- The answer to such a message about a document that is open. -/
theorem Server.handle?_formatting {s : Server} {body : List UInt8} {id : Json} {uri : String}
    (hasks : formattingRequest? body = some (id, uri)) {d : Document}
    (hd : s.document? uri = some d) : s.handle? body = some (s.send (reply id d.formatting)) := by
  obtain ⟨j, hread, hasks⟩ := Option.bind_eq_some_iff.mp hasks
  obtain ⟨m, henvelope, hasks⟩ := Option.bind_eq_some_iff.mp hasks
  obtain ⟨i, hid, hasks⟩ := Option.bind_eq_some_iff.mp hasks
  obtain ⟨p, hparams, hasks⟩ := Option.bind_eq_some_iff.mp hasks
  split at hasks
  · rename_i hmethod
    cases hasks
    simp only [handle?, hread, henvelope, hid, hmethod, request, hparams, hd]
  · cases hasks

/-- **Documents in which the text is wrong are left alone.**  Whatever messages came before: asked
to format an open document in whose text lexing or parsing found something that the configuration
does not drop, the server answers that nothing is to be edited. -/
theorem formatting_leaves_broken (config : Config) {bodies : List (List UInt8)} {s : Server}
    (hafter : Server.after? { config } bodies = some s) {uri : String} {d : Document}
    (hopen : s.document? uri = some d)
    (hbroken : ∃ x ∈ (Reading.of (Uri.path uri) (Text.ofString d.content)).diagnostics.items,
      x.code ∉ config.policy.disabled)
    {body : List UInt8} {id : Json} (hasks : formattingRequest? body = some (id, uri)) :
    s.handle? body = some (s.send (reply id (.array []))) := by
  have hstart : Server.Compiled config { config } := ⟨rfl, List.forall_mem_nil _⟩
  have hcompiled := Server.compiled_after? hstart hafter
  obtain ⟨x, hx, hkept⟩ := hbroken
  have herrors := Document.hasTextErrors_of (hcompiled.document? hopen) hx hkept
  rw [Server.handle?_formatting hasks hopen, Document.formatting_of_hasTextErrors herrors]

/-! Two instances with one document, whose second line does not parse.  The same message is answered
with no edits as the server is configured by default, and with the first line alone if the class of
what is wrong is dropped. -/

def messageOf (text : String) : List UInt8 := text.toByteArray.data.toList

def openingMessage : List UInt8 := messageOf
  "\x7b\"method\":\"textDocument/didOpen\",\"params\":\x7b\"textDocument\":\x7b\"uri\":\"file:///a.mc\",\"text\":\"fn f() = 1\\n)\"\x7d\x7d\x7d"

def formattingMessage : List UInt8 := messageOf
  "\x7b\"id\":1,\"method\":\"textDocument/formatting\",\"params\":\x7b\"textDocument\":\x7b\"uri\":\"file:///a.mc\"\x7d\x7d\x7d"

theorem formattingRequest?_formattingMessage :
    ∃ id, formattingRequest? formattingMessage = some (id, "file:///a.mc") := by
  have huri : (formattingRequest? formattingMessage).map (·.2) = some "file:///a.mc" := by
    decide +kernel
  obtain ⟨⟨id, uri⟩, hrequest, heq⟩ := Option.map_eq_some_iff.mp huri
  cases heq
  exact ⟨id, hrequest⟩

/-- The server with the document open, and the document. -/
theorem opened_of (config : Config)
    (hcontent : ((Server.after? { config } [openingMessage]).bind (·.document? "file:///a.mc")).map
      (·.content) = some "fn f() = 1\n)") :
    ∃ s d, Server.after? { config } [openingMessage] = some s ∧
      s.document? "file:///a.mc" = some d ∧ d.content = "fn f() = 1\n)" ∧
      Document.of? config "file:///a.mc" "fn f() = 1\n)" = some d := by
  obtain ⟨d, hd, hcontent⟩ := Option.map_eq_some_iff.mp hcontent
  obtain ⟨s, hs, hd⟩ := Option.bind_eq_some_iff.mp hd
  have hstart : Server.Compiled config { config } := ⟨rfl, List.forall_mem_nil _⟩
  have hof := (Server.compiled_after? hstart hs).document? hd
  rw [hcontent] at hof
  exact ⟨s, d, hs, hd, hcontent, hof⟩

theorem formatting_leaves_bracket :
    ∃ s d id, Server.after? {} [openingMessage] = some s ∧ s.document? "file:///a.mc" = some d ∧
      (∃ x ∈ (Reading.of (Uri.path "file:///a.mc") (Text.ofString d.content)).diagnostics.items,
        x.code ∉ ({} : Config).policy.disabled) ∧
      formattingRequest? formattingMessage = some (id, "file:///a.mc") ∧
      s.handle? formattingMessage = some (s.send (reply id (.array []))) := by
  obtain ⟨id, hrequest⟩ := formattingRequest?_formattingMessage
  obtain ⟨s, d, hs, hd, hcontent, -⟩ := opened_of {} (by decide +kernel)
  have hbroken : ∃ x ∈ (Reading.of (Uri.path "file:///a.mc")
      (Text.ofString d.content)).diagnostics.items, x.code ∉ ({} : Config).policy.disabled := by
    rw [hcontent]
    decide +kernel
  exact ⟨s, d, id, hs, hd, hbroken, hrequest, formatting_leaves_broken {} hs hd hbroken hrequest⟩

def droppingText : String := "diagnostics:\n  disable: [parse.expected_expression]\n"

def droppingConfig : Config := (Config.ofText droppingText).toOption.getD {}

theorem ofText_droppingText : Config.ofText droppingText = .ok droppingConfig := by
  have hok : (Config.ofText droppingText).toOption.isSome = true := by decide +kernel
  unfold droppingConfig
  cases h : Config.ofText droppingText with
  | ok c => rfl
  | error e =>
    rw [h] at hok
    cases hok

/-- **With its class dropped, what does not parse is taken out of the document.** -/
theorem formatting_drops_broken :
    Config.ofText droppingText = .ok droppingConfig ∧
    ∃ s d id, Server.after? { config := droppingConfig } [openingMessage] = some s ∧
      s.document? "file:///a.mc" = some d ∧ d.content = "fn f() = 1\n)" ∧
      (Reading.of (Uri.path "file:///a.mc") (Text.ofString d.content)).diagnostics.items ≠ [] ∧
      formattingRequest? formattingMessage = some (id, "file:///a.mc") ∧
      s.handle? formattingMessage = some (s.send (reply id (.array [.object
        [("range", d.wholeRange.toJson), ("newText", .text "fn f() = 1\n")]]))) := by
  refine ⟨ofText_droppingText, ?_⟩
  obtain ⟨id, hrequest⟩ := formattingRequest?_formattingMessage
  obtain ⟨s, d, hs, hd, hcontent, hof⟩ := opened_of droppingConfig (by decide +kernel)
  have hfound : (Reading.of (Uri.path "file:///a.mc") (Text.ofString d.content)).diagnostics.items ≠ [] := by
    rw [hcontent]
    decide +kernel
  have hprint : (Document.of? droppingConfig "file:///a.mc" "fn f() = 1\n)").map (fun d =>
      (d.hasTextErrors, d.compilation.reading.program.print?)) = some (false, some "fn f() = 1\n") := by
    decide +kernel
  rw [hof] at hprint
  obtain ⟨herrors, hprint⟩ := Prod.mk.inj (Option.some.inj hprint)
  have hformatting : d.formatting = .array [.object
      [("range", d.wholeRange.toJson), ("newText", .text "fn f() = 1\n")]] := by
    rw [Document.formatting, hprint]
    dsimp only
    rw [herrors, hcontent, if_neg (by decide)]
  refine ⟨s, d, id, hs, hd, hcontent, hfound, hrequest, ?_⟩
  rw [Server.handle?_formatting hrequest hd, hformatting]

end Editor

end PatternPlan
