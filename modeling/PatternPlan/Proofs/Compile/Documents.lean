import PatternPlan.Proofs.Compile.Formatting
import PatternPlan.Proofs.Compile.Valid
import PatternPlan.Proofs.Lowered.Storable

/-!
# Documents of compiled files

A lowered module leaves the compiler as a document and comes back as the module that was written,
as long as the document nests no deeper than documents may.

* `compile?_eq_some` — what compiling gives, if it gives anything;
* `compile_recovered` — **the document of every compiled file is read back as its module**;
* `Pattern.chain_renamed` — every name that a pattern is given puts a node below a node, which takes
  two levels of a document;
* `namesSource`, `compile_unrecovered` — a pattern that is named often enough is written to a
  document that cannot be read.
-/

namespace PatternPlan

/-- **What compiling gives**, if it gives anything. -/
theorem compile?_eq_some {config : Config} {file : String} {source : Text} {c : Compilation}
    (hc : compile? config file source = some c) :
    (Reading.of file source).program.hasMissingBound = false ∧ c = {
      config := config
      reading := .of file source
      typed := (typeProgram file (Reading.of file source).program).1
      lowered := .ofTyped config.placeholders (typeProgram file (Reading.of file source).program).1
      diagnostics := ((Reading.of file source).diagnostics.addAll
          (typeProgram file (Reading.of file source).program).2).addAll
        (Typed.moduleProblems config (typeProgram file (Reading.of file source).program).1) } := by
  unfold compile? at hc
  dsimp only at hc
  by_cases hbounds : (Reading.of file source).program.hasMissingBound
  · rw [if_pos hbounds] at hc
    cases hc
  · rw [if_neg hbounds] at hc
    cases hc
    exact ⟨Bool.eq_false_iff.mpr hbounds, rfl⟩

theorem compile?_lowered {config : Config} {file : String} {source : Text} {c : Compilation}
    (hc : compile? config file source = some c) :
    (Reading.of file source).program.hasMissingBound = false ∧
      c.typed = (typeProgram file (Reading.of file source).program).1 ∧
      c.lowered = .ofTyped config.placeholders c.typed := by
  obtain ⟨hbounds, rfl⟩ := compile?_eq_some hc
  exact ⟨hbounds, rfl, rfl⟩

/-- The numbers of a compiled file fit their words. -/
theorem storable_lowered {config : Config} {file : String} {source : Text} {c : Compilation}
    (hc : compile? config file source = some c) (hwidth : Text.width source < 2 ^ 60)
    (hrows : ∀ b ∈ c.typed.bodies, b.2.size ≤ 2 ^ 32) : c.lowered.Storable := by
  obtain ⟨-, htyped, hlowered⟩ := compile?_lowered hc
  have hstorable : c.typed.Meets .word := by
    rw [htyped]
    exact (meets_typeProgram (Surface.meets_parse (Limits.word_admits hwidth)).1 file).1
  rw [hlowered]
  exact Lowered.Module.storable_ofTyped _ hstorable hrows

/-- The module of a compiled file is valid. -/
theorem errors_lowered {config : Config} (hconfig : config.Accepted) {file : String}
    {source : Text} {c : Compilation} (hc : compile? config file source = some c) :
    c.lowered.errors = [] := by
  obtain ⟨hbounds, htyped, hlowered⟩ := compile?_lowered hc
  rw [hlowered, htyped]
  exact Lowered.Module.errors_ofTyped hconfig.present
    (named_typeProgram (Surface.named_parse source) hbounds file)

/-- **The document of a compiled file is read back as its module**, if it nests no deeper than
documents may.  Places are words of 63 bits and rows are numbered by words of 32 bits. -/
theorem compile_recovered {config : Config} (hconfig : config.Accepted) {file : String}
    {source : Text} {c : Compilation} (hc : compile? config file source = some c)
    (hwidth : Text.width source < 2 ^ 60) (hrows : ∀ b ∈ c.typed.bodies, b.2.size ≤ 2 ^ 32)
    (hdepth : c.lowered.toJson.depth ≤ Json.maxNesting) (indent : Bool) :
    ∃ text, c.lowered.encode indent = .ok text ∧ Lowered.Module.decode text = .ok c.lowered := by
  have hstorable := storable_lowered hc hwidth hrows
  have hvalid := errors_lowered hconfig hc
  refine ⟨c.lowered.toJson.render indent, ?_, ?_⟩
  · exact Lowered.Module.encode_eq hvalid hdepth indent
  · rw [Lowered.Module.decode_render hstorable hvalid, if_pos hdepth]

/-- A recognizer, a function and a match with constants of several kinds. -/
def signSource : Text := .ofString ("pattern (|Even|_|)(n: Int) -> Option<Int> = Some(n)\n"
  ++ "fn sign(n: Int) = match n with | 0 -> \"\" | (|Even|_|) k when true -> \"even\" | _ -> \"\"\n"
  ++ "match [1.5, 2.5] with | [] -> 0 | [x, ..] -> 1")

theorem compile_recovered_sign : ∃ c, compile? {} "sign.mc" signSource = some c ∧ ∀ indent,
    ∃ text, c.lowered.encode indent = .ok text ∧ Lowered.Module.decode text = .ok c.lowered := by
  have hall : ∃ c ∈ compile? {} "sign.mc" signSource,
      (∀ b ∈ c.typed.bodies, b.2.size ≤ 2 ^ 32) ∧ c.lowered.toJson.depth ≤ Json.maxNesting := by
    decide +kernel
  obtain ⟨c, hc, hrows, hdepth⟩ := hall
  exact ⟨c, hc, compile_recovered Config.accepted_default hc (by decide +kernel) hrows hdepth⟩

/-! ### Names over names -/

namespace Surface

/-- A variable that is named again and again. -/
def Pattern.renamed : Nat → Pattern
  | 0 => .var default "a"
  | n + 1 => .binding default "a" false (renamed n)

namespace Pattern

variable {n : Nat}

theorem writable_renamed : (renamed n).Writable := by
  induction n with
  | zero => exact .var (by decide)
  | succ n ih => exact .binding (by decide) ih

theorem faithful_renamed : (renamed n).faithful = true := by
  induction n with
  | zero => rfl
  | succ n ih => exact ih

/-- However often a variable is named, no level of nesting is taken for it. -/
theorem levels_renamed : (renamed n).levels .nested = 2 := by
  induction n with
  | zero => rfl
  | succ n ih => exact ih

theorem length_print_renamed : ((renamed n).print .nested).length = 5 * n + 1 := by
  induction n with
  | zero => rfl
  | succ n ih =>
    show ((renamed n).print .nested ++ " as " ++ "a").length = 5 * (n + 1) + 1
    rw [String.length_append, String.length_append, ih]
    rfl

/-- Every name takes a node of the plan. -/
theorem chain_renamed {p : Pattern} (h : p.erase = (renamed n).erase) (env : Env) (t : Ty)
    (scope : Scope) : (PlanNode.ofPattern (typePattern env p t scope).1).Chain n := by
  induction n generalizing p with
  | zero => trivial
  | succ n ih =>
    cases p with
    | binding m name viaAt inner =>
      have hinner : inner.erase = (renamed n).erase := by
        injection h
      exact ⟨_, List.mem_singleton_self _, ih hinner⟩
    | wildcard | var | literal | tuple | record | construct | or | slice | range | regex =>
      exact Pattern.noConfusion h
    | active m name kind arg => cases arg <;> exact Pattern.noConfusion h

end Pattern

/-- A match whose only pattern is a variable with many names. -/
def namesMatch (n : Nat) : Expr :=
  .select default (.ident default "a")
    [⟨default, .renamed n, none, false, none, .ident default "a"⟩]

def namesProgram (n : Nat) : Program := ⟨none, [], [.expr default (namesMatch n)]⟩

namespace namesProgram

variable {n : Nat}

theorem writable : (namesProgram n).Writable := by
  have hident : (Expr.ident default "a").Writable := .ident (by decide)
  have hmatch : (namesMatch n).Writable := by
    refine .select hident (List.cons_ne_nil _ _) ?_ ?_ ?_
    · exact List.forall_mem_singleton.mpr ⟨Pattern.writable_renamed, fun _ => rfl, nofun⟩
    · exact List.forall_mem_singleton.mpr nofun
    · exact List.forall_mem_singleton.mpr hident
  have hheader : (namesProgram n).header = none := rfl
  constructor
  · intro l hl
    rw [hheader] at hl
    cases hl
  · exact List.forall_mem_nil _
  · intro d hd
    rw [show d = .expr default (namesMatch n) from List.mem_singleton.mp hd]
    exact hmatch

theorem faithful : (namesProgram n).faithful = true := by
  show (true && ((Pattern.renamed n).faithful && true && true && true)) = true
  rw [Pattern.faithful_renamed]
  rfl

theorem fits : (namesProgram n).Fits := by
  refine List.forall_mem_singleton.mpr ?_
  show max 1 (max (max ((Pattern.renamed n).levels .arm) 0) (max 1 0)) + 1 ≤ maxNesting
  have hlevels : (Pattern.renamed n).levels .arm ≤ 4 := by
    cases n with
    | zero => decide
    | succ n =>
      show (Pattern.renamed n).levels .nested + 1 + 1 ≤ 4
      rw [Pattern.levels_renamed]
  have hlimit : maxNesting = 256 := rfl
  omega

theorem length_print : (namesProgram n).print.length ≤ 5 * n + 40 := by
  have htext : (Pattern.renamed n).text.length ≤ 5 * n + 3 := by
    cases n with
    | zero => decide
    | succ n =>
      show ("(" ++ (Pattern.renamed (n + 1)).print .nested ++ ")").length ≤ 5 * (n + 1) + 3
      rw [String.length_append, String.length_append, Pattern.length_print_renamed]
      show 1 + (5 * (n + 1) + 1) + 1 ≤ _
      omega
  show ("" ++ "" ++ ("match " ++ "a" ++ " with" ++ (Expr.newline 1 ++ "| "
    ++ (Pattern.renamed n).text ++ "" ++ "" ++ " -> " ++ "a" ++ "") ++ "\n")).length ≤ 5 * n + 40
  simp only [String.length_append]
  have hline : (Expr.newline 1).length = 5 := by decide
  rw [hline]
  show 0 + 0 + (6 + 1 + 5 + (5 + 2 + (Pattern.renamed n).text.length + 0 + 0 + 4 + 1 + 0) + 1) ≤ _
  omega

/-- What a program that is written like this one consists of. -/
theorem decls_of_erase {p : Program} (h : p.erase = (namesProgram n).erase) :
    ∃ m mark target a, p.decls = [.expr m (.select mark target [a])] ∧
      a.pattern.erase = (Pattern.renamed n).erase := by
  have hdecls : p.decls.map Decl.erase = [.expr default (namesMatch n).erase] :=
    congrArg Program.decls h
  obtain ⟨d, ds, hp, hd, hds⟩ := List.map_eq_cons_iff.mp hdecls
  rw [List.map_eq_nil_iff.mp hds] at hp
  cases d with
  | function | recognizer | type => exact Decl.noConfusion hd
  | expr m e =>
    cases e with
    | select mark target arms =>
      injection hd with _ hmatch
      injection hmatch with _ _ harms
      rw [Expr.eraseArms_eq, Expr.eraseArms_eq] at harms
      obtain ⟨a, as, has, ha, hnil⟩ := List.map_eq_cons_iff.mp harms
      rw [List.map_eq_nil_iff.mp hnil] at has
      subst has
      exact ⟨m, mark, target, a, hp, congrArg Arm.pattern ha⟩
    | _ =>
      injection hd with _ hmatch
      exact Expr.noConfusion hmatch

/-- The plan of such a match has a node for each name. -/
theorem plan_of_match (mark : Mark) (target : Expr) {a : Arm Pattern Expr}
    (ha : a.pattern.erase = (Pattern.renamed n).erase) (o : Placeholders) (env : Env) (scope : Scope) :
    ∃ t ∈ (typeExpr env scope (.select mark target [a])).allMatches,
      ∃ b ∈ (Plan.ofMatch o o.inlineOwner t).armList, b.node.Chain n := by
  rw [typeExpr, Typed.Expr.allMatches, typeArms.eq_def]
  refine ⟨_, List.mem_cons_self, _, List.mem_cons_self, ?_⟩
  exact Pattern.chain_renamed ha _ _ _

/-- Such a program has no tables, and a plan with a node for each name. -/
theorem plan_of_erase {p : Program} (h : p.erase = (namesProgram n).erase) (o : Placeholders)
    (file : String) : (typeProgram file p).1.bodies = [] ∧
      ∃ q ∈ Plan.ofModule o (typeProgram file p).1, ∃ a ∈ q.armList, a.node.Chain n := by
  obtain ⟨m, mark, target, a, hdecls, hpattern⟩ := decls_of_erase h
  obtain ⟨header, uses, decls⟩ := p
  obtain rfl : decls = [.expr m (.select mark target [a])] := hdecls
  refine ⟨rfl, ?_⟩
  obtain ⟨t, ht, b, hb, hchain⟩ := plan_of_match mark target hpattern o
    ⟨TypeTable.builtin, [], []⟩ []
  refine ⟨_, ?_, b, hb, hchain⟩
  exact List.mem_append_right _ (List.mem_append_left _ (List.mem_map_of_mem ht))

end namesProgram

end Surface

open Surface

/-- A file with a match whose only pattern is a variable with many names. -/
def namesSource (n : Nat) : Text := .ofString (namesProgram n).print

theorem width_namesSource (n : Nat) : Text.width (namesSource n) ≤ 20 * n + 160 := by
  have hwidth := Text.width_le_length (namesSource n)
  have hlength : (namesSource n).length = (namesProgram n).print.length := by
    rw [namesSource, Text.ofString, List.length_map, String.length_toList]
  have hprint := namesProgram.length_print (n := n)
  omega

/-- **A pattern that is named many times is compiled**, without complaint of the reader, to a plan
with a node for each name. -/
theorem compile_names (config : Config) (file : String) (n : Nat) :
    ∃ c, compile? config file (namesSource n) = some c ∧ c.reading.diagnostics.items = [] ∧
      c.typed.bodies = [] ∧ ∃ p ∈ c.plans, ∃ a ∈ p.armList, a.node.Chain n := by
  obtain ⟨hclean, herase⟩ | ⟨hdeep, -⟩ :=
    Reading.of_print namesProgram.writable (namesProgram.faithful (n := n)) file
  · have hbounds : (Reading.of file (namesSource n)).program.hasMissingBound = false := by
      have hprint := print?_of_writable (writable_parse (Reading.clean_iff.mp hclean).2)
      unfold Program.print? at hprint
      split at hprint
      · cases hprint
      · exact Bool.eq_false_iff.mpr ‹_›
    obtain ⟨hbodies, hplan⟩ := namesProgram.plan_of_erase herase config.placeholders file
    exact ⟨_, if_neg (Bool.eq_false_iff.mp hbounds), hclean, hbodies, hplan⟩
  · exact absurd namesProgram.fits hdeep

/-- **Not every compiled file is recovered from its document**: five thousand names for one variable
are read without complaint, but their plan nests too deep for a document. -/
theorem compile_unrecovered : ¬ ∀ (source : Text) (c : Compilation),
    compile? {} "names.mc" source = some c → ∀ indent, ∃ text,
      c.lowered.encode indent = .ok text ∧ Lowered.Module.decode text = .ok c.lowered := by
  intro h
  obtain ⟨c, hc, -, hbodies, p, hp, a, ha, hchain⟩ := compile_names {} "names.mc" 5000
  obtain ⟨text, hencode, hdecode⟩ := h _ c hc false
  have hstorable : c.lowered.Storable := by
    have hwidth := width_namesSource 5000
    apply storable_lowered hc
    · omega
    · rw [hbodies]
      exact List.forall_mem_nil _
  have hvalid := errors_lowered Config.accepted_default hc
  have hdeep : Json.maxNesting < c.lowered.toJson.depth := by
    have hplan := Plan.depth_of_chain ha hchain
    have hmodule : p.toJson.depth < c.lowered.toJson.depth := Lowered.Module.depth_of_plan hp
    have hlimit : Json.maxNesting = 10000 := rfl
    omega
  rw [Lowered.Module.eq_render_of_encode hencode, Lowered.Module.decode_render hstorable hvalid,
    if_neg (Nat.not_le.mpr hdeep)] at hdecode
  cases hdecode

end PatternPlan
