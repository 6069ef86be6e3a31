import PatternPlan.Check.Coverage
import PatternPlan.Proofs.Plan.Selection
import PatternPlan.Proofs.Typed.Pattern

/-!
# What it means that a node always matches

The flag of a node is computed where plans are built, irrefutable patterns are known to the checker,
and whether a node matches is found out by walking it.  The three agree, except that the flag of a
recognizer call says nothing about the pattern that the result is matched with.

* `PlanNode.subnodes` — a node and all nodes below it;
* `Origin`, `origins` — the parts of a pattern that have nodes in its plan;
* `subnodes_ofPattern` — **every node of a plan comes from a part of the pattern**, in order;
* `matched_of_irrefutable` — irrefutable patterns match under every oracle;
* `always_matches_argument` — **a flagged node always matches, and its pattern is irrefutable,
  exactly if the argument of its recognizer is irrefutable**;
* `always_matches_fails` — a flagged node that fails.
-/

namespace PatternPlan

namespace PlanNode

mutual

/-- A node and all nodes below it, each before the ones below it. -/
def subnodes : PlanNode → List PlanNode
  | ⟨label, missOnNone, alwaysMatches, children⟩ =>
    ⟨label, missOnNone, alwaysMatches, children⟩ :: subnodesAll children

def subnodesAll : List PlanNode → List PlanNode
  | [] => []
  | n :: ns => subnodes n ++ subnodesAll ns

end

theorem subnodes_eq (n : PlanNode) : n.subnodes = n :: subnodesAll n.children := by
  cases n
  rfl

theorem subnodesAll_append (ns ms : List PlanNode) :
    subnodesAll (ns ++ ms) = subnodesAll ns ++ subnodesAll ms := by
  induction ns with
  | nil => rfl
  | cons n ns ih => rw [List.cons_append, subnodesAll, ih, subnodesAll, List.append_assoc]

end PlanNode

open Typed Pattern PlanNode

/-- A part of a pattern that has a node in its plan: a pattern, a bound of a range or a rest marker
with the name it binds. -/
inductive Origin where
  | pattern (p : Pattern)
  | bound (b : Bound)
  | rest (name : String)

/-- The node of a part. -/
def Origin.node : Origin → PlanNode
  | .pattern p => ofPattern p
  | .bound b => ofBound b
  | .rest name => PlanNode.rest name

mutual

/-- The parts of a pattern, each before the ones inside it. -/
def origins : Pattern → List Origin
  | .tuple i ps => .pattern (.tuple i ps) :: originsAll ps
  | .record i fs hasRest =>
    .pattern (.record i fs hasRest) :: (originsFields fs ++ if hasRest then [.rest ""] else [])
  | .construct i n ps => .pattern (.construct i n ps) :: originsAll ps
  | .binding i n viaAt p => .pattern (.binding i n viaAt p) :: origins p
  | .or i ps => .pattern (.or i ps) :: originsAll ps
  | .slice i items => .pattern (.slice i items) :: originsItems items
  | .range i start stop inclusive =>
    .pattern (.range i start stop inclusive) :: (start.toList ++ stop.toList).map .bound
  | .active i n kind u (some p) => .pattern (.active i n kind u (some p)) :: origins p
  | p => [.pattern p]

def originsAll : List Pattern → List Origin
  | [] => []
  | p :: ps => origins p ++ originsAll ps

def originsFields : List (String × Pattern) → List Origin
  | [] => []
  | (_, p) :: fs => origins p ++ originsFields fs

def originsItems : List (SliceItem Pattern) → List Origin
  | [] => []
  | .element p :: items => origins p ++ originsItems items
  | .rest n _ :: items => .rest n :: originsItems items

end

/-! ### Nodes and their origins -/

theorem subnodesAll_ofPatterns {ps : List Pattern}
    (h : ∀ p ∈ ps, (ofPattern p).subnodes = (origins p).map Origin.node) :
    subnodesAll (ofPatterns ps) = (originsAll ps).map Origin.node := by
  induction ps with
  | nil => rfl
  | cons p ps ih =>
    rw [ofPatterns, subnodesAll, originsAll, List.map_append, h p List.mem_cons_self,
      ih fun q hq => h q (List.mem_cons_of_mem _ hq)]

theorem subnodesAll_ofFields {fs : List (String × Pattern)}
    (h : ∀ f ∈ fs, (ofPattern f.2).subnodes = (origins f.2).map Origin.node) :
    subnodesAll (ofFields fs) = (originsFields fs).map Origin.node := by
  induction fs with
  | nil => rfl
  | cons f fs ih =>
    rw [ofFields, subnodesAll, originsFields, List.map_append, h f List.mem_cons_self,
      ih fun g hg => h g (List.mem_cons_of_mem _ hg)]

theorem subnodesAll_ofItems {items : List (SliceItem Pattern)}
    (h : ∀ p, .element p ∈ items → (ofPattern p).subnodes = (origins p).map Origin.node) :
    subnodesAll (ofItems items) = (originsItems items).map Origin.node := by
  induction items with
  | nil => rfl
  | cons item items ih =>
    have hrest := ih fun p hp => h p (List.mem_cons_of_mem _ hp)
    cases item with
    | element p =>
      rw [ofItems, subnodesAll, originsItems, List.map_append, h p List.mem_cons_self, hrest]
    | rest n s =>
      have hnode : (rest n).subnodes = [rest n] := by
        rw [subnodes_eq]
        rfl
      rw [ofItems, subnodesAll, originsItems, List.map_cons, hrest, hnode]
      rfl

theorem subnodesAll_ofBounds (bs : List Bound) :
    subnodesAll (bs.map ofBound) = (bs.map Origin.bound).map Origin.node := by
  induction bs with
  | nil => rfl
  | cons b bs ih =>
    rw [List.map_cons, subnodesAll, ih]
    rfl

theorem subnodes_of_children {p : Pattern} {parts : List Origin} (h : origins p = .pattern p :: parts)
    (hparts : subnodesAll (ofPattern p).children = parts.map Origin.node) :
    (ofPattern p).subnodes = (origins p).map Origin.node := by
  rw [subnodes_eq, hparts, h]
  rfl

theorem subnodesAll_one {p : Pattern} (h : (ofPattern p).subnodes = (origins p).map Origin.node) :
    subnodesAll [ofPattern p] = (origins p).map Origin.node := by
  rw [subnodesAll, subnodesAll, List.append_nil, h]

/-- **Every node of a plan comes from a part of the pattern**, and they stand in the same order. -/
theorem subnodes_ofPattern (p : Pattern) :
    (ofPattern p).subnodes = (origins p).map Origin.node := by
  induction p using Pattern.induction with
  | wildcard i => rfl
  | var i n => rfl
  | literal i v => rfl
  | regex i s => rfl
  | call i n k u => rfl
  | tuple i ps ih => exact subnodes_of_children rfl (subnodesAll_ofPatterns ih)
  | construct i n ps ih => exact subnodes_of_children rfl (subnodesAll_ofPatterns ih)
  | or i ps ih => exact subnodes_of_children rfl (subnodesAll_ofPatterns ih)
  | slice i items ih => exact subnodes_of_children rfl (subnodesAll_ofItems ih)
  | record i fs hasRest ih =>
    have hend : subnodesAll (if hasRest then [always "rest"] else [])
        = (if hasRest then [Origin.rest ""] else []).map Origin.node := by
      cases hasRest <;> rfl
    refine subnodes_of_children rfl ?_
    show subnodesAll (ofFields fs ++ if hasRest then [always "rest"] else []) = _
    rw [subnodesAll_append, subnodesAll_ofFields ih, hend, List.map_append]
  | binding i n viaAt p ih => exact subnodes_of_children rfl (subnodesAll_one ih)
  | callWith i n k u p ih => exact subnodes_of_children rfl (subnodesAll_one ih)
  | range i start stop inclusive =>
    refine subnodes_of_children rfl ?_
    show subnodesAll (start.toList.map ofBound ++ stop.toList.map ofBound) = _
    rw [← List.map_append, subnodesAll_ofBounds]

/-! Parts of several patterns are parts of one of them. -/

theorem mem_originsAll {x : Origin} {ps : List Pattern} (h : x ∈ originsAll ps) :
    ∃ p ∈ ps, x ∈ origins p := by
  induction ps with
  | nil => cases h
  | cons p ps ih =>
    rcases List.mem_append.mp h with h | h
    · exact ⟨p, List.mem_cons_self, h⟩
    · obtain ⟨q, hq, hx⟩ := ih h
      exact ⟨q, List.mem_cons_of_mem _ hq, hx⟩

theorem mem_originsFields {x : Origin} {fs : List (String × Pattern)} (h : x ∈ originsFields fs) :
    ∃ f ∈ fs, x ∈ origins f.2 := by
  induction fs with
  | nil => cases h
  | cons f fs ih =>
    rcases List.mem_append.mp h with h | h
    · exact ⟨f, List.mem_cons_self, h⟩
    · obtain ⟨g, hg, hx⟩ := ih h
      exact ⟨g, List.mem_cons_of_mem _ hg, hx⟩

theorem mem_originsItems {q : Pattern} {items : List (SliceItem Pattern)}
    (h : .pattern q ∈ originsItems items) : ∃ p, .element p ∈ items ∧ .pattern q ∈ origins p := by
  induction items with
  | nil => cases h
  | cons item items ih =>
    have hrest (h : .pattern q ∈ originsItems items) :
        ∃ p, .element p ∈ item :: items ∧ .pattern q ∈ origins p := by
      obtain ⟨p, hp, hq⟩ := ih h
      exact ⟨p, List.mem_cons_of_mem _ hp, hq⟩
    cases item with
    | element p =>
      rcases List.mem_append.mp h with h | h
      · exact ⟨p, List.mem_cons_self, h⟩
      · exact hrest h
    | rest n s =>
      rcases List.mem_cons.mp h with h | h
      · cases h
      · exact hrest h

/-- What stands inside a part stands inside the pattern. -/
theorem nodes_of_mem_origins {p q : Pattern} (h : .pattern q ∈ origins p) :
    ∀ r ∈ q.nodes, r ∈ p.nodes := by
  induction p using Pattern.induction with
  | wildcard i | var i n | literal i v | regex i s | call i n k u =>
    cases List.mem_singleton.mp h
    exact fun r hr => hr
  | tuple i ps ih | construct i n ps ih | or i ps ih =>
    rcases List.mem_cons.mp h with heq | h
    · cases heq
      exact fun r hr => hr
    · obtain ⟨p, hp, hq⟩ := mem_originsAll h
      exact fun r hr => List.mem_cons_of_mem _ (mem_nodesOfList.mpr ⟨p, hp, ih p hp hq r hr⟩)
  | record i fs hasRest ih =>
    rcases List.mem_cons.mp h with heq | h
    · cases heq
      exact fun r hr => hr
    · rcases List.mem_append.mp h with h | h
      · obtain ⟨f, hf, hq⟩ := mem_originsFields h
        exact fun r hr => List.mem_cons_of_mem _ (mem_nodesOfFields.mpr ⟨f, hf, ih f hf hq r hr⟩)
      · cases hasRest <;> simp at h
  | slice i items ih =>
    rcases List.mem_cons.mp h with heq | h
    · cases heq
      exact fun r hr => hr
    · obtain ⟨p, hp, hq⟩ := mem_originsItems h
      exact fun r hr => List.mem_cons_of_mem _ (mem_nodesOfItems.mpr ⟨p, hp, ih p hp hq r hr⟩)
  | binding i n viaAt p ih =>
    rcases List.mem_cons.mp h with heq | h
    · cases heq
      exact fun r hr => hr
    · exact fun r hr => List.mem_cons_of_mem _ (ih h r hr)
  | callWith i n k u p ih =>
    rcases List.mem_cons.mp h with heq | h
    · cases heq
      exact fun r hr => hr
    · exact fun r hr => List.mem_cons_of_mem _ (ih h r hr)
  | range i start stop inclusive =>
    rcases List.mem_cons.mp h with heq | h
    · cases heq
      exact fun r hr => hr
    · obtain ⟨b, -, heq⟩ := List.mem_map.mp h
      cases heq

/-! ### Flags -/

/-- What the result of a recognizer is matched with, if a pattern is a call under any bindings. -/
def Typed.Pattern.argument? : Pattern → Option Pattern
  | .binding _ _ _ p => argument? p
  | .active _ _ _ _ argument => argument
  | _ => none

section Flagged

variable {p : Pattern}

theorem irrefutable_of_flag (h : (ofPattern p).alwaysMatches = true) :
    p.stripped.irrefutable = p.argument?.all fun a => a.stripped.irrefutable := by
  induction p using Pattern.induction with
  | wildcard i => rfl
  | var i n => rfl
  | binding i n viaAt p ih => exact ih h
  | call i n k u =>
    obtain rfl : k = .total := of_decide_eq_true h
    rfl
  | callWith i n k u p ih =>
    obtain rfl : k = .total := of_decide_eq_true h
    rfl
  | _ => cases h

variable {σ : Type} (o : Oracle σ) (owner : String) (arm : Nat)

/-- The state of an oracle behind the question about the recognizer that a pattern calls under any
bindings. -/
def Typed.Pattern.invoked : Pattern → σ → σ
  | .binding _ _ _ p, s => invoked p s
  | .active _ n kind _ _, s => (o.ask (.active ⟨owner, arm, "active" ++ kind.label n⟩ n kind) s).2
  | _, s => s

/-- A pattern with the flag matches as the argument of its recognizer does, which is looked at
next. -/
theorem walk_of_flag (h : (ofPattern p).alwaysMatches = true)
    (hnames : ∀ q ∈ p.nodes, CallsByName q) (s : σ) :
    (walk o owner arm (ofPattern p) s).matched = p.argument?.all fun a =>
      (walk o owner arm (ofPattern a) (p.invoked o owner arm s)).matched := by
  induction p using Pattern.induction with
  | wildcard i =>
    have hwalk : walk o owner arm (always ("_" ++ "")) s = ⟨true, [], s⟩ := walk_always (by decide)
    exact congrArg Walked.matched hwalk
  | var i n =>
    rw [ofPattern, String.append_assoc]
    exact congrArg Walked.matched (walk_always (by decide))
  | binding i n viaAt p ih =>
    rw [ofPattern, String.append_assoc, String.append_assoc, walk_naming]
    exact ih h fun q hq => hnames q (List.mem_cons_of_mem _ hq)
  | call i n k u =>
    obtain rfl : k = .total := of_decide_eq_true h
    rw [ofPattern, walk_call _ (hnames _ (self_mem_nodes _))]
    rfl
  | callWith i n k u p ih =>
    obtain rfl : k = .total := of_decide_eq_true h
    rw [ofPattern, walk_call _ (hnames _ (self_mem_nodes _)), walkAll_singleton]
    rfl
  | _ => cases h

/-- **Irrefutable patterns match under every oracle**, whatever it was asked before. -/
theorem matched_of_irrefutable (h : p.stripped.irrefutable = true)
    (hnames : ∀ q ∈ p.nodes, CallsByName q) (s : σ) :
    (walk o owner arm (ofPattern p) s).matched = true := by
  induction p using Pattern.induction generalizing s with
  | wildcard i => exact walk_of_flag o owner arm rfl hnames s
  | var i n => exact walk_of_flag o owner arm rfl hnames s
  | binding i n viaAt p ih =>
    rw [ofPattern, String.append_assoc, String.append_assoc, walk_naming]
    exact ih h (fun q hq => hnames q (List.mem_cons_of_mem _ hq)) s
  | or i ps ih =>
    cases ps with
    | nil => cases h
    | cons p ps =>
      have hall : (p.stripped.irrefutable && allIrrefutable (strippedAll ps)) = true := h
      have hp := ih p List.mem_cons_self (Bool.and_eq_true_iff.mp hall).1 (fun q hq =>
        hnames q (List.mem_cons_of_mem _ (mem_nodesOfList.mpr ⟨p, List.mem_cons_self, hq⟩))) s
      rw [ofPattern, walk_choice (show walkOf "or" false = .choice from by decide), choice, ofPatterns,
        walkAny, hp]
      exact hp
  | call i n k u =>
    have hk : k = .total := by simpa [stripped, irrefutable] using h
    exact walk_of_flag o owner arm (p := .active i n k u none) (decide_eq_true hk) hnames s
  | callWith i n k u p ih =>
    have hk : k = .total ∧ p.stripped.irrefutable = true := by
      simpa [stripped, irrefutable] using h
    rw [walk_of_flag o owner arm (p := .active i n k u (some p)) (decide_eq_true hk.1) hnames]
    exact ih hk.2 (fun q hq => hnames q (List.mem_cons_of_mem _ hq)) _
  | _ => cases h

end Flagged

/-! ### What a flag promises -/

namespace Origin

/-- The argument of the recognizer that a part calls. -/
def argument? : Origin → Option Pattern
  | .pattern p => p.argument?
  | _ => none

/-- The state of an oracle behind the question about that recognizer. -/
def invoked {σ : Type} (o : Oracle σ) (owner : String) (arm : Nat) : Origin → σ → σ
  | .pattern p, s => p.invoked o owner arm s
  | _, s => s

/-- **A part is sure to match**: walking its node succeeds under every oracle, and a pattern is
irrefutable, every recognizer taken for declared. -/
def Sure (x : Origin) : Prop :=
  (∀ (σ : Type) (o : Oracle σ) owner arm s, (walk o owner arm x.node s).matched = true) ∧
    ∀ p, x = .pattern p → p.stripped.irrefutable = true

theorem sure_of_flag {x : Origin} (hx : x.node.alwaysMatches = true)
    (hnames : ∀ p, x = .pattern p → ∀ q ∈ p.nodes, CallsByName q) :
    x.Sure ↔ ∀ a ∈ x.argument?, a.stripped.irrefutable = true := by
  cases x with
  | bound b => cases hx
  | rest name =>
    refine ⟨fun _ a ha => ?_, fun _ => ⟨fun σ o owner arm s => ?_, fun p hp => ?_⟩⟩
    · cases ha
    · exact congrArg Walked.matched (walk_rest name)
    · cases hp
  | pattern p =>
    have hirr : p.stripped.irrefutable = true ↔ ∀ a ∈ p.argument?, a.stripped.irrefutable = true := by
      rw [irrefutable_of_flag hx]
      exact Option.all_eq_true _ _
    refine ⟨fun hsure => hirr.mp (hsure.2 p rfl), fun harg => ⟨fun σ o owner arm s => ?_, fun q hq => ?_⟩⟩
    · exact matched_of_irrefutable o owner arm (hirr.mpr harg) (hnames p rfl) s
    · cases hq
      exact hirr.mpr harg

end Origin

/-- **What the flag of a node promises.**  Every node of a plan comes from a part of the pattern.  If
the node is said to match always, it is walked as the argument of its recognizer is, and it is sure
to match exactly if that argument is irrefutable; without an argument it is sure to match. -/
theorem always_matches_argument {p : Pattern} (h : ∀ q ∈ p.nodes, CallsByName q) :
    (ofPattern p).subnodes = (origins p).map Origin.node ∧
      ∀ x ∈ origins p, x.node.alwaysMatches = true →
        (x.Sure ↔ ∀ a ∈ x.argument?, a.stripped.irrefutable = true) ∧
          ∀ (σ : Type) (o : Oracle σ) owner arm s, (walk o owner arm x.node s).matched
            = x.argument?.all fun a =>
                (walk o owner arm (ofPattern a) (x.invoked o owner arm s)).matched := by
  refine ⟨subnodes_ofPattern p, fun x hx hflag => ?_⟩
  have hnames : ∀ q, x = .pattern q → ∀ r ∈ q.nodes, CallsByName r := by
    rintro q rfl r hr
    exact h r (nodes_of_mem_origins hx r hr)
  refine ⟨Origin.sure_of_flag hflag hnames, fun σ o owner arm s => ?_⟩
  cases x with
  | bound b => cases hflag
  | rest name => exact congrArg Walked.matched (walk_rest name)
  | pattern q => exact walk_of_flag o owner arm hflag (hnames q rfl) s

/-! An instance: a total recognizer that has to find `5`, and one that may find anything. -/

def halfFive : Pattern :=
  .active ⟨{}, .int⟩ "Half" .total false (some (.literal ⟨{}, .int⟩ (.int 5)))

def halfAny : Pattern :=
  .binding ⟨{}, .int⟩ "h" true (.active ⟨{}, .int⟩ "Half" .total false (some (.wildcard ⟨{}, .int⟩)))

def halves : Pattern := .tuple ⟨{}, .tuple [.int, .int]⟩ [halfFive, halfAny]

theorem callsByName_halves : ∀ q ∈ halves.nodes, CallsByName q := by
  simp [halves, halfFive, halfAny, nodes, nodesOfList, CallsByName]
  decide

/-- Both halves are flagged, but only the second is sure to match. -/
theorem always_matches_halves :
    ¬ (Origin.pattern halfFive).Sure ∧ (Origin.pattern halfAny).Sure := by
  have hparts := (always_matches_argument callsByName_halves).2
  obtain ⟨hfive, -⟩ := hparts (.pattern halfFive) (by simp [halves, halfFive, origins, originsAll]) rfl
  obtain ⟨hany, -⟩ := hparts (.pattern halfAny) (by simp [halves, halfAny, origins, originsAll]) rfl
  refine ⟨fun hsure => ?_, hany.mpr fun a ha => ?_⟩
  · exact absurd (hfive.mp hsure _ rfl) (by decide)
  · obtain rfl := Option.mem_some_iff.mp ha
    rfl

/-- Calls are calls of declared recognizers. -/
def Typed.Pattern.Declared : Pattern → Prop
  | active _ _ _ unresolved _ => unresolved = false
  | _ => True

/-- `(|Half|) 5` is said to match always, but fails if the test of `5` fails, and is not
irrefutable. -/
theorem always_matches_fails :
    (∀ q ∈ halfFive.nodes, CallsByName q ∧ Declared q) ∧
      (ofPattern halfFive).alwaysMatches = true ∧
      (walk (Answers.oracle ⟨fun _ => false, fun _ _ _ => true, fun _ => true⟩) "" 1
        (ofPattern halfFive) ()).matched = false ∧
      halfFive.irrefutable = false := by
  have hnames : ∀ q ∈ halfFive.nodes, CallsByName q ∧ Declared q := by
    simp [halfFive, nodes, CallsByName, Declared]
    decide
  exact ⟨hnames, rfl, found_ofPattern fun q hq => (hnames q hq).1, rfl⟩

end PatternPlan
