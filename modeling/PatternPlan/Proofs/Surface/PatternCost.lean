import PatternPlan.Proofs.Surface.Gives
import PatternPlan.Proofs.Surface.Leads
import PatternPlan.Proofs.Surface.PatternRead

/-!
# What reading a pattern takes

A pattern that has been read took tokens and levels of nesting: as many at least as its written form
has, and two more for a recognizer whose argument is a range without start, since such a range is an
argument only in parentheses, which the written form leaves out.

* `Pattern.cost` — how many tokens a pattern takes in a position;
* `length_words` — the written form has as many words at most, and less if it is not its own alone;
* `State.Before`, `State.Upon` — so many tokens have been read;
* `Takes` — **a parser that takes at least the tokens that what it returns costs**;
* `takes_pattern` — the parsers of patterns, which nest at least as deep as the written form does.
-/

namespace PatternPlan.Surface

namespace Pattern

/-! ### Costs -/

mutual

/-- How many tokens a pattern takes in a position, if it is to be read. -/
def cost (place : Position) : Pattern → Nat
  | wildcard _ | var _ _ | regex _ _ => 1
  | literal _ v => v.words.length
  | tuple _ ps => costAll .nested ps + 1
  | record _ fs rest => costFields fs + (if rest then 2 else if fs.isEmpty then 1 else 0) + 1
  | construct _ _ ps => costAll .nested ps + if ps.isEmpty then 1 else 2
  | binding _ _ true p => cost .primary p + 2
  | binding _ _ false p => cost .nested p + if place = .nested then 2 else 4
  | or _ ps => (costAll .primary ps - 1) + if place = .primary then 2 else 0
  | slice _ items => costItems items + (if items.isEmpty then 1 else 0) + 1
  | range _ start stop _ => (boundWords start).length + (boundWords stop).length + 1
  | active _ n kind none => (kind.words n).length
  | active _ n kind (some p) =>
    (kind.words n).length + cost .primary p + if p.isStartless then 2 else 0

/-- Patterns, each with a token behind it. -/
def costAll (place : Position) : List Pattern → Nat
  | [] => 0
  | p :: ps => cost place p + 1 + costAll place ps

/-- Fields, each with a token behind it. -/
def costFields : List (String × Pattern) → Nat
  | [] => 0
  | (n, p) :: fs => (if p.isVar n then 1 else cost .nested p + 2) + 1 + costFields fs

/-- Items of a slice, each with a token behind it. -/
def costItems : List (SliceItem Pattern) → Nat
  | [] => 0
  | .element p :: items => cost .nested p + 1 + costItems items
  | .rest n _ :: items => (if n = "" then 1 else 2) + 1 + costItems items

end

/-- The cost of a field. -/
def fieldCost (f : String × Pattern) : Nat := if f.2.isVar f.1 then 1 else f.2.cost .nested + 2

/-- The cost of an item of a slice. -/
def itemCost : SliceItem Pattern → Nat
  | .element p => p.cost .nested
  | .rest n _ => if n = "" then 1 else 2

theorem costAll_eq (place : Position) (ps : List Pattern) :
    costAll place ps = (ps.map fun p => p.cost place + 1).sum := by
  induction ps with
  | nil => rfl
  | cons p ps ih => rw [costAll, ih, List.map_cons, List.sum_cons]

theorem costFields_eq (fs : List (String × Pattern)) :
    costFields fs = (fs.map fun f => fieldCost f + 1).sum := by
  induction fs with
  | nil => rfl
  | cons f fs ih =>
    rw [costFields, ih, List.map_cons, List.sum_cons]
    rfl

theorem costItems_eq (items : List (SliceItem Pattern)) :
    costItems items = (items.map fun item => itemCost item + 1).sum := by
  induction items with
  | nil => rfl
  | cons item items ih =>
    cases item <;> rw [costItems, ih, List.map_cons, List.sum_cons] <;> rfl

/-! Costs do not depend on places. -/

theorem isVar_erase (name : String) (p : Pattern) : p.erase.isVar name = p.isVar name := by
  cases p with
  | active m n kind arg => cases arg <;> rfl
  | _ => rfl

theorem isStartless_erase (p : Pattern) : p.erase.isStartless = p.isStartless := by
  cases p with
  | range m start stop inclusive => cases start <;> rfl
  | active m n kind arg => cases arg <;> rfl
  | _ => rfl

theorem boundWords_erase (b : Option Bound) : boundWords (b.map Bound.erase) = boundWords b := by
  cases b <;> rfl

theorem cost_erase {p : Pattern} (h : p.Writable) (place : Position) :
    p.erase.cost place = p.cost place := by
  have hall : ∀ {ps : List Pattern} (place : Position),
      (∀ p ∈ ps, ∀ place : Position, p.erase.cost place = p.cost place) →
      costAll place (eraseAll ps) = costAll place ps := by
    intro ps place ih
    rw [eraseAll_eq, costAll_eq, costAll_eq, List.map_map]
    exact congrArg List.sum (List.map_congr_left fun p hp => congrArg (· + 1) (ih p hp place))
  induction h generalizing place with
  | wildcard | var | literal | regex => rfl
  | tuple _ _ ih =>
    rw [erase, cost, cost, hall _ ih]
  | @record mark fs rest _ _ ih =>
    have hfs : costFields (eraseFields fs) = costFields fs := by
      rw [eraseFields_eq, costFields_eq, costFields_eq, List.map_map]
      refine congrArg List.sum (List.map_congr_left fun f hf => congrArg (· + 1) ?_)
      rw [fieldCost, fieldCost, eraseField, isVar_erase, ih f hf]
    rw [erase, cost, cost, hfs, eraseFields_eq, List.isEmpty_map]
  | construct _ _ ih =>
    rw [erase, cost, cost, hall _ ih, eraseAll_eq, List.isEmpty_map]
  | @binding mark n viaAt p _ _ ih => cases viaAt <;> rw [erase, cost, cost, ih]
  | or _ _ ih =>
    rw [erase, cost, cost, hall _ ih]
  | @slice mark items _ _ ih =>
    have hitems : costItems (eraseItems items) = costItems items := by
      rw [eraseItems_eq, costItems_eq, costItems_eq, List.map_map]
      refine congrArg List.sum (List.map_congr_left fun item hitem => congrArg (· + 1) ?_)
      cases item with
      | element p => exact ih p hitem .nested
      | rest n span => rfl
    rw [erase, cost, cost, hitems, eraseItems_eq, List.isEmpty_map]
  | range =>
    rw [erase, cost, cost, boundWords_erase, boundWords_erase]
  | @active mark n kind arg _ _ ih =>
    cases arg with
    | none => rfl
    | some p => rw [erase, cost, cost, ih p rfl, isStartless_erase]

/-! Costs and depths in different positions. -/

theorem cost_nested_le (p : Pattern) : p.cost .nested ≤ p.cost .arm := by
  cases p with
  | binding m n viaAt p => cases viaAt <;> simp [cost]
  | active m n kind arg => cases arg <;> simp [cost]
  | _ => simp [cost]

theorem cost_arm_le (p : Pattern) : p.cost .arm ≤ p.cost .primary := by
  cases p with
  | binding m n viaAt p => cases viaAt <;> simp [cost]
  | active m n kind arg => cases arg <;> simp [cost]
  | _ => simp [cost]

theorem depth_nested_le (p : Pattern) : p.depth .nested ≤ p.depth .arm := by
  cases p with
  | binding m n viaAt p => cases viaAt <;> simp [depth, wrapped]; omega
  | active m n kind arg => cases arg <;> simp [depth, wrapped]
  | _ => simp [depth, wrapped]

theorem depth_arm_le (p : Pattern) : p.depth .arm ≤ p.depth .primary + 1 := by
  cases p with
  | binding m n viaAt p => cases viaAt <;> simp [depth, wrapped]
  | active m n kind arg => cases arg <;> simp [depth, wrapped]
  | _ => simp [depth, wrapped]

theorem depth_primary_le (p : Pattern) : p.depth .primary ≤ p.depth .nested + 1 := by
  cases p with
  | binding m n viaAt p => cases viaAt <;> simp [depth, wrapped]
  | active m n kind arg => cases arg <;> simp [depth, wrapped]
  | _ => simp [depth, wrapped]

/-- The cost of one pattern that starts with a token of a kind: a range without start that does not
start with its operator stands in parentheses. -/
def costFrom (k : TokenKind) (p : Pattern) : Nat :=
  p.cost .primary + if p.isStartless = true ∧ k ≠ .dotDot ∧ k ≠ .dotDotEq then 2 else 0

theorem cost_le_costFrom (k : TokenKind) (p : Pattern) : p.cost .primary ≤ p.costFrom k :=
  Nat.le_add_right _ _

theorem costFrom_eq {k : TokenKind} {p : Pattern}
    (h : p.isStartless = false ∨ k = .dotDot ∨ k = .dotDotEq) : p.costFrom k = p.cost .primary := by
  rw [costFrom, if_neg]
  · rfl
  · rintro ⟨hstart, hdots⟩
    rcases h with h | h | h
    · rw [hstart] at h
      cases h
    · exact hdots.1 h
    · exact hdots.2 h

theorem costFrom_of_ne {k : TokenKind} (h : k ≠ .dotDot ∧ k ≠ .dotDotEq) (p : Pattern) :
    p.costFrom k = p.cost .primary + if p.isStartless then 2 else 0 := by
  rw [costFrom]
  simp only [h.1, h.2, ne_eq, not_false_eq_true, and_true]

/-- What parentheses cost. -/
theorem costFrom_le (k : TokenKind) (p : Pattern) : p.costFrom k ≤ p.cost .nested + 2 := by
  rw [costFrom]
  cases p with
  | binding m n viaAt p => cases viaAt <;> simp [cost, isStartless]
  | active m n kind arg => cases arg <;> simp [cost, isStartless]
  | range m start stop inclusive =>
    simp only [cost]
    split <;> omega
  | _ => simp [cost, isStartless]

/-! ### The words of a pattern -/

/-- How many words there are with one behind each of the given ones. -/
def spaced (wss : List (List Word)) : Nat := (wss.map fun ws => ws.length + 1).sum

theorem spaced_cons (ws : List Word) (wss : List (List Word)) :
    spaced (ws :: wss) = ws.length + 1 + spaced wss := by
  rw [spaced, List.map_cons, List.sum_cons]
  rfl

theorem spaced_pos {wss : List (List Word)} (h : wss ≠ []) : 0 < spaced wss := by
  cases wss with
  | nil => exact absurd rfl h
  | cons ws wss =>
    rw [spaced_cons]
    omega

/-- Two words at least stand for two patterns at least. -/
theorem spaced_wordsAll_pos {ps : List Pattern} (h : 2 ≤ ps.length) (place : Position) :
    0 < spaced (wordsAll place ps) := by
  refine spaced_pos fun hnil => ?_
  rw [wordsAll_eq, List.map_eq_nil_iff] at hnil
  rw [hnil] at h
  exact absurd h (by decide)

theorem length_intercalate (w : Word) (wss : List (List Word)) :
    ([w].intercalate wss).length = spaced wss - 1 := by
  induction wss with
  | nil => rfl
  | cons ws wss ih =>
    cases wss with
    | nil =>
      rw [List.intercalate_singleton, spaced_cons]
      rfl
    | cons ws' wss =>
      have hrest := spaced_cons ws' wss
      rw [List.intercalate_cons_cons, List.length_append, List.length_append, ih,
        spaced_cons ws, List.length_singleton]
      omega

theorem length_commaWords (wss : List (List Word)) : (commaWords wss).length = spaced wss - 1 :=
  length_intercalate _ wss

theorem length_parenthesizedWords (b : Bool) (ws : List Word) :
    (parenthesizedWords b ws).length = ws.length + if b then 2 else 0 := by
  cases b with
  | false => rfl
  | true =>
    rw [parenthesizedWords, if_pos rfl, if_pos rfl]
    simp only [List.length_append, List.length_singleton]
    omega

/-- What a pattern costs more than it has words, if its written form is not its alone. -/
def lacking (faithful : Bool) : Nat := if faithful then 0 else 1

theorem lacking_and_le (a b : Bool) : lacking (a && b) ≤ lacking a + lacking b := by
  cases a <;> cases b <;> decide

theorem spaced_wordsAll {place : Position} {ps : List Pattern}
    (h : ∀ p ∈ ps, (p.words place).length + lacking p.faithful ≤ p.cost place) :
    spaced (wordsAll place ps) + lacking (allFaithful ps) ≤ costAll place ps := by
  induction ps with
  | nil => exact le_rfl
  | cons p ps ih =>
    have hp := h p List.mem_cons_self
    have hps := ih fun q hq => h q (List.mem_cons_of_mem _ hq)
    have hand := lacking_and_le p.faithful (allFaithful ps)
    rw [wordsAll, spaced_cons, allFaithful, costAll]
    omega

theorem spaced_wordsFields {fs : List (String × Pattern)}
    (h : ∀ f ∈ fs, (f.2.words .nested).length + lacking f.2.faithful ≤ f.2.cost .nested) :
    spaced (wordsFields fs) + lacking (fieldsFaithful fs) ≤ costFields fs := by
  induction fs with
  | nil => exact le_rfl
  | cons f fs ih =>
    obtain ⟨n, p⟩ := f
    have hp := h (n, p) List.mem_cons_self
    have hfs := ih fun g hg => h g (List.mem_cons_of_mem _ hg)
    have hand := lacking_and_le p.faithful (fieldsFaithful fs)
    rw [wordsFields, spaced_cons, fieldsFaithful, costFields]
    by_cases hvar : p.isVar n = true
    · have hfaithful : p.faithful = true := by
        cases p <;> first | rfl | cases hvar
      rw [hfaithful] at hand ⊢
      rw [if_pos hvar, if_pos hvar]
      simp only [List.length_singleton, Bool.true_and]
      omega
    · rw [if_neg hvar, if_neg hvar]
      simp only [List.length_append, List.length_singleton] at hp ⊢
      omega

theorem spaced_wordsItems {items : List (SliceItem Pattern)}
    (h : ∀ p, .element p ∈ items →
      (p.words .nested).length + lacking p.faithful ≤ p.cost .nested) :
    spaced (wordsItems items) + lacking (itemsFaithful items) ≤ costItems items := by
  induction items with
  | nil => exact le_rfl
  | cons item items ih =>
    have hitems := ih fun q hq => h q (List.mem_cons_of_mem _ hq)
    cases item with
    | element p =>
      have hp := h p List.mem_cons_self
      have hand := lacking_and_le p.faithful (itemsFaithful items)
      rw [wordsItems, spaced_cons, itemsFaithful, costItems]
      omega
    | rest n span =>
      rw [wordsItems, spaced_cons, itemsFaithful, costItems]
      by_cases hn : n = ""
      · rw [if_pos hn, if_pos hn]
        simp only [List.length_append, List.length_singleton, List.length_nil]
        omega
      · rw [if_neg hn, if_neg hn]
        simp only [List.length_append, List.length_singleton]
        omega

/-- **The written form of a pattern has no more words than the pattern costs**, and less if it is not
its alone. -/
theorem length_words {p : Pattern} (h : p.Writable) (place : Position) :
    (p.words place).length + lacking p.faithful ≤ p.cost place := by
  induction h generalizing place with
  | wildcard | var | regex | literal => exact le_rfl
  | @tuple mark ps hlength _ ih =>
    have hps := spaced_wordsAll fun p hp => ih p hp .nested
    have hne := spaced_wordsAll_pos hlength .nested
    rw [words, faithful, cost]
    simp only [List.length_append, List.length_singleton, length_commaWords]
    omega
  | @record mark fs rest _ _ ih =>
    have hfs := spaced_wordsFields fun f hf => ih f hf .nested
    rw [faithful, cost]
    cases fs with
    | nil => cases rest <;> exact le_rfl
    | cons f fs =>
      have hne : 0 < spaced (wordsFields (f :: fs)) := by
        rw [wordsFields_eq]
        exact spaced_pos (List.cons_ne_nil _ _)
      rw [words]
      cases rest
      · simp only [List.length_append, List.length_singleton, length_commaWords, List.length_nil,
          List.isEmpty_cons, Bool.false_eq_true, if_false]
        omega
      · simp only [List.length_append, length_commaWords, List.length_cons, List.length_nil, if_true]
        omega
  | @construct mark n ps _ _ ih =>
    have hps := spaced_wordsAll fun p hp => ih p hp .nested
    rw [faithful, cost]
    cases ps with
    | nil => exact le_rfl
    | cons p ps =>
      have hne : 0 < spaced (wordsAll .nested (p :: ps)) := spaced_pos (List.cons_ne_nil _ _)
      rw [words]
      simp only [List.length_append, List.length_singleton, length_commaWords, List.isEmpty_cons,
        Bool.false_eq_true, if_false]
      omega
  | @binding mark n viaAt p _ _ ih =>
    cases viaAt with
    | true =>
      have hp := ih .primary
      rw [words, faithful, cost]
      simp only [List.length_append, List.length_singleton]
      omega
    | false =>
      have hp := ih .nested
      rw [words, faithful, cost, length_parenthesizedWords]
      simp only [List.length_append, List.length_singleton]
      by_cases hplace : place = .nested <;> simp [hplace] <;> omega
  | @or mark ps hlength _ ih =>
    have hps := spaced_wordsAll fun p hp => ih p hp .primary
    have hne := spaced_wordsAll_pos hlength .primary
    rw [words, faithful, cost, length_parenthesizedWords, length_intercalate]
    by_cases hplace : place = .primary <;> simp [hplace] <;> omega
  | @slice mark items _ _ ih =>
    have hitems := spaced_wordsItems fun p hp => ih p hp .nested
    rw [words, faithful, cost]
    cases items with
    | nil => exact le_rfl
    | cons item items =>
      have hne : 0 < spaced (wordsItems (item :: items)) := by
        cases item <;> exact spaced_pos (List.cons_ne_nil _ _)
      simp only [List.length_append, List.length_singleton, length_commaWords, List.isEmpty_cons,
        Bool.false_eq_true, if_false]
      omega
  | @range mark start stop inclusive _ _ _ _ =>
    rw [words, cost]
    simp only [List.length_append, List.length_singleton]
    have hlacking : lacking (faithful (.range mark start stop inclusive)) = 0 := rfl
    omega
  | @active mark n kind arg _ _ ih =>
    cases arg with
    | none => exact le_rfl
    | some p =>
      have hp := ih p rfl .primary
      have hand := lacking_and_le (!p.isStartless) p.faithful
      rw [words, faithful, cost, List.length_append]
      cases hstart : p.isStartless with
      | true =>
        rw [hstart] at hand
        have hone : lacking (!true) = 1 := rfl
        rw [if_pos rfl]
        omega
      | false =>
        rw [hstart] at hand
        have hzero : lacking (!false) = 0 := rfl
        rw [if_neg (by decide)]
        omega

end Pattern

/-! ### Tokens that have been read -/

namespace State

variable {n c c' : Nat} {s t : State}

/-- Of `n` tokens, `c` have been read, and the next one is current, if there is one. -/
structure Before (n c : Nat) (s : State) : Prop where
  sound : s.Sound
  count : s.tokens.length + c ≤ n

/-- Of `n` tokens, `c` have been read, and the last one of them is current. -/
structure Upon (n c : Nat) (s : State) : Prop where
  sound : s.Sound
  some : s.tokens ≠ []
  count : s.tokens.length + c ≤ n + 1

theorem Upon.mono (h : s.Upon n c) (hc : c' ≤ c) : s.Upon n c' where
  sound := h.sound
  some := h.some
  count := (Nat.add_le_add_left hc _).trans h.count

/-- A token that is looked at and is not the end of input has been read. -/
theorem Before.upon (h : s.Before n c) (hk : s.current.kind ≠ .eof) : s.Upon n (c + 1) where
  sound := h.sound
  some := by
    intro hnil
    rw [current, hnil] at hk
    exact hk h.sound.eof
  count := Nat.succ_le_succ h.count

theorem Upon.advance (h : s.Upon n c) : (Parser.advance s).2.Before n c where
  sound := Parser.sound_advance h.sound
  count := by
    have hpos := List.length_pos_iff.mpr h.some
    have hcount := h.count
    show s.tokens.tail.length + c ≤ n
    rw [List.length_tail]
    omega

theorem Upon.next (h : s.Upon n c) (hk : s.next.kind ≠ .eof) : (Parser.advance s).2.Upon n (c + 1) :=
  h.advance.upon (by rwa [Parser.current_advance])

theorem still_before : Still (Before n c) := by
  rintro s t htokens heof ⟨⟨hsound, hend⟩, hcount⟩
  exact ⟨⟨htokens ▸ hsound, heof ▸ hend⟩, htokens ▸ hcount⟩

theorem still_upon : Still (Upon n c) := by
  rintro s t htokens heof ⟨⟨hsound, hend⟩, hsome, hcount⟩
  exact ⟨⟨htokens ▸ hsound, heof ▸ hend⟩, htokens ▸ hsome, htokens ▸ hcount⟩

end State

namespace Parser

open State Pattern

variable {α β : Type} {n c room : Nat} {k : TokenKind} {I : State → Prop} {J : α → State → Prop}

namespace Leads

theorem forward {f : Unit → Parser α} (h : ∀ u, Leads (Before n c) (f u) J) :
    Leads (Upon n c) (Parser.advance >>= f) J := by
  refine bind (K := fun _ => Before n c) (fun s hs a t hrun => ?_) h
  cases hrun
  exact hs.advance

/-- A token that has to be there. -/
theorem required {expected : String} {f : Unit → Parser α} (hk : k ≠ .eof)
    (h : ∀ u, Leads (Upon n (c + 1)) (f u) J) :
    Leads (Upon n c) (Parser.expect k expected >>= f) J := by
  refine bind (K := fun _ => Upon n (c + 1)) (fun s hs a t hrun => ?_) h
  rw [expect_run] at hrun
  split at hrun
  · rename_i hnext
    cases hrun
    exact hs.next (hnext ▸ hk)
  · have hnever : Leads (Upon n c) (rejectNext expected) fun _ : Unit => Upon n (c + 1) :=
      leads_refused (refuses_rejectNext expected)
    exact hnever s hs a t hrun

/-- A choice by a token that may be there. -/
theorem choice {p q : Parser α} (hk : k ≠ .eof) (hI : ∀ s, I s → s.Upon n c)
    (hp : Leads (Upon n (c + 1)) p J) (hq : Leads I q J) :
    Leads I (Parser.skip k >>= fun b => if b = true then p else q) J := by
  intro s hs a t hrun
  have hskip := skip_run k s
  by_cases hnext : s.next.kind = k
  · rw [if_pos hnext] at hskip
    rw [run_bind_some hskip] at hrun
    exact hp _ ((hI s hs).next (hnext ▸ hk)) a t hrun
  · rw [if_neg hnext] at hskip
    rw [run_bind_some hskip] at hrun
    exact hq s hs a t hrun

/-- A choice by whether one of two tokens is there. -/
theorem either {k l : TokenKind} {p q : Parser α} (hk : k ≠ .eof) (hl : l ≠ .eof)
    (hp : Leads (Upon n (c + 1)) p J) (hq : Leads (Upon n c) q J) :
    Leads (Upon n c) (Parser.skipEither k l >>= fun b => if b = true then p else q) J := by
  intro s hs a t hrun
  have hskip := skipEither_run k l s
  by_cases hnext : s.next.kind = k ∨ s.next.kind = l
  · rw [if_pos hnext] at hskip
    rw [run_bind_some hskip] at hrun
    refine hp _ (hs.next ?_) a t hrun
    rcases hnext with hnext | hnext
    · exact hnext ▸ hk
    · exact hnext ▸ hl
  · rw [if_neg hnext] at hskip
    rw [run_bind_some hskip] at hrun
    exact hq s hs a t hrun

/-- A choice by the kind of the next token, which is read if it is of the right kind. -/
theorem look {f : State → Bool} {P : TokenKind → Prop} {p q : Parser α}
    (hf : ∀ s, f s = true → P s.next.kind) (hp : Leads (fun s => s.Before n c ∧ P s.current.kind) p J)
    (hq : Leads (Upon n c) q J) : Leads (Upon n c) (Parser.observe f >>= fun b =>
      if b = true then Parser.advance >>= fun _ => p else q) J := by
  intro s hs a t hrun
  change (if f s = true then Parser.advance >>= fun _ => p else q) s = (some a, t) at hrun
  split at hrun
  · rename_i hb
    refine hp (Parser.advance s).2 ⟨hs.advance, ?_⟩ a t hrun
    rw [current_advance]
    exact hf s hb
  · exact hq s hs a t hrun

/-- What stands behind an item: a comma, or the closing token. -/
theorem separator {γ δ : Type} {R : γ → State → Prop} {J : δ → State → Prop} {x : γ} {y : δ}
    {close : TokenKind} {expected : String} (hclose : close ≠ .eof)
    (hR : ∀ s, State.Upon n (c + 1) s → R x s) (hJ : ∀ s, State.Upon n (c + 1) s → J y s) :
    Leads (Upon n c) (do
        if ← Parser.skip .comma then return .again x
        else
          Parser.expect close expected
          return .done y) (Behind R J) :=
  choice (by decide) (fun _ => id) (pure hR) (required hclose fun _ => pure hJ)

end Leads

/-- **A parser that takes as many tokens as what it returns costs**, or more; the last one is current
when it is done.  What it returns satisfies `Q`. -/
def Takes (cost : α → Nat) (Q : α → Prop) (p : Parser α) : Prop :=
  ∀ n c, Leads (Before n c) p fun a s => s.Upon n (c + cost a) ∧ Q a

namespace Takes

variable {cost : α → Nat} {Q : α → Prop}

/-- Costs of items, each with a token behind it. -/
def total (cost : α → Nat) (as : List α) : Nat := (as.map fun a => cost a + 1).sum

theorem total_snoc (cost : α → Nat) (as : List α) (a : α) :
    total cost (as ++ [a]) = total cost as + cost a + 1 := by
  rw [total, List.map_append, List.sum_append, List.map_singleton, List.sum_singleton]
  rfl

/-- Items up to a closing token. -/
theorem commaList {item : Parser α} {close : TokenKind} (h : Takes cost Q item) (hclose : close ≠ .eof)
    (expected : String) : Leads (Upon n c) (Parser.commaList item close expected) fun as s =>
      s.Upon n (c + total cost as) ∧ ∀ a ∈ as, Q a := by
  refine Leads.iterate (R := fun as s => s.Upon n (c + total cost as) ∧ ∀ a ∈ as, Q a)
    (fun s hs => ⟨hs, List.forall_mem_nil _⟩) fun as => .fact fun has => .forward fun _ => ?_
  refine (h n _).bind fun a => .fact fun ha => ?_
  have hmore : ∀ s, State.Upon n (c + total cost as + cost a + 1) s →
      s.Upon n (c + total cost (as ++ [a])) ∧ ∀ b ∈ as ++ [a], Q b := by
    intro s hs
    rw [total_snoc, ← Nat.add_assoc, ← Nat.add_assoc]
    exact ⟨hs, forall_mem_snoc has ha⟩
  exact .separator hclose hmore hmore

theorem commaListOrNone {item : Parser α} {close : TokenKind} (h : Takes cost Q item)
    (hclose : close ≠ .eof) (expected : String) :
    Leads (Upon n c) (Parser.commaListOrNone item close expected) fun as s =>
      s.Upon n (c + total cost as) ∧ ∀ a ∈ as, Q a :=
  .choice hclose (fun _ => id)
    (.pure fun _ hs => ⟨hs.mono (Nat.le_succ c), List.forall_mem_nil _⟩)
    (h.commaList hclose expected)

end Takes

/-! ### Constants and ranges -/

theorem length_words_le (v : Literal) : v.words.length ≤ 2 := by
  cases v with
  | int i => rw [Literal.words]; split <;> simp
  | float d => rw [Literal.words]; split <;> simp
  | text s => exact Nat.le_succ 1
  | bool b => exact Nat.le_succ 1
  | unit => exact le_rfl

/-- A constant that is one token is one word. -/
theorem length_words_of_sound {x : Token} (hx : x.Sound) (hk : x.kind ∈ TokenKind.constants) :
    (x.value.getD .unit).words.length = 1 := by
  obtain ⟨hunsigned, hstart⟩ := hx.constant hk
  cases hv : x.value.getD .unit with
  | int i =>
    rw [hv] at hunsigned
    rw [Literal.words, if_neg (by have := hunsigned.1; omega)]
    rfl
  | float d =>
    rw [hv] at hunsigned
    rw [Literal.words, hunsigned.2]
    rfl
  | text s => rfl
  | bool b => rfl
  | unit =>
    rw [hv] at hstart
    cases hstart

theorem takes_bound : Takes (fun b => b.value.words.length) (fun _ => True) bound := by
  intro n c
  have hone : ∀ x : Token, x.kind ∈ TokenKind.constants →
      Leads (fun s => s.Before n c ∧ s.current = x) (pure ⟨⟨x, x.span⟩, x.value.getD .unit⟩)
        fun (b : Bound) s => s.Upon n (c + b.value.words.length) ∧ True := by
    refine fun x hk => .pure fun s hs => ⟨?_, trivial⟩
    obtain ⟨hs, rfl⟩ := hs
    show s.Upon n (c + (s.current.value.getD .unit).words.length)
    rw [length_words_of_sound hs.sound.current hk]
    exact hs.upon fun heof => absurd (heof ▸ hk) (by decide)
  refine .start fun x => ?_
  split
  iterate 5 exact hone x (by rw [‹x.kind = _›]; decide)
  · rename_i hk
    refine .of (I := Upon n (c + 1)) (.peek fun y => .ite (fun hnumber => ?_) fun _ =>
      leads_refused (refuses_rejectNext _)) ?_
    · have hy : y.kind ≠ .eof := by
        rintro heof
        simp [heof] at hnumber
      refine .bind (K := fun _ => Upon n (c + 2)) (fun s hs a t hrun => ?_) fun _ => .mark fun m =>
        .pure fun s hs => ⟨hs.mono (Nat.add_le_add_left (length_words_le _) c), trivial⟩
      cases hrun
      exact hs.1.next (hs.2 ▸ hy)
    · rintro s ⟨hs, rfl⟩
      exact hs.upon (by rw [hk]; decide)
  · exact leads_refused (refuses_reject _ _ _)

/-- A choice whether a bound follows. -/
theorem leads_stop {p q : Parser α} (hp : Leads (fun s => s.Before n c ∧ s.current.kind ≠ .eof) p J)
    (hq : Leads (Upon n c) q J) : Leads (Upon n c) (nextStartsBound >>= fun b =>
      if b = true then advance >>= fun _ => p else q) J := by
  refine .look (P := (· ≠ .eof)) (fun s hs => ?_) hp hq
  revert hs
  cases s.next.kind <;> simp

/-- Where the parser gives up, it has not moved. -/
def Stays (p : Parser α) (s : State) : Prop :=
  (p s).1 = none → (p s).2.tokens = s.tokens ∧ (p s).2.eof = s.eof

theorem stays_current {f : Token → Parser α} {s : State} (h : Stays (f s.current) s) :
    Stays (current >>= f) s := h

theorem stays_next {f : Token → Parser α} {s : State} (h : Stays (f s.next) s) :
    Stays (next >>= f) s := h

theorem stays_bound (s : State) : Stays bound s := by
  refine stays_current ?_
  split
  iterate 5 exact fun hnone => nomatch hnone
  · refine stays_next ?_
    split
    · exact fun hnone => nomatch hnone
    · refine stays_next ?_
      split <;> exact fun _ => ⟨rfl, rfl⟩
  · exact fun _ => ⟨rfl, rfl⟩

theorem takes_rangeAfter (start : Bound) :
    Leads (Upon n (c + start.value.words.length + 1)) (rangeAfter start) fun p s =>
      s.Upon n (c + p.cost .primary) ∧ p.isStartless = false ∧ p.depth .primary = 1 := by
  refine .current fun op => leads_stop (.of ?_ fun s hs => hs.1) (.ite (fun _ => ?_) fun _ => ?_)
  · refine (takes_bound n _).bind fun stop => .fact fun _ => .current fun last => .pure fun s hs => ?_
    refine ⟨hs.mono ?_, rfl, rfl⟩
    simp only [Pattern.cost, Pattern.boundWords]
    omega
  · exact leads_refused (refuses_rejectNext _)
  · refine .pure fun s hs => ⟨hs.mono ?_, rfl, rfl⟩
    simp only [Pattern.cost, Pattern.boundWords, List.length_nil]
    omega

/-- A range without start; where its bound cannot be read, there is none. -/
theorem takes_rangeBefore : Leads (Upon n (c + 1)) rangeBefore fun p s =>
    s.Upon n (c + p.cost .primary) ∧ p.depth .primary = 1 := by
  refine .current fun op => leads_stop ?_ (leads_refused (refuses_rejectNext _))
  refine .bind (K := fun stop => Upon n (c + 1 + (Pattern.boundWords stop).length)) ?_ fun stop =>
    .mark fun m => .pure fun s hs => ⟨hs.mono ?_, rfl⟩
  · rintro s ⟨hs, hk⟩ stop t hrun
    dsimp only at hrun
    split at hrun
    · rename_i b s' hbound
      cases hrun
      exact (takes_bound n _ s hs b _ hbound).1
    · rename_i s' hbound
      cases hrun
      have hstays := stays_bound s (by rw [hbound])
      rw [hbound] at hstays
      have hupon := (hs.upon hk).mono (Nat.le_succ _)
      exact still_upon s _ hstays.1 hstays.2 hupon
  · simp only [Pattern.cost, Pattern.boundWords, List.length_nil]
    omega

/-! ### Patterns -/

section Patterns

variable {alternatives primary inner : Parser Pattern}

theorem takes_nestedPattern (h : Takes (cost .arm) (·.depth .arm ≤ room) alternatives) :
    Takes (cost .nested) (·.depth .nested ≤ room) (nestedPattern alternatives) := by
  intro n c
  rw [nestedPattern_eq]
  refine (h n c).bind fun p => .iterate
    (R := fun p s => s.Upon n (c + p.cost .nested) ∧ p.depth .nested ≤ room) ?_ fun p =>
      .fact fun hp => ?_
  · exact fun s hs =>
      ⟨hs.1.mono (Nat.add_le_add_left p.cost_nested_le c), p.depth_nested_le.trans hs.2⟩
  · refine .choice (by decide) (fun _ => id) ?_ (.pure fun s hs => ⟨hs, hp⟩)
    refine .current fun x => .required (by decide) fun _ => .current fun y => .pure fun s hs => ?_
    exact ⟨hs, hp⟩

/-- One pattern that has been read, other than a range without start. -/
def Solid (room n c : Nat) (p : Pattern) (s : State) : Prop :=
  s.Upon n (c + p.cost .primary) ∧ p.isStartless = false ∧ p.depth .primary ≤ room + 1

theorem Solid.start {p : Pattern} {s : State} (h : Solid room n c p s) (k : TokenKind) :
    s.Upon n (c + p.costFrom k) ∧ p.depth .primary ≤ room + 1 := by
  obtain ⟨hs, hstart, hdepth⟩ := h
  rw [costFrom_eq (.inl hstart)]
  exact ⟨hs, hdepth⟩

/-- A pattern of one token. -/
theorem solid_of_token {p : Pattern} {s : State} (hs : s.Upon n (c + 1)) (hcost : p.cost .primary = 1)
    (hstart : p.isStartless = false) (hdepth : p.depth .primary = 1) : Solid room n c p s :=
  ⟨hcost ▸ hs, hstart, hdepth.le.trans (Nat.succ_le_succ (Nat.zero_le _))⟩

/-- A constant, or a range that starts with one. -/
theorem takes_constantPattern : Leads (Before n c) (do
    let b ← bound
    if ← skipEither .dotDot .dotDotEq then rangeAfter b else return .literal b.mark b.value)
    (Solid room n c) := by
  refine (takes_bound n c).bind fun b => .fact fun _ => .either (by decide) (by decide) ?_ ?_
  · exact (takes_rangeAfter b).mono fun p s hs =>
      ⟨hs.1, hs.2.1, hs.2.2.le.trans (Nat.succ_le_succ (Nat.zero_le _))⟩
  · exact .pure fun s hs => ⟨hs, rfl, Nat.succ_le_succ (Nat.zero_le _)⟩

/-- An item of a slice that nests no deeper than `room`. -/
def ItemFits (room : Nat) (item : SliceItem Pattern) : Prop :=
  ∀ p, item = .element p → p.depth .nested ≤ room

/-- Items of a slice have been read, and a comma or bracket in front of each place for one. -/
def ItemsRead (room n c : Nat) (items : List (SliceItem Pattern)) (s : State) : Prop :=
  s.Upon n (c + 1 + Takes.total itemCost items) ∧ ∀ item ∈ items, ItemFits room item

theorem takes_slicePattern (h : Takes (cost .nested) (·.depth .nested ≤ room) inner) :
    Leads (Upon n (c + 1)) (slicePattern inner) (Solid room n c) := by
  have hitem : ∀ items : List (SliceItem Pattern), (∀ item ∈ items, ItemFits room item) →
      ∀ item, ItemFits room item →
      Leads (Upon n (c + 1 + Takes.total itemCost items + itemCost item)) (do
          if ← skip .comma then return .again (items ++ [item])
          else
            expect .rbracket ", or ]"
            return .done (items ++ [item]))
        (Leads.Behind (ItemsRead room n c) fun items s => ItemsRead room n c items s ∧ items ≠ []) := by
    intro items hitems item hfits
    have hread : ∀ s, State.Upon n (c + 1 + Takes.total itemCost items + itemCost item + 1) s →
        ItemsRead room n c (items ++ [item]) s := by
      refine fun s hs => ⟨?_, forall_mem_snoc hitems hfits⟩
      rw [Takes.total_snoc, ← Nat.add_assoc, ← Nat.add_assoc]
      exact hs
    exact .separator (by decide) hread fun s hs => ⟨hread s hs, by simp⟩
  refine .current fun start => .choice (by decide) (fun _ => id) ?_ ?_
  · exact .mark fun m => .pure fun s hs => ⟨hs, rfl, Nat.succ_le_succ (Nat.zero_le _)⟩
  refine .bind (K := fun items s => ItemsRead room n c items s ∧ items ≠ []) (.iterate
    (R := ItemsRead room n c) (fun s hs => ⟨hs, List.forall_mem_nil _⟩) fun items =>
      .fact fun hitems => .forward fun _ => .start fun x => .observe fun b => .ite (fun hrest => ?_) fun _ => ?_) fun items =>
        .fact fun hne => .fact fun hitems => .mark fun m => .pure fun s hs => ⟨?_, rfl, ?_⟩
  · -- a rest marker, with a name or without
    have hrests : ∀ name span, ItemFits room (.rest name span) := fun _ _ p hp => nomatch hp
    have hk : x.kind ≠ .eof := by
      simp only [Bool.and_eq_true, decide_eq_true_eq] at hrest
      rw [hrest.1]
      decide
    refine .of (I := Upon n (c + 1 + Takes.total itemCost items + 1))
      (.choice (by decide) (fun _ => id) ?_ ?_) (by rintro s ⟨hs, rfl⟩; exact hs.upon hk)
    · refine .current fun name => .given ((hitem items hitems _ (hrests _ _)).of fun s hs => ?_)
      refine hs.mono ?_
      simp only [itemCost]
      split <;> omega
    · exact .given (hitem items hitems (.rest "" x.span) (hrests _ _))
  · refine .of (.bind (h n _) fun p => .fact fun hp => .given (hitem items hitems (.element p) ?_))
      fun s hs => hs.1
    rintro q ⟨⟩
    exact hp
  · have hempty : items.isEmpty = false := List.isEmpty_eq_false_iff.mpr hne
    refine hs.mono ?_
    rw [cost, hempty, costItems_eq]
    show c + ((items.map fun item => itemCost item + 1).sum + 0 + 1) ≤ _
    rw [Takes.total]
    omega
  · rw [Pattern.depth, wrapped, if_pos rfl]
    exact Nat.succ_le_succ (depthItems_le_iff.mpr fun p hp => hitems _ hp p rfl)

/-- A field of a record that nests no deeper than `room`, if it is written out. -/
def FieldFits (room : Nat) (f : String × Pattern) : Prop :=
  f.2.isVar f.1 = false → f.2.depth .nested ≤ room

/-- Fields of a record have been read, and `..` behind them if there is a rest. -/
def FieldsRead (room n c : Nat) (fs : List (String × Pattern)) (hasRest : Bool) (s : State) : Prop :=
  s.Upon n (c + Takes.total fieldCost fs + if hasRest then 2 else 0) ∧ ∀ f ∈ fs, FieldFits room f

theorem takes_recordFields (h : Takes (cost .nested) (·.depth .nested ≤ room) inner) :
    Leads (Upon n c) (recordFields inner) fun r s =>
      FieldsRead room n c r.1 r.2 s ∧ (r.2 = true ∨ r.1 ≠ []) := by
  rw [recordFields_eq]
  refine .iterate (R := fun fs => FieldsRead room n c fs false)
    (fun s hs => ⟨hs, List.forall_mem_nil _⟩) fun fs =>
      .fact fun hfs => .forward fun _ => .start fun x => ?_
  have hfield : ∀ f : String × Pattern, FieldFits room f →
      Leads (Upon n (c + Takes.total fieldCost fs + fieldCost f)) (do
          if ← skip .comma then return .again (fs ++ [f])
          else
            expect .rbrace ", or \x7d"
            return .done (fs ++ [f], false))
        (Leads.Behind (fun fs => FieldsRead room n c fs false) fun r s =>
          FieldsRead room n c r.1 r.2 s ∧ (r.2 = true ∨ r.1 ≠ [])) := by
    intro f hfits
    have hread : ∀ s, State.Upon n (c + Takes.total fieldCost fs + fieldCost f + 1) s →
        FieldsRead room n c (fs ++ [f]) false s := by
      refine fun s hs => ⟨?_, forall_mem_snoc hfs hfits⟩
      rw [Takes.total_snoc, ← Nat.add_assoc, ← Nat.add_assoc]
      exact hs
    exact .separator (by decide) hread fun s hs => ⟨hread s hs, .inr (by simp)⟩
  have hupon : x.kind ≠ .eof → ∀ s : State,
      s.Before n (c + Takes.total fieldCost fs) ∧ s.current = x →
      s.Upon n (c + Takes.total fieldCost fs + 1) := by
    rintro hk s ⟨hs, rfl⟩
    exact hs.upon hk
  refine .of (I := fun s => s.Before n (c + Takes.total fieldCost fs) ∧ s.current = x) ?_
    fun s hs => hs
  split
  · rename_i hk
    refine .of (.required (by decide) fun _ => .pure fun s hs => ?_) (hupon (by rw [hk]; decide))
    exact ⟨⟨hs, hfs⟩, .inl rfl⟩
  · rename_i hk
    refine .of (.choice (by decide) (fun _ => id) ?_ ?_) (hupon (by rw [hk]; decide))
    · refine .forward fun _ => (h n _).bind fun p => .fact fun hp => ?_
      refine (hfield (x.text, p) fun _ => hp).of fun s hs => hs.mono ?_
      simp only [fieldCost]
      split <;> omega
    · refine .given ((hfield _ fun hvar => ?_).of fun s hs => hs.mono ?_)
      · simp [isVar] at hvar
      · simp only [fieldCost, isVar]
        simp
  · exact leads_refused (refuses_reject _ _ _)

theorem takes_recordPattern (h : Takes (cost .nested) (·.depth .nested ≤ room) inner) :
    Leads (Upon n (c + 1)) (recordPattern inner) (Solid room n c) := by
  refine .current fun start => .choice (by decide) (fun _ => id) ?_ ?_
  · exact .mark fun m => .pure fun s hs => ⟨hs, rfl, Nat.succ_le_succ (Nat.zero_le _)⟩
  refine .bind (takes_recordFields h) fun r => .fact fun hne => .fact fun hfits => .mark fun m =>
    .pure fun s hs => ⟨hs.mono ?_, rfl, ?_⟩
  · rw [cost, costFields_eq]
    show c + ((r.1.map fun f => fieldCost f + 1).sum + _ + 1) ≤ _
    rw [Takes.total]
    cases hrest : r.2 with
    | true =>
      simp only [if_true]
      omega
    | false =>
      have hempty : r.1.isEmpty = false :=
        List.isEmpty_eq_false_iff.mpr (hne.resolve_left (by rw [hrest]; decide))
      rw [hempty]
      simp only [Bool.false_eq_true, if_false]
      omega
  · rw [Pattern.depth, wrapped, if_pos rfl]
    exact Nat.succ_le_succ (depthFields_le_iff.mpr hfits)

/-- A pattern in parentheses, a tuple, or the empty one. -/
theorem takes_groupPattern (k : TokenKind) (h : Takes (cost .nested) (·.depth .nested ≤ room) inner) :
    Leads (Upon n (c + 1)) (groupPattern inner) fun p s =>
      s.Upon n (c + p.costFrom k) ∧ p.depth .primary ≤ room + 1 := by
  refine .current fun start => .choice (by decide) (fun _ => id) ?_ ?_
  · exact .mark fun m => .pure fun s hs => ⟨hs, Nat.succ_le_succ (Nat.zero_le _)⟩
  refine .bind (h.commaList (by decide) _) fun ps => .fact fun hps => ?_
  split
  · rename_i p
    refine .pure fun s hs => ⟨hs.mono ?_, ?_⟩
    · have hle := p.costFrom_le k
      simp only [Takes.total, List.map_singleton, List.sum_singleton]
      omega
    · exact p.depth_primary_le.trans (Nat.succ_le_succ (hps p (List.mem_singleton_self p)))
  · refine .mark fun m => .pure fun s hs => ⟨hs.mono ?_, ?_⟩
    · rw [costFrom_eq (.inl rfl), cost, costAll_eq]
      show c + ((ps.map fun p => cost .nested p + 1).sum + 1) ≤ _
      rw [Takes.total]
      omega
    · rw [Pattern.depth, wrapped, if_pos rfl]
      exact Nat.succ_le_succ (depthAll_le_iff.mpr hps)

theorem takes_recognizerName : Leads (Upon n (c + 1)) recognizerName fun r =>
    Upon n (c + (r.2.words r.1).length) := by
  refine .required (by decide) fun _ => .required (by decide) fun _ => .current fun name => ?_
  have hend : ∀ (d : Nat) (kind : RecognizerKind), (kind.words name.text).length = d + 1 →
      Leads (Upon n (c + d)) (do
        expect .rparen ")"
        return (name.text, kind)) fun r => Upon n (c + (r.2.words r.1).length) := by
    intro d kind hlength
    refine .required (by decide) fun _ => .pure fun s hs => ?_
    rw [hlength]
    exact hs
  refine .required (by decide) fun _ => .choice (by decide) (fun _ => id) ?_ ?_
  · exact .required (by decide) fun _ => .given (hend 6 .optional rfl)
  · exact .given (hend 4 .total rfl)

/-- A parser of one pattern, from whatever token it starts with. -/
def TakesFrom (room : Nat) (primary : Parser Pattern) : Prop :=
  ∀ n c k, Leads (fun s => s.Before n c ∧ s.current.kind = k) primary fun p s =>
    s.Upon n (c + p.costFrom k) ∧ p.depth .primary ≤ room

theorem TakesFrom.takes (h : TakesFrom room primary) :
    Takes (cost .primary) (·.depth .primary ≤ room) primary := by
  intro n c s hs p t hrun
  obtain ⟨hread, hdepth⟩ := h n c s.current.kind s ⟨hs, rfl⟩ p t hrun
  exact ⟨hread.mono (Nat.add_le_add_left (cost_le_costFrom _ p) _), hdepth⟩

theorem takes_activePattern (h : TakesFrom room primary) :
    Leads (Upon n (c + 1)) (activePattern primary) (Solid room n c) := by
  refine .current fun start => takes_recognizerName.bind fun r => ?_
  refine .look (P := fun k => k ≠ .dotDot ∧ k ≠ .dotDotEq) (fun s hs => ?_) ?_ ?_
  · revert hs
    cases s.next.kind <;> simp
  · refine .bind (K := fun p s => s.Upon n (c + (r.2.words r.1).length
      + (p.cost .primary + if p.isStartless = true then 2 else 0)) ∧ p.depth .primary ≤ room) ?_ fun p =>
        .fact fun hp => .given (.mark fun m => .pure fun s hs => ⟨hs.mono ?_, rfl, Nat.succ_le_succ hp⟩)
    · intro s hs p t hrun
      obtain ⟨hread, hdepth⟩ := h n (c + (r.2.words r.1).length) s.current.kind s ⟨hs.1, rfl⟩ p t hrun
      rw [costFrom_of_ne hs.2] at hread
      exact ⟨hread, hdepth⟩
    · rw [cost]
      omega
  · exact .given (.mark fun m => .pure fun s hs => ⟨hs, rfl, Nat.succ_le_succ (Nat.zero_le _)⟩)

/-- A name, or one that is given to the pattern behind `@`. -/
theorem takes_namePattern (h : TakesFrom room primary) (x : Token) :
    Leads (Upon n (c + 1)) (do
      if ← skip .atSign then
        advance
        let p ← primary
        return .binding (← markFrom x) x.text true p
      else return .var ⟨x, x.span⟩ x.text) (Solid room n c) := by
  refine .choice (by decide) (fun _ => id) ?_ (.pure fun s hs => solid_of_token hs rfl rfl rfl)
  refine .forward fun _ => (h.takes n (c + 2)).bind fun p => .fact fun hdepth => .mark fun m =>
    .pure fun s hs => ⟨?_, rfl, Nat.succ_le_succ hdepth⟩
  rw [cost, Nat.add_comm (cost .primary p), ← Nat.add_assoc]
  exact hs

/-- A constructor and its arguments. -/
theorem takes_constructPattern (h : Takes (cost .nested) (·.depth .nested ≤ room) inner) (x : Token) :
    Leads (Upon n (c + 1)) (do
      let args ← if ← skip .lparen then commaListOrNone inner .rparen ")" else pure []
      return .construct (← markFrom x) x.text args) (Solid room n c) := by
  refine .choice (by decide) (fun _ => id) ?_ (.given (.mark fun m => .pure fun s hs => ?_))
  · refine (h.commaListOrNone (by decide) _).bind fun ps => .fact fun hps => .mark fun m =>
      .pure fun s hs => ⟨hs.mono ?_, rfl, Nat.succ_le_succ (depthAll_le_iff.mpr hps)⟩
    rw [cost, costAll_eq, Takes.total]
    split <;> omega
  · exact ⟨hs, rfl, Nat.succ_le_succ (Nat.zero_le _)⟩

/-- What one pattern takes, if what it is written over does. -/
theorem takesFrom_primaryBody (ha : Takes (cost .arm) (·.depth .arm ≤ room) alternatives)
    (hp : TakesFrom room primary) : TakesFrom (room + 1) (primaryBody alternatives primary) := by
  intro n c k
  have hinner := takes_nestedPattern ha
  refine .start fun x => ?_
  have hupon : x.kind ≠ .eof → ∀ s : State, (s.Before n c ∧ s.current.kind = k) ∧ s.current = x →
      s.Upon n (c + 1) := by
    rintro hx s ⟨⟨hs, -⟩, rfl⟩
    exact hs.upon hx
  have hsolid : ∀ {q : Parser Pattern}, x.kind ≠ .eof →
      Leads (Upon n (c + 1)) q (Solid room n c) →
      Leads (fun s => (s.Before n c ∧ s.current.kind = k) ∧ s.current = x) q
        fun p s => s.Upon n (c + p.costFrom k) ∧ p.depth .primary ≤ room + 1 :=
    fun hx hq => (hq.of (hupon hx)).mono fun p s hs => hs.start k
  have hdots : (x.kind = .dotDot ∨ x.kind = .dotDotEq) →
      Leads (fun s => (s.Before n c ∧ s.current.kind = k) ∧ s.current = x) rangeBefore
      fun p s => s.Upon n (c + p.costFrom k) ∧ p.depth .primary ≤ room + 1 := by
    rintro hx s ⟨⟨hs, hk⟩, rfl⟩ p t hrun
    have hne : s.current.kind ≠ .eof := by
      rcases hx with hx | hx <;> rw [hx] <;> decide
    obtain ⟨hread, hdepth⟩ := takes_rangeBefore s (hs.upon hne) p t hrun
    rw [costFrom_eq (.inr (hk ▸ hx))]
    exact ⟨hread, hdepth.le.trans (Nat.succ_le_succ (Nat.zero_le _))⟩
  split
  · rename_i hx
    exact hsolid (by rw [hx]; decide) (.pure fun s hs => solid_of_token hs rfl rfl rfl)
  · rename_i hx
    exact hsolid (by rw [hx]; decide) (takes_namePattern hp x)
  iterate 6 exact (takes_constantPattern.of fun s hs => hs.1.1).mono fun p s hs => hs.start k
  · rename_i hx
    exact hdots (.inl hx)
  · rename_i hx
    exact hdots (.inr hx)
  · rename_i hx
    exact hsolid (by rw [hx]; decide) (takes_constructPattern hinner x)
  · rename_i hx
    refine .of (.observe fun b => .ite (fun _ => ?_) fun _ => ?_) (hupon (by rw [hx]; decide))
    · exact (takes_activePattern hp).mono fun p s hs => hs.start k
    · exact takes_groupPattern k hinner
  · rename_i hx
    exact hsolid (by rw [hx]; decide) (takes_slicePattern hinner)
  · rename_i hx
    exact hsolid (by rw [hx]; decide) (takes_recordPattern hinner)
  · rename_i hx
    exact hsolid (by rw [hx]; decide) (.pure fun s hs => solid_of_token hs rfl rfl rfl)
  · exact leads_refused (refuses_rejectEnd _ _)
  · exact leads_refused (refuses_reject _ _ _)

/-- Alternatives have been read, and a bar in front of each but the first. -/
def AlternativesRead (room n c : Nat) (ps : List Pattern) (s : State) : Prop :=
  s.Upon n (c + (Takes.total (cost .primary) ps - 1)) ∧ ∀ p ∈ ps, p.depth .primary ≤ room

/-- What alternatives take, if one pattern does. -/
theorem takes_alternativesBody (h : TakesFrom room primary) :
    Takes (cost .arm) (·.depth .arm ≤ room + 1) (alternativesBody primary) := by
  intro n c
  refine (h.takes n c).bind fun first => .fact fun hfirst => .peek fun bar =>
    .ite (fun _ => ?_) fun _ => ?_
  · refine .bind (K := AlternativesRead room n c) (.iterate (R := AlternativesRead room n c) ?_
      fun ps => ?_) fun ps => .fact fun hps => .current fun last => .pure fun s hs => ⟨?_, ?_⟩
    · rintro s ⟨hs, -⟩
      refine ⟨?_, by simpa using hfirst⟩
      simpa [Takes.total] using hs
    · refine .fact fun hps => .choice (by decide) (fun _ => id) ?_ (.pure fun s hs => ⟨hs, hps⟩)
      refine .forward fun _ => (h.takes n _).bind fun p => .fact fun hp => .pure fun s hs => ?_
      refine ⟨hs.mono ?_, forall_mem_snoc hps hp⟩
      rw [Takes.total_snoc]
      omega
    · rw [cost, costAll_eq]
      exact hs
    · have hdepth : Pattern.depth .arm (.or ⟨bar, first.span.join last.span⟩ ps)
          = depthAll .primary ps + 1 := by
        rw [Pattern.depth]
        rfl
      exact hdepth.le.trans (Nat.succ_le_succ (depthAll_le_iff.mpr hps))
  · exact .pure fun s hs => ⟨hs.1.mono (Nat.add_le_add_left first.cost_arm_le c),
      first.depth_arm_le.trans (Nat.succ_le_succ hfirst)⟩

end Patterns

/-- **What patterns take**, at any level of nesting. -/
theorem takes_pattern (room : Nat) : TakesFrom room (primaryWithin room) ∧
    Takes (cost .arm) (·.depth .arm ≤ room) (orWithin room) := by
  induction room with
  | zero => exact ⟨fun _ _ _ => leads_refused refuses_tooDeep, fun _ _ => leads_refused refuses_tooDeep⟩
  | succ room ih =>
    obtain ⟨hp, ha⟩ := ih
    refine ⟨fun n c k => ?_, fun n c => ?_⟩
    · exact .nested (still_before.and (still_current k)) (fun p => still_upon.fact _)
        (takesFrom_primaryBody ha hp n c k)
    · exact .nested still_before (fun p => still_upon.fact _) (takes_alternativesBody hp n c)

end Parser

end PatternPlan.Surface
