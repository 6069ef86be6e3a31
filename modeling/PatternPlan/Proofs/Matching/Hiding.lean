import PatternPlan.Proofs.Matching.Unreachable

/-!
# Alternatives that match everything hide nothing

Alternatives that do not all match every value hide later arms only through those that do not.

* `Pattern.matchesAll_shadowing`, `Pattern.shadowing_of_matchesAll` — the hiding part of a pattern
  matches every value if and only if the pattern does, and then it is the pattern;
* `Pattern.shadowing_shadowing` — **the hiding part of a hiding part is itself**;
* `Pattern.refutable` — alternatives without those that match every value;
* `findingsFrom_set` — what is found about later arms rests on nothing but the hiding part of an arm;
* `shadowing_partly` — the hiding part is stable, accepts less than the pattern, and deleting the
  alternatives that match every value changes nothing that is found about later arms.
-/

namespace PatternPlan.Typed

open Pattern

namespace Pattern

/-! ### Patterns that match every value -/

theorem allMatchAll_iff {ps : List Pattern} :
    allMatchAll ps = true ↔ ∀ p ∈ ps, p.matchesAll = true := by
  induction ps with
  | nil => simp [allMatchAll]
  | cons p ps ih => simp [allMatchAll, ih]

theorem allMatchAll_eq_false {ps : List Pattern} :
    allMatchAll ps = false ↔ ∃ p ∈ ps, p.matchesAll = false := by
  rw [← Bool.not_eq_true, allMatchAll_iff]
  simp

theorem fieldsMatchAll_iff {fs : List (String × Pattern)} :
    fieldsMatchAll fs = true ↔ ∀ f ∈ fs, f.2.matchesAll = true := by
  induction fs with
  | nil => simp [fieldsMatchAll]
  | cons f fs ih => simp only [fieldsMatchAll, Bool.and_eq_true, ih, List.forall_mem_cons]

/-- A pattern that matches every value hides with all of it. -/
theorem shadowing_of_matchesAll {p : Pattern} (h : p.matchesAll = true) : p.shadowing = p := by
  induction p using Pattern.induction with
  | binding i n viaAt p ih => rw [shadowing, ih h]
  | tuple i ps ih =>
    have hall := allMatchAll_iff.mp h
    rw [shadowing, shadowings_eq_map, List.map_congr_left fun p hp => ih p hp (hall p hp),
      List.map_id']
  | record i fs r ih =>
    have hall := fieldsMatchAll_iff.mp h
    have hfields : fs.map (fun f => (f.1, f.2.shadowing)) = fs.map id :=
      List.map_congr_left fun f hf => by rw [ih f hf (hall f hf), id]
    rw [shadowing, fieldShadowings_eq_map, hfields, List.map_id]
  | construct => simp [matchesAll, irrefutable] at h
  | or i ps =>
    rw [shadowing]
    exact if_pos h
  | wildcard | var | literal | slice | range | regex | call | callWith => rfl

/-! ### Alternatives in part -/

/-- The alternatives that do not match every value. -/
def refutable (ps : List Pattern) : List Pattern := ps.filter fun p => !p.matchesAll

theorem mem_refutable {p : Pattern} {ps : List Pattern} :
    p ∈ refutable ps ↔ p ∈ ps ∧ p.matchesAll = false := by
  simp [refutable]

theorem refutable_of_forall {ps : List Pattern} (h : ∀ p ∈ ps, p.matchesAll = false) :
    refutable ps = ps :=
  List.filter_eq_self.mpr fun p hp => by simp [h p hp]

theorem refutable_refutable (ps : List Pattern) : refutable (refutable ps) = refutable ps :=
  refutable_of_forall fun _ hp => (mem_refutable.mp hp).2

theorem partShadowings_eq_map (ps : List Pattern) :
    partShadowings ps = (refutable ps).map shadowing := by
  induction ps with
  | nil => rfl
  | cons p ps ih => cases h : p.matchesAll <;> simp [partShadowings, refutable, h, ih]

/-- Alternatives one of which does not match every value hide through such alternatives only. -/
theorem shadowing_or_of_exists (i : Info) {ps : List Pattern}
    (h : ∃ p ∈ ps, p.matchesAll = false) :
    shadowing (.or i ps) = ofAlternatives i ((refutable ps).map shadowing) := by
  rw [shadowing, allMatchAll_eq_false.mpr h, Bool.and_false, partShadowings_eq_map]
  exact if_neg Bool.false_ne_true

/-- An alternative that is left alone hides as it does among alternatives. -/
theorem shadowing_ofAlternatives (i : Info) {ps : List Pattern}
    (h : ∃ p ∈ ps, p.matchesAll = false) :
    shadowing (ofAlternatives i ps) = shadowing (.or i ps) := by
  rw [ofAlternatives.eq_def]
  split
  · rename_i p
    have hp : p.matchesAll = false := by simpa using h
    rw [shadowing_or_of_exists i h, refutable_of_forall (by simpa using hp), List.map_singleton,
      ofAlternatives]
  · rfl

/-! ### The hiding part of a hiding part -/

theorem matchesAll_ofAlternatives (i : Info) (ps : List Pattern) :
    (ofAlternatives i ps).matchesAll = (!ps.isEmpty && allMatchAll ps) := by
  rw [ofAlternatives.eq_def]
  split
  · simp [allMatchAll]
  · rfl

theorem allMatchAll_map {f : Pattern → Pattern} {ps : List Pattern}
    (hf : ∀ p ∈ ps, (f p).matchesAll = p.matchesAll) :
    allMatchAll (ps.map f) = allMatchAll ps := by
  rw [Bool.eq_iff_iff, allMatchAll_iff, allMatchAll_iff, List.forall_mem_map]
  apply forall₂_congr
  intro p hp
  rw [hf p hp]

theorem fieldsMatchAll_map {f : Pattern → Pattern} {fs : List (String × Pattern)}
    (hf : ∀ g ∈ fs, (f g.2).matchesAll = g.2.matchesAll) :
    fieldsMatchAll (fs.map fun g => (g.1, f g.2)) = fieldsMatchAll fs := by
  rw [Bool.eq_iff_iff, fieldsMatchAll_iff, fieldsMatchAll_iff, List.forall_mem_map]
  apply forall₂_congr
  intro g hg
  rw [hf g hg]

/-- **The hiding part of a pattern matches every value if and only if the pattern does.** -/
theorem matchesAll_shadowing (p : Pattern) : p.shadowing.matchesAll = p.matchesAll := by
  induction p using Pattern.induction with
  | binding i n viaAt p ih => exact ih
  | tuple i ps ih =>
    rw [shadowing, shadowings_eq_map]
    exact allMatchAll_map ih
  | record i fs r ih =>
    rw [shadowing, fieldShadowings_eq_map]
    exact fieldsMatchAll_map ih
  | construct => rfl
  | or i ps ih =>
    cases ps with
    | nil => rfl
    | cons p ps =>
      by_cases hall : ∃ q ∈ p :: ps, q.matchesAll = false
      · have hpart : ∃ q ∈ refutable (p :: ps), q.matchesAll = false := by
          obtain ⟨q, hq, hfalse⟩ := hall
          exact ⟨q, mem_refutable.mpr ⟨hq, hfalse⟩, hfalse⟩
        rw [shadowing_or_of_exists i hall, matchesAll_ofAlternatives,
          allMatchAll_map fun q hq => ih q (mem_refutable.mp hq).1, matchesAll,
          allMatchAll_eq_false.mpr hall, allMatchAll_eq_false.mpr hpart, Bool.and_false,
          Bool.and_false]
      · have hmatch : (or i (p :: ps)).matchesAll = true := by
          rw [← allMatchAll_eq_false, Bool.not_eq_false] at hall
          simp [matchesAll, hall]
        rw [shadowing_of_matchesAll hmatch]
  | wildcard | var | literal | slice | range | regex | call | callWith => rfl

/-- **The hiding part of a hiding part is itself.** -/
theorem shadowing_shadowing (p : Pattern) : p.shadowing.shadowing = p.shadowing := by
  induction p using Pattern.induction with
  | binding i n viaAt p ih => rw [shadowing, shadowing, ih]
  | tuple i ps ih | construct i n ps ih =>
    rw [shadowing, shadowings_eq_map, shadowing, shadowings_eq_map, List.map_map]
    congr 1
    exact List.map_congr_left ih
  | record i fs r ih =>
    rw [shadowing, fieldShadowings_eq_map, shadowing, fieldShadowings_eq_map, List.map_map]
    congr 1
    apply List.map_congr_left
    intro f hf
    simp [ih f hf]
  | or i ps ih =>
    by_cases hall : ∃ p ∈ ps, p.matchesAll = false
    · have hpart : ∀ q ∈ (refutable ps).map shadowing, q.matchesAll = false := by
        intro q hq
        obtain ⟨p, hp, rfl⟩ := List.mem_map.mp hq
        rw [matchesAll_shadowing]
        exact (mem_refutable.mp hp).2
      have hsome : ∃ q ∈ (refutable ps).map shadowing, q.matchesAll = false := by
        obtain ⟨p, hp⟩ := hall
        have hmem := List.mem_map_of_mem (f := shadowing) (mem_refutable.mpr hp)
        exact ⟨_, hmem, hpart _ hmem⟩
      rw [shadowing_or_of_exists i hall, shadowing_ofAlternatives i hsome,
        shadowing_or_of_exists i hsome, refutable_of_forall hpart, List.map_map]
      congr 1
      exact List.map_congr_left fun p hp => ih p (mem_refutable.mp hp).1
    · rw [← allMatchAll_eq_false, Bool.not_eq_false] at hall
      cases ps with
      | nil => rfl
      | cons p ps =>
        have hmatch : (or i (p :: ps)).matchesAll = true := by simp [matchesAll, hall]
        rw [shadowing_of_matchesAll hmatch, shadowing_of_matchesAll hmatch]
  | wildcard | var | literal | slice | range | regex | call | callWith => rfl

/-- Alternatives of which none was deleted that does not match every value hide the same. -/
theorem shadowing_or_congr (i : Info) {ps qs : List Pattern} (h : ∃ p ∈ ps, p.matchesAll = false)
    (heq : refutable qs = refutable ps) {q : Pattern} (hq : q = .or i qs ∨ q = ofAlternatives i qs) :
    q.shadowing = shadowing (.or i ps) := by
  have hleft : ∃ p ∈ qs, p.matchesAll = false := by
    obtain ⟨p, hp⟩ := h
    have hmem : p ∈ refutable qs := by
      rw [heq]
      exact mem_refutable.mpr hp
    exact ⟨p, mem_refutable.mp hmem⟩
  have hor : q.shadowing = shadowing (.or i qs) := by
    rcases hq with rfl | rfl
    · rfl
    · exact shadowing_ofAlternatives i hleft
  rw [hor, shadowing_or_of_exists i hleft, shadowing_or_of_exists i h, heq]

end Pattern

/-! ### Arms behind a changed arm -/

/-- The number of the arm that a finding is about. -/
def Finding.index : Finding → Nat
  | .arm i _ _ => i
  | .alternative i _ _ _ _ _ => i

theorem index_of_mem_alternativeFindings {i : Nat} {a : Arm Pattern Expr} {all : List Pattern}
    {prior : Prior} {before rest : List Pattern} {f : Finding}
    (h : f ∈ alternativeFindings i a all prior before rest) : f.index = i := by
  induction rest generalizing before with
  | nil => simp [alternativeFindings] at h
  | cons p ps ih =>
    rw [alternativeFindings] at h
    rcases List.mem_append.mp h with h | h
    · split at h
      · obtain rfl := List.mem_singleton.mp h
        rfl
      · simp at h
    · exact ih h

theorem index_of_mem_armFindings {types : TypeTable} {t : Ty} {i : Nat} {prior : Prior}
    {a : Arm Pattern Expr} {f : Finding} (h : f ∈ armFindings types t i prior a) : f.index = i := by
  rw [armFindings.eq_def] at h
  split at h
  · obtain rfl := List.mem_singleton.mp h
    rfl
  · split at h
    · exact index_of_mem_alternativeFindings h
    · simp at h

/-- What is found about the arms behind arm `k`. -/
def findingsBehind (types : TypeTable) (t : Ty) (k : Nat) (arms : List (Arm Pattern Expr)) :
    List Finding :=
  (findings types t arms).filter fun f => k < f.index

section Changed

variable {types : TypeTable} {t : Ty} {arms : List (Arm Pattern Expr)} {k : Nat}
  {a b : Arm Pattern Expr}

/-- Arms are looked at one by one, and what is kept of each is its hiding part if it has no
guard. -/
theorem findingsFrom_set (ha : arms[k]? = some a) (hguard : b.guard = a.guard)
    (hhide : b.pattern.shadowing = a.pattern.shadowing) (i : Nat) (prior : Prior) :
    (findingsFrom types t i prior (arms.set k b)).filter (fun f => i + k < f.index)
      = (findingsFrom types t i prior arms).filter (fun f => i + k < f.index) := by
  induction arms generalizing k i prior with
  | nil => simp at ha
  | cons c arms ih =>
    cases k with
    | zero =>
      obtain rfl : c = a := by simpa using ha
      -- what is found about the arm itself is not about later ones
      have hself : ∀ x, (armFindings types t i prior x).filter (fun f => i + 0 < f.index) = [] := by
        intro x
        apply List.filter_eq_nil_iff.mpr
        intro f hf
        simp [index_of_mem_armFindings hf]
      rw [List.set_cons_zero, findingsFrom, findingsFrom, List.filter_append, List.filter_append,
        hself, hself, hguard, hhide]
    | succ k =>
      rw [List.getElem?_cons_succ] at ha
      have hnext : i + (k + 1) = i + 1 + k := by omega
      rw [List.set_cons_succ, findingsFrom, findingsFrom, List.filter_append, List.filter_append,
        hnext, ih ha]

/-- **What is found about later arms rests on nothing but the guard and the hiding part of an
arm.** -/
theorem findingsBehind_set (ha : arms[k]? = some a) (hguard : b.guard = a.guard)
    (hhide : b.pattern.shadowing = a.pattern.shadowing) :
    findingsBehind types t k (arms.set k b) = findingsBehind types t k arms := by
  rw [findingsBehind, findingsBehind, findings, findings]
  simpa only [Nat.zero_add] using findingsFrom_set ha hguard hhide 0 []

end Changed

/-- **Alternatives that do not all match every value hide later arms only through those that do
not.**  The hiding part of a pattern is its own hiding part and accepts no more than the pattern.
When alternatives that match every value are deleted from those of an arm, all of them or some, what
is reported about the arms behind it stays the same; if one alternative is left, it may stand
alone. -/
theorem shadowing_partly (types : TypeTable) (t : Ty) :
    (∀ p : Pattern, p.shadowing.shadowing = p.shadowing) ∧
    (∀ (m : Meaning) (p : Pattern) (v : Value),
      p.shadowing.accepts m v = true → p.accepts m v = true) ∧
    (∀ arms, unreachableArms types t arms = (findings types t arms).map Finding.report) ∧
    ∀ (arms : List (Arm Pattern Expr)) (k : Nat) (a : Arm Pattern Expr) (i : Info)
      (ps qs : List Pattern), arms[k]? = some a → a.pattern = .or i ps →
      (∃ p ∈ ps, p.matchesAll = false) → (refutable ps).Sublist qs → qs.Sublist ps →
      ∀ q, q = .or i qs ∨ q = ofAlternatives i qs →
        findingsBehind types t k (arms.set k { a with pattern := q })
          = findingsBehind types t k arms := by
  constructor
  · exact shadowing_shadowing
  constructor
  · intro m p v h
    exact accepts_of_shadowing h
  constructor
  · exact unreachableArms_eq_map types t
  · intro arms k a i ps qs ha hp hpart hkept hdeleted q hq
    have heq : refutable qs = refutable ps := by
      apply List.Sublist.antisymm
      · exact hdeleted.filter _
      · have h := hkept.filter fun p : Pattern => !p.matchesAll
        change (refutable (refutable ps)).Sublist (refutable qs) at h
        rwa [refutable_refutable] at h
    apply findingsBehind_set ha
    · rfl
    · rw [hp]
      exact shadowing_or_congr i hpart heq hq

/-! An instance: behind `1 | _` a second `1` is reported as the fallback is, and so it is behind
`1`. -/

def numeralArms (first : Pattern) : List (Arm Pattern Expr) :=
  let info : Info := ⟨{}, .int⟩
  let arm (p : Pattern) : Arm Pattern Expr := ⟨{}, p, none, false, none, .literal info .unit⟩
  [arm first, arm (.literal info (.int 1)), arm (.wildcard info)]

theorem shadowing_partly_numeralArms :
    let info : Info := ⟨{}, .int⟩
    let one : Pattern := .literal info (.int 1)
    (∃ p ∈ [one, .wildcard info], p.matchesAll = false) ∧
      findingsBehind .builtin .int 0 (numeralArms one)
        = findingsBehind .builtin .int 0 (numeralArms (.or info [one, .wildcard info])) ∧
      (findingsBehind .builtin .int 0 (numeralArms one)).length = 1 := by
  intro info one
  have hpart : ∃ p ∈ [one, .wildcard info], p.matchesAll = false :=
    ⟨one, List.mem_cons_self, rfl⟩
  have hkeep : refutable [one, .wildcard info] = [one] := rfl
  have hsame := (shadowing_partly .builtin .int).2.2.2 (numeralArms (.or info [one, .wildcard info]))
    0 _ info [one, .wildcard info] [one] rfl rfl hpart (hkeep ▸ List.Sublist.refl _)
    (List.sublist_append_left [one] [.wildcard info]) one (.inr rfl)
  exact ⟨hpart, hsame, by decide⟩

end PatternPlan.Typed
