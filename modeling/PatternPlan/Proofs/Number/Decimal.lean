import Mathlib.Data.List.Induction
import Mathlib.Tactic.Ring
import PatternPlan.Number.Decimal

/-!
# Decimal numerals

* `isDigit_of_mem_digits` — numerals consist of digits;
* `Leads`, `Whole` — numerals without zeros in front, and those where one zero may stand alone;
* `value_append` — the number of a numeral in two pieces;
* `lt_pow_digits_length`, `pow_digits_length_le` — **the length of a numeral tells the size of its
  number**.
-/

namespace PatternPlan

/-- A property of the characters of a list is decided on the list, not on all characters. -/
theorem forall_mem_of_all {α : Type} {p : α → Prop} [DecidablePred p] {xs : List α}
    (h : (xs.all fun x => decide (p x)) = true) : ∀ x ∈ xs, p x := by
  simpa using h

namespace Decimal

theorem isDigit_digit {n : Nat} (h : n < 10) : isDigit (digit n) = true := by
  have hall : ∀ m < 10, isDigit (digit m) = true := by decide
  exact hall n h

theorem isDigit_of_mem_digits {n : Nat} : ∀ c ∈ digits n, isDigit c = true := by
  fun_induction digits n with
  | case1 n h => simpa using isDigit_digit h
  | case2 n h ih =>
    intro c hc
    rcases List.mem_append.mp hc with hc | hc
    · exact ih c hc
    · rw [List.mem_singleton.mp hc]
      exact isDigit_digit (Nat.mod_lt _ (by decide))

theorem digits_ne_nil (n : Nat) : digits n ≠ [] := by
  rw [digits]
  split <;> simp

/-- A numeral whose first digit is not a zero. -/
def Leads (ds : List Char) : Prop := ∃ d more, ds = d :: more ∧ d ≠ '0'

theorem Leads.append {ds : List Char} (h : Leads ds) (more : List Char) : Leads (ds ++ more) := by
  obtain ⟨d, ds, rfl, hd⟩ := h
  exact ⟨d, ds ++ more, rfl, hd⟩

theorem Leads.take {ds : List Char} (h : Leads ds) {n : Nat} (hn : n ≠ 0) : Leads (ds.take n) := by
  obtain ⟨d, ds, rfl, hd⟩ := h
  obtain ⟨n, rfl⟩ := Nat.exists_eq_succ_of_ne_zero hn
  exact ⟨d, ds.take n, rfl, hd⟩

/-- Only zero is written with a zero in front. -/
theorem leads_digits {n : Nat} (hn : 0 < n) : Leads (digits n) := by
  fun_induction digits n with
  | case1 n hlt =>
    have hall : ∀ m < 10, 0 < m → digit m ≠ '0' := by decide
    exact ⟨digit n, [], rfl, hall n hlt hn⟩
  | case2 n hge ih => exact (ih (Nat.div_pos (by omega) (by decide))).append _

/-- The whole part of a number: a zero in front stands alone. -/
def Whole (ds : List Char) : Prop := ds = ['0'] ∨ Leads ds

theorem digits_zero : digits 0 = ['0'] := by
  rw [digits]
  rfl

theorem whole_digits (n : Nat) : Whole (digits n) := by
  rcases Nat.eq_zero_or_pos n with rfl | hn
  · exact .inl digits_zero
  · exact .inr (leads_digits hn)

theorem Whole.exists_cons {ds : List Char} (h : Whole ds) : ∃ d more, ds = d :: more := by
  rcases h with rfl | ⟨d, more, rfl, -⟩
  · exact ⟨'0', [], rfl⟩
  · exact ⟨d, more, rfl⟩

theorem value_append (cs ds : List Char) :
    value (cs ++ ds) = value cs * 10 ^ ds.length + value ds := by
  induction ds using List.reverseRecOn with
  | nil => simp [value]
  | append_singleton ds d ih =>
    rw [← List.append_assoc, value_append_singleton, value_append_singleton, ih, List.length_append,
      List.length_singleton, Nat.pow_succ]
    ring

theorem value_zeros (n : Nat) : value (List.replicate n '0') = 0 := by
  induction n with
  | zero => rfl
  | succ n ih =>
    rw [List.replicate_succ', value_append_singleton, ih]
    rfl

theorem lt_pow_digits_length (n : Nat) : n < 10 ^ (digits n).length := by
  fun_induction digits n with
  | case1 n hlt => simpa using hlt
  | case2 n hge ih =>
    rw [List.length_append, List.length_singleton, Nat.pow_succ]
    omega

theorem pow_digits_length_le {n : Nat} (hn : 0 < n) :
    10 ^ ((digits n).length - 1) ≤ n := by
  fun_induction digits n with
  | case1 n hlt => exact hn
  | case2 n hge ih =>
    have hdiv := ih (Nat.div_pos (by omega) (by decide))
    have hpos : 0 < (digits (n / 10)).length := by
      rw [digits]
      split <;> simp
    rw [List.length_append, List.length_singleton, Nat.add_sub_cancel,
      ← Nat.sub_add_cancel hpos, Nat.pow_succ]
    have hstep := Nat.mul_le_mul_right 10 hdiv
    exact hstep.trans (Nat.div_mul_le_self n 10)

end Decimal

end PatternPlan
