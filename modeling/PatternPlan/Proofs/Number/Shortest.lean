import PatternPlan.Number.Shortest
import PatternPlan.Proofs.Number.Nearest

/-!
# The shortest decimal reads back

* `Scientific.size` — the number a decimal stands for;
* `exists_onGrid` — a grid of decimals that is finer than half a unit in the last place has a point
  in the interval of the double, and the search reaches such a grid;
* `rounds_shortest` — the shortest decimal of a double lies in its interval;
* `ofDecimal_of_size` — **every way to write the shortest decimal of a double rounds to the
  double**;
* `Scientific.positional_eq` — positional notation stands for the decimal.
-/

namespace PatternPlan

/-- The number a decimal stands for. -/
def Scientific.size (s : Scientific) : ℚ := s.digits * 10 ^ s.power

/-- Moving trailing zeros keeps the number. -/
theorem Scientific.size_trim (fuel : Nat) (s : Scientific) : (trim fuel s).size = s.size := by
  induction fuel generalizing s with
  | zero => rfl
  | succ fuel ih =>
    rw [trim]
    split
    · rename_i h
      have hmod : s.digits % 10 = 0 := by simp at h; exact h.2
      have hdigits : s.digits = 10 * (s.digits / 10) := by omega
      have hcast : (s.digits : ℚ) = 10 * ((s.digits / 10 : Nat) : ℚ) := by exact_mod_cast hdigits
      rw [ih, size, size, zpow_add₀ (by norm_num), zpow_one, hcast]
      ring
    · rfl

namespace Double

/-! ### Grids -/

theorem scaledTen_pos {num den : Nat} (hden : 0 < den) (p : Int) :
    0 < (scaledTen num den p).2 := by
  unfold scaledTen
  split
  · exact Nat.mul_pos hden (Nat.pow_pos (by decide))
  · exact hden

/-- Scaling divides by a power of ten. -/
theorem scaledTen_eq (num den : Nat) (p : Int) :
    ((scaledTen num den p).1 : ℚ) / (scaledTen num den p).2 = (num / den : ℚ) / 10 ^ p := by
  unfold scaledTen
  split
  · rename_i hp
    show (num : ℚ) / ((den * powTen p.toNat : Nat) : ℚ) = _
    rw [Nat.cast_mul, cast_powTen hp, div_div]
  · rename_i hp
    show ((num * powTen (-p).toNat : Nat) : ℚ) / (den : ℚ) = _
    rw [Nat.cast_mul, cast_powTen (by omega), zpow_neg, div_div, div_eq_mul_inv, div_eq_mul_inv,
      mul_inv]
    ring

section Grid

variable {num den : Nat} (hden : 0 < den) (p : Int)
include hden

/-- Comparing a number of steps on a grid with a number of units. -/
theorem mul_scaledTen_le_iff (a b : Nat) :
    a * (scaledTen num den p).1 ≤ b * (scaledTen num den p).2 ↔
      a * (num / den : ℚ) ≤ b * (10 : ℚ) ^ p := by
  have hpos : (0 : ℚ) < (scaledTen num den p).2 := Nat.cast_pos.mpr (scaledTen_pos hden p)
  have hten : (0 : ℚ) < 10 ^ p := by positivity
  have hcast : a * (scaledTen num den p).1 ≤ b * (scaledTen num den p).2 ↔
      (a * (scaledTen num den p).1 : ℚ) ≤ b * (scaledTen num den p).2 := by exact_mod_cast Iff.rfl
  rw [hcast, ← div_le_iff₀ hpos, mul_div_assoc, scaledTen_eq, ← mul_div_assoc, div_le_iff₀ hten]

theorem mul_scaledTen_lt_iff (a b : Nat) :
    b * (scaledTen num den p).2 < a * (scaledTen num den p).1 ↔
      b * (10 : ℚ) ^ p < a * (num / den : ℚ) := by
  rw [← not_le, mul_scaledTen_le_iff hden, not_le]

theorem scaledTen_le_mul_iff (a b : Nat) :
    b * (scaledTen num den p).2 ≤ a * (scaledTen num den p).1 ↔
      b * (10 : ℚ) ^ p ≤ a * (num / den : ℚ) := by
  have hpos : (0 : ℚ) < (scaledTen num den p).2 := Nat.cast_pos.mpr (scaledTen_pos hden p)
  have hten : (0 : ℚ) < 10 ^ p := by positivity
  have hcast : b * (scaledTen num den p).2 ≤ a * (scaledTen num den p).1 ↔
      (b * (scaledTen num den p).2 : ℚ) ≤ a * (scaledTen num den p).1 := by exact_mod_cast Iff.rfl
  rw [hcast, ← le_div_iff₀ hpos, mul_div_assoc, scaledTen_eq, ← mul_div_assoc, le_div_iff₀ hten]

theorem scaledTen_lt_mul_iff (a b : Nat) :
    a * (scaledTen num den p).1 < b * (scaledTen num den p).2 ↔
      a * (num / den : ℚ) < b * (10 : ℚ) ^ p := by
  rw [← not_le, scaledTen_le_mul_iff hden, not_le]

end Grid

/-! ### One grid -/

variable {d : Double} {num den : Nat}

/-- Whether a point of a grid lies in the interval of a double. -/
def inside (m down : Nat) (closed : Bool) (s : Nat × Nat) (x : Nat) : Bool :=
  if closed then (4 * m - down) * s.1 ≤ x * s.2 && x * s.2 ≤ (4 * m + 2) * s.1
  else (4 * m - down) * s.1 < x * s.2 && x * s.2 < (4 * m + 2) * s.1

/-- The points that are found on a grid lie in the interval. -/
theorem inside_of_onGrid {m down : Nat} {closed : Bool} {p : Int} {x : Nat}
    (h : onGrid m down closed num den p = some x) :
    inside m down closed (scaledTen num den p) x = true := by
  unfold onGrid at h
  dsimp only at h
  split at h
  · rename_i hlow hhigh
    split at h
    · cases h
      exact hlow
    · split at h
      · cases h
        exact hhigh
      · split at h <;> cases h <;> assumption
  · rename_i hlow _
    cases h
    exact hlow
  · rename_i _ hhigh
    cases h
    exact hhigh
  · cases h

/-- A point above the double that lies in the interval is found, or the one below it. -/
theorem onGrid_isSome {m down : Nat} {closed : Bool} {p : Int}
    (h : inside m down closed (scaledTen num den p)
      (4 * m * (scaledTen num den p).1 / (scaledTen num den p).2 + 1) = true) :
    (onGrid m down closed num den p).isSome = true := by
  unfold onGrid
  dsimp only
  split
  · split
    · rfl
    · split
      · rfl
      · split <;> rfl
  · rfl
  · rfl
  · rename_i hnone
    exact absurd h (by rw [show inside m down closed (scaledTen num den p) _ = false from hnone]; decide)

theorem inside_iff_rounds (hd : d.Normal) (hden : 0 < den)
    (hunit : (num / den : ℚ) = 2 ^ (d.exponent - 2)) (p : Int) (x : Nat) :
    inside d.mantissa d.reach (d.mantissa % 2 = 0) (scaledTen num den p) x = true ↔
      d.Rounds (x * 10 ^ p) := by
  have hreach : d.reach ≤ 4 * d.mantissa := by
    have hle : d.reach ≤ 2 := by exact_mod_cast reach_le d
    have hpos := hd.pos
    omega
  have hlow : ((4 * d.mantissa - d.reach : Nat) : ℚ) = 4 * d.mantissa - d.reach := by
    rw [Nat.cast_sub hreach]
    norm_num
  have hhigh : ((4 * d.mantissa + 2 : Nat) : ℚ) = 4 * d.mantissa + 2 := by norm_num
  unfold inside Rounds
  by_cases heven : d.mantissa % 2 = 0
  · rw [if_pos (by simpa using heven), Bool.and_eq_true, decide_eq_true_eq, decide_eq_true_eq,
      mul_scaledTen_le_iff hden, scaledTen_le_mul_iff hden, hunit, hlow, hhigh]
    tauto
  · rw [if_neg (by simpa using heven), Bool.and_eq_true, decide_eq_true_eq, decide_eq_true_eq,
      scaledTen_lt_mul_iff hden, mul_scaledTen_lt_iff hden, hunit, hlow, hhigh]
    constructor
    · intro h
      exact ⟨h.1.le, h.2.le, .inr h⟩
    · rintro ⟨-, -, h⟩
      exact h.resolve_left heven

/-- **A grid that is finer than half a unit in the last place has a point in the interval.** -/
theorem exists_onGrid (hd : d.Normal) (hden : 0 < den)
    (hunit : (num / den : ℚ) = 2 ^ (d.exponent - 2)) {p : Int}
    (hfine : (10 : ℚ) ^ p < 2 * 2 ^ (d.exponent - 2)) :
    (onGrid d.mantissa d.reach (d.mantissa % 2 = 0) num den p).isSome = true := by
  refine onGrid_isSome ((inside_iff_rounds hd hden hunit p _).mpr ?_)
  generalize hsteps : 4 * d.mantissa * (scaledTen num den p).1 / (scaledTen num den p).2 = f
  have hpos : 0 < (scaledTen num den p).2 := scaledTen_pos hden p
  -- the double lies from `f` up to the next point
  have hfrom : f * (10 : ℚ) ^ p ≤ (4 * d.mantissa : Nat) * 2 ^ (d.exponent - 2) := by
    rw [← hunit, ← scaledTen_le_mul_iff hden, ← hsteps]
    exact Nat.div_mul_le_self _ _
  have hto : (4 * d.mantissa : Nat) * (2 : ℚ) ^ (d.exponent - 2) < (f + 1 : Nat) * (10 : ℚ) ^ p := by
    rw [← hunit, ← scaledTen_lt_mul_iff hden, ← hsteps]
    exact Nat.lt_mul_of_div_lt (Nat.lt_succ_self _) hpos
  push_cast at hfrom hto ⊢
  have hlow : (4 * d.mantissa - d.reach) * (2 : ℚ) ^ (d.exponent - 2) < (f + 1) * (10 : ℚ) ^ p := by
    refine lt_of_le_of_lt ?_ hto
    have hunitpos : (0 : ℚ) < 2 ^ (d.exponent - 2) := by positivity
    have hreach : (0 : ℚ) ≤ d.reach := Nat.cast_nonneg _
    nlinarith
  have hhigh : (f + 1) * (10 : ℚ) ^ p < (4 * d.mantissa + 2) * (2 : ℚ) ^ (d.exponent - 2) := by
    nlinarith
  exact ⟨hlow.le, hhigh.le, .inr ⟨hlow, hhigh⟩⟩

/-! ### The search -/

/-- The search stops at the first grid with a point in the interval. -/
theorem firstGrid_eq {m down : Nat} {closed : Bool} {fuel steps : Nat} {p : Int}
    (hsteps : steps < fuel)
    (h : (onGrid m down closed num den (p - steps)).isSome = true) :
    ∃ x q, firstGrid m down closed num den fuel p = ⟨x, q⟩ ∧
      onGrid m down closed num den q = some x := by
  induction fuel generalizing steps p with
  | zero => omega
  | succ fuel ih =>
    rw [firstGrid]
    cases hgrid : onGrid m down closed num den p with
    | some x => exact ⟨x, p, rfl, hgrid⟩
    | none =>
      cases steps with
      | zero =>
        rw [Nat.cast_zero, sub_zero, hgrid] at h
        cases h
      | succ steps =>
        refine ih (Nat.lt_of_succ_lt_succ hsteps) ?_
        rwa [Nat.cast_succ, show p - ((steps : Int) + 1) = p - 1 - steps by omega] at h

/-- The search for the leading power stays at or below the number. -/
theorem leadingPower_le (hden : 0 < den) (fuel : Nat) {k : Int}
    (h : (10 : ℚ) ^ (k - 1) ≤ num / den) :
    (10 : ℚ) ^ (leadingPower num den fuel k - 1) ≤ num / den := by
  have hdenpos : (0 : ℚ) < den := Nat.cast_pos.mpr hden
  induction fuel generalizing k with
  | zero => exact h
  | succ fuel ih =>
    have hstep : (if 0 ≤ k then decide (num < den * powTen k.toNat)
        else decide (num * powTen (-k).toNat < den)) = false → (10 : ℚ) ^ k ≤ num / den := by
      intro hbelow
      rw [le_div_iff₀ hdenpos]
      split at hbelow
      · rename_i hk
        rw [decide_eq_false_iff_not, not_lt] at hbelow
        have hcast : (den : ℚ) * (powTen k.toNat : Nat) ≤ num := by exact_mod_cast hbelow
        rwa [cast_powTen hk, mul_comm] at hcast
      · rename_i hk
        rw [decide_eq_false_iff_not, not_lt] at hbelow
        have hcast : (den : ℚ) ≤ num * (powTen (-k).toNat : Nat) := by exact_mod_cast hbelow
        rw [cast_powTen (by omega), zpow_neg, ← div_eq_mul_inv, le_div_iff₀ (by positivity)] at hcast
        rwa [mul_comm]
    rw [leadingPower]
    cases hbelow : (if 0 ≤ k then decide (num < den * powTen k.toNat)
        else decide (num * powTen (-k).toNat < den)) with
    | true => exact h
    | false =>
      refine ih ?_
      rw [add_sub_cancel_right]
      exact hstep hbelow

/-- A power of two, as the quotient of two numbers. -/
theorem powTwo_quotient {e : Int} {num den : Nat} (hnum : (if 0 ≤ e then powTwo e.toNat else 1) = num)
    (hden : (if 0 ≤ e then 1 else powTwo (-e).toNat) = den) :
    0 < den ∧ (num / den : ℚ) = 2 ^ e := by
  subst hnum hden
  split
  · rename_i he
    exact ⟨Nat.one_pos, by rw [cast_powTwo he, Nat.cast_one, div_one]⟩
  · refine ⟨Nat.pow_pos (by decide), ?_⟩
    rw [cast_powTwo (by omega), zpow_neg, Nat.cast_one, one_div, inv_inv]

/-- No double that is not zero is below the power of ten from which the search starts. -/
theorem Normal.ge_powTen (hd : d.Normal) :
    (10 : ℚ) ^ (-330 - 1 : Int) ≤ 4 * d.mantissa * 2 ^ (d.exponent - 2) := by
  have hone : (1 : ℚ) ≤ d.mantissa := by exact_mod_cast hd.pos
  have hge := hd.exponent_ge
  have hunit : (0 : ℚ) < 2 ^ (d.exponent - 2) := by positivity
  have hpow : (2 : ℚ) ^ (-1076 : Int) ≤ 2 ^ (d.exponent - 2) :=
    zpow_le_zpow_right₀ (by norm_num) (by omega)
  have hsmall : ((2 ^ 1076 : Nat) : ℚ) ≤ ((10 ^ 331 : Nat) : ℚ) :=
    Nat.cast_le.mpr (by decide +kernel)
  have hsmall : (10 : ℚ) ^ (-331 : Int) ≤ 2 ^ (-1076 : Int) := by
    rw [zpow_neg, zpow_neg, inv_le_inv₀ (by positivity) (by positivity)]
    exact_mod_cast hsmall
  norm_num only [Int.reduceSub]
  nlinarith

/-- **The shortest decimal of a double lies in its interval.** -/
theorem rounds_shortest (hd : d.Normal) : d.Rounds d.shortest.size := by
  have hm : d.mantissa ≠ 0 := Nat.ne_of_gt hd.pos
  unfold shortest
  rw [if_neg hm]
  dsimp only
  generalize hn : (if 0 ≤ d.exponent - 2 then powTwo (d.exponent - 2).toNat else 1) = num
  generalize hD : (if 0 ≤ d.exponent - 2 then 1 else powTwo (-(d.exponent - 2)).toNat) = den
  obtain ⟨hden, hunit⟩ := powTwo_quotient hn hD
  have hvalue : ((4 * d.mantissa * num : Nat) : ℚ) / den = 4 * d.mantissa * 2 ^ (d.exponent - 2) := by
    rw [← hunit, Nat.cast_mul, mul_div_assoc]
    norm_num
  have hle := leadingPower_le hden 700 (hvalue ▸ hd.ge_powTen)
  rw [hvalue] at hle
  generalize leadingPower (4 * d.mantissa * num) den 700 (-330) = k at hle ⊢
  have hfine : (10 : ℚ) ^ (k - 1 - (17 : Nat)) < 2 * 2 ^ (d.exponent - 2) := by
    have hunitpos : (0 : ℚ) < 2 ^ (d.exponent - 2) := by positivity
    have hbits : (d.mantissa : ℚ) < 2 ^ 53 := by exact_mod_cast hd.mantissa_lt
    rw [zpow_sub₀ (by norm_num), div_lt_iff₀ (by positivity), zpow_natCast]
    nlinarith
  obtain ⟨x, q, hfirst, hgrid⟩ := firstGrid_eq (show 17 < 20 by decide)
    (exists_onGrid hd hden hunit hfine)
  have hinside := (inside_iff_rounds hd hden hunit q x).mp (inside_of_onGrid hgrid)
  rw [Scientific.size_trim]
  have hsame : firstGrid d.mantissa
      (if d.mantissa = powTwo 52 && decide (d.exponent > -1074) then 1 else 2)
      (decide (d.mantissa % 2 = 0)) num den 20 (k - 1) = ⟨x, q⟩ := hfirst
  rw [hsame]
  exact hinside

/-- **Every way to write the shortest decimal of a double rounds to the double.** -/
theorem ofDecimal_of_size {digits : Nat} {power : Int} (hd : d.Canonical)
    (h : digits * (10 : ℚ) ^ power = d.shortest.size) :
    ofDecimal d.negative digits power = some d := by
  rcases hd with hzero | hd
  · have hsize : d.shortest.size = 0 := by
      rw [hzero]
      simp [shortest, zero, Scientific.size]
    have hdigits : digits = 0 := by
      rw [hsize] at h
      have hten : (10 : ℚ) ^ power ≠ 0 := by positivity
      exact_mod_cast (mul_eq_zero.mp h).resolve_right hten
    rw [ofDecimal, if_pos hdigits, ← hzero]
  · refine ofDecimal_of_rounds hd ?_
    rw [h]
    exact rounds_shortest hd

end Double

/-! ### Positional notation -/

/-- Digits before a point and digits after it, as a number. -/
def pointed (whole fraction : List Char) : ℚ :=
  Decimal.value (whole ++ fraction) * (10 : ℚ) ^ (-(fraction.length : Int))

/-- **Positional notation**: digits, or digits with a point between them, which stand for the
decimal.  A zero in front stands alone. -/
theorem Scientific.positional_eq (s : Scientific) :
    ∃ whole fraction, s.positional = (if fraction = [] then whole else whole ++ '.' :: fraction) ∧
      Decimal.Whole whole ∧ (∀ c ∈ whole ++ fraction, Decimal.isDigit c = true) ∧
      pointed whole fraction = s.size := by
  have hdigits : ∀ c ∈ Decimal.digits s.digits, Decimal.isDigit c = true :=
    Decimal.isDigit_of_mem_digits
  have hzeros : ∀ n, ∀ c ∈ List.replicate n '0', Decimal.isDigit c = true := by
    intro n c hc
    rw [(List.mem_replicate.mp hc).2]
    decide
  have hvalue := Decimal.value_digits s.digits
  unfold positional
  dsimp only
  split
  · rename_i hpower
    split
    · rename_i hzero
      refine ⟨['0'], [], rfl, .inl rfl, forall_mem_of_all (by decide), ?_⟩
      have hnumber : Decimal.value (['0'] ++ []) = 0 := by decide
      rw [size, hzero, pointed, hnumber, Nat.cast_zero, zero_mul, zero_mul]
    · rename_i hnonzero
      refine ⟨Decimal.digits s.digits ++ List.replicate s.power.toNat '0', [], rfl, .inr ?_, ?_, ?_⟩
      · exact (Decimal.leads_digits (Nat.pos_of_ne_zero hnonzero)).append _
      · rw [List.append_nil]
        exact List.forall_mem_append.mpr ⟨hdigits, hzeros _⟩
      · have hcast : ((10 ^ s.power.toNat : Nat) : ℚ) = 10 ^ s.power := Double.cast_powTen hpower
        rw [pointed, List.append_nil, Decimal.value_append, hvalue, Decimal.value_zeros,
          List.length_replicate, Nat.add_zero, Nat.cast_mul, hcast, List.length_nil, Nat.cast_zero,
          neg_zero, zpow_zero, mul_one, size]
  · rename_i hpower
    have hplaces : ((-s.power).toNat : Int) = -s.power := Int.toNat_of_nonneg (by omega)
    split
    · rename_i hless
      refine ⟨_, _, (if_neg ?_).symm, .inr ?_, ?_, ?_⟩
      · rw [List.drop_eq_nil_iff]
        omega
      · -- zero has one digit, which is not enough for a point after a digit
        have hnonzero : s.digits ≠ 0 := by
          intro hzero
          have hone : (Decimal.digits s.digits).length = 1 := by
            rw [hzero, Decimal.digits_zero]
            rfl
          omega
        exact (Decimal.leads_digits (Nat.pos_of_ne_zero hnonzero)).take (by omega)
      · rw [List.take_append_drop]
        exact hdigits
      · rw [pointed, List.take_append_drop, hvalue, List.length_drop,
          Nat.sub_sub_self (Nat.le_of_lt hless), hplaces, neg_neg, size]
    · rename_i hmore
      refine ⟨['0'], _, (if_neg ?_).symm, .inl rfl, ?_, ?_⟩
      · exact List.append_ne_nil_of_right_ne_nil _ (Decimal.digits_ne_nil _)
      · exact List.forall_mem_append.mpr
          ⟨forall_mem_of_all (by decide), List.forall_mem_append.mpr ⟨hzeros _, hdigits⟩⟩
      · have hlength : (List.replicate ((-s.power).toNat - (Decimal.digits s.digits).length) '0'
            ++ Decimal.digits s.digits).length = (-s.power).toNat := by
          rw [List.length_append, List.length_replicate]
          omega
        have hnumber : Decimal.value (['0']
            ++ (List.replicate ((-s.power).toNat - (Decimal.digits s.digits).length) '0'
              ++ Decimal.digits s.digits)) = s.digits := by
          rw [Decimal.value_append, Decimal.value_append, Decimal.value_zeros, hvalue]
          simp [Decimal.value]
        rw [pointed, hnumber, hlength, hplaces, neg_neg, size]

end PatternPlan
