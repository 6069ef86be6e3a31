import Mathlib.Algebra.Order.Archimedean.Basic
import Mathlib.Algebra.Order.Field.Power
import Mathlib.Tactic.FieldSimp
import Mathlib.Tactic.Linarith
import Mathlib.Tactic.Positivity
import PatternPlan.Number.Double
import PatternPlan.Proofs.Number.Decimal

/-!
# Rounding to the nearest double

* `Double.Canonical` — the doubles that there are: zero, and mantissas of 53 bits in the range of
  exponents, with fewer bits at the least exponent only;
* `Double.Rounds` — the interval of the numbers that round to a double, in quarters of a unit in the
  last place;
* `ofRatio_of_rounds`, `ofDecimal_of_rounds` — **every number of the interval rounds to the
  double**;
* `canonical_ofRatio`, `canonical_ofDecimal` — rounding gives canonical doubles.
-/

namespace PatternPlan.Double

/-! ### Rounding a quotient -/

theorem roundDiv_eq {num den m : Nat} (hden : 0 < den) (hlow : 2 * m * den ≤ 2 * num + den)
    (hhigh : 2 * num ≤ (2 * m + 1) * den)
    (htie : m % 2 = 0 ∨ 2 * m * den < 2 * num + den ∧ 2 * num < (2 * m + 1) * den) :
    roundDiv num den = m := by
  have hnum : den * (num / den) + num % den = num := Nat.div_add_mod num den
  have hrest : num % den < den := Nat.mod_lt num hden
  unfold roundDiv
  generalize num / den = q at *
  generalize num % den = r at *
  have hcancel : ∀ {a b : Nat}, a * den < b * den → a < b := Nat.lt_of_mul_lt_mul_right
  dsimp only
  split
  · -- the rest is below a half
    have hupper : m < q + 1 := hcancel (by nlinarith)
    have hlower : q < m + 1 := hcancel (by nlinarith)
    omega
  · split
    · -- the rest is above a half
      have hupper : 2 * m < 2 * q + 3 := hcancel (by nlinarith)
      have hlower : q < m := hcancel (by nlinarith)
      omega
    · -- a tie
      have hhalf : 2 * r = den := by omega
      have hupper : m < q + 2 := hcancel (by nlinarith)
      have hlower : q < m + 1 := hcancel (by nlinarith)
      rcases htie with heven | ⟨hlow', hhigh'⟩
      · split <;> omega
      · have hbelow : m < q + 1 := hcancel (by nlinarith)
        have habove : q < m := hcancel (by nlinarith)
        omega

theorem roundDiv_le {num den k : Nat} (hden : 0 < den) (h : num ≤ k * den) :
    roundDiv num den ≤ k := by
  have hnum : den * (num / den) + num % den = num := Nat.div_add_mod num den
  unfold roundDiv
  generalize num / den = q at *
  generalize num % den = r at *
  have hq : q < k ∨ q = k ∧ r = 0 := by
    rcases Nat.lt_trichotomy q k with hlt | rfl | hgt
    · exact .inl hlt
    · exact .inr ⟨rfl, by nlinarith⟩
    · have hstep : (k + 1) * den ≤ q * den := Nat.mul_le_mul_right den hgt
      nlinarith
  dsimp only
  split
  · omega
  · split <;> [skip; split] <;> omega

theorem le_roundDiv {num den k : Nat} (hden : 0 < den) (h : k * den ≤ num) :
    k ≤ roundDiv num den := by
  have hq : k ≤ num / den := (Nat.le_div_iff_mul_le hden).mpr h
  unfold roundDiv
  dsimp only
  split
  · exact hq
  · split <;> [skip; split] <;> omega

/-! ### Scaling -/

theorem scaled_pos {num den : Nat} (hden : 0 < den) (e : Int) : 0 < (scaled num den e).2 := by
  unfold scaled
  split
  · exact Nat.mul_pos hden (Nat.pow_pos (by decide))
  · exact hden

theorem cast_powTwo {e : Int} (h : 0 ≤ e) : ((powTwo e.toNat : Nat) : ℚ) = 2 ^ e := by
  have hpow : ((2 ^ e.toNat : Nat) : ℚ) = 2 ^ e := by
    rw [Nat.cast_pow, Nat.cast_ofNat, ← zpow_natCast, Int.toNat_of_nonneg h]
  exact hpow

/-- Scaling divides by a power of two. -/
theorem scaled_eq (num den : Nat) (e : Int) :
    ((scaled num den e).1 : ℚ) / (scaled num den e).2 = (num / den : ℚ) / 2 ^ e := by
  unfold scaled
  split
  · rename_i he
    show (num : ℚ) / ((den * powTwo e.toNat : Nat) : ℚ) = _
    rw [Nat.cast_mul, cast_powTwo he, div_div]
  · rename_i he
    show ((num * powTwo (-e).toNat : Nat) : ℚ) / (den : ℚ) = _
    rw [Nat.cast_mul, cast_powTwo (by omega), zpow_neg, div_div, div_eq_mul_inv, div_eq_mul_inv,
      mul_inv]
    ring

/-- Comparing a scaled quotient with a natural number. -/
theorem scaled_lt_iff {num den : Nat} (hden : 0 < den) (e : Int) (k : Nat) :
    (scaled num den e).1 < k * (scaled num den e).2 ↔ (num / den : ℚ) < k * 2 ^ e := by
  have hpos : (0 : ℚ) < (scaled num den e).2 := Nat.cast_pos.mpr (scaled_pos hden e)
  have htwo : (0 : ℚ) < 2 ^ e := by positivity
  rw [← div_lt_iff₀ htwo, ← scaled_eq, div_lt_iff₀ hpos]
  exact_mod_cast Iff.rfl

theorem le_scaled_iff {num den : Nat} (hden : 0 < den) (e : Int) (k : Nat) :
    k * (scaled num den e).2 ≤ (scaled num den e).1 ↔ k * (2 : ℚ) ^ e ≤ num / den := by
  rw [← not_lt, scaled_lt_iff hden, not_lt]

/-! ### Exponents -/

/-- The exponent of a quotient is the one at which it has a mantissa of 53 bits. -/
theorem exponentOf_eq {num den : Nat} (hnum : 0 < num) (hden : 0 < den) {e : Int}
    (hlow : (2 : ℚ) ^ (e + 52) ≤ num / den) (hhigh : (num / den : ℚ) < 2 ^ (e + 53)) :
    exponentOf num den = max e (-1074) := by
  have htwo : (1 : ℚ) < 2 := by norm_num
  have hnumlow : (2 : ℚ) ^ (num.log2 : Int) ≤ num := by
    rw [zpow_natCast]
    exact_mod_cast Nat.log2_self_le (Nat.ne_of_gt hnum)
  have hnumhigh : (num : ℚ) < 2 ^ ((num.log2 : Int) + 1) := by
    have hlt : num < 2 ^ (num.log2 + 1) := Nat.lt_log2_self
    exact_mod_cast hlt
  have hdenlow : (2 : ℚ) ^ (den.log2 : Int) ≤ den := by
    rw [zpow_natCast]
    exact_mod_cast Nat.log2_self_le (Nat.ne_of_gt hden)
  have hdenhigh : (den : ℚ) < 2 ^ ((den.log2 : Int) + 1) := by
    have hlt : den < 2 ^ (den.log2 + 1) := Nat.lt_log2_self
    exact_mod_cast hlt
  have hdenpos : (0 : ℚ) < den := Nat.cast_pos.mpr hden
  -- the quotient lies within a factor of two of the power its bit lengths suggest
  have habove : (num / den : ℚ) < 2 ^ ((num.log2 : Int) + 1 - den.log2) := by
    rw [zpow_sub₀ (by norm_num), div_lt_div_iff₀ hdenpos (by positivity)]
    exact mul_lt_mul hnumhigh hdenlow (by positivity) (by positivity)
  have hbelow : (2 : ℚ) ^ ((num.log2 : Int) - (den.log2 + 1)) < num / den := by
    rw [zpow_sub₀ (by norm_num), div_lt_div_iff₀ (by positivity) hdenpos]
    exact mul_lt_mul' hnumlow hdenhigh (by positivity) (by exact_mod_cast hnum)
  have hupper : e + 52 < (num.log2 : Int) + 1 - den.log2 :=
    (zpow_lt_zpow_iff_right₀ htwo).mp (hlow.trans_lt habove)
  have hlower : (num.log2 : Int) - (den.log2 + 1) < e + 53 :=
    (zpow_lt_zpow_iff_right₀ htwo).mp (hbelow.trans hhigh)
  unfold exponentOf
  generalize hguess : (num.log2 : Int) - den.log2 - 52 = guess
  have htest : (scaled num den guess).1 / (scaled num den guess).2 < powTwo 52 ↔
      (num / den : ℚ) < 2 ^ (guess + 52) := by
    rw [Nat.div_lt_iff_lt_mul (scaled_pos hden guess), scaled_lt_iff hden]
    rw [zpow_add₀ (by norm_num), mul_comm]
    norm_num [powTwo]
  dsimp only
  congr 1
  by_cases hsame : e = guess
  · rw [if_neg (fun h => absurd (htest.mp h) (not_lt.mpr (hsame ▸ hlow)))]
    exact hsame.symm
  · have hless : e + 1 = guess := by omega
    have hpow : e + 53 = guess + 52 := by omega
    rw [if_pos (htest.mpr (hpow ▸ hhigh))]
    omega

/-- Every quotient has an exponent. -/
theorem exists_exponent {num den : Nat} (hnum : 0 < num) (hden : 0 < den) :
    ∃ e : Int, (2 : ℚ) ^ (e + 52) ≤ num / den ∧ (num / den : ℚ) < 2 ^ (e + 53) := by
  have hpos : (0 : ℚ) < num / den := div_pos (Nat.cast_pos.mpr hnum) (Nat.cast_pos.mpr hden)
  obtain ⟨n, hlow, hhigh⟩ := exists_mem_Ico_zpow hpos (by norm_num : (1 : ℚ) < 2)
  refine ⟨n - 52, ?_, ?_⟩
  · rwa [show n - 52 + 52 = n by omega]
  · rwa [show n - 52 + 53 = n + 1 by omega]

/-! ### Canonical doubles -/

/-- A double other than zero. -/
structure Normal (d : Double) : Prop where
  pos : 0 < d.mantissa
  mantissa_lt : d.mantissa < 2 ^ 53
  exponent_ge : -1074 ≤ d.exponent
  exponent_le : d.exponent ≤ 971
  full : 2 ^ 52 ≤ d.mantissa ∨ d.exponent = -1074

/-- The doubles that there are. -/
def Canonical (d : Double) : Prop := d = zero d.negative ∨ d.Normal

theorem canonical_ofRatio {negative : Bool} {num den : Nat} {d : Double} (hden : 0 < den)
    (h : ofRatio negative num den = some d) : d.Canonical := by
  unfold ofRatio at h
  split at h
  · cases h
    exact .inl rfl
  · rename_i hzero
    obtain ⟨e, hlow, hhigh⟩ := exists_exponent (Nat.pos_of_ne_zero hzero) hden
    rw [exponentOf_eq (Nat.pos_of_ne_zero hzero) hden hlow hhigh] at h
    generalize hE : max e (-1074) = E at h
    have hle : roundDiv (scaled num den E).1 (scaled num den E).2 ≤ 2 ^ 53 := by
      refine roundDiv_le (scaled_pos hden E) (le_of_lt ?_)
      rw [scaled_lt_iff hden]
      refine hhigh.trans_le ?_
      rw [Nat.cast_pow, Nat.cast_ofNat, ← zpow_natCast, ← zpow_add₀ (by norm_num)]
      exact zpow_le_zpow_right₀ (by norm_num) (by push_cast; omega)
    have hfull : E = e → 2 ^ 52 ≤ roundDiv (scaled num den E).1 (scaled num den E).2 := by
      rintro rfl
      refine le_roundDiv (scaled_pos hden E) ?_
      rw [le_scaled_iff hden, Nat.cast_pow, Nat.cast_ofNat, ← zpow_natCast,
        ← zpow_add₀ (by norm_num)]
      rwa [show ((52 : Nat) : Int) + E = E + 52 by push_cast; omega]
    dsimp only at h
    generalize roundDiv (scaled num den E).1 (scaled num den E).2 = m at h hle hfull
    have hfit : ∀ d : Double, 0 < d.mantissa → d.mantissa < 2 ^ 53 → -1074 ≤ d.exponent →
        (2 ^ 52 ≤ d.mantissa ∨ d.exponent = -1074) →
        ∀ d', (if d.mantissa = 0 then some (zero negative) else if d.exponent > 971 then none
          else some d) = some d' → d'.Canonical := by
      intro d hpos hlt hge hfull d' hd'
      rw [if_neg (by omega)] at hd'
      split at hd'
      · cases hd'
      · cases hd'
        exact .inr ⟨hpos, hlt, hge, by omega, hfull⟩
    by_cases hcarry : m = powTwo 53
    · rw [if_pos hcarry] at h
      exact hfit ⟨negative, powTwo 52, E + 1⟩ (by norm_num [powTwo]) (by norm_num [powTwo])
        (by show -1074 ≤ E + 1; omega) (.inl (by norm_num [powTwo])) d h
    · rw [if_neg hcarry] at h
      by_cases hm : m = 0
      · rw [if_pos hm] at h
        cases h
        exact .inl rfl
      · have hlt : m < 2 ^ 53 := lt_of_le_of_ne hle hcarry
        refine hfit ⟨negative, m, E⟩ (Nat.pos_of_ne_zero hm) hlt (by show -1074 ≤ E; omega) ?_ d h
        by_cases hsame : E = e
        · exact .inl (hfull hsame)
        · exact .inr (by show E = -1074; omega)

theorem canonical_ofDecimal {negative : Bool} {digits : Nat} {power : Int} {d : Double}
    (h : ofDecimal negative digits power = some d) : d.Canonical := by
  unfold ofDecimal at h
  split at h
  · cases h
    exact .inl rfl
  · dsimp only at h
    split at h
    · cases h
    · split at h
      · cases h
        exact .inl rfl
      · split at h
        · exact canonical_ofRatio Nat.one_pos h
        · exact canonical_ofRatio (Nat.pow_pos (by decide)) h

/-! ### The interval of a double -/

/-- How far the interval of a double reaches down, in quarters of a unit in the last place.  Below a
power of two the doubles stand twice as close. -/
def reach (d : Double) : Nat :=
  if d.mantissa = powTwo 52 && decide (d.exponent > -1074) then 1 else 2

/-- The numbers that round to a double: those that are nearest to it, the ends of the interval
included when the mantissa is even. -/
def Rounds (d : Double) (x : ℚ) : Prop :=
  (4 * d.mantissa - d.reach) * (2 : ℚ) ^ (d.exponent - 2) ≤ x ∧
  x ≤ (4 * d.mantissa + 2) * (2 : ℚ) ^ (d.exponent - 2) ∧
  (d.mantissa % 2 = 0 ∨
    (4 * d.mantissa - d.reach) * (2 : ℚ) ^ (d.exponent - 2) < x ∧
    x < (4 * d.mantissa + 2) * (2 : ℚ) ^ (d.exponent - 2))

theorem reach_le (d : Double) : (d.reach : ℚ) ≤ 2 := by
  unfold reach
  split <;> norm_num

variable {d : Double} {x : ℚ}

/-- The numbers of the interval are within a half of the last place. -/
theorem Rounds.within (h : d.Rounds x) :
    (2 * d.mantissa - 1) * (2 : ℚ) ^ d.exponent ≤ 2 * x ∧
    2 * x ≤ (2 * d.mantissa + 1) * (2 : ℚ) ^ d.exponent ∧
    (d.mantissa % 2 = 0 ∨ (2 * d.mantissa - 1) * (2 : ℚ) ^ d.exponent < 2 * x ∧
      2 * x < (2 * d.mantissa + 1) * (2 : ℚ) ^ d.exponent) := by
  obtain ⟨hlow, hhigh, htie⟩ := h
  have hquarter : (2 : ℚ) ^ d.exponent = 4 * 2 ^ (d.exponent - 2) := by
    rw [show d.exponent = 2 + (d.exponent - 2) by omega, zpow_add₀ (by norm_num)]
    norm_num
  have hpos : (0 : ℚ) < 2 ^ (d.exponent - 2) := by positivity
  have hreach := reach_le d
  rw [hquarter]
  refine ⟨by nlinarith, by nlinarith, htie.imp id fun h => ⟨by nlinarith [h.1], by nlinarith [h.2]⟩⟩

theorem Rounds.ge (hd : d.Normal) (h : d.Rounds x) : (2 : ℚ) ^ (-1075 : Int) ≤ x := by
  have hm : (1 : ℚ) ≤ d.mantissa := by exact_mod_cast hd.pos
  have hreach := reach_le d
  have hpos : (0 : ℚ) < 2 ^ (d.exponent - 2) := by positivity
  have hge := hd.exponent_ge
  calc (2 : ℚ) ^ (-1075 : Int) ≤ 2 ^ (1 + (d.exponent - 2)) :=
        zpow_le_zpow_right₀ (by norm_num) (by omega)
    _ = 2 * 2 ^ (d.exponent - 2) := by rw [zpow_add₀ (by norm_num), zpow_one]
    _ ≤ (4 * d.mantissa - d.reach) * 2 ^ (d.exponent - 2) := by nlinarith
    _ ≤ x := h.1

theorem Rounds.pos (hd : d.Normal) (h : d.Rounds x) : 0 < x :=
  lt_of_lt_of_le (by positivity) (h.ge hd)

theorem Rounds.lt (hd : d.Normal) (h : d.Rounds x) : x < 2 ^ (d.exponent + 53) := by
  have hm : (d.mantissa : ℚ) ≤ 2 ^ 53 - 1 := by
    have hle : d.mantissa + 1 ≤ 2 ^ 53 := hd.mantissa_lt
    have hcast : (d.mantissa : ℚ) + 1 ≤ 2 ^ 53 := by exact_mod_cast hle
    linarith
  have hpos : (0 : ℚ) < 2 ^ d.exponent := by positivity
  have hhigh := h.within.2.1
  have htop : (2 : ℚ) ^ (53 : Int) = 2 ^ 53 := by norm_num
  rw [zpow_add₀ (by norm_num), htop]
  nlinarith

/-- A quotient within a half of the last place of a double rounds to its mantissa. -/
theorem roundDiv_scaled {num den m : Nat} {e : Int} (hden : 0 < den)
    (hlow : (2 * m - 1) * (2 : ℚ) ^ e ≤ 2 * (num / den : ℚ))
    (hhigh : 2 * (num / den : ℚ) ≤ (2 * m + 1) * (2 : ℚ) ^ e)
    (htie : m % 2 = 0 ∨ (2 * m - 1) * (2 : ℚ) ^ e < 2 * (num / den : ℚ) ∧
      2 * (num / den : ℚ) < (2 * m + 1) * (2 : ℚ) ^ e) :
    roundDiv (scaled num den e).1 (scaled num den e).2 = m := by
  have hpos : (0 : ℚ) < (scaled num den e).2 := Nat.cast_pos.mpr (scaled_pos hden e)
  have htwo : (0 : ℚ) < 2 ^ e := by positivity
  -- in units of the scaled denominator
  have hunit : (num / den : ℚ) * (scaled num den e).2 = (scaled num den e).1 * 2 ^ e := by
    have heq := scaled_eq num den e
    rw [div_eq_div_iff hpos.ne' htwo.ne'] at heq
    exact heq.symm
  have hcancel : ∀ {a b : ℚ}, a * 2 ^ e < b * 2 ^ e → a < b := fun h =>
    lt_of_mul_lt_mul_right h htwo.le
  have hcancel' : ∀ {a b : ℚ}, a * 2 ^ e ≤ b * 2 ^ e → a ≤ b := fun h =>
    le_of_mul_le_mul_right h htwo
  generalize (scaled num den e).1 = a at *
  generalize (scaled num den e).2 = b at *
  refine roundDiv_eq (by exact_mod_cast hpos) ?_ ?_ (htie.imp id fun h => ⟨?_, ?_⟩)
  · have hq : (2 * m * b : ℚ) ≤ 2 * a + b := hcancel' (by nlinarith)
    exact_mod_cast hq
  · have hq : (2 * a : ℚ) ≤ (2 * m + 1) * b := hcancel' (by nlinarith)
    exact_mod_cast hq
  · have hq : (2 * m * b : ℚ) < 2 * a + b := hcancel (by nlinarith [h.1])
    exact_mod_cast hq
  · have hq : (2 * a : ℚ) < (2 * m + 1) * b := hcancel (by nlinarith [h.2])
    exact_mod_cast hq

theorem ofRatio_of_exponentOf {num den : Nat} (hd : d.Normal) (hnum : 0 < num) (hden : 0 < den)
    (h : d.Rounds (num / den : ℚ)) (hexponent : exponentOf num den = d.exponent) :
    ofRatio d.negative num den = some d := by
  obtain ⟨hlow, hhigh, htie⟩ := h.within
  have hround := roundDiv_scaled hden hlow hhigh htie
  have hcarry : d.mantissa ≠ powTwo 53 := Nat.ne_of_lt hd.mantissa_lt
  have hm : d.mantissa ≠ 0 := Nat.ne_of_gt hd.pos
  unfold ofRatio
  rw [if_neg (Nat.ne_of_gt hnum), hexponent]
  dsimp only
  rw [hround, if_neg hcarry, if_neg hm, if_neg (not_lt.mpr hd.exponent_le)]

/-! Only just below a power of two is the exponent of the quotient smaller than that of the double. -/

theorem two_zpow_add (e : Int) (k : Nat) : (2 : ℚ) ^ (e - 2 + k) = 2 ^ k * 2 ^ (e - 2) := by
  rw [zpow_add₀ (by norm_num), zpow_natCast, mul_comm]

theorem Rounds.mantissa_eq (hd : d.Normal) (h : d.Rounds x) (hleast : d.exponent ≠ -1074)
    (hbelow : x < 2 ^ (d.exponent + 52)) : d.mantissa = powTwo 52 := by
  have hfull : 2 ^ 52 ≤ d.mantissa := hd.full.resolve_right hleast
  have htop : (2 : ℚ) ^ (d.exponent + 52) = 2 ^ 54 * 2 ^ (d.exponent - 2) := by
    rw [← two_zpow_add]
    congr 1
    omega
  have hunit : (0 : ℚ) < 2 ^ (d.exponent - 2) := by positivity
  by_contra hne
  have hreach := reach_le d
  have hmore : 2 ^ 52 + 1 ≤ d.mantissa := lt_of_le_of_ne hfull (Ne.symm hne)
  have hcast : (2 : ℚ) ^ 52 + 1 ≤ d.mantissa := by exact_mod_cast hmore
  have hlow := h.1
  nlinarith

theorem Rounds.ge_of_mantissa (h : d.Rounds x) (hgt : d.exponent > -1074)
    (hm : d.mantissa = powTwo 52) : (2 ^ 54 - 1) * (2 : ℚ) ^ (d.exponent - 2) ≤ x := by
  have hreach : (d.reach : ℚ) = 1 := by
    rw [reach, hm, if_pos (by simpa using hgt)]
    norm_num
  have hcast : (d.mantissa : ℚ) = 2 ^ 52 := by
    rw [hm]
    norm_num [powTwo]
  have hlow := h.1
  rw [hreach, hcast] at hlow
  calc (2 ^ 54 - 1) * (2 : ℚ) ^ (d.exponent - 2)
      = (4 * 2 ^ 52 - 1) * 2 ^ (d.exponent - 2) := by norm_num
    _ ≤ x := hlow

/-- There the mantissa carries into the next bit. -/
theorem Rounds.carry {num den : Nat} (hden : 0 < den) (h : d.Rounds (num / den : ℚ))
    (hgt : d.exponent > -1074) (hm : d.mantissa = powTwo 52)
    (hbelow : (num / den : ℚ) < 2 ^ (d.exponent + 52)) :
    roundDiv (scaled num den (d.exponent - 1)).1 (scaled num den (d.exponent - 1)).2 = powTwo 53 := by
  have hlow := h.ge_of_mantissa hgt hm
  have htop : (2 : ℚ) ^ (d.exponent + 52) = 2 ^ 54 * 2 ^ (d.exponent - 2) := by
    rw [← two_zpow_add]
    congr 1
    omega
  have hhalf : (2 : ℚ) ^ (d.exponent - 1) = 2 * 2 ^ (d.exponent - 2) := by
    rw [show d.exponent - 1 = d.exponent - 2 + (1 : Nat) by omega, two_zpow_add, pow_one]
  have hunit : (0 : ℚ) < 2 ^ (d.exponent - 2) := by positivity
  have hpower : ((powTwo 53 : Nat) : ℚ) = 2 ^ 53 := by norm_num [powTwo]
  rw [htop] at hbelow
  refine roundDiv_scaled hden ?_ ?_ (.inl (by decide))
  · rw [hpower, hhalf]
    linarith
  · rw [hpower, hhalf]
    linarith

/-- **Every quotient in the interval of a double rounds to it.** -/
theorem ofRatio_of_rounds {num den : Nat} (hd : d.Normal) (hden : 0 < den)
    (h : d.Rounds (num / den : ℚ)) : ofRatio d.negative num den = some d := by
  have hpos := h.pos hd
  have hnum : 0 < num := by
    rcases Nat.eq_zero_or_pos num with rfl | hnum
    · simp at hpos
    · exact hnum
  obtain ⟨e, hlow, hhigh⟩ := exists_exponent hnum hden
  have hexponent := exponentOf_eq hnum hden hlow hhigh
  have hle : e ≤ d.exponent := by
    have hlt := hlow.trans_lt (h.lt hd)
    have hlt := (zpow_lt_zpow_iff_right₀ (by norm_num : (1 : ℚ) < 2)).mp hlt
    omega
  have hge := hd.exponent_ge
  by_cases hsame : d.exponent = -1074 ∨ e = d.exponent
  · exact ofRatio_of_exponentOf hd hnum hden h (by omega)
  obtain ⟨hleast, hne⟩ := not_or.mp hsame
  have hgt : d.exponent > -1074 := by omega
  have hbelow : (num / den : ℚ) < 2 ^ (d.exponent + 52) :=
    hhigh.trans_le (zpow_le_zpow_right₀ (by norm_num) (by omega))
  have hmantissa := h.mantissa_eq hd hleast hbelow
  have hprevious : e = d.exponent - 1 := by
    have hlower : (2 : ℚ) ^ (d.exponent + 51) < num / den := by
      refine lt_of_lt_of_le ?_ (h.ge_of_mantissa hgt hmantissa)
      have hunit : (0 : ℚ) < 2 ^ (d.exponent - 2) := by positivity
      rw [show d.exponent + 51 = d.exponent - 2 + (53 : Nat) by omega, two_zpow_add]
      linarith
    have hlt := (zpow_lt_zpow_iff_right₀ (by norm_num : (1 : ℚ) < 2)).mp (hlower.trans hhigh)
    omega
  unfold ofRatio
  rw [if_neg (Nat.ne_of_gt hnum), hexponent, show max e (-1074) = d.exponent - 1 by omega]
  dsimp only
  rw [h.carry hden hgt hmantissa hbelow, if_pos rfl, if_neg (by norm_num [powTwo])]
  have hback : d.exponent - 1 + 1 = d.exponent := by omega
  rw [hback, if_neg (not_lt.mpr hd.exponent_le), ← hmantissa]

/-! ### Decimals -/

theorem cast_powTen {power : Int} (h : 0 ≤ power) : ((powTen power.toNat : Nat) : ℚ) = 10 ^ power := by
  have hpow : ((10 ^ power.toNat : Nat) : ℚ) = 10 ^ power := by
    rw [Nat.cast_pow, Nat.cast_ofNat, ← zpow_natCast, Int.toNat_of_nonneg h]
  exact hpow

/-- Ten is more than two to the third power. -/
theorem two_zpow_lt_ten_zpow {n : Int} (h : 0 < n) : (2 : ℚ) ^ (3 * n) < 10 ^ n := by
  rw [zpow_mul]
  exact zpow_lt_zpow_left₀ h (by norm_num) (by norm_num)

/-- **Every decimal in the interval of a double rounds to it.** -/
theorem ofDecimal_of_rounds {digits : Nat} {power : Int} (hd : d.Normal)
    (h : d.Rounds (digits * (10 : ℚ) ^ power)) :
    ofDecimal d.negative digits power = some d := by
  have hpos := h.pos hd
  have hten : (0 : ℚ) < 10 ^ power := by positivity
  have hdigits : 0 < digits := by
    rcases Nat.eq_zero_or_pos digits with rfl | hdigits
    · simp at hpos
    · exact hdigits
  -- no double is so large or so small that its decimals are settled by their length alone
  have htop : ¬ ((Decimal.digits digits).length : Int) + power > 400 := by
    intro htop
    have hlength : (10 : ℚ) ^ (((Decimal.digits digits).length : Int) - 1) ≤ digits := by
      have hle : ((10 ^ ((Decimal.digits digits).length - 1) : Nat) : ℚ) ≤ digits := by
        exact_mod_cast Decimal.pow_digits_length_le hdigits
      refine le_trans ?_ hle
      rw [Nat.cast_pow, Nat.cast_ofNat, ← zpow_natCast]
      exact zpow_le_zpow_right₀ (by norm_num) (by omega)
    have hlarge : (10 : ℚ) ^ (400 : Int) ≤ digits * 10 ^ power := by
      refine le_trans ?_ (mul_le_mul_of_nonneg_right hlength hten.le)
      rw [← zpow_add₀ (by norm_num)]
      exact zpow_le_zpow_right₀ (by norm_num) (by omega)
    have hle := hd.exponent_le
    have hsmall : (2 : ℚ) ^ (d.exponent + 53) ≤ 2 ^ (3 * 400 : Int) :=
      zpow_le_zpow_right₀ (by norm_num) (by omega)
    have hlt := (hlarge.trans_lt (h.lt hd)).trans_le hsmall
    exact lt_asymm hlt (two_zpow_lt_ten_zpow (by norm_num))
  have hbottom : ¬ ((Decimal.digits digits).length : Int) + power < -400 := by
    intro hbottom
    have hlength : (digits : ℚ) < 10 ^ ((Decimal.digits digits).length : Int) := by
      rw [zpow_natCast]
      exact_mod_cast Decimal.lt_pow_digits_length digits
    have hsmall : digits * (10 : ℚ) ^ power < 10 ^ (-400 : Int) := by
      refine (mul_lt_mul_of_pos_right hlength hten).trans_le ?_
      rw [← zpow_add₀ (by norm_num)]
      exact zpow_le_zpow_right₀ (by norm_num) (by omega)
    have hlarge : (2 : ℚ) ^ (-(3 * 400) : Int) ≤ 2 ^ (-1075 : Int) :=
      zpow_le_zpow_right₀ (by norm_num) (by norm_num)
    have hlt := (hlarge.trans (h.ge hd)).trans_lt hsmall
    rw [zpow_neg, zpow_neg, inv_lt_inv₀ (by positivity) (by positivity)] at hlt
    exact lt_asymm hlt (two_zpow_lt_ten_zpow (by norm_num))
  unfold ofDecimal
  rw [if_neg (Nat.ne_of_gt hdigits)]
  dsimp only
  rw [if_neg htop, if_neg hbottom]
  split
  · rename_i hpower
    refine ofRatio_of_rounds hd Nat.one_pos ?_
    rwa [Nat.cast_mul, Nat.cast_one, div_one, cast_powTen hpower]
  · rename_i hpower
    refine ofRatio_of_rounds hd (Nat.pow_pos (by decide)) ?_
    rwa [cast_powTen (by omega), zpow_neg, div_inv_eq_mul]

end PatternPlan.Double
