/-!
# Decimal numerals

Natural numbers written in base ten, and read back; powers, and what fits in a word.

* `powTwo`, `powTen` — powers of two and of ten;
* `fitsInt64` — the integers that a signed word of 64 bits holds;
* `fitsUInt32` — the integers that an unsigned word of 32 bits holds;
* `Decimal.digits` — the numeral of a number, without leading zeros (`0` has one digit);
* `Decimal.value` — the number a list of digits stands for;
* `decimal` — an integer as a string, a negative one with a leading minus.
-/

namespace PatternPlan

/-! ### Powers and word sizes -/

/-- The power of two with a given exponent. -/
def powTwo (n : Nat) : Nat := Nat.pow 2 n

/-- The power of ten with a given exponent. -/
def powTen (n : Nat) : Nat := Nat.pow 10 n

/-- Whether a signed word of 64 bits holds an integer. -/
def fitsInt64 (i : Int) : Bool := -9223372036854775808 ≤ i && i < 9223372036854775808

/-- Whether an unsigned word of 32 bits holds an integer. -/
def fitsUInt32 (i : Int) : Bool := 0 ≤ i && i < 4294967296

/-! ### Numerals -/

namespace Decimal

/-- The character of a digit below ten. -/
def digit (n : Nat) : Char := Char.ofNat (48 + n)

/-- The numeral of `n`, most significant digit first. -/
def digits (n : Nat) : List Char :=
  if n < 10 then [digit n] else digits (n / 10) ++ [digit (n % 10)]
termination_by n
decreasing_by omega

/-- The number that a list of digits stands for. -/
def value (cs : List Char) : Nat :=
  cs.foldl (fun n c => 10 * n + (c.toNat - 48)) 0

/-- A decimal digit. -/
def isDigit (c : Char) : Bool := '0' ≤ c && c ≤ '9'

theorem value_append_singleton (cs : List Char) (c : Char) :
    value (cs ++ [c]) = 10 * value cs + (c.toNat - 48) := by
  simp [value, List.foldl_append]

theorem digit_toNat {n : Nat} (h : n < 10) : (digit n).toNat = 48 + n := by
  have hv : (48 + n).isValidChar := Or.inl (by omega)
  unfold digit Char.ofNat
  rw [dif_pos hv]
  rfl

/-- Reading the numeral of a number gives the number back. -/
theorem value_digits (n : Nat) : value (digits n) = n := by
  fun_induction digits n with
  | case1 n h => simp [value, digit_toNat h]
  | case2 n h ih =>
    rw [value_append_singleton, ih, digit_toNat (Nat.mod_lt _ (by omega))]
    omega

end Decimal

/-- An integer in decimal, a negative one with a leading minus. -/
def decimal (i : Int) : String :=
  if i < 0 then String.ofList ('-' :: Decimal.digits i.natAbs)
  else String.ofList (Decimal.digits i.natAbs)

end PatternPlan
