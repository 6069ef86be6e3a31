import PatternPlan.Json.Reader
import PatternPlan.Proofs.Number.Shortest

/-!
# Numbers in documents

* `Numeral` — the parts of a number as it is written: sign, whole part, fraction and exponent;
* `scanNumber_text` — a number is scanned to its end;
* `intOfNumeral?_decimal`, `doubleOfNumeral?_render` — **integers and doubles are read back from their
  numerals**;
* `IsNumeral` — the texts of numbers.
-/

namespace PatternPlan

/-- A number as it is written.  The exponent has a sign, which is set if it is negative. -/
structure Numeral where
  negative : Bool
  whole : List Char
  fraction : List Char
  exponent : Option (Bool × List Char)

namespace Numeral

def signText (negative : Bool) : List Char := if negative then ['-'] else []

def fractionText (ds : List Char) : List Char := if ds = [] then [] else '.' :: ds

def exponentText : Option (Bool × List Char) → List Char
  | none => []
  | some (negative, ds) => 'e' :: (if negative then '-' else '+') :: ds

def text (n : Numeral) : List Char :=
  signText n.negative ++ n.whole ++ fractionText n.fraction ++ exponentText n.exponent

/-- The number in the exponent. -/
def exponentOf : Option (Bool × List Char) → Int
  | none => 0
  | some (negative, ds) => if negative then -(Decimal.value ds : Int) else Decimal.value ds

/-- The parts of a number consist of digits, and a zero in front stands alone. -/
structure Valid (n : Numeral) : Prop where
  whole : Decimal.Whole n.whole
  digits : ∀ c ∈ n.whole ++ n.fraction, Decimal.isDigit c = true
  exponent : ∀ negative ds, n.exponent = some (negative, ds) →
    ds ≠ [] ∧ ∀ c ∈ ds, Decimal.isDigit c = true

end Numeral

/-- What may follow a number: nothing that would continue it. -/
def Json.Stops (rest : List Char) : Prop :=
  ∀ c ∈ rest.head?, Decimal.isDigit c = false ∧ c ≠ '.' ∧ c ≠ 'e' ∧ c ≠ 'E'

namespace Json

/-! ### Scanning a number -/

theorem takeWhile_digits {ds rest : List Char} (hds : ∀ c ∈ ds, Decimal.isDigit c = true)
    (hrest : ∀ c ∈ rest.head?, Decimal.isDigit c = false) :
    (ds ++ rest).takeWhile Decimal.isDigit = ds ∧ (ds ++ rest).dropWhile Decimal.isDigit = rest := by
  rw [List.takeWhile_append_of_pos hds, List.dropWhile_append_of_pos hds]
  cases rest with
  | nil => simp
  | cons c rest =>
    have hc : Decimal.isDigit c = false := hrest c rfl
    simp [hc]

theorem scanDigits_append {ds rest : List Char} (hne : ds ≠ [])
    (hds : ∀ c ∈ ds, Decimal.isDigit c = true) (hrest : ∀ c ∈ rest.head?, Decimal.isDigit c = false) :
    scanDigits (ds ++ rest) = some (ds, rest) := by
  obtain ⟨htake, hdrop⟩ := takeWhile_digits hds hrest
  obtain ⟨d, ds, rfl⟩ := List.exists_cons_of_ne_nil hne
  rw [scanDigits, htake, hdrop]

theorem scanWhole_append {ds rest : List Char} (hwhole : Decimal.Whole ds)
    (hds : ∀ c ∈ ds, Decimal.isDigit c = true) (hrest : ∀ c ∈ rest.head?, Decimal.isDigit c = false) :
    scanWhole (ds ++ rest) = some (ds, rest) := by
  rcases hwhole with rfl | ⟨d, more, rfl, hd⟩
  · rfl
  · rw [← scanDigits_append (List.cons_ne_nil d more) hds hrest]
    show scanWhole (d :: (more ++ rest)) = _
    rw [scanWhole]
    · rfl
    · intro rest' heq
      exact hd (List.cons.inj heq).1

theorem scanFraction_append {ds rest : List Char} (hds : ∀ c ∈ ds, Decimal.isDigit c = true)
    (hrest : ∀ c ∈ rest.head?, Decimal.isDigit c = false ∧ c ≠ '.') :
    scanFraction (Numeral.fractionText ds ++ rest) = some (Numeral.fractionText ds, rest) := by
  rw [Numeral.fractionText]
  split
  · rw [List.nil_append, scanFraction]
    intro rest' heq
    rw [heq] at hrest
    exact (hrest '.' rfl).2 rfl
  · rename_i hne
    rw [List.cons_append, scanFraction, scanDigits_append hne hds fun c hc => (hrest c hc).1]
    rfl

theorem scanExponent_append {e : Option (Bool × List Char)} {rest : List Char}
    (he : ∀ negative ds, e = some (negative, ds) → ds ≠ [] ∧ ∀ c ∈ ds, Decimal.isDigit c = true)
    (hrest : Stops rest) :
    scanExponent (Numeral.exponentText e ++ rest) = some (Numeral.exponentText e, rest) := by
  cases e with
  | none =>
    rw [Numeral.exponentText, List.nil_append]
    cases rest with
    | nil => rfl
    | cons c rest =>
      obtain ⟨-, -, hlower, hupper⟩ := hrest c rfl
      rw [scanExponent.eq_def]
      dsimp only
      rw [if_neg (by simp [hlower, hupper])]
  | some e =>
    obtain ⟨negative, ds⟩ := e
    obtain ⟨hne, hds⟩ := he negative ds rfl
    have hscan := scanDigits_append hne hds fun c hc => (hrest c hc).1
    cases negative
    · show ((scanDigits (ds ++ rest)).map fun r => ('e' :: '+' :: r.1, r.2)) = _
      rw [hscan]
      rfl
    · show ((scanDigits (ds ++ rest)).map fun r => ('e' :: '-' :: r.1, r.2)) = _
      rw [hscan]
      rfl

/-- The first character behind the whole part of a number is no digit. -/
theorem head?_fraction {n : Numeral} {rest : List Char} (hrest : Stops rest) :
    ∀ c ∈ (Numeral.exponentText n.exponent ++ rest).head?,
      Decimal.isDigit c = false ∧ c ≠ '.' := by
  intro c hc
  cases he : n.exponent with
  | none =>
    rw [he] at hc
    exact ⟨(hrest c hc).1, (hrest c hc).2.1⟩
  | some e =>
    rw [he] at hc
    cases Option.some.inj hc
    decide

theorem head?_whole {n : Numeral} {rest : List Char} (hrest : Stops rest) :
    ∀ c ∈ (Numeral.fractionText n.fraction ++ (Numeral.exponentText n.exponent ++ rest)).head?,
      Decimal.isDigit c = false := by
  intro c hc
  rw [Numeral.fractionText] at hc
  split at hc
  · exact (head?_fraction hrest c hc).1
  · cases Option.some.inj hc
    decide

/-- **A number is scanned to its end.** -/
theorem scanNumber_text {n : Numeral} (h : n.Valid) {rest : List Char} (hrest : Stops rest) :
    scanNumber (n.text ++ rest) = some (String.ofList n.text, rest) := by
  have hwhole := scanWhole_append h.whole (fun c hc => h.digits c (List.mem_append_left _ hc))
    (head?_whole (n := n) hrest)
  have hfraction := scanFraction_append (fun c hc => h.digits c (List.mem_append_right _ hc))
    (head?_fraction (n := n) hrest)
  have hexponent := scanExponent_append h.exponent hrest
  obtain ⟨d, more, hcons⟩ := h.whole.exists_cons
  have hd : d ≠ '-' := by
    rintro rfl
    exact absurd (h.digits '-' (by rw [hcons]; simp)) (by decide)
  rw [Numeral.text]
  simp only [List.append_assoc]
  cases n.negative with
  | true =>
    show scanNumber ('-' :: (n.whole ++ (Numeral.fractionText n.fraction
      ++ (Numeral.exponentText n.exponent ++ rest)))) = _
    rw [scanNumber]
    simp [Numeral.signText, hwhole, hfraction, hexponent]
  | false =>
    show scanNumber (n.whole ++ (Numeral.fractionText n.fraction
      ++ (Numeral.exponentText n.exponent ++ rest))) = _
    rw [scanNumber]
    · simp [Numeral.signText, hwhole, hfraction, hexponent]
    · intro rest' heq
      rw [hcons] at heq
      exact hd (List.cons.inj heq).1

/-! ### The value of a number -/

/-- Whether a character starts an exponent. -/
def isMark (c : Char) : Bool := c = 'e' || c = 'E'

theorem isMark_of_isDigit {c : Char} (h : Decimal.isDigit c = true) : isMark c = false := by
  rw [isMark, Bool.or_eq_false_iff]
  constructor <;> refine decide_eq_false ?_ <;> rintro rfl <;> exact absurd h (by decide)

theorem ne_dot_of_isDigit {c : Char} (h : Decimal.isDigit c = true) : c ≠ '.' := by
  rintro rfl
  exact absurd h (by decide)

theorem takeWhile_dot {whole : List Char} (fraction : List Char)
    (h : ∀ c ∈ whole, Decimal.isDigit c = true) :
    (whole ++ Numeral.fractionText fraction).takeWhile (· ≠ '.') = whole ∧
      ((whole ++ Numeral.fractionText fraction).dropWhile (· ≠ '.')).drop 1 = fraction := by
  have hwhole : ∀ c ∈ whole, decide (c ≠ '.') = true := fun c hc =>
    decide_eq_true (ne_dot_of_isDigit (h c hc))
  rw [List.takeWhile_append_of_pos hwhole, List.dropWhile_append_of_pos hwhole,
    Numeral.fractionText]
  split
  · rename_i hnil
    simp [hnil]
  · simp

theorem takeWhile_mark {mantissa : List Char} (e : Option (Bool × List Char))
    (h : ∀ c ∈ mantissa, isMark c = false) :
    (mantissa ++ Numeral.exponentText e).takeWhile (fun c => !isMark c) = mantissa ∧
      (mantissa ++ Numeral.exponentText e).dropWhile (fun c => !isMark c)
        = Numeral.exponentText e := by
  have hmantissa : ∀ c ∈ mantissa, (!isMark c) = true := fun c hc => by rw [h c hc]; rfl
  rw [List.takeWhile_append_of_pos hmantissa, List.dropWhile_append_of_pos hmantissa]
  cases e with
  | none => simp [Numeral.exponentText]
  | some e =>
    have he : isMark 'e' = true := by decide
    simp [Numeral.exponentText, he]

theorem exponentValue_text (e : Option (Bool × List Char))
    (he : ∀ negative ds, e = some (negative, ds) → ∀ c ∈ ds, Decimal.isDigit c = true) :
    exponentValue ((Numeral.exponentText e).drop 1) = Numeral.exponentOf e := by
  cases e with
  | none => rfl
  | some e =>
    obtain ⟨negative, ds⟩ := e
    cases negative <;> rfl

/-- The number that a numeral stands for. -/
theorem doubleOfNumeral?_text {n : Numeral} (h : n.Valid) :
    doubleOfNumeral? (String.ofList n.text) = Double.ofDecimal n.negative
      (Decimal.value (n.whole ++ n.fraction))
      (Numeral.exponentOf n.exponent - n.fraction.length) := by
  have hdigits := List.forall_mem_append.mp h.digits
  obtain ⟨hwhole, hfraction⟩ := takeWhile_dot n.fraction hdigits.1
  have hmantissa : ∀ c ∈ n.whole ++ Numeral.fractionText n.fraction, isMark c = false := by
    refine List.forall_mem_append.mpr ⟨fun c hc => isMark_of_isDigit (hdigits.1 c hc), ?_⟩
    rw [Numeral.fractionText]
    split
    · simp
    · exact List.forall_mem_cons.mpr ⟨by decide, fun c hc => isMark_of_isDigit (hdigits.2 c hc)⟩
  obtain ⟨htake, hdrop⟩ := takeWhile_mark n.exponent hmantissa
  have hexponent := exponentValue_text n.exponent fun b ds hds => (h.exponent b ds hds).2
  obtain ⟨d, more, hcons⟩ := h.whole.exists_cons
  have hd : d ≠ '-' := by
    rintro rfl
    exact absurd (h.digits '-' (by rw [hcons]; simp)) (by decide)
  have htext : n.text = Numeral.signText n.negative ++ (n.whole ++ Numeral.fractionText n.fraction
      ++ Numeral.exponentText n.exponent) := by
    simp only [Numeral.text, List.append_assoc]
  have hfirst : ∀ rest, n.whole ++ Numeral.fractionText n.fraction ++ Numeral.exponentText n.exponent
      ≠ '-' :: rest := by
    intro rest heq
    rw [hcons] at heq
    exact hd (List.cons.inj heq).1
  generalize n.whole ++ Numeral.fractionText n.fraction ++ Numeral.exponentText n.exponent = cs
    at htake hdrop htext hfirst
  have hparts : ∀ negative, Double.ofDecimal negative
      (Decimal.value ((cs.takeWhile fun c => !isMark c).takeWhile (· ≠ '.')
        ++ ((cs.takeWhile fun c => !isMark c).dropWhile (· ≠ '.')).drop 1))
      (exponentValue ((cs.dropWhile fun c => !isMark c).drop 1)
        - (((cs.takeWhile fun c => !isMark c).dropWhile (· ≠ '.')).drop 1).length)
      = Double.ofDecimal negative (Decimal.value (n.whole ++ n.fraction))
        (Numeral.exponentOf n.exponent - n.fraction.length) := by
    intro negative
    rw [htake, hdrop, hexponent, hwhole, hfraction]
  rw [doubleOfNumeral?, String.toList_ofList, htext]
  cases n.negative with
  | true => exact hparts true
  | false =>
    rw [Numeral.signText, if_neg (by decide), List.nil_append]
    split
    rename_i hsign
    split at hsign
    · exact absurd rfl (hfirst _)
    · cases hsign
      exact hparts false

/-! ### Numbers that are written -/

/-- The texts of numbers. -/
def IsNumeral (s : String) : Prop := ∃ n : Numeral, n.Valid ∧ s = String.ofList n.text

theorem decimal_eq (i : Int) : decimal i
    = String.ofList (Numeral.signText (decide (i < 0)) ++ Decimal.digits i.natAbs) := by
  rw [decimal, Numeral.signText]
  by_cases hi : i < 0
  · rw [if_pos hi, if_pos (decide_eq_true hi)]
    rfl
  · rw [if_neg hi, if_neg (by simpa using hi), List.nil_append]

theorem isNumeral_decimal (i : Int) : IsNumeral (decimal i) := by
  refine ⟨⟨decide (i < 0), Decimal.digits i.natAbs, [], none⟩, ⟨Decimal.whole_digits _, ?_, ?_⟩, ?_⟩
  · rw [List.append_nil]
    exact Decimal.isDigit_of_mem_digits
  · intro negative ds h
    cases h
  · rw [decimal_eq, Numeral.text, Numeral.fractionText, if_pos rfl, Numeral.exponentText,
      List.append_nil, List.append_nil]

/-- **Integers are read back from their numerals.** -/
theorem intOfNumeral?_decimal (i : Int) : intOfNumeral? (decimal i) = some i := by
  have hall : (Decimal.digits i.natAbs).all Decimal.isDigit = true :=
    List.all_eq_true.mpr Decimal.isDigit_of_mem_digits
  rw [decimal_eq, intOfNumeral?, String.toList_ofList, Numeral.signText]
  by_cases hi : i < 0
  · rw [decide_eq_true hi, if_pos rfl]
    show (if (Decimal.digits i.natAbs).all Decimal.isDigit then
      some (-(Decimal.value (Decimal.digits i.natAbs) : Int)) else none) = some i
    rw [if_pos hall, Decimal.value_digits]
    congr 1
    omega
  · rw [decide_eq_false hi, if_neg (by decide), List.nil_append]
    split
    · rename_i ds heq
      have hminus := Decimal.isDigit_of_mem_digits '-' (by rw [heq]; exact List.mem_cons_self)
      exact absurd hminus (by decide)
    · rw [if_pos hall, Decimal.value_digits]
      congr 1
      omega

/-- Notation with an exponent: one digit before the point, and a signed exponent. -/
theorem withExponent_eq (width : Nat) (s : Scientific) :
    ∃ d ds x, Decimal.digits s.digits = d :: ds ∧ x ≠ [] ∧ (∀ c ∈ x, Decimal.isDigit c = true) ∧
      Decimal.value x = s.leading.natAbs ∧
      s.withExponent width = [d] ++ Numeral.fractionText ds
        ++ Numeral.exponentText (some (decide (s.leading < 0), x)) := by
  obtain ⟨d, ds, hdigits⟩ := List.exists_cons_of_ne_nil (Decimal.digits_ne_nil s.digits)
  refine ⟨d, ds, List.replicate (width - (Decimal.digits s.leading.natAbs).length) '0'
    ++ Decimal.digits s.leading.natAbs, hdigits, ?_, ?_, ?_, ?_⟩
  · exact List.append_ne_nil_of_right_ne_nil _ (Decimal.digits_ne_nil _)
  · refine List.forall_mem_append.mpr ⟨fun c hc => ?_, Decimal.isDigit_of_mem_digits⟩
    rw [(List.mem_replicate.mp hc).2]
    decide
  · rw [Decimal.value_append, Decimal.value_zeros, Decimal.value_digits, zero_mul, zero_add]
  · rw [Scientific.withExponent, hdigits, Numeral.exponentText, Numeral.fractionText]
    simp only [decide_eq_true_eq]
    cases ds with
    | nil => rfl
    | cons e ds => rfl

/-- **Doubles are read back from their numerals**, in whatever style they are written. -/
theorem exists_numeral_render (style : DoubleStyle) {d : Double} (hd : d.Canonical) :
    ∃ n : Numeral, n.Valid ∧ d.render style = String.ofList n.text ∧
      doubleOfNumeral? (String.ofList n.text) = some d := by
  rw [Double.render, show d.sign = Numeral.signText d.negative from rfl]
  split
  · obtain ⟨whole, fraction, htext, hwhole, hdigits, hsize⟩ := d.shortest.positional_eq
    have hvalid : Numeral.Valid ⟨d.negative, whole, fraction, none⟩ :=
      ⟨hwhole, hdigits, fun negative ds h => by cases h⟩
    refine ⟨_, hvalid, ?_, ?_⟩
    · rw [htext, Numeral.text, Numeral.fractionText, Numeral.exponentText, List.append_nil]
      split <;> simp
    · rw [doubleOfNumeral?_text hvalid]
      refine Double.ofDecimal_of_size hd ?_
      rw [← hsize, pointed, Numeral.exponentOf, zero_sub]
  · obtain ⟨c, ds, x, hcons, hne, hx, hvalue, htext⟩ :=
      withExponent_eq style.exponentDigits d.shortest
    have hdigits : ∀ e ∈ c :: ds, Decimal.isDigit e = true := by
      rw [← hcons]
      exact Decimal.isDigit_of_mem_digits
    have hwhole : Decimal.Whole [c] := by
      by_cases hc : c = '0'
      · exact .inl (congrArg (fun c => [c]) hc)
      · exact .inr ⟨c, [], rfl, hc⟩
    have hvalid : Numeral.Valid
        ⟨d.negative, [c], ds, some (decide (d.shortest.leading < 0), x)⟩ := by
      refine ⟨hwhole, hdigits, fun negative ds h => ?_⟩
      cases h
      exact ⟨hne, hx⟩
    refine ⟨_, hvalid, ?_, ?_⟩
    · rw [htext, Numeral.text]
      simp only [List.append_assoc]
    · have hexponent : Numeral.exponentOf (some (decide (d.shortest.leading < 0), x))
          = d.shortest.leading := by
        rw [Numeral.exponentOf, hvalue]
        split
        · rename_i hnegative
          have := of_decide_eq_true hnegative
          omega
        · rename_i hnegative
          have : ¬ d.shortest.leading < 0 := by simpa using hnegative
          omega
      have hlength : d.shortest.leading = ds.length + d.shortest.power := by
        rw [Scientific.leading, hcons, List.length_cons]
        omega
      rw [doubleOfNumeral?_text hvalid]
      refine Double.ofDecimal_of_size hd ?_
      rw [hexponent, hlength, add_sub_cancel_left, List.singleton_append, ← hcons,
        Decimal.value_digits, Scientific.size]

theorem isNumeral_render (style : DoubleStyle) {d : Double} (hd : d.Canonical) :
    IsNumeral (d.render style) := by
  obtain ⟨n, hvalid, htext, -⟩ := exists_numeral_render style hd
  exact ⟨n, hvalid, htext⟩

theorem doubleOfNumeral?_render (style : DoubleStyle) {d : Double} (hd : d.Canonical) :
    doubleOfNumeral? (d.render style) = some d := by
  obtain ⟨n, -, htext, hread⟩ := exists_numeral_render style hd
  rw [htext, hread]

end Json

end PatternPlan
