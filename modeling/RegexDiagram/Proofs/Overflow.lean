import Mathlib.Algebra.Order.Field.Power
import Mathlib.Tactic.Linarith
import Mathlib.Tactic.NormNum
import Mathlib.Tactic.Ring
import RegexDiagram.Json.Whole

/-!
Numbers that are too large. A number with a fraction or an exponent is rounded to 53 significant
bits before it is made whole, and is infinite if it is rounded to `2 ^ 1024` or more. These are the
numbers that are nearer to `2 ^ 1024` than to the largest number below it with 53 bits, and the one
halfway between the two.
-/
namespace RegexDiagram.Json

/-! ## Rounding -/

section Rounding

variable {a b num den : Nat} {scale : Int}

/-- The quotient `a / b` has 53 bits before the point, and is `num / den` without `scale` binary
places. -/
structure Scaled (num den a b : Nat) (scale : Int) : Prop where
  lower : 2 ^ 52 * b ≤ a
  upper : a < 2 ^ 53 * b
  exact : ∃ u v : Nat, a = num * 2 ^ u ∧ b = den * 2 ^ v ∧ scale = v - u

/-- What `wholePart` makes of a quotient that it has scaled. -/
def ofScaled (a b : Nat) (scale : Int) : Except WholeError Nat :=
  let n := roundHalfEven a b <<< scale.toNat >>> (-scale).toNat
  if 1 <<< 1024 ≤ n then .error .infinite else .ok n

theorem exists_scaled (hnum : 0 < num) (hden : 0 < den) :
    ∃ a b scale, Scaled num den a b scale ∧ wholePart num den = ofScaled a b scale := by
  have hn := Nat.log2_self_le hnum.ne'
  have hn' := Nat.lt_log2_self (n := num)
  have hd := Nat.log2_self_le hden.ne'
  have hd' := Nat.lt_log2_self (n := den)
  generalize hscale : (num.log2 : Int) - den.log2 - 53 = scale
  generalize hu : (-scale).toNat = u
  generalize hv : scale.toNat = v
  have hb : 0 < den * 2 ^ v := by positivity
  have hlower : 2 ^ 52 * (den * 2 ^ v) ≤ num * 2 ^ u :=
    calc 2 ^ 52 * (den * 2 ^ v) ≤ 2 ^ 52 * (2 ^ (den.log2 + 1) * 2 ^ v) := by gcongr
      _ = 2 ^ num.log2 * 2 ^ u := by
        rw [← pow_add, ← pow_add, ← pow_add]
        congr 1
        omega
      _ ≤ num * 2 ^ u := by gcongr
  have hupper : num * 2 ^ u < 2 ^ 53 * (2 * (den * 2 ^ v)) :=
    calc num * 2 ^ u < 2 ^ (num.log2 + 1) * 2 ^ u := by gcongr
      _ = 2 ^ 53 * (2 * (2 ^ den.log2 * 2 ^ v)) := by
        rw [← pow_add, ← pow_add, ← pow_succ', ← pow_add]
        congr 1
        omega
      _ ≤ 2 ^ 53 * (2 * (den * 2 ^ v)) := by gcongr
  have hwhole : wholePart num den = if 2 ^ 53 ≤ num * 2 ^ u / (den * 2 ^ v)
      then ofScaled (num * 2 ^ u) (2 * (den * 2 ^ v)) (scale + 1)
      else ofScaled (num * 2 ^ u) (den * 2 ^ v) scale := by
    unfold wholePart ofScaled
    generalize 1 <<< 1024 = top
    simp only [hscale, hu, hv, Nat.shiftLeft_eq, Nat.one_mul]
    split <;> simp only [hu, hv]
  rw [hwhole]
  by_cases h : 2 ^ 53 ≤ num * 2 ^ u / (den * 2 ^ v)
  · rw [if_pos h]
    rw [Nat.le_div_iff_mul_le hb] at h
    exact ⟨_, _, _, ⟨by linarith, hupper, u, v + 1, rfl, by ring, by omega⟩, rfl⟩
  · rw [if_neg h]
    rw [Nat.le_div_iff_mul_le hb, not_le] at h
    exact ⟨_, _, _, ⟨hlower, h, u, v, rfl, rfl, by omega⟩, rfl⟩

theorem le_roundHalfEven (a b : Nat) : a / b ≤ roundHalfEven a b := by
  unfold roundHalfEven
  split <;> omega

theorem roundHalfEven_le (a b : Nat) : roundHalfEven a b ≤ a / b + 1 := by
  unfold roundHalfEven
  split <;> omega

theorem Scaled.pos (h : Scaled num den a b scale) : 0 < b := by
  have hlower := h.lower
  have hupper := h.upper
  omega

/-- Rounded up to one more bit is what comes half a unit near to it, as half of an odd unit is
rounded up. -/
theorem Scaled.rounded_iff (h : Scaled num den a b scale) :
    2 ^ 53 ≤ roundHalfEven a b ↔ (2 ^ 54 - 1) * b ≤ 2 * a := by
  have hb := h.pos
  have hlower := h.lower
  have hupper := h.upper
  have hdiv := Nat.div_add_mod a b
  have hmod := Nat.mod_lt a hb
  have hquotient : a / b < 2 ^ 53 := (Nat.div_lt_iff_lt_mul hb).mpr hupper
  by_cases hlast : a / b = 2 ^ 53 - 1
  · rw [hlast] at hdiv
    unfold roundHalfEven
    split <;> omega
  · have hle := roundHalfEven_le a b
    have hless : b * (a / b) ≤ b * (2 ^ 53 - 2) := Nat.mul_le_mul_left b (by omega)
    omega

theorem Scaled.le_rounded (h : Scaled num den a b scale) : 2 ^ 52 ≤ roundHalfEven a b :=
  ((Nat.le_div_iff_mul_le h.pos).mpr h.lower).trans (le_roundHalfEven a b)

theorem Scaled.rounded_le (h : Scaled num den a b scale) : roundHalfEven a b ≤ 2 ^ 53 :=
  (roundHalfEven_le a b).trans ((Nat.div_lt_iff_lt_mul h.pos).mpr h.upper)

/-- Half the distance of numbers with 53 bits right below `2 ^ 1024`. -/
def halfUnit : Nat := 2 ^ 970

/-- The least number that is rounded to `2 ^ 1024`, as it is halfway between that and the largest
number below it with 53 bits. -/
def overflow : Nat := (2 ^ 54 - 1) * halfUnit

theorem halfUnit_pos : 0 < halfUnit := by
  unfold halfUnit
  positivity

theorem overflow_pos : 0 < overflow := Nat.mul_pos (by norm_num) halfUnit_pos

theorem overflow_le : overflow ≤ 2 ^ 54 * halfUnit := by
  unfold overflow
  gcongr
  norm_num

theorem two_pow_add (k : Nat) : 2 ^ (970 + k) = 2 ^ k * halfUnit := by
  rw [pow_add, mul_comm, halfUnit]

theorem one_shiftLeft_add (k : Nat) : 1 <<< (970 + k) = 2 ^ k * halfUnit := by
  rw [Nat.one_shiftLeft, two_pow_add]

theorem ofScaled_eq_infinite_iff : ofScaled a b scale = .error .infinite ↔
    2 ^ 54 * halfUnit ≤ roundHalfEven a b * 2 ^ scale.toNat / 2 ^ (-scale).toNat := by
  have htop : 1 <<< 1024 = 2 ^ 54 * halfUnit := one_shiftLeft_add 54
  simp only [ofScaled, ← Nat.shiftLeft_eq, ← Nat.shiftRight_eq_div_pow, ← htop]
  split <;> simp_all

theorem Scaled.finite_of_lt (h : Scaled num den a b scale) (hscale : scale < 971) :
    ofScaled a b scale ≠ .error .infinite ∧ num < overflow * den := by
  constructor
  · rw [ne_eq, ofScaled_eq_infinite_iff, not_le]
    have hshift : 2 ^ scale.toNat ≤ halfUnit := by
      unfold halfUnit
      gcongr
      · norm_num
      · omega
    have hpos := halfUnit_pos
    calc roundHalfEven a b * 2 ^ scale.toNat / 2 ^ (-scale).toNat
        ≤ roundHalfEven a b * 2 ^ scale.toNat := Nat.div_le_self _ _
      _ ≤ 2 ^ 53 * halfUnit := Nat.mul_le_mul h.rounded_le hshift
      _ < 2 ^ 54 * halfUnit := by omega
  · obtain ⟨u, v, rfl, rfl, hexact⟩ := h.exact
    have hnum : num * 2 ^ u < 2 ^ 53 * halfUnit * den * 2 ^ u :=
      calc num * 2 ^ u < 2 ^ 53 * (den * 2 ^ v) := h.upper
        _ ≤ 2 ^ 53 * (den * 2 ^ (970 + u)) := by
          gcongr
          · norm_num
          · omega
        _ = 2 ^ 53 * halfUnit * den * 2 ^ u := by
          rw [two_pow_add]
          ring
    calc num < 2 ^ 53 * halfUnit * den := Nat.lt_of_mul_lt_mul_right hnum
      _ ≤ overflow * den := by
        unfold overflow
        gcongr
        norm_num

/-- Right below the top, infinite is what is rounded up to one more bit. -/
theorem Scaled.infinite_iff_of_eq (h : Scaled num den a b 971) :
    ofScaled a b 971 = .error .infinite ↔ overflow * den ≤ num := by
  have hshift : (971 : Int).toNat = 970 + 1 := rfl
  have hzero : (-971 : Int).toNat = 0 := rfl
  have htop : 2 ^ 54 * halfUnit = 2 ^ 53 * (2 ^ 1 * halfUnit) := by ring
  have hpos : 0 < 2 ^ 1 * halfUnit := Nat.mul_pos (by norm_num) halfUnit_pos
  rw [ofScaled_eq_infinite_iff, hzero, pow_zero, Nat.div_one, hshift, two_pow_add 1, htop,
    Nat.mul_le_mul_right_iff hpos, h.rounded_iff]
  obtain ⟨u, v, rfl, rfl, hexact⟩ := h.exact
  have hv : v = 970 + (1 + u) := by omega
  have hleft : (2 ^ 54 - 1) * (den * 2 ^ v) = overflow * den * (2 * 2 ^ u) := by
    rw [hv, two_pow_add, overflow]
    ring
  have hright : 2 * (num * 2 ^ u) = num * (2 * 2 ^ u) := by ring
  rw [hleft, hright, Nat.mul_le_mul_right_iff (by positivity)]

theorem Scaled.infinite_of_gt (h : Scaled num den a b scale) (hscale : 971 < scale) :
    ofScaled a b scale = .error .infinite ∧ overflow * den ≤ num := by
  constructor
  · have hzero : (-scale).toNat = 0 := by omega
    rw [ofScaled_eq_infinite_iff, hzero, pow_zero, Nat.div_one]
    have htop : 2 ^ 54 * halfUnit = 2 ^ 52 * (2 ^ 2 * halfUnit) := by ring
    have hshift : 970 + 2 ≤ scale.toNat := by omega
    have hrounded := h.le_rounded
    rw [htop, ← two_pow_add]
    gcongr
    norm_num
  · obtain ⟨u, v, rfl, rfl, hexact⟩ := h.exact
    have hnum : 2 ^ 54 * halfUnit * den * 2 ^ u ≤ num * 2 ^ u :=
      calc 2 ^ 54 * halfUnit * den * 2 ^ u = 2 ^ 52 * (den * 2 ^ (970 + (2 + u))) := by
            rw [two_pow_add]
            ring
        _ ≤ 2 ^ 52 * (den * 2 ^ v) := by
          gcongr
          · norm_num
          · omega
        _ ≤ num * 2 ^ u := h.lower
    calc overflow * den ≤ 2 ^ 54 * halfUnit * den := by
          gcongr
          exact overflow_le
      _ ≤ num := Nat.le_of_mul_le_mul_right hnum (by positivity)

end Rounding

theorem wholePart_eq_infinite_iff {num den : Nat} (hnum : 0 < num) (hden : 0 < den) :
    wholePart num den = .error .infinite ↔ overflow * den ≤ num := by
  obtain ⟨a, b, scale, h, hwhole⟩ := exists_scaled hnum hden
  rw [hwhole]
  rcases lt_trichotomy scale 971 with hlt | rfl | hgt
  · obtain ⟨hfinite, hsmall⟩ := h.finite_of_lt hlt
    exact iff_of_false hfinite (Nat.not_le.mpr hsmall)
  · exact h.infinite_iff_of_eq
  · obtain ⟨hinfinite, hlarge⟩ := h.infinite_of_gt hgt
    exact iff_of_true hinfinite hlarge

/-! ## Decimals -/

/-- The numbers that are rounded to infinity. -/
def Number.Overflows : Number → Prop
  | integer _ => False
  | decimal digits exponent => (overflow : ℚ) ≤ |(digits : ℚ)| * 10 ^ exponent
  | infinity _ => True
  | nan => False

/-- The values that are such a number. -/
def Overflows : Json → Prop
  | number n => n.Overflows
  | _ => False

/-- The digits and the exponent of a number tell its power of ten. -/
theorem magnitude_bounds {digits : Nat} (h : digits ≠ 0) (exponent : Int) :
    (10 : ℚ) ^ (exponent + (Nat.toDigits 10 digits).length - 1) ≤ digits * 10 ^ exponent ∧
      (digits * 10 ^ exponent : ℚ) < 10 ^ (exponent + (Nat.toDigits 10 digits).length) := by
  generalize hlength : (Nat.toDigits 10 digits).length = n
  have hn : 0 < n := hlength ▸ Nat.length_toDigits_pos
  have hlower : 10 ^ (n - 1) ≤ digits := by
    by_cases hone : n = 1
    · rw [hone]
      exact Nat.pos_of_ne_zero h
    · rw [← Nat.not_lt, ← Nat.length_toDigits_le_iff (by norm_num) (by omega), hlength]
      omega
  have hupper : digits < 10 ^ n :=
    (Nat.length_toDigits_le_iff (by norm_num) hn).mp hlength.le
  constructor
  · calc (10 : ℚ) ^ (exponent + n - 1) = ((10 ^ (n - 1) : Nat) : ℚ) * 10 ^ exponent := by
          rw [Nat.cast_pow, Nat.cast_ofNat, ← zpow_natCast, ← zpow_add₀ (by norm_num)]
          congr 1
          omega
      _ ≤ digits * 10 ^ exponent := by gcongr
  · calc (digits * 10 ^ exponent : ℚ) < ((10 ^ n : Nat) : ℚ) * 10 ^ exponent := by gcongr
      _ = 10 ^ (exponent + n) := by
        rw [Nat.cast_pow, Nat.cast_ofNat, ← zpow_natCast, ← zpow_add₀ (by norm_num), add_comm]

theorem overflow_le_ten_pow : overflow ≤ 10 ^ 310 :=
  calc overflow ≤ 2 ^ (970 + 54) := by
        rw [two_pow_add]
        exact overflow_le
    _ ≤ (2 ^ 205) ^ 5 := by
        rw [← pow_mul]
        gcongr
        · norm_num
        · norm_num
    _ ≤ (10 ^ 62) ^ 5 := Nat.pow_le_pow_left (by norm_num) 5
    _ = 10 ^ 310 := by rw [← pow_mul]

theorem decimal_eq_div (digits : Nat) (exponent : Int) : (digits * 10 ^ exponent : ℚ) =
    ((digits * 10 ^ exponent.toNat : Nat) : ℚ) / ((10 ^ (-exponent).toNat : Nat) : ℚ) := by
  push_cast
  rw [mul_div_assoc, ← zpow_natCast, ← zpow_natCast, ← zpow_sub₀ (by norm_num)]
  congr 2
  omega

theorem wholeDecimal_eq_infinite_iff (digits : Nat) (exponent : Int) :
    wholeDecimal digits exponent = .error .infinite ↔
      (overflow : ℚ) ≤ (digits : ℚ) * 10 ^ exponent := by
  have hpos := overflow_pos
  have hle := overflow_le_ten_pow
  by_cases hzero : digits = 0
  · have hnone : wholeDecimal digits exponent = .ok 0 := if_pos (.inl hzero)
    rw [hnone, hzero, Nat.cast_zero, zero_mul]
    exact iff_of_false (by simp) (not_le.mpr (Nat.cast_pos.mpr hpos))
  obtain ⟨hlower, hupper⟩ := magnitude_bounds hzero exponent
  unfold wholeDecimal
  generalize exponent + ((Nat.toDigits 10 digits).length : Int) = magnitude at hlower hupper ⊢
  by_cases hsmall : magnitude < 0
  · have hone : (10 : ℚ) ^ magnitude ≤ 1 := zpow_le_one_of_nonpos₀ (by norm_num) hsmall.le
    have hleast : (1 : ℚ) ≤ overflow := by exact_mod_cast hpos
    rw [if_pos (.inr hsmall)]
    exact iff_of_false (by simp) (by linarith)
  · rw [if_neg (not_or.mpr ⟨hzero, hsmall⟩)]
    by_cases hlarge : 310 < magnitude
    · have htop : (10 : ℚ) ^ (310 : Int) ≤ 10 ^ (magnitude - 1) :=
        zpow_le_zpow_right₀ (by norm_num) (by omega)
      have hmost : (overflow : ℚ) ≤ 10 ^ (310 : Int) := by exact_mod_cast hle
      rw [if_pos hlarge]
      exact iff_of_true rfl (by linarith)
    · rw [if_neg hlarge]
      have hten (n : Nat) : 0 < 10 ^ n := Nat.pow_pos (by norm_num)
      have hnum := Nat.mul_pos (Nat.pos_of_ne_zero hzero) (hten exponent.toNat)
      have hden := hten (-exponent).toNat
      have hden' : (0 : ℚ) < ((10 ^ (-exponent).toNat : Nat) : ℚ) := by exact_mod_cast hden
      apply (wholePart_eq_infinite_iff hnum hden).trans
      rw [decimal_eq_div, le_div_iff₀ hden']
      exact_mod_cast Iff.rfl

theorem Number.whole_eq_infinite_iff (n : Number) :
    n.whole = .error .infinite ↔ n.Overflows := by
  cases n with
  | integer n => simp [whole, Overflows]
  | decimal digits exponent =>
    rw [whole, Overflows, ← Int.cast_abs, Int.abs_eq_natAbs, Int.cast_natCast,
      ← wholeDecimal_eq_infinite_iff]
    cases wholeDecimal digits.natAbs exponent <;> simp [Except.map]
  | infinity negative => simp [whole, Overflows]
  | nan => simp [whole, Overflows]

theorem readWhole_ne_infinite (cs : List Char) : readWhole cs ≠ .error .infinite := by
  fun_cases readWhole cs <;> simp_all

/-- Only a number that is too large for 53 bits and an exponent below 1024 is infinite. -/
theorem whole_eq_infinite_iff (j : Json) : j.whole = .error .infinite ↔ j.Overflows := by
  cases j with
  | number n => exact n.whole_eq_infinite_iff
  | string s => simp [whole, Overflows, readWhole_ne_infinite]
  | _ => simp [whole, Overflows]

end RegexDiagram.Json
