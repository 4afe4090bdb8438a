import Mathlib.Algebra.Order.Field.Power
import Mathlib.Data.Int.Log
import Mathlib.Data.Rat.Floor
import Mathlib.Tactic.FieldSimp
import Mathlib.Tactic.Linarith
import Mathlib.Tactic.Positivity

/-!
Numbers rounded to so many significant binary digits, to the nearest one and of two to the even
one. Exponents have no bounds, so nothing overflows and nothing is subnormal.
-/
namespace Hairgap.Base.Rounding

section
variable {K : Type*} [Field K] [LinearOrder K] [FloorRing K]

/-- The nearest integer, of two the even one. -/
def nearestEven (x : K) : Int :=
  if 2 * Int.fract x < 1 then ⌊x⌋
  else if 1 < 2 * Int.fract x then ⌊x⌋ + 1
  else if ⌊x⌋ % 2 = 0 then ⌊x⌋ else ⌊x⌋ + 1

/-- What the last of the digits of a number counts. -/
def lastPlace (digits : Nat) (x : K) : K := 2 ^ (Int.log 2 x + 1 - digits)

def roundTo (digits : Nat) (x : K) : K :=
  nearestEven (x / lastPlace digits x) * lastPlace digits x

theorem nearestEven_nonneg {x : K} (nonneg : 0 ≤ x) : 0 ≤ nearestEven x := by
  have floor : 0 ≤ ⌊x⌋ := Int.floor_nonneg.mpr nonneg
  unfold nearestEven
  split_ifs
  all_goals omega

variable [IsStrictOrderedRing K]

theorem nearestEven_close (x : K) : |(nearestEven x : K) - x| ≤ 1 / 2 := by
  have whole : (⌊x⌋ : K) = x - Int.fract x := (Int.self_sub_fract x).symm
  have low := Int.fract_nonneg x
  have high := Int.fract_lt_one x
  unfold nearestEven
  rw [abs_le]
  split_ifs
  all_goals
    push_cast
    constructor <;> linarith

theorem lastPlace_pos (digits : Nat) (x : K) : 0 < lastPlace digits x := zpow_pos two_pos _

theorem lastPlace_le (digits : Nat) {x : K} (pos : 0 < x) :
    lastPlace digits x ≤ 2 * x / 2 ^ digits := by
  have low : (2 : K) ^ Int.log 2 x ≤ x := by exact_mod_cast Int.zpow_log_le_self one_lt_two pos
  rw [lastPlace, zpow_sub₀ two_ne_zero, zpow_add_one₀ two_ne_zero, zpow_natCast, mul_comm]
  exact div_le_div_of_nonneg_right (mul_le_mul_of_nonneg_left low zero_le_two) (by positivity)

/-- The error is half a unit of the last place. -/
theorem roundTo_close (digits : Nat) {x : K} (nonneg : 0 ≤ x) :
    |roundTo digits x - x| ≤ x / 2 ^ digits := by
  rcases nonneg.eq_or_lt with rfl | pos
  · have zero : nearestEven (0 : K) = 0 := by simp [nearestEven]
    simp [roundTo, zero]
  · have place := lastPlace_pos digits x
    have split : roundTo digits x - x =
        (nearestEven (x / lastPlace digits x) - x / lastPlace digits x) * lastPlace digits x := by
      rw [roundTo, sub_mul, div_mul_cancel₀ x place.ne']
    calc |roundTo digits x - x|
        = |(nearestEven (x / lastPlace digits x) : K) - x / lastPlace digits x| *
            lastPlace digits x := by rw [split, abs_mul, abs_of_pos place]
      _ ≤ 1 / 2 * (2 * x / 2 ^ digits) :=
          mul_le_mul (nearestEven_close _) (lastPlace_le digits pos) place.le (by norm_num)
      _ = x / 2 ^ digits := by ring

theorem roundTo_nonneg (digits : Nat) {x : K} (nonneg : 0 ≤ x) : 0 ≤ roundTo digits x := by
  have place := lastPlace_pos digits x
  have whole := nearestEven_nonneg (div_nonneg nonneg place.le)
  exact mul_nonneg (by exact_mod_cast whole) place.le

theorem roundTo_le (digits : Nat) {x : K} (nonneg : 0 ≤ x) :
    roundTo digits x ≤ x * (1 + 1 / 2 ^ digits) := by
  have close := (abs_le.mp (roundTo_close digits nonneg)).2
  rw [div_eq_mul_one_div] at close
  linarith

theorem le_roundTo (digits : Nat) {x : K} (nonneg : 0 ≤ x) :
    x * (1 - 1 / 2 ^ digits) ≤ roundTo digits x := by
  have close := (abs_le.mp (roundTo_close digits nonneg)).1
  rw [div_eq_mul_one_div] at close
  linarith

/-- The error of a rounded quotient of two rounded numbers. -/
theorem quotient_close {digits : Nat} (enough : 4 ≤ digits) {a b : K} (nonneg : 0 ≤ a)
    (pos : 0 < b) :
    |roundTo digits (roundTo digits a / roundTo digits b) - a / b| ≤
      a / b * (4 * (1 / 2 ^ digits)) := by
  set e : K := 1 / 2 ^ digits with unit
  have small : 0 < e ∧ e ≤ 1 / 16 := by
    have power : (2 : K) ^ 4 ≤ 2 ^ digits := pow_le_pow_right₀ one_le_two enough
    refine ⟨by positivity, one_div_le_one_div_of_le (by norm_num) ?_⟩
    linarith
  have num_le := roundTo_le digits nonneg
  have le_num := le_roundTo digits nonneg
  have den_le := roundTo_le digits pos.le
  have le_den := le_roundTo digits pos.le
  have den_pos : 0 < roundTo digits b := lt_of_lt_of_le (mul_pos pos (by linarith)) le_den
  have quotient_nonneg := div_nonneg (roundTo_nonneg digits nonneg) den_pos.le
  have ratio_nonneg : 0 ≤ a / b := div_nonneg nonneg pos.le
  have high : roundTo digits a / roundTo digits b ≤ a / b * ((1 + e) / (1 - e)) := by
    rw [div_mul_div_comm]
    exact div_le_div₀ (mul_nonneg nonneg (by linarith)) num_le (mul_pos pos (by linarith)) le_den
  have low : a / b * ((1 - e) / (1 + e)) ≤ roundTo digits a / roundTo digits b := by
    rw [div_mul_div_comm]
    exact div_le_div₀ (roundTo_nonneg digits nonneg) le_num den_pos den_le
  have above : (1 + e) / (1 - e) * (1 + e) ≤ 1 + 4 * e := by
    rw [div_mul_eq_mul_div, div_le_iff₀ (by linarith)]
    nlinarith
  have below : 1 - 4 * e ≤ (1 - e) / (1 + e) * (1 - e) := by
    rw [div_mul_eq_mul_div, le_div_iff₀ (by linarith)]
    nlinarith
  rw [abs_le]
  constructor
  · have := calc a / b * (1 - 4 * e)
        ≤ a / b * ((1 - e) / (1 + e) * (1 - e)) := mul_le_mul_of_nonneg_left below ratio_nonneg
      _ = a / b * ((1 - e) / (1 + e)) * (1 - e) := by ring
      _ ≤ roundTo digits a / roundTo digits b * (1 - e) :=
          mul_le_mul_of_nonneg_right low (by linarith)
      _ ≤ _ := le_roundTo digits quotient_nonneg
    linarith
  · have := calc roundTo digits (roundTo digits a / roundTo digits b)
        ≤ roundTo digits a / roundTo digits b * (1 + e) := roundTo_le digits quotient_nonneg
      _ ≤ a / b * ((1 + e) / (1 - e)) * (1 + e) := mul_le_mul_of_nonneg_right high (by linarith)
      _ = a / b * ((1 + e) / (1 - e) * (1 + e)) := by ring
      _ ≤ a / b * (1 + 4 * e) := mul_le_mul_of_nonneg_left above ratio_nonneg
    linarith

end

end Hairgap.Base.Rounding
