import Mathlib.Data.Int.Log
import Mathlib.Data.Rat.Floor
import Mathlib.Tactic

/-!
# Rounding to doubles

The double nearest to a non-negative rational number below `2 ^ 1024`: 53 significant bits, or fewer
for numbers below `2 ^ (-1022)`, and the even last bit in the middle between two doubles. Natural
numbers below `2 ^ 53` are doubles (`toDouble_natCast`), and no larger number is rounded below
`2 ^ 53` (`le_toDouble`).
-/

namespace DoubleRounding

def roundEven (x : ℚ) : ℤ :=
  if x - ⌊x⌋ < 1 / 2 then ⌊x⌋
  else if 1 / 2 < x - ⌊x⌋ then ⌊x⌋ + 1
  else if ⌊x⌋ % 2 = 0 then ⌊x⌋
  else ⌊x⌋ + 1

/-- The unit in the last place of the doubles around a number. -/
def ulp (x : ℚ) : ℚ := 2 ^ (max (Int.log 2 x) (-1022) - 52)

def toDouble (x : ℚ) : ℚ := roundEven (x / ulp x) * ulp x

theorem ulp_pos (x : ℚ) : 0 < ulp x := zpow_pos two_pos _

theorem roundEven_intCast (z : ℤ) : roundEven z = z := by
  rw [roundEven, Int.floor_intCast, sub_self, if_pos (by norm_num)]

theorem floor_le_roundEven (x : ℚ) : ⌊x⌋ ≤ roundEven x := by
  rw [roundEven]
  split_ifs <;> omega

theorem toDouble_of_multiple {x : ℚ} {z : ℤ} (h : x = z * ulp x) : toDouble x = x := by
  have hquotient : x / ulp x = z := by
    rw [div_eq_iff (ulp_pos x).ne']
    exact h
  rw [toDouble, hquotient, roundEven_intCast]
  exact h.symm

theorem toDouble_natCast {n : ℕ} (h : n < 2 ^ 53) : toDouble n = n := by
  have hlog : Nat.log 2 n ≤ 52 := Nat.lt_succ_iff.1 (Nat.log_lt_of_lt_pow' (by decide) h)
  have hulp : ulp n = 2 ^ ((Nat.log 2 n : ℤ) - 52) := by
    rw [ulp, Int.log_natCast, max_eq_left (by omega)]
  apply toDouble_of_multiple (z := n * 2 ^ (52 - Nat.log 2 n))
  rw [hulp, Int.cast_mul, Int.cast_natCast, Int.cast_pow, Int.cast_ofNat, mul_assoc,
    ← zpow_natCast, ← zpow_add₀ two_ne_zero, Nat.cast_sub hlog]
  simp

theorem le_toDouble {x : ℚ} (h : 2 ^ 53 ≤ x) : 2 ^ 53 ≤ toDouble x := by
  have hpos : 0 < x := lt_of_lt_of_le (by norm_num) h
  have hlog : (53 : ℤ) ≤ Int.log 2 x := by
    rw [← Int.zpow_le_iff_le_log (by decide) hpos]
    exact_mod_cast h
  have hulp : ulp x = 2 ^ (Int.log 2 x - 52) := by rw [ulp, max_eq_left (by omega)]
  have hquotient : (2 ^ 52 : ℚ) ≤ x / ulp x := by
    rw [le_div_iff₀ (ulp_pos x), hulp, ← zpow_natCast, ← zpow_add₀ two_ne_zero]
    calc (2 : ℚ) ^ (((52 : ℕ) : ℤ) + (Int.log 2 x - 52)) = 2 ^ Int.log 2 x := by
          congr 1
          push_cast
          ring
      _ ≤ x := Int.zpow_log_le_self (by decide) hpos
  have hrounded : (2 ^ 52 : ℤ) ≤ roundEven (x / ulp x) :=
    (Int.le_floor.2 (by exact_mod_cast hquotient)).trans (floor_le_roundEven _)
  have hone : (2 : ℚ) ≤ ulp x := by
    rw [hulp, ← zpow_one (2 : ℚ), ← zpow_mul]
    apply zpow_le_zpow_right₀ (by norm_num)
    omega
  calc (2 ^ 53 : ℚ) = 2 ^ 52 * 2 := by norm_num
    _ ≤ roundEven (x / ulp x) * ulp x := by
        apply mul_le_mul _ hone (by norm_num)
        · exact_mod_cast (by norm_num : (0 : ℤ) ≤ 2 ^ 52).trans hrounded
        · exact_mod_cast hrounded

end DoubleRounding
