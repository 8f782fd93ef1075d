import Mathlib.Algebra.Order.Field.Power
import Mathlib.Data.Int.Log
import Mathlib.Data.Rat.Floor
import Mathlib.Tactic.FieldSimp
import Mathlib.Tactic.Linarith
import Mathlib.Tactic.Positivity

/-!
# Rounding to double precision

The rational number that a `double` holds after an operation with this exact
result: 53 significant bits, round to nearest, ties to even. The exponent has no
bounds here, so the rounding is that of the machine where results are neither
subnormal nor too large.
-/
namespace Binary64

variable {c q x y : ℚ} {n : ℤ}

/-- The nearest integer; of two at the same distance the even one. -/
def nearestInt (q : ℚ) : ℤ :=
  let below := ⌊q⌋
  if q - below < 1 / 2 then below
  else if 1 / 2 < q - below then below + 1
  else if below % 2 = 0 then below
  else below + 1

/-- The unit in the last place of the doubles around a positive number. -/
def ulp (q : ℚ) : ℚ := 2 ^ (Int.log 2 q - 52)

def double (q : ℚ) : ℚ :=
  if q = 0 then 0 else nearestInt (q / ulp |q|) * ulp |q|

def Representable (y : ℚ) : Prop := ∃ (m : ℕ) (k : ℤ), m ≤ 2 ^ 53 ∧ y = m * 2 ^ k

/-! ## Integers -/

theorem nearestInt_cases (q : ℚ) : nearestInt q = ⌊q⌋ ∨ nearestInt q = ⌊q⌋ + 1 := by
  simp only [nearestInt]
  split
  · exact .inl rfl
  · split
    · exact .inr rfl
    · split
      · exact .inl rfl
      · exact .inr rfl

theorem nearestInt_intCast (n : ℤ) : nearestInt n = n := by
  have whole : ⌊(n : ℚ)⌋ = n := Int.floor_intCast n
  have close : (n : ℚ) - n < 1 / 2 := by norm_num
  simp only [nearestInt, whole]
  rw [if_pos close]

theorem nearestInt_le (h : q ≤ n) : nearestInt q ≤ n := by
  have below : ⌊q⌋ ≤ n := by
    have bound := Int.floor_mono h
    rwa [Int.floor_intCast] at bound
  rcases below.lt_or_eq with less | equal
  · rcases nearestInt_cases q with rounded | rounded
    · omega
    · omega
  · have exact : q = n := by
      refine le_antisymm h ?_
      have lower := Int.floor_le q
      rwa [equal] at lower
    rw [exact, nearestInt_intCast]

theorem le_nearestInt (h : (n : ℚ) ≤ q) : n ≤ nearestInt q := by
  have below : n ≤ ⌊q⌋ := Int.le_floor.mpr h
  rcases nearestInt_cases q with rounded | rounded
  · omega
  · omega

theorem nearestInt_le_of_lt (h : q < n + 1 / 2) : nearestInt q ≤ n := by
  rcases le_or_gt q n with below | above
  · exact nearestInt_le below
  · have floor : ⌊q⌋ = n := Int.floor_eq_iff.mpr ⟨above.le, by linarith⟩
    have close : q - (n : ℚ) < 1 / 2 := by linarith
    simp only [nearestInt, floor]
    rw [if_pos close]

theorem nearestInt_nonneg (h : 0 ≤ q) : 0 ≤ nearestInt q :=
  le_nearestInt (by exact_mod_cast h)

/-! ## Doubles -/

theorem ulp_pos (q : ℚ) : 0 < ulp q := by
  unfold ulp
  positivity

theorem zpow_log_eq (x : ℚ) : (2 : ℚ) ^ Int.log 2 x = 2 ^ 52 * ulp x := by
  rw [ulp, zpow_sub₀ (by norm_num)]
  field_simp

theorem div_ulp_lt : x / ulp x < 2 ^ 53 := by
  have upper := Int.lt_zpow_succ_log_self (R := ℚ) (b := 2) (by decide) x
  rw [div_lt_iff₀ (ulp_pos x), ulp, ← zpow_natCast, ← zpow_add₀ (by norm_num)]
  refine upper.trans_le (le_of_eq ?_)
  push_cast
  congr 1
  ring

theorem multiple_of_ulp (positive : 0 < x) (double : Representable y) (above : x ≤ y) :
    ∃ n : ℤ, y = n * ulp x := by
  obtain ⟨m, k, small, rfl⟩ := double
  have lower := Int.zpow_log_le_self (R := ℚ) (b := 2) (by decide) positive
  push_cast at lower
  set e := Int.log 2 x with he
  have nonzero : (2 : ℚ) ≠ 0 := by norm_num
  rcases le_or_gt (e - 52) k with coarse | fine
  · obtain ⟨d, hd⟩ := Int.le.dest coarse
    refine ⟨m * 2 ^ d, ?_⟩
    rw [ulp, ← he, ← hd, zpow_add₀ nonzero]
    push_cast
    rw [zpow_natCast]
    ring
  · -- all 53 bits are needed to reach the magnitude of `x`, so this is a power of two
    have most : (m : ℚ) * 2 ^ k ≤ 2 ^ e := by
      have bits : (m : ℚ) ≤ 2 ^ 53 := by exact_mod_cast small
      have scale : (2 : ℚ) ^ k ≤ 2 ^ (e - 53) := zpow_le_zpow_right₀ (by norm_num) (by omega)
      have product := mul_le_mul bits scale (by positivity) (by positivity)
      refine product.trans (le_of_eq ?_)
      rw [← zpow_natCast, ← zpow_add₀ nonzero]
      congr 1
      push_cast
      ring
    have power : (m : ℚ) * 2 ^ k = 2 ^ e := le_antisymm most (lower.trans above)
    refine ⟨2 ^ 52, ?_⟩
    have split : (2 : ℚ) ^ e = 2 ^ (52 : ℤ) * 2 ^ (e - 52) := by
      rw [← zpow_add₀ nonzero]
      congr 1
      ring
    rw [power, split, ulp, ← he]
    norm_num

theorem double_nonneg (h : 0 ≤ x) : 0 ≤ double x := by
  unfold double
  split
  · exact le_rfl
  · have scaled : 0 ≤ x / ulp |x| := div_nonneg h (ulp_pos _).le
    have rounded : (0 : ℚ) ≤ nearestInt (x / ulp |x|) := by exact_mod_cast nearestInt_nonneg scaled
    exact mul_nonneg rounded (ulp_pos _).le

theorem double_le (representable : Representable y) (h : x ≤ y) : double x ≤ y := by
  have nonneg : 0 ≤ y := by
    obtain ⟨m, k, _, rfl⟩ := representable
    positivity
  unfold double
  split
  · exact nonneg
  · rename_i nonzero
    rcases lt_or_gt_of_ne nonzero with negative | positive
    · have scaled : x / ulp |x| ≤ ((0 : ℤ) : ℚ) := by
        rw [Int.cast_zero]
        exact div_nonpos_of_nonpos_of_nonneg negative.le (ulp_pos _).le
      have rounded : (nearestInt (x / ulp |x|) : ℚ) ≤ 0 := by exact_mod_cast nearestInt_le scaled
      exact (mul_nonpos_of_nonpos_of_nonneg rounded (ulp_pos _).le).trans nonneg
    · rw [abs_of_pos positive]
      obtain ⟨n, hn⟩ := multiple_of_ulp positive representable h
      have scaled : x / ulp x ≤ n := by
        rw [div_le_iff₀ (ulp_pos x), ← hn]
        exact h
      have rounded : (nearestInt (x / ulp x) : ℚ) ≤ n := by exact_mod_cast nearestInt_le scaled
      rw [hn]
      exact mul_le_mul_of_nonneg_right rounded (ulp_pos x).le

theorem zpow_log_le_double (positive : 0 < x) : (2 : ℚ) ^ Int.log 2 x ≤ double x := by
  have lower := Int.zpow_log_le_self (R := ℚ) (b := 2) (by decide) positive
  have unit := ulp_pos x
  have split : (2 : ℚ) ^ Int.log 2 x = ((2 ^ 52 : ℤ) : ℚ) * ulp x := by
    rw [zpow_log_eq]
    norm_num
  have many : ((2 ^ 52 : ℤ) : ℚ) ≤ x / ulp x := by
    rw [le_div_iff₀ unit, ← split]
    exact lower
  have whole : (2 ^ 52 : ℤ) ≤ nearestInt (x / ulp x) := by
    have below := Int.le_floor.mpr many
    rcases nearestInt_cases (x / ulp x) with rounded | rounded <;> omega
  rw [double, if_neg positive.ne', abs_of_pos positive, split]
  exact mul_le_mul_of_nonneg_right (by exact_mod_cast whole) unit.le

theorem le_double (representable : Representable y) (h : y ≤ x) : y ≤ double x := by
  have nonneg : 0 ≤ y := by
    obtain ⟨m, k, _, rfl⟩ := representable
    positivity
  rcases nonneg.eq_or_lt with zero | positive
  · rw [← zero]
    exact double_nonneg (nonneg.trans h)
  have large := positive.trans_le h
  rcases lt_or_ge y (2 ^ Int.log 2 x) with small | near
  · exact small.le.trans (zpow_log_le_double large)
  · -- both numbers have the same unit in the last place
    have same : ulp y = ulp x := by
      have lower : Int.log 2 x ≤ Int.log 2 y :=
        (Int.zpow_le_iff_le_log (b := 2) (by decide) positive).mp (by exact_mod_cast near)
      have upper : Int.log 2 y ≤ Int.log 2 x := Int.log_mono_right positive h
      rw [ulp, ulp, le_antisymm upper lower]
    obtain ⟨n, hn⟩ := multiple_of_ulp positive representable le_rfl
    have scaled : (n : ℚ) ≤ x / ulp x := by
      rw [le_div_iff₀ (ulp_pos x), ← same, ← hn]
      exact h
    have rounded : (n : ℚ) ≤ nearestInt (x / ulp x) := by exact_mod_cast le_nearestInt scaled
    rw [double, if_neg large.ne', abs_of_pos large, hn, same]
    exact mul_le_mul_of_nonneg_right rounded (ulp_pos x).le

theorem double_of_representable (representable : Representable y) : double y = y := by
  unfold double
  split
  · rename_i zero
    exact zero.symm
  · rename_i nonzero
    have positive : 0 < y := by
      refine lt_of_le_of_ne ?_ (Ne.symm nonzero)
      obtain ⟨m, k, _, rfl⟩ := representable
      positivity
    rw [abs_of_pos positive]
    obtain ⟨n, hn⟩ := multiple_of_ulp positive representable le_rfl
    have scaled : y / ulp y = n := by
      rw [div_eq_iff (ulp_pos y).ne']
      exact hn
    rw [scaled, nearestInt_intCast]
    exact hn.symm

theorem representable_double (h : 0 ≤ x) : Representable (double x) := by
  unfold double
  split
  · exact ⟨0, 0, by norm_num, by norm_num⟩
  · rw [abs_of_nonneg h]
    have nonneg := nearestInt_nonneg (div_nonneg h (ulp_pos x).le)
    have bounded : nearestInt (x / ulp x) ≤ 2 ^ 53 := by
      refine nearestInt_le ?_
      push_cast
      exact div_ulp_lt.le
    refine ⟨(nearestInt (x / ulp x)).toNat, Int.log 2 x - 52, by omega, ?_⟩
    have cast : ((nearestInt (x / ulp x)).toNat : ℚ) = nearestInt (x / ulp x) := by
      exact_mod_cast congrArg (fun n : ℤ => (n : ℚ)) (Int.toNat_of_nonneg nonneg)
    rw [cast]
    rfl

theorem representable_natCast {n : ℕ} (small : n ≤ 2 ^ 53) : Representable n :=
  ⟨n, 0, small, by norm_num⟩

theorem Representable.half (h : Representable y) : Representable (y / 2) := by
  obtain ⟨m, k, small, rfl⟩ := h
  refine ⟨m, k - 1, small, ?_⟩
  rw [zpow_sub_one₀ (by norm_num)]
  ring

theorem Representable.twice (h : Representable y) : Representable (2 * y) := by
  obtain ⟨m, k, small, rfl⟩ := h
  refine ⟨m, k + 1, small, ?_⟩
  rw [zpow_add_one₀ (by norm_num)]
  ring

theorem double_pos (positive : 0 < x) : 0 < double x :=
  lt_of_lt_of_le (by positivity) (zpow_log_le_double positive)

theorem double_mul_lt (representable : Representable x) (positive : 0 < x) (small : c ≤ 1 / 2) :
    double (x * c) < x := by
  have below : x * c ≤ x / 2 := by nlinarith
  have rounded := double_le representable.half below
  linarith

/-! ## Factors below one -/

theorem Representable.units (representable : Representable y) (positive : 0 < y) :
    ∃ n : ℤ, 2 ^ 52 ≤ n ∧ n < 2 ^ 53 ∧ y = n * ulp y := by
  obtain ⟨n, whole⟩ := multiple_of_ulp positive representable le_rfl
  have unit := ulp_pos y
  have count : y / ulp y = n := by
    rw [div_eq_iff unit.ne']
    exact whole
  have lower := Int.zpow_log_le_self (R := ℚ) (b := 2) (by decide) positive
  have least : (2 ^ 52 : ℚ) ≤ y / ulp y := by
    rw [le_div_iff₀ unit, ← zpow_log_eq]
    exact_mod_cast lower
  have most : y / ulp y < 2 ^ 53 := div_ulp_lt
  rw [count] at least most
  exact ⟨n, by exact_mod_cast least, by exact_mod_cast most, whole⟩

theorem Representable.le_of_lt_one (representable : Representable c) (small : c < 1) :
    c ≤ 1 - 1 / 2 ^ 53 := by
  rcases lt_or_ge c (1 / 2) with low | high
  · norm_num
    linarith
  · obtain ⟨n, _, most, whole⟩ := representable.units (by linarith)
    have log : Int.log 2 c = -1 := by
      have lower : (-1 : ℤ) ≤ Int.log 2 c :=
        (Int.zpow_le_iff_le_log (b := 2) (by decide) (by linarith)).mp (by norm_num; linarith)
      have upper : Int.log 2 c < 0 :=
        (Int.lt_zpow_iff_log_lt (b := 2) (by decide) (by linarith)).mp (by norm_num; linarith)
      omega
    have unit : ulp c = 1 / 2 ^ 53 := by
      rw [ulp, log]
      norm_num
    have top : (n : ℚ) ≤ 2 ^ 53 - 1 := by
      have whole : n ≤ 2 ^ 53 - 1 := by omega
      exact_mod_cast whole
    rw [whole, unit]
    calc (n : ℚ) * (1 / 2 ^ 53) ≤ (2 ^ 53 - 1) * (1 / 2 ^ 53) :=
          mul_le_mul_of_nonneg_right top (by positivity)
      _ = 1 - 1 / 2 ^ 53 := by norm_num

theorem double_lt_of_lt_half (whole : x = n * ulp x) (inner : 2 ^ 52 < n) (most : n < 2 ^ 53)
    (close : q < x - ulp x / 2) : double q < x := by
  have unit := ulp_pos x
  have before : ((n - 1 : ℤ) : ℚ) * ulp x = x - ulp x := by
    push_cast
    linarith
  have smaller : ((n - 1 : ℤ) : ℚ) * ulp x < x := by linarith
  refine lt_of_le_of_lt ?_ smaller
  rcases le_or_gt q ((n - 1 : ℤ) * ulp x) with low | high
  · refine double_le ⟨(n - 1).toNat, Int.log 2 x - 52, by omega, ?_⟩ low
    have cast : ((n - 1).toNat : ℚ) = (n - 1 : ℤ) := by
      exact_mod_cast congrArg (fun k : ℤ => (k : ℚ)) (Int.toNat_of_nonneg (by omega))
    rw [cast]
    rfl
  · have many : (2 ^ 52 : ℚ) ≤ (n - 1 : ℤ) := by exact_mod_cast (by omega : (2 : ℤ) ^ 52 ≤ n - 1)
    have start : (2 : ℚ) ^ Int.log 2 x ≤ q := by
      rw [zpow_log_eq]
      exact (mul_le_mul_of_nonneg_right many unit.le).trans high.le
    have positive : 0 < q := lt_of_lt_of_le (by positivity) start
    have same : ulp q = ulp x := by
      have lower : Int.log 2 x ≤ Int.log 2 q :=
        (Int.zpow_le_iff_le_log (b := 2) (by decide) positive).mp (by exact_mod_cast start)
      have upper : Int.log 2 q ≤ Int.log 2 x := Int.log_mono_right positive (by linarith)
      rw [ulp, ulp, le_antisymm upper lower]
    have scaled : q / ulp x < (n - 1 : ℤ) + 1 / 2 := by
      rw [div_lt_iff₀ unit, add_mul, before]
      linarith
    have rounded : (nearestInt (q / ulp x) : ℚ) ≤ (n - 1 : ℤ) := by
      exact_mod_cast nearestInt_le_of_lt scaled
    rw [double, if_neg positive.ne', abs_of_pos positive, same]
    exact mul_le_mul_of_nonneg_right rounded unit.le

theorem double_lt_of_le_half (power : x = 2 ^ 52 * ulp x) (close : q ≤ x - ulp x / 2) :
    double q < x := by
  have unit := ulp_pos x
  have finer : (2 : ℚ) ^ (Int.log 2 x - 53) = ulp x / 2 := by
    rw [ulp, zpow_sub₀ (by norm_num), zpow_sub₀ (by norm_num)]
    field_simp
  have before : ((2 ^ 53 - 1 : ℕ) : ℚ) * 2 ^ (Int.log 2 x - 53) = x - ulp x / 2 := by
    rw [finer]
    push_cast
    linarith
  have rounded := double_le ⟨2 ^ 53 - 1, Int.log 2 x - 53, by norm_num, rfl⟩ (close.trans_eq before.symm)
  rw [before] at rounded
  linarith

theorem double_mul_lt_of_lt_one (representable : Representable x) (positive : 0 < x)
    (factor : Representable c) (small : c < 1) : double (x * c) < x := by
  obtain ⟨n, least, most, whole⟩ := representable.units positive
  have unit := ulp_pos x
  have below := mul_le_mul_of_nonneg_left (factor.le_of_lt_one small) positive.le
  have reduced : x * c ≤ x - n * ulp x / 2 ^ 53 := by
    rw [← whole]
    linarith
  rcases least.lt_or_eq with inner | power
  · have many : (2 ^ 52 : ℚ) < n := by exact_mod_cast inner
    have scaled := mul_lt_mul_of_pos_right many unit
    refine double_lt_of_lt_half whole inner most (reduced.trans_lt ?_)
    linarith
  · have count : (n : ℚ) = 2 ^ 52 := by exact_mod_cast power.symm
    rw [count] at whole reduced
    refine double_lt_of_le_half whole (reduced.trans ?_)
    linarith

example : double (1 / 3) = 6004799503160661 / 2 ^ 54 := by decide +kernel

end Binary64
