import Mathlib

/-! Rounding to the nearest number of `bits` significant bits, ties to even, without a bound on the
exponent. It keeps the order of two numbers, and every integer of so many bits. -/

namespace OsLab.Rounding

def nearest (x : ℚ) : ℤ :=
  if x - ⌊x⌋ < 1 / 2 ∨ x - ⌊x⌋ = 1 / 2 ∧ ⌊x⌋ % 2 = 0 then ⌊x⌋ else ⌊x⌋ + 1

theorem nearest_intCast (z : ℤ) : nearest z = z := by
  rw [nearest, Int.floor_intCast, sub_self, if_pos (.inl (by norm_num))]

theorem floor_le_nearest (x : ℚ) : ⌊x⌋ ≤ nearest x := by
  unfold nearest
  split_ifs <;> omega

theorem nearest_le_floor (x : ℚ) : nearest x ≤ ⌊x⌋ + 1 := by
  unfold nearest
  split_ifs <;> omega

theorem nearest_mono : Monotone nearest := by
  intro x y hle
  rcases (Int.floor_mono hle).lt_or_eq with hlt | hfloor
  · exact (nearest_le_floor x).trans ((Int.add_one_le_iff.mpr hlt).trans (floor_le_nearest y))
  · -- between two integers, what rounds `y` down rounds `x` down
    unfold nearest
    rw [hfloor]
    split_ifs with hx hy hy
    · exact le_rfl
    · omega
    · refine absurd ?_ hx
      rcases hy with hy | ⟨hy, heven⟩
      · exact .inl (by linarith)
      · rcases lt_or_eq_of_le (sub_le_sub_right hle (⌊y⌋ : ℚ)) with hlt | heq
        · exact .inl (by linarith)
        · exact .inr ⟨by linarith, heven⟩
    · exact le_rfl

variable (bits : ℕ)

/-- The distance of the numbers of `bits` significant bits about a positive `x`. -/
def ulp (x : ℚ) : ℚ := 2 ^ (Int.log 2 x + 1 - bits)

def roundPos (x : ℚ) : ℚ := nearest (x / ulp bits x) * ulp bits x

def roundTo (x : ℚ) : ℚ := if 0 ≤ x then roundPos bits x else -roundPos bits (-x)

theorem ulp_pos (x : ℚ) : 0 < ulp bits x := by
  unfold ulp
  positivity

theorem ulp_mul_pow (x : ℚ) : 2 ^ bits * ulp bits x = (2 : ℚ) ^ (Int.log 2 x + 1) := by
  rw [ulp, ← zpow_natCast, ← zpow_add₀ two_ne_zero]
  congr 1
  omega

variable {bits} {x y : ℚ}

theorem roundPos_zero : roundPos bits 0 = 0 := by
  have hzero := nearest_intCast 0
  rw [Int.cast_zero] at hzero
  rw [roundPos, zero_div, hzero, Int.cast_zero, zero_mul]

theorem roundPos_nonneg (hx : 0 ≤ x) : 0 ≤ roundPos bits x := by
  have hmono := nearest_mono (div_nonneg hx (ulp_pos bits x).le)
  have hzero := nearest_intCast 0
  rw [Int.cast_zero] at hzero
  rw [hzero] at hmono
  exact mul_nonneg (Int.cast_nonneg hmono) (ulp_pos bits x).le

theorem roundPos_le (x : ℚ) : roundPos bits x ≤ (2 : ℚ) ^ (Int.log 2 x + 1) := by
  have hlt : x < ((2 : ℕ) : ℚ) ^ (Int.log 2 x + 1) := Int.lt_zpow_succ_log_self (by decide) x
  rw [Nat.cast_ofNat, ← ulp_mul_pow bits, ← div_lt_iff₀ (ulp_pos bits x)] at hlt
  have hpow : (2 : ℚ) ^ bits = ((2 ^ bits : ℤ) : ℚ) := by push_cast; rfl
  have hmono := nearest_mono (hlt.le.trans_eq hpow)
  rw [nearest_intCast] at hmono
  rw [← ulp_mul_pow bits, roundPos]
  refine mul_le_mul_of_nonneg_right ?_ (ulp_pos bits x).le
  exact_mod_cast hmono

theorem le_roundPos (hbits : 1 ≤ bits) (hx : 0 < x) : (2 : ℚ) ^ Int.log 2 x ≤ roundPos bits x := by
  have hle : ((2 : ℕ) : ℚ) ^ Int.log 2 x ≤ x := Int.zpow_log_le_self (by decide) hx
  have hpow : (2 : ℚ) ^ Int.log 2 x = (2 ^ (bits - 1) : ℤ) * ulp bits x := by
    rw [ulp]
    push_cast
    rw [← zpow_natCast, ← zpow_add₀ two_ne_zero]
    congr 1
    omega
  rw [Nat.cast_ofNat, hpow, ← le_div_iff₀ (ulp_pos bits x)] at hle
  have hmono := nearest_mono hle
  rw [nearest_intCast] at hmono
  rw [hpow, roundPos]
  exact mul_le_mul_of_nonneg_right (Int.cast_le.mpr hmono) (ulp_pos bits x).le

theorem roundPos_mono (hbits : 1 ≤ bits) (hx : 0 ≤ x) (hle : x ≤ y) :
    roundPos bits x ≤ roundPos bits y := by
  rcases hx.eq_or_lt with rfl | hpos
  · rw [roundPos_zero]
    exact roundPos_nonneg hle
  rcases (Int.log_mono_right (b := 2) hpos hle).eq_or_lt with hlog | hlog
  · have hulp : ulp bits x = ulp bits y := by rw [ulp, ulp, hlog]
    unfold roundPos
    rw [hulp]
    refine mul_le_mul_of_nonneg_right (Int.cast_le.mpr (nearest_mono ?_)) (ulp_pos bits y).le
    exact div_le_div_of_nonneg_right hle (ulp_pos bits y).le
  · calc roundPos bits x ≤ (2 : ℚ) ^ (Int.log 2 x + 1) := roundPos_le x
      _ ≤ 2 ^ Int.log 2 y := zpow_le_zpow_right₀ one_le_two hlog
      _ ≤ roundPos bits y := le_roundPos hbits (hpos.trans_le hle)

theorem roundTo_mono (hbits : 1 ≤ bits) : Monotone (roundTo bits) := by
  intro x y hle
  unfold roundTo
  split_ifs with hx hy hy
  · exact roundPos_mono hbits hx hle
  · exact absurd (hx.trans hle) hy
  · have hneg : 0 ≤ roundPos bits (-x) := roundPos_nonneg (neg_nonneg.mpr (not_le.mp hx).le)
    exact (neg_nonpos.mpr hneg).trans (roundPos_nonneg hy)
  · exact neg_le_neg (roundPos_mono hbits (neg_nonneg.mpr (not_le.mp hy).le) (neg_le_neg hle))

theorem roundPos_of_dvd {k : ℤ} (h : x = k * ulp bits x) : roundPos bits x = x := by
  have hquot : x / ulp bits x = k := by
    rw [div_eq_iff (ulp_pos bits x).ne']
    exact h
  rw [roundPos, hquot, nearest_intCast, ← h]

theorem roundPos_natCast (hbits : 1 ≤ bits) {m : ℕ} (hm : m ≤ 2 ^ bits) :
    roundPos bits (m : ℚ) = m := by
  rcases Nat.eq_zero_or_pos m with rfl | hpos
  · exact_mod_cast roundPos_zero
  have hlog : Int.log 2 (m : ℚ) = Nat.log 2 m := Int.log_natCast 2 m
  rcases Nat.lt_or_ge (Nat.log 2 m) bits with hlt | hge
  · refine roundPos_of_dvd (k := m * 2 ^ (bits - 1 - Nat.log 2 m)) ?_
    rw [ulp, hlog]
    push_cast
    rw [mul_assoc, ← zpow_natCast, ← zpow_add₀ two_ne_zero]
    rw [show ((bits - 1 - Nat.log 2 m : ℕ) : ℤ) + ((Nat.log 2 m : ℤ) + 1 - bits) = 0 by omega,
      zpow_zero, mul_one]
  · -- the power of two that needs a bit more
    have hpow : m = 2 ^ bits :=
      hm.antisymm ((Nat.pow_le_pow_right (by decide) hge).trans (Nat.pow_log_le_self 2 hpos.ne'))
    refine roundPos_of_dvd (k := 2 ^ (bits - 1)) ?_
    rw [ulp, hlog, hpow, Nat.log_pow (by decide)]
    push_cast
    rw [← zpow_natCast, ← zpow_natCast, ← zpow_add₀ two_ne_zero]
    congr 1
    omega

theorem roundTo_intCast (hbits : 1 ≤ bits) {z : ℤ} (hz : |z| ≤ 2 ^ bits) : roundTo bits (z : ℚ) = z := by
  obtain ⟨m, rfl | rfl⟩ := z.eq_nat_or_neg
  · have hm : m ≤ 2 ^ bits := by
      rw [Nat.abs_cast] at hz
      exact_mod_cast hz
    rw [roundTo, if_pos (by simp), Int.cast_natCast, roundPos_natCast hbits hm]
  · have hm : m ≤ 2 ^ bits := by
      rw [abs_neg, Nat.abs_cast] at hz
      exact_mod_cast hz
    rw [Int.cast_neg, Int.cast_natCast, roundTo]
    split_ifs with h
    · have hzero : m = 0 := by simpa using h
      rw [hzero]
      simpa using roundPos_zero
    · rw [neg_neg, roundPos_natCast hbits hm]

end OsLab.Rounding
