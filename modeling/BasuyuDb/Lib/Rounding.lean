import Mathlib

/-
  Rounding of integers to 53 significant bits, to nearest and ties to even: the integers as float64 has them.
-/

namespace KvLib

/-- The number of units nearest to `n`; of two the even one. -/
def roundUnits (n u : Nat) : Nat := if 2 * (n % u) < u ∨ 2 * (n % u) = u ∧ n / u % 2 = 0 then n / u else n / u + 1

def float64Nat (n : Nat) : Nat := roundUnits n (2 ^ (n.log2 - 52)) * 2 ^ (n.log2 - 52)

def float64 (i : Int) : Int := if i < 0 then -(float64Nat i.natAbs) else float64Nat i.natAbs

theorem le_roundUnits (n u : Nat) : n / u ≤ roundUnits n u := by
  unfold roundUnits
  split
  · exact le_rfl
  · exact Nat.le_succ _

theorem roundUnits_le (n u : Nat) : roundUnits n u ≤ n / u + 1 := by
  unfold roundUnits
  split
  · exact Nat.le_succ _
  · exact le_rfl

theorem roundUnits_mono {n m : Nat} (h : n ≤ m) (u : Nat) : roundUnits n u ≤ roundUnits m u := by
  rcases Nat.lt_or_eq_of_le (Nat.div_le_div_right (c := u) h) with hq | hq
  · exact (roundUnits_le n u).trans ((Nat.succ_le_of_lt hq).trans (le_roundUnits m u))
  · -- the same unit below, so the remainders decide
    have hr : n % u ≤ m % u := by
      have hn := Nat.div_add_mod n u
      have hm := Nat.div_add_mod m u
      rw [hq] at hn
      omega
    unfold roundUnits
    rw [hq]
    split
    · split
      · exact le_rfl
      · exact Nat.le_succ _
    · rw [if_neg (by omega)]

/-- A number and its image lie between the same powers of two. -/
theorem float64Nat_bounds {n : Nat} (hn : n ≠ 0) : 2 ^ n.log2 ≤ float64Nat n ∧ float64Nat n ≤ 2 ^ (n.log2 + 1) := by
  have hlow := Nat.log2_self_le hn
  have hhigh := Nat.lt_log2_self (n := n)
  unfold float64Nat
  generalize hL : n.log2 = L at *
  have hpos : 0 < 2 ^ (L - 52) := Nat.two_pow_pos _
  have hsplit : 2 ^ L = 2 ^ (L - (L - 52)) * 2 ^ (L - 52) := by
    rw [← Nat.pow_add]
    congr 1
    omega
  have hsplit' : 2 ^ (L + 1) = 2 ^ (L + 1 - (L - 52)) * 2 ^ (L - 52) := by
    rw [← Nat.pow_add]
    congr 1
    omega
  constructor
  · rw [hsplit]
    refine Nat.mul_le_mul_right _ (le_trans ?_ (le_roundUnits _ _))
    rw [Nat.le_div_iff_mul_le hpos, ← hsplit]
    exact hlow
  · rw [hsplit']
    refine Nat.mul_le_mul_right _ ((roundUnits_le _ _).trans ?_)
    rw [Nat.succ_le_iff, Nat.div_lt_iff_lt_mul hpos, ← hsplit']
    exact hhigh

theorem float64Nat_mono {n m : Nat} (h : n ≤ m) : float64Nat n ≤ float64Nat m := by
  by_cases hn : n = 0
  · subst hn
    exact Nat.zero_le _
  have hm : m ≠ 0 := by omega
  rcases Nat.lt_or_ge n.log2 m.log2 with hlt | hge
  · exact (float64Nat_bounds hn).2.trans ((Nat.pow_le_pow_right (by decide) hlt).trans (float64Nat_bounds hm).1)
  · have heq : n.log2 = m.log2 := by
      refine Nat.le_antisymm ?_ hge
      rw [Nat.le_log2 hm]
      exact (Nat.log2_self_le hn).trans h
    unfold float64Nat
    rw [heq]
    exact Nat.mul_le_mul_right _ (roundUnits_mono h _)

theorem float64_mono {i j : Int} (h : i ≤ j) : float64 i ≤ float64 j := by
  unfold float64
  split
  · split
    · have := float64Nat_mono (n := j.natAbs) (m := i.natAbs) (by omega)
      omega
    · omega
  · rw [if_neg (by omega)]
    have := float64Nat_mono (n := i.natAbs) (m := j.natAbs) (by omega)
    omega

/-- The integers up to 2^53 have at most 53 significant bits. -/
theorem float64_exact {i : Int} (h : i.natAbs ≤ 2 ^ 53) : float64 i = i := by
  have hnat : float64Nat i.natAbs = i.natAbs := by
    rcases Nat.lt_or_eq_of_le h with hlt | heq
    · have hunit : i.natAbs.log2 - 52 = 0 := by
        by_cases h0 : i.natAbs = 0
        · rw [h0]
          rfl
        · have := (Nat.log2_lt h0).mpr hlt
          omega
      unfold float64Nat
      rw [hunit, Nat.pow_zero, Nat.mul_one]
      simp [roundUnits, Nat.mod_one]
    · rw [heq]
      decide
  unfold float64
  rw [hnat]
  split <;> omega

/-- The order of two integers is that of their images, unless these are equal. -/
theorem compare_float64_iff (i j : Int) :
    Ord.compare (float64 i) (float64 j) = Ord.compare i j ↔ i = j ∨ float64 i ≠ float64 j := by
  rcases lt_trichotomy i j with h | rfl | h
  · rw [compare_lt_iff_lt.mpr h, compare_lt_iff_lt]
    have := float64_mono h.le
    omega
  · exact iff_of_true (by rw [compare_eq_iff_eq.mpr rfl, compare_eq_iff_eq.mpr rfl]) (.inl rfl)
  · rw [compare_gt_iff_gt.mpr h, compare_gt_iff_gt]
    have := float64_mono h.le
    omega

end KvLib
