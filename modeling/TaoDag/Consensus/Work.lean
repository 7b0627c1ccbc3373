import TaoDag.Consensus.Difficulty
import Mathlib.Tactic

namespace TaoDag.Consensus

/-- Rounding up in the divisor and down in the quotient loses at most one. -/
theorem div_ceil_div {m d : Nat} (hm : 0 < m) (hd : 0 < d) (hsq : d * d ≤ m) :
    m / ((m - 1) / d + 1) = if d ∣ m then d else d - 1 := by
  by_cases hdvd : d ∣ m
  · obtain ⟨q, rfl⟩ := hdvd
    have hq : 0 < q := Nat.pos_of_mul_pos_left hm
    have hceil : (d * q - 1) / d + 1 = q := by
      obtain ⟨p, rfl⟩ := Nat.exists_eq_succ_of_ne_zero hq.ne'
      have : d * (p + 1) - 1 = (d - 1) + d * p := by
        rw [Nat.mul_succ]
        omega
      rw [this, Nat.add_mul_div_left _ _ hd, Nat.div_eq_of_lt (by omega), Nat.zero_add]
    rw [hceil, if_pos (Nat.dvd_mul_right d q), Nat.mul_div_cancel _ hq]
  · rw [if_neg hdvd]
    have hr : 0 < m % d := Nat.pos_of_ne_zero fun h0 => hdvd (Nat.dvd_of_mod_eq_zero h0)
    have hlt := Nat.mod_lt m hd
    have hm' : d * (m / d) + m % d = m := Nat.div_add_mod m d
    -- the remainder is positive, so one less has the same quotient
    have hfloor : (m - 1) / d = m / d := by
      have : m - 1 = (m % d - 1) + d * (m / d) := by omega
      rw [this, Nat.add_mul_div_left _ _ hd, Nat.div_eq_of_lt (by omega), Nat.zero_add]
    rw [hfloor]
    have hq : d ≤ m / d := (Nat.le_div_iff_mul_le hd).mpr hsq
    obtain ⟨p, rfl⟩ := Nat.exists_eq_succ_of_ne_zero hd.ne'
    apply Nat.div_eq_of_lt_le
    · simp only [Nat.succ_sub_one]
      nlinarith
    · simp only [Nat.succ_sub_one]
      nlinarith

theorem workForTarget_eq {t : Target} (ht : 0 < t.toNat) :
    workForTarget t = 2^256 / (t.toNat + 1) := by
  have hlt := t.isLt
  simp only [workForTarget, if_neg ht.ne']
  by_cases hmax : t.toNat = u256Max
  · rw [hmax, Nat.sub_self, Nat.zero_div, u256Max, Nat.sub_add_cancel (Nat.one_le_two_pow),
      Nat.div_self (Nat.two_pow_pos 256)]
  · have hmin : min (t.toNat + 1) u256Max = t.toNat + 1 := by
      simp only [u256Max] at hmax ⊢
      omega
    have hsum : u256Max - t.toNat + (t.toNat + 1) = 2^256 := by
      simp only [u256Max]
      omega
    rw [hmin, ← Nat.add_div_right _ (Nat.succ_pos _), hsum]

theorem workForTarget_le (t : Target) : workForTarget t ≤ u256Max := by
  by_cases ht : t.toNat = 0
  · simp [workForTarget, ht]
  · rw [workForTarget_eq (Nat.pos_of_ne_zero ht)]
    have half : 2^256 / (t.toNat + 1) ≤ 2^256 / 2 := Nat.div_le_div_left (by omega) (by omega)
    exact half.trans (by decide)

theorem workForTarget_pos (t : Target) : 0 < workForTarget t := by
  rw [workForTarget]
  by_cases ht : t.toNat = 0
  · simp only [ht, if_true, u256Max]
    omega
  · simp only [ht, if_false]
    exact Nat.succ_pos _

theorem workForTarget_anti {s t : Target} (h : s.toNat ≤ t.toNat) :
    workForTarget t ≤ workForTarget s := by
  by_cases hs : s.toNat = 0
  · have : workForTarget s = u256Max := by simp [workForTarget, hs]
    rw [this]
    exact workForTarget_le t
  · rw [workForTarget_eq (Nat.pos_of_ne_zero hs), workForTarget_eq (by omega)]
    exact Nat.div_le_div_left (by omega) (by omega)

theorem difficultyToTarget_toNat {d : Nat} (hd : 0 < d) :
    (difficultyToTarget d).toNat = u256Max / d := by
  have hle : u256Max / d ≤ u256Max := Nat.div_le_self _ _
  rw [difficultyToTarget, if_neg hd.ne', BitVec.toNat_ofNat, Nat.mod_eq_of_lt]
  simp only [u256Max] at hle ⊢
  omega

/-- A difficulty survives the conversion to a target and back, up to one unit. -/
theorem workForTarget_difficultyToTarget {d : Nat} (h1 : 1 ≤ d) (h2 : d ≤ 2^128) :
    workForTarget (difficultyToTarget d) = if d ∣ 2^256 then d else d - 1 := by
  have hsq : d * d ≤ 2^256 := by
    calc d * d ≤ 2^128 * 2^128 := Nat.mul_le_mul h2 h2
      _ = 2^256 := by norm_num
  have hpos : 0 < u256Max / d :=
    Nat.div_pos (h2.trans (by decide)) h1
  rw [workForTarget_eq (by rw [difficultyToTarget_toNat h1]; exact hpos),
    difficultyToTarget_toNat h1]
  exact div_ceil_div (Nat.two_pow_pos 256) h1 hsq

theorem difficultyToTarget_anti {d e : Nat} (h : d ≤ e) :
    (difficultyToTarget e).toNat ≤ (difficultyToTarget d).toNat := by
  by_cases hd : d = 0
  · have := (difficultyToTarget e).isLt
    simp only [hd, difficultyToTarget, if_true, BitVec.toNat_allOnes] at this ⊢
    omega
  · rw [difficultyToTarget_toNat (Nat.pos_of_ne_zero hd), difficultyToTarget_toNat (by omega)]
    exact Nat.div_le_div_left h (Nat.pos_of_ne_zero hd)

/-- The bits from the leading one on, aligned to the left of 256. -/
def significand (x : Bytes32) : Nat := x.toNat * 2^(255 - Nat.log2 x.toNat)

section Level

variable {powHash : Bytes32} {target : Target}

theorem log2_le_255 (x : Bytes32) (h : x.toNat ≠ 0) : Nat.log2 x.toNat ≤ 255 :=
  Nat.le_of_lt_succ ((Nat.log2_lt h).mpr x.isLt)

theorem log2_mono {a b : Nat} (h0 : a ≠ 0) (h : a ≤ b) : Nat.log2 a ≤ Nat.log2 b :=
  (Nat.le_log2 (by omega)).mpr ((Nat.log2_self_le h0).trans h)

theorem powLevel_eq (h0 : powHash.toNat ≠ 0) (h : powHash.toNat ≤ target.toNat) :
    powLevel powHash target = Nat.log2 target.toNat - Nat.log2 powHash.toNat := by
  have ht : target.toNat ≠ 0 := by omega
  have h1 := log2_le_255 powHash h0
  have h2 := log2_le_255 target ht
  have hmeets : meetsTarget powHash target = true := decide_eq_true h
  simp only [powLevel, hmeets, if_true, leadingZeroBits, if_neg h0, if_neg ht]
  omega

theorem powLevel_lt (h0 : powHash.toNat ≠ 0) (h : powHash.toNat ≤ target.toNat) :
    powHash.toNat * 2^(powLevel powHash target) < 2^(Nat.log2 target.toNat + 1) := by
  have h1 := log2_mono h0 h
  have hexp : Nat.log2 powHash.toNat + 1 + (Nat.log2 target.toNat - Nat.log2 powHash.toNat) =
      Nat.log2 target.toNat + 1 := by omega
  rw [powLevel_eq h0 h, ← hexp, Nat.pow_add]
  exact Nat.mul_lt_mul_of_pos_right Nat.lt_log2_self (Nat.two_pow_pos _)

/-- The level of a solution certifies a target smaller by that power of two exactly when the
bits of the hash, from its leading one on, are no larger than those of the target. -/
theorem powLevel_certifies_iff (powHash : Bytes32) (target : Target)
    (h : powHash.toNat ≤ target.toNat) :
    powHash.toNat * 2^(powLevel powHash target) ≤ target.toNat ↔
      significand powHash ≤ significand target := by
  by_cases h0 : powHash.toNat = 0
  · simp [h0, significand]
  have ht : target.toNat ≠ 0 := by omega
  have h1 := log2_mono h0 h
  have h2 := log2_le_255 target ht
  have hsplit : 255 - Nat.log2 powHash.toNat =
      (Nat.log2 target.toNat - Nat.log2 powHash.toNat) + (255 - Nat.log2 target.toNat) := by omega
  rw [powLevel_eq h0 h, significand, significand, hsplit, Nat.pow_add, ← Nat.mul_assoc]
  exact (Nat.mul_le_mul_right_iff (Nat.two_pow_pos _)).symm

theorem powLevel_certifies_double : (2 : Bytes32).toNat * 2^(powLevel 2 4) ≤ (4 : Target).toNat :=
  (powLevel_certifies_iff 2 4 (by decide)).mpr (by decide)

/-- The hash 3 has one leading zero more than the target 4, and is no solution of the target 2. -/
theorem powLevel_overstates :
    (3 : Bytes32).toNat ≤ (4 : Target).toNat ∧
      ¬(3 : Bytes32).toNat * 2^(powLevel 3 4) ≤ (4 : Target).toNat := by
  decide

/-- A level overstates the rarity by less than one bit. -/
theorem powLevel_certifies_half (h : powHash.toNat ≤ target.toNat) :
    powHash.toNat * 2^(powLevel powHash target) ≤ 2 * target.toNat := by
  by_cases h0 : powHash.toNat = 0
  · simp [h0]
  have ht : target.toNat ≠ 0 := by omega
  calc powHash.toNat * 2^(powLevel powHash target)
      ≤ 2^(Nat.log2 target.toNat + 1) := (powLevel_lt h0 h).le
    _ = 2 * 2^(Nat.log2 target.toNat) := Nat.pow_succ'
    _ ≤ 2 * target.toNat := Nat.mul_le_mul_left 2 (Nat.log2_self_le ht)

/-- A target that is all ones below its leading zeros certifies every level. -/
theorem powLevel_certifies_ones {n : Nat} (ht : target.toNat = 2^n - 1)
    (h : powHash.toNat ≤ target.toNat) :
    powHash.toNat * 2^(powLevel powHash target) ≤ target.toNat := by
  by_cases h0 : powHash.toNat = 0
  · simp [h0]
  have hlt := powLevel_lt h0 h
  have hlog : Nat.log2 target.toNat < n :=
    (Nat.log2_lt (by omega)).mpr (by have := Nat.two_pow_pos n; omega)
  have hpow : 2^(Nat.log2 target.toNat + 1) ≤ 2^n := Nat.pow_le_pow_right (by decide) hlog
  omega

end Level

end TaoDag.Consensus
