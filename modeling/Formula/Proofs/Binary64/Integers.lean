import Mathlib
import Formula.Proofs.Binary64.Rounding

namespace Formula.Binary64

def towardZero (q : ℚ) : ℤ := if 0 ≤ q then ⌊q⌋ else ⌈q⌉

def integerPart (x : Float) : ℤ := (ofFloat x).toRat?.elim 0 towardZero

theorem floor_mul_zpow (m : ℕ) (e : ℤ) : ⌊(m * 2 ^ e : ℚ)⌋ = (wholePart m e : ℤ) := by
  rw [mul_zpow_eq, Rat.floor_natCast_div_natCast]
  rfl

theorem truncate_eq (x : Float) : truncate x = integerPart x := by
  unfold truncate integerPart
  rcases ofFloat x with _ | _ | ⟨negative, m, e⟩
  · rfl
  · rfl
  · have hnonneg : (0 : ℚ) ≤ m * 2 ^ e := mul_nonneg (Nat.cast_nonneg m) (zpow_nonneg zero_le_two e)
    cases negative with
    | false => simp [toRat?, towardZero, hnonneg, floor_mul_zpow]
    | true =>
      simp only [toRat?, Option.elim_some, if_true, neg_one_mul, towardZero]
      rcases hnonneg.eq_or_lt with hzero | hpos
      · have hwhole : (wholePart m e : ℤ) = 0 := by rw [← floor_mul_zpow, ← hzero, Int.floor_zero]
        rw [← hzero, neg_zero, if_pos le_rfl, Int.floor_zero, hwhole, neg_zero]
      · rw [if_neg (by linarith), Int.ceil_neg, floor_mul_zpow]

structure IsInt (x : Float) (n : ℤ) : Prop where
  value : (ofFloat x).toRat? = some (n : ℚ)
  sign : (ofFloat x).isNegative = decide (n < 0)

theorem exists_place_eq_natCast {n : ℕ} (h : n < 2 ^ 53) : ∃ bits < infinityBits, place bits = n := by
  rcases Nat.eq_zero_or_pos n with rfl | hn
  · exact ⟨0, by rw [infinityBits_eq]; norm_num, place_zero⟩
  · have hlog : n.log2 ≤ 52 := Nat.le_of_lt_succ ((Nat.log2_lt hn.ne').mpr h)
    have hlow : 2 ^ 52 ≤ n * 2 ^ (52 - n.log2) := by
      calc 2 ^ 52 = 2 ^ n.log2 * 2 ^ (52 - n.log2) := by rw [← pow_add, Nat.add_sub_cancel' hlog]
        _ ≤ n * 2 ^ (52 - n.log2) := Nat.mul_le_mul_right _ (Nat.log2_self_le hn.ne')
    have hhigh : n * 2 ^ (52 - n.log2) < 2 ^ 53 := by
      calc n * 2 ^ (52 - n.log2) < 2 ^ (n.log2 + 1) * 2 ^ (52 - n.log2) :=
            Nat.mul_lt_mul_of_pos_right Nat.lt_log2_self (by positivity)
        _ = 2 ^ 53 := by
          rw [← pow_add]
          congr 1
          omega
    refine ⟨(n.log2 + 1022) * 2 ^ 52 + n * 2 ^ (52 - n.log2), by rw [infinityBits_eq]; omega, ?_⟩
    rw [place_add (.inr hlow) hhigh.le]
    have hexp : ((n.log2 + 1022 : ℕ) - 1074 : ℤ) = -((52 - n.log2 : ℕ) : ℤ) := by omega
    rw [hexp, zpow_neg, zpow_natCast, Nat.cast_mul, Nat.cast_pow, Nat.cast_ofNat,
      mul_inv_cancel_right₀ (pow_ne_zero _ two_ne_zero)]

theorem exists_bits_ofNat {n : ℕ} (h : n < 2 ^ 53) :
    ∃ bits < infinityBits, place bits = n ∧ ofNat n = Float.ofBits (UInt64.ofNat bits) := by
  obtain ⟨bits, hbits, hplace⟩ := exists_place_eq_natCast h
  have hnearest := @nearestPlace_nearestBits n 1 Nat.one_pos
  rw [Nat.cast_one, div_one, ← hplace] at hnearest
  have hsame := hnearest.unique (.of_place hbits.le)
  exact ⟨bits, hbits, hplace, by rw [ofNat, nearest, hsame]⟩

theorem isInt_ofInt {n : ℤ} (h : n.natAbs < 2 ^ 53) : IsInt (ofInt n) n := by
  obtain ⟨bits, hbits, hplace, hn⟩ := exists_bits_ofNat h
  obtain ⟨m, e, hfinite, -, hvalue⟩ := ofBits_eq hbits
  have hlt : bits < 2 ^ 63 := by
    rw [infinityBits_eq] at hbits
    omega
  have hmagnitude : (m * 2 ^ e : ℚ) = n.natAbs := hvalue.trans hplace
  have habs : ((n.natAbs : ℕ) : ℚ) = |(n : ℚ)| := by rw [Nat.cast_natAbs, Int.cast_abs]
  rw [habs] at hmagnitude
  rw [ofInt, hn]
  by_cases hneg : n < 0
  · have hfloat := ofFloat_neg hbits.le
    rw [ofBits_add_sign hlt, hfinite] at hfloat
    rw [abs_of_neg (Int.cast_lt_zero.mpr hneg)] at hmagnitude
    rw [decide_eq_true hneg, signed, if_pos rfl]
    refine ⟨?_, ?_⟩
    · rw [hfloat, negate, toRat?, hmagnitude]
      simp
    · rw [hfloat, decide_eq_true hneg]
      rfl
  · have hfloat := ofFloat_ofBits hbits.le
    rw [hfinite] at hfloat
    rw [abs_of_nonneg (Int.cast_nonneg (not_lt.mp hneg))] at hmagnitude
    rw [decide_eq_false hneg, signed, if_neg Bool.false_ne_true]
    refine ⟨?_, ?_⟩
    · rw [hfloat, toRat?, hmagnitude]
      simp
    · rw [hfloat, decide_eq_false hneg]
      rfl

end Formula.Binary64
