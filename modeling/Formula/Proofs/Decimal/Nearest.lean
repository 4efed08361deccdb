import Mathlib
import Formula.Proofs.Binary64.Rounding

namespace Formula.Decimal

open Binary64

def toRat (d : Decimal) : ℚ := d.digits * 10 ^ d.exponent

theorem toRat_nonneg (d : Decimal) : 0 ≤ d.toRat :=
  mul_nonneg (Nat.cast_nonneg _) (zpow_nonneg (by norm_num) _)

theorem nearestPlace_infinity {n e : ℕ} (hn : n ≠ 0) (he : 309 ≤ e) :
    NearestPlace (n * 10 ^ e) infinityBits := by
  apply NearestPlace.of_infinity_le
  have hpow : (2 ^ 1024 : ℕ) ≤ 10 ^ 309 := by decide +kernel
  have hmul := (hpow.trans (pow_le_pow_right₀ (by norm_num) he)).trans
    (Nat.le_mul_of_pos_left _ (Nat.pos_of_ne_zero hn))
  rw [place_infinityBits]
  exact_mod_cast hmul

theorem nearestPlace_zero {n e : ℕ} (he : n.log2 + 1077 ≤ 3 * e) : NearestPlace (n / 10 ^ e) 0 := by
  have hunit : place 1 = 2 ^ (-1074 : ℤ) := by simp [place]
  have hpow : (0 : ℚ) < 10 ^ e := pow_pos (by norm_num) e
  have hnat : n * 2 ^ 1076 ≤ 10 ^ e :=
    calc n * 2 ^ 1076 ≤ 2 ^ (n.log2 + 1) * 2 ^ 1076 :=
          mul_le_mul_of_nonneg_right Nat.lt_log2_self.le (Nat.zero_le _)
      _ = 2 ^ (n.log2 + 1 + 1076) := (pow_add 2 (n.log2 + 1) 1076).symm
      _ ≤ 2 ^ (3 * e) := pow_le_pow_right₀ (by norm_num) (by omega)
      _ = 8 ^ e := by rw [pow_mul]; norm_num
      _ ≤ 10 ^ e := pow_le_pow_left₀ (by norm_num) (by norm_num) e
  have hsmall : (n / 10 ^ e : ℚ) * 4 ≤ place 1 := by
    rw [hunit, div_mul_eq_mul_div, div_le_iff₀ hpow]
    have hcast : (n * 2 ^ 1076 : ℚ) ≤ 10 ^ e := by exact_mod_cast hnat
    have hquarter : (2 : ℚ) ^ (-1074 : ℤ) * 2 ^ 1076 = 4 := by
      rw [← zpow_natCast, ← zpow_add₀ two_ne_zero]
      norm_num
    calc (n * 4 : ℚ) = 2 ^ (-1074 : ℤ) * (n * 2 ^ 1076) := by rw [mul_left_comm, hquarter]
      _ ≤ 2 ^ (-1074 : ℤ) * 10 ^ e := mul_le_mul_of_nonneg_left hcast (zpow_nonneg zero_le_two _)
  have hnonneg : (0 : ℚ) ≤ n / 10 ^ e := div_nonneg (Nat.cast_nonneg n) hpow.le
  have hpos : 0 < place 1 := by
    rw [hunit]
    exact zpow_pos two_pos _
  refine .of_lower (by rw [infinityBits_eq]; norm_num) (place_zero.trans_le hnonneg) ?_ (.inl ?_)
  · change _ < place 1
    linarith
  · change _ < place 1 - _
    rw [place_zero]
    linarith

theorem nearestPlace_nearestBits (d : Decimal) : NearestPlace d.toRat d.nearestBits := by
  unfold toRat nearestBits
  by_cases hzero : d.digits = 0
  · rw [if_pos hzero, hzero, Nat.cast_zero, zero_mul, ← place_zero]
    exact .of_place (Nat.zero_le _)
  · rw [if_neg hzero]
    rcases d.exponent with e | e
    · simp only [Int.ofNat_eq_natCast, zpow_natCast]
      split
      · exact nearestPlace_infinity hzero ‹_›
      · have h := @Binary64.nearestPlace_nearestBits (d.digits * 10 ^ e) 1 Nat.one_pos
        rw [Nat.cast_one, div_one, Nat.cast_mul, Nat.cast_pow, Nat.cast_ofNat] at h
        exact h
    · have hpow : (d.digits * 10 ^ Int.negSucc e : ℚ) = d.digits / 10 ^ (e + 1) := by
        rw [zpow_negSucc, div_eq_mul_inv]
      rw [hpow]
      simp only
      split
      · exact nearestPlace_zero ‹_›
      · have h := @Binary64.nearestPlace_nearestBits d.digits (10 ^ (e + 1)) (by positivity)
        rw [Nat.cast_pow, Nat.cast_ofNat] at h
        exact h

theorem isNearest_toFloat (d : Decimal) : IsNearest d.toRat d.toFloat :=
  d.nearestPlace_nearestBits.isNearest d.toRat_nonneg

theorem nearestBits_eq_of_toRat_eq {d d' : Decimal} (h : d.toRat = d'.toRat) :
    d.nearestBits = d'.nearestBits :=
  (h ▸ d.nearestPlace_nearestBits).unique d'.nearestPlace_nearestBits

theorem toRat_exact (m : ℕ) (e : ℤ) : (exact m e).toRat = m * 2 ^ e := by
  have hpow (b n : ℕ) : ((Nat.pow b n : ℕ) : ℚ) = b ^ n := Nat.cast_pow b n
  unfold exact toRat
  split
  · obtain ⟨n, rfl⟩ : ∃ n : ℕ, e = -n := ⟨(-e).toNat, by omega⟩
    rw [neg_neg, Int.toNat_natCast, Nat.cast_mul, hpow, zpow_neg, zpow_neg, zpow_natCast, zpow_natCast]
    have hten : (10 : ℚ) ^ n = 5 ^ n * 2 ^ n := by rw [← mul_pow]; norm_num
    push_cast
    rw [hten]
    field_simp
  · obtain ⟨n, rfl⟩ : ∃ n : ℕ, e = n := ⟨e.toNat, by omega⟩
    rw [Int.toNat_natCast, Nat.cast_mul, hpow, zpow_natCast, zpow_zero, mul_one]
    rfl

theorem nearestBits_of_cut? {d c : Decimal} {bits dropped : ℕ} (h : d.cut? bits dropped = some c) :
    c.nearestBits = bits := by
  simp only [cut?] at h
  split at h
  · rename_i hlower
    cases h
    simp only [Bool.and_eq_true, decide_eq_true_eq] at hlower
    exact hlower.1
  · split at h
    · cases h
      assumption
    · cases h

theorem nearestBits_shortestFrom (d : Decimal) (n : ℕ) :
    (d.shortestFrom d.nearestBits n).nearestBits = d.nearestBits := by
  induction n with
  | zero => rfl
  | succ n ih =>
    rw [shortestFrom]
    rcases hc : d.cut? d.nearestBits n with _ | c
    · exact ih
    · exact nearestBits_of_cut? hc

theorem nearestBits_shortest {bits m : ℕ} {e : ℤ} (h : bits ≤ infinityBits)
    (hplace : (m * 2 ^ e : ℚ) = place bits) : (shortest m e).nearestBits = bits := by
  have hexact := (exact m e).nearestPlace_nearestBits
  rw [toRat_exact, hplace] at hexact
  exact (nearestBits_shortestFrom _ _).trans (hexact.unique (.of_place h))

end Formula.Decimal
