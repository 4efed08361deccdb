import Mathlib
import Formula.Proofs.Binary64.Bits

namespace Formula.Binary64

def toRat? : Binary64 → Option ℚ
  | .finite negative m e => some ((if negative then -1 else 1) * (m * 2 ^ e))
  | _ => none

theorem mul_zpow_eq (m : ℕ) (e : ℤ) :
    (m * 2 ^ e : ℚ) = (m * Nat.pow 2 e.toNat : ℕ) / (Nat.pow 2 (-e).toNat : ℕ) := by
  have hz : (2 : ℚ) ^ e = 2 ^ e.toNat / 2 ^ (-e).toNat := by
    rw [← zpow_natCast, ← zpow_natCast, ← zpow_sub₀ two_ne_zero]
    congr 1
    omega
  simp only [Nat.pow_eq, Nat.cast_mul, Nat.cast_pow, Nat.cast_ofNat, hz, mul_div_assoc]

theorem mul_zpow_eq_natCast_iff {m : ℕ} {e : ℤ} {n : ℕ} :
    (m * 2 ^ e : ℚ) = n ↔ isWhole m e = true ∧ wholePart m e = n := by
  have hpos : 0 < Nat.pow 2 (-e).toNat := Nat.two_pow_pos _
  have hcast : (0 : ℚ) < (Nat.pow 2 (-e).toNat : ℕ) := Nat.cast_pos.mpr hpos
  rw [mul_zpow_eq, div_eq_iff hcast.ne', ← Nat.cast_mul, Nat.cast_inj, isWhole, beq_iff_eq, wholePart]
  constructor
  · intro h
    rw [h]
    exact ⟨Nat.mul_mod_left _ _, Nat.mul_div_cancel _ hpos⟩
  · rintro ⟨hmod, rfl⟩
    exact (Nat.div_mul_cancel (Nat.dvd_of_mod_eq_zero hmod)).symm

theorem toNat?_eq_some_iff {x : Float} {n : ℕ} :
    toNat? x = some n ↔ (ofFloat x).toRat? = some (n : ℚ) := by
  unfold toNat?
  rcases ofFloat x with _ | _ | ⟨negative, m, e⟩
  · simp [toRat?]
  · simp [toRat?]
  · cases negative with
    | false => simp [toRat?, mul_zpow_eq_natCast_iff]
    | true =>
      rcases Nat.eq_zero_or_pos m with rfl | hm
      · have hwhole : wholePart 0 e = 0 := by simp [wholePart]
        have hzero : isWhole 0 e = true := by simp [isWhole]
        simp [toRat?, hwhole, hzero, eq_comm]
      · have hpos : (0 : ℚ) < m * 2 ^ e := mul_pos (Nat.cast_pos.mpr hm) (zpow_pos two_pos e)
        have hnonneg : (0 : ℚ) ≤ n := Nat.cast_nonneg n
        have hne : (-1 * (m * 2 ^ e) : ℚ) ≠ n := by linarith
        simpa [toRat?, Nat.pos_iff_ne_zero.mp hm] using hne

/-- The number that the bits stand for, as if exponents had no end: the bits of the infinity stand for
the power of two behind the greatest finite double. -/
def place (bits : ℕ) : ℚ :=
  if bits < 2 ^ 52 then bits * 2 ^ (-1074 : ℤ)
  else (bits % 2 ^ 52 + 2 ^ 52 : ℕ) * 2 ^ ((bits / 2 ^ 52 : ℕ) - 1075 : ℤ)

theorem place_add {E m : ℕ} (hE : E = 0 ∨ 2 ^ 52 ≤ m) (hm : m ≤ 2 ^ 53) :
    place (E * 2 ^ 52 + m) = m * 2 ^ (E - 1074 : ℤ) := by
  have hcarry : ((2 ^ 53 : ℕ) : ℚ) = (2 ^ 52 : ℕ) * 2 := by norm_num
  unfold place
  rcases lt_or_ge m (2 ^ 52) with hlow | hhigh
  · obtain rfl : E = 0 := hE.resolve_right (by omega)
    rw [if_pos (by omega), Nat.zero_mul, Nat.zero_add]
    rfl
  · rw [if_neg (by omega)]
    rcases hm.lt_or_eq with hlt | rfl
    · have hmod : (E * 2 ^ 52 + m) % 2 ^ 52 + 2 ^ 52 = m := by omega
      have hdiv : (E * 2 ^ 52 + m) / 2 ^ 52 = E + 1 := by omega
      have hexp : ((E + 1 : ℕ) - 1075 : ℤ) = E - 1074 := by omega
      rw [hmod, hdiv, hexp]
    · have hmod : (E * 2 ^ 52 + 2 ^ 53) % 2 ^ 52 + 2 ^ 52 = 2 ^ 52 := by omega
      have hdiv : (E * 2 ^ 52 + 2 ^ 53) / 2 ^ 52 = E + 2 := by omega
      have hexp : ((E + 2 : ℕ) - 1075 : ℤ) = 1 + (E - 1074) := by omega
      rw [hmod, hdiv, hexp, zpow_add₀ two_ne_zero, zpow_one, hcarry, mul_assoc]

theorem exists_significand (bits : ℕ) :
    ∃ E m, bits = E * 2 ^ 52 + m ∧ (E = 0 ∨ 2 ^ 52 ≤ m) ∧ m < 2 ^ 53 := by
  rcases lt_or_ge bits (2 ^ 52) with hlow | hhigh
  · exact ⟨0, bits, by omega, .inl rfl, by omega⟩
  · exact ⟨bits / 2 ^ 52 - 1, bits % 2 ^ 52 + 2 ^ 52, by omega, .inr (by omega), by omega⟩

theorem strictMono_place : StrictMono place := by
  refine strictMono_nat_of_lt_succ fun bits => ?_
  obtain ⟨E, m, rfl, hE, hm⟩ := exists_significand bits
  rw [Nat.add_assoc, place_add hE hm.le, place_add (hE.imp_right Nat.le_succ_of_le) hm]
  have hunit : (0 : ℚ) < 2 ^ (E - 1074 : ℤ) := zpow_pos two_pos _
  exact mul_lt_mul_of_pos_right (Nat.cast_lt.mpr m.lt_succ_self) hunit

theorem place_zero : place 0 = 0 := by
  simp [place]

theorem place_nonneg (bits : ℕ) : 0 ≤ place bits := by
  rw [← place_zero]
  exact strictMono_place.monotone (Nat.zero_le bits)

theorem place_infinityBits : place infinityBits = 2 ^ 1024 := by
  have h := @place_add 2046 (2 ^ 52) (.inr le_rfl) (by norm_num)
  rw [infinityBits_eq]
  refine h.trans ?_
  rw [Nat.cast_pow, Nat.cast_ofNat, ← zpow_natCast, ← zpow_natCast, ← zpow_add₀ two_ne_zero]
  rfl

theorem ofBits_infinityBits : ofBits infinityBits = .infinity false := rfl

theorem sign_of_lt {bits : ℕ} (h : bits < 2 ^ 63) : (bits / 2 ^ 63 % 2 == 1) = false := by
  rw [Nat.div_eq_of_lt h]
  rfl

theorem ofBits_eq {bits : ℕ} (h : bits < infinityBits) :
    ∃ m e, ofBits bits = .finite false m e ∧ m % 2 = bits % 2 ∧ (m * 2 ^ e : ℚ) = place bits := by
  have hlt : bits < 2047 * 2 ^ 52 := by rwa [infinityBits_eq] at h
  have hsign := sign_of_lt (show bits < 2 ^ 63 by omega)
  have hexponent : bits / 2 ^ 52 % 2 ^ 11 = bits / 2 ^ 52 := Nat.mod_eq_of_lt (by omega)
  unfold ofBits
  simp only [Nat.pow_eq, hsign, hexponent]
  rw [if_neg (by omega)]
  by_cases hsmall : bits / 2 ^ 52 = 0
  · rw [if_pos hsmall]
    refine ⟨_, _, rfl, by omega, ?_⟩
    rw [place, if_pos (by omega), Nat.mod_eq_of_lt (by omega)]
  · rw [if_neg hsmall]
    refine ⟨_, _, rfl, by omega, ?_⟩
    rw [place, if_neg (by omega)]

theorem ofBits_of_infinity_lt {bits : ℕ} (h : infinityBits < bits) (hs : bits < 2 ^ 63) :
    ofBits bits = .nan := by
  rw [infinityBits_eq] at h
  have hexponent : bits / 2 ^ 52 % 2 ^ 11 = 2047 := by omega
  unfold ofBits
  simp only [Nat.pow_eq, hexponent, if_true]
  exact if_neg (by omega)

def negate : Binary64 → Binary64
  | .nan => .nan
  | .infinity negative => .infinity !negative
  | .finite negative m e => .finite (!negative) m e

theorem ofBits_add_sign {bits : ℕ} (h : bits < 2 ^ 63) : ofBits (2 ^ 63 + bits) = (ofBits bits).negate := by
  have hsign := sign_of_lt h
  have hsign' : ((2 ^ 63 + bits) / 2 ^ 63 % 2 == 1) = true := by
    rw [beq_iff_eq]
    omega
  have hexponent : (2 ^ 63 + bits) / 2 ^ 52 % 2 ^ 11 = bits / 2 ^ 52 % 2 ^ 11 := by omega
  have hfraction : (2 ^ 63 + bits) % 2 ^ 52 = bits % 2 ^ 52 := by omega
  unfold ofBits
  simp only [Nat.pow_eq, hsign, hsign', hexponent, hfraction]
  split
  · split <;> rfl
  · split <;> rfl

theorem isNegative_negate_of_le {bits : ℕ} (h : bits ≤ infinityBits) :
    (ofBits bits).negate.isNegative = true := by
  rcases h.lt_or_eq with hlt | rfl
  · obtain ⟨m, e, he, -⟩ := ofBits_eq hlt
    rw [he]
    rfl
  · rfl

theorem Unsigned.exists_bits {x : Float} (h : Unsigned x) :
    ∃ bits ≤ infinityBits, x = Float.ofBits (UInt64.ofNat bits) := by
  have hlt : x.toBits.toNat < 2 ^ 64 := x.toBits.toNat_lt
  refine ⟨x.toBits.toNat, ?_, ?_⟩
  · by_contra! hover
    rcases lt_or_ge x.toBits.toNat (2 ^ 63) with hsmall | hlarge
    · exact h.ne_nan (ofBits_of_infinity_lt hover hsmall)
    · obtain ⟨bits, hbits⟩ := Nat.exists_eq_add_of_le hlarge
      have hnan := h.ne_nan
      have hsign := h.not_negative
      rw [ofFloat, hbits, ofBits_add_sign (by omega)] at hnan hsign
      rcases le_or_gt bits infinityBits with hle | hgt
      · rw [isNegative_negate_of_le hle] at hsign
        cases hsign
      · rw [ofBits_of_infinity_lt hgt (by omega)] at hnan
        exact hnan rfl
  · rw [UInt64.ofNat_toNat, Float.ofBits_toBits]

end Formula.Binary64
