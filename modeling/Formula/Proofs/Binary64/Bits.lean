import Mathlib
import Formula.Literal

namespace Formula

namespace Binary64

theorem infinityBits_eq : infinityBits = 2047 * 2 ^ 52 := rfl

theorem valid_of_le {bits : UInt64} (h : bits.toNat % 2 ^ 63 ≤ infinityBits) :
    Float.Model.Format.binary64.Valid bits.toBitVec := by
  constructor
  intro hexponent hfraction
  have he : bits.toNat / 2 ^ 52 % 2 ^ 11 = 2047 := by
    have hbits := congrArg BitVec.toNat hexponent
    simpa [Float.Model.UnpackedFloat.unpackExponent, BitVec.extractLsb_toNat,
      Nat.shiftRight_eq_div_pow] using hbits
  have hf : bits.toNat % 2 ^ 52 ≠ 0 := by
    intro hzero
    apply hfraction
    apply BitVec.eq_of_toNat_eq
    simpa [Float.Model.UnpackedFloat.unpackMantissa] using hzero
  rw [infinityBits_eq] at h
  omega

theorem toBits_ofBits {bits : UInt64} (h : bits.toNat % 2 ^ 63 ≤ infinityBits) :
    (Float.ofBits bits).toBits = bits := by
  let m : Float.Model := ⟨bits, valid_of_le h⟩
  have hm : Float.ofBits (Float.ofModel m).toBits = Float.ofModel m := Float.ofBits_toBits _
  exact congrArg Float.toBits hm

theorem ofFloat_ofBits {bits : Nat} (h : bits ≤ infinityBits) :
    ofFloat (Float.ofBits (UInt64.ofNat bits)) = ofBits bits := by
  have hnat : (UInt64.ofNat bits).toNat = bits := by
    apply UInt64.toNat_ofNat_of_lt
    rw [infinityBits_eq] at h
    exact Nat.lt_of_le_of_lt h (by decide)
  have hle : (UInt64.ofNat bits).toNat % 2 ^ 63 ≤ infinityBits := by
    rw [hnat]
    exact (Nat.mod_le _ _).trans h
  rw [ofFloat, toBits_ofBits hle, hnat]

section

open Float.Model.UnpackedFloat

theorem unpack_of_sign {b b' : BitVec 64} (h : b'.toNat = 2 ^ 63 + b.toNat) :
    unpack .binary64 b' = (unpack .binary64 b).neg := by
  have hb' := b'.isLt
  have hexponent : @unpackExponent .binary64 b' = @unpackExponent .binary64 b := by
    apply BitVec.eq_of_toNat_eq
    rw [unpackExponent_def, unpackExponent_def, BitVec.extractLsb'_toNat, BitVec.extractLsb'_toNat, h]
    simp only [Nat.shiftRight_eq_div_pow]
    change (2 ^ 63 + b.toNat) / 2 ^ 52 % 2 ^ 11 = b.toNat / 2 ^ 52 % 2 ^ 11
    omega
  have hmantissa : @unpackMantissa .binary64 b' = @unpackMantissa .binary64 b := by
    apply BitVec.eq_of_toNat_eq
    rw [unpackMantissa_def, unpackMantissa_def, BitVec.extractLsb'_toNat, BitVec.extractLsb'_toNat, h]
    change (2 ^ 63 + b.toNat) % 2 ^ 52 = b.toNat % 2 ^ 52
    omega
  have hsign : @unpackSign .binary64 b' = 1#1 ∧ @unpackSign .binary64 b = 0#1 := by
    constructor <;> apply BitVec.eq_of_toNat_eq
    · rw [unpackSign_def, BitVec.extractLsb'_toNat, h, Nat.shiftRight_eq_div_pow]
      change (2 ^ 63 + b.toNat) / 2 ^ 63 % 2 = 1
      omega
    · rw [unpackSign_def, BitVec.extractLsb'_toNat, Nat.shiftRight_eq_div_pow]
      change b.toNat / 2 ^ 63 % 2 = 0
      omega
  unfold unpack
  simp only [hexponent, hmantissa, hsign]
  split
  · split <;> rfl
  · split
    · split <;> rfl
    · rfl

theorem ofFloat_neg {bits : Nat} (h : bits ≤ infinityBits) :
    ofFloat (-Float.ofBits (UInt64.ofNat bits)) = ofBits (2 ^ 63 + bits) := by
  have hlt : bits ≤ 2047 * 2 ^ 52 := by rwa [infinityBits_eq] at h
  have hnat : (UInt64.ofNat bits).toNat = bits := UInt64.toNat_ofNat_of_lt (by norm_num; omega)
  have hnat' : (UInt64.ofNat (2 ^ 63 + bits)).toNat = 2 ^ 63 + bits :=
    UInt64.toNat_ofNat_of_lt (by norm_num; omega)
  have hneg : -Float.ofBits (UInt64.ofNat bits) = Float.ofBits (UInt64.ofNat (2 ^ 63 + bits)) := by
    have hvalid := @valid_of_le (UInt64.ofNat bits) (by rw [hnat]; exact (Nat.mod_le _ _).trans h)
    have hpack := pack_unpack_of_valid hvalid
    have hsign := @unpack_of_sign (UInt64.ofNat bits).toBitVec (UInt64.ofNat (2 ^ 63 + bits)).toBitVec
      (hnat'.trans (congrArg (2 ^ 63 + ·) hnat.symm))
    change Float.ofModel (Float.Model.pack (unpack .binary64
      (pack .binary64 (unpack .binary64 (UInt64.ofNat bits).toBitVec))).neg) =
        Float.ofModel (Float.Model.pack (unpack .binary64 (UInt64.ofNat (2 ^ 63 + bits)).toBitVec))
    rw [hpack, hsign]
  have hle : (UInt64.ofNat (2 ^ 63 + bits)).toNat % 2 ^ 63 ≤ infinityBits := by
    rw [hnat', Nat.add_mod_left]
    exact (Nat.mod_le _ _).trans h
  rw [hneg, ofFloat, toBits_ofBits hle, hnat']

end

structure Unsigned (x : Float) : Prop where
  ne_nan : ofFloat x ≠ .nan
  not_negative : (ofFloat x).isNegative = false

theorem unsigned_ofBits {bits : Nat} (h : bits ≤ infinityBits) :
    Unsigned (Float.ofBits (UInt64.ofNat bits)) := by
  have hsign : (bits / Nat.pow 2 63 % 2 == 1) = false := by
    have hzero : bits / Nat.pow 2 63 = 0 := by
      apply Nat.div_eq_of_lt
      exact Nat.lt_of_le_of_lt h (by decide)
    rw [hzero]
    rfl
  have hvalue : ofFloat (Float.ofBits (UInt64.ofNat bits)) ≠ .nan ∧
      (ofFloat (Float.ofBits (UInt64.ofNat bits))).isNegative = false := by
    rw [ofFloat_ofBits h, ofBits]
    simp only [hsign]
    split
    · rename_i hexponent
      have hfraction : bits % Nat.pow 2 52 = 0 := by
        have he : bits / 2 ^ 52 % 2 ^ 11 = 2047 := hexponent
        have hf : bits % 2 ^ 52 = 0 := by
          rw [infinityBits_eq] at h
          omega
        exact hf
      rw [if_pos hfraction]
      exact ⟨nofun, rfl⟩
    · split
      · exact ⟨nofun, rfl⟩
      · exact ⟨nofun, rfl⟩
  exact ⟨hvalue.1, hvalue.2⟩

theorem nearestBits_le (num den : Nat) : nearestBits num den ≤ infinityBits := by
  unfold nearestBits
  split
  · exact Nat.zero_le _
  · exact Nat.min_le_left _ _

end Binary64

theorem Decimal.nearestBits_le (d : Decimal) : d.nearestBits ≤ Binary64.infinityBits := by
  unfold Decimal.nearestBits
  split
  · exact Nat.zero_le _
  · split
    · split
      · exact Nat.le_refl _
      · exact Binary64.nearestBits_le _ _
    · split
      · exact Nat.zero_le _
      · exact Binary64.nearestBits_le _ _

theorem Literal.unsigned_of_value {l : Literal} {x : Float} (h : l.value = .ok x) :
    Binary64.Unsigned x := by
  cases l with
  | based radix marker digits =>
    simp only [Literal.value] at h
    split at h
    · cases h
    · split at h
      · cases h
      · split at h
        · cases h
        · split at h
          · cases h
            exact Binary64.unsigned_ofBits (Binary64.nearestBits_le _ _)
          · cases h
  | decimal whole fraction exponent =>
    simp only [Literal.value] at h
    split at h
    · cases h
      exact Binary64.unsigned_ofBits (Decimal.nearestBits_le _)
    · cases h

end Formula
