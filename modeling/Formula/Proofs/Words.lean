import Mathlib
import Formula.Operator
import Formula.Proofs.Binary64.Integers

namespace Formula

namespace Word32

def wrap (n : ℤ) : ℤ := (n + 2 ^ 31) % 2 ^ 32 - 2 ^ 31

theorem wrap_modEq (n : ℤ) : wrap n ≡ n [ZMOD 2 ^ 32] := by
  unfold wrap Int.ModEq
  omega

theorem toInt_ofInt (n : ℤ) : (Int32.ofInt n).toInt = wrap n := by
  have hsize : (Int32.size : ℤ) = 2 ^ 32 := rfl
  rw [Int32.toInt_ofInt, Int.bmod_def, hsize, wrap]
  split <;> omega

def ofRemainder (n : ℤ) : Int32 :=
  let r := n.tmod (2 ^ 32)
  (UInt32.ofNat (if r < 0 then r + 2 ^ 32 else r).toNat).toInt32

theorem corrected_tmod (n : ℤ) :
    (if n.tmod (2 ^ 32) < 0 then n.tmod (2 ^ 32) + 2 ^ 32 else n.tmod (2 ^ 32)) = n % 2 ^ 32 := by
  rw [Int.tmod_eq_emod]
  split_ifs <;> omega

theorem ofRemainder_eq (n : ℤ) : ofRemainder n = Int32.ofInt n := by
  apply Int32.toBitVec_inj.mp
  apply BitVec.eq_of_toNat_eq
  rw [ofRemainder]
  simp only [corrected_tmod]
  rw [UInt32.toBitVec_toInt32, Int32.toBitVec_ofInt, BitVec.toNat_ofInt]
  have hlt : (n % 2 ^ 32).toNat < 2 ^ 32 := by omega
  exact Nat.mod_eq_of_lt hlt

theorem getLsbD_ofInt (n : ℤ) {i : ℕ} (h : i < 32) : (BitVec.ofInt 32 n).getLsbD i = n.testBit i := by
  cases n with
  | ofNat m =>
    rw [Int.ofNat_eq_natCast, BitVec.ofInt_natCast, BitVec.getLsbD_ofNat, decide_eq_true h, Bool.true_and]
    rfl
  | negSucc m =>
    rw [BitVec.ofInt_negSucc_eq_not_ofNat, BitVec.getLsbD_not, BitVec.getLsbD_ofNat, decide_eq_true h,
      Bool.true_and, Bool.true_and]
    rfl

theorem ofInt_lor (a b : ℤ) : Int32.ofInt (a.lor b) = Int32.ofInt a ||| Int32.ofInt b := by
  apply Int32.toBitVec_inj.mp
  rw [Int32.toBitVec_or, Int32.toBitVec_ofInt, Int32.toBitVec_ofInt, Int32.toBitVec_ofInt]
  apply BitVec.eq_of_getLsbD_eq
  intro i hi
  rw [BitVec.getLsbD_or, getLsbD_ofInt _ hi, getLsbD_ofInt _ hi, getLsbD_ofInt _ hi, Int.testBit_lor]

theorem ofInt_land (a b : ℤ) : Int32.ofInt (a.land b) = Int32.ofInt a &&& Int32.ofInt b := by
  apply Int32.toBitVec_inj.mp
  rw [Int32.toBitVec_and, Int32.toBitVec_ofInt, Int32.toBitVec_ofInt, Int32.toBitVec_ofInt]
  apply BitVec.eq_of_getLsbD_eq
  intro i hi
  rw [BitVec.getLsbD_and, getLsbD_ofInt _ hi, getLsbD_ofInt _ hi, getLsbD_ofInt _ hi, Int.testBit_land]

theorem ofInt_complement (a : ℤ) : Int32.ofInt (-a - 1) = ~~~Int32.ofInt a := by
  rw [Int32.not_eq_neg_sub, Int32.ofInt_sub, Int32.ofInt_neg]
  rfl

theorem toNat_shiftAmount (b : ℤ) :
    ((Int32.ofInt b &&& 31).toBitVec.smod 32).toNat = (b % 32).toNat := by
  have hand : (Int32.ofInt b &&& 31).toBitVec.toNat = (b % 32).toNat := by
    rw [Int32.toBitVec_and, BitVec.toNat_and, Int32.toBitVec_ofInt, BitVec.toNat_ofInt]
    refine (Nat.and_two_pow_sub_one_eq_mod _ 5).trans ?_
    omega
  have hlt : (b % 32).toNat < 32 := by omega
  generalize (Int32.ofInt b &&& 31).toBitVec = k at hand
  have hmsb : k.msb = false := BitVec.msb_eq_false_iff_two_mul_lt.mpr (by omega)
  have hsmod : k.smod 32 = k.umod 32 := by
    rw [BitVec.smod_eq, hmsb]
    rfl
  rw [hsmod]
  change k.toNat % 32 = _
  omega

theorem ofInt_shiftLeft (a b : ℤ) :
    Int32.ofInt (a * 2 ^ (b % 32).toNat) = Int32.ofInt a <<< (Int32.ofInt b &&& 31) := by
  apply Int32.toBitVec_inj.mp
  rw [Int32.toBitVec_shiftLeft, BitVec.shiftLeft_eq', toNat_shiftAmount, Int32.toBitVec_ofInt,
    Int32.toBitVec_ofInt, BitVec.ofInt_mul, BitVec.shiftLeft_eq_mul_twoPow]
  congr 1
  apply BitVec.eq_of_toNat_eq
  rw [BitVec.toNat_ofInt, BitVec.toNat_twoPow]
  norm_cast

theorem toInt_shiftRight (w : Int32) (b : ℤ) :
    (w >>> (Int32.ofInt b &&& 31)).toInt = ⌊(w.toInt / 2 ^ (b % 32).toNat : ℚ)⌋ := by
  have hfloor := Rat.floor_intCast_div_natCast w.toInt (2 ^ (b % 32).toNat)
  rw [Nat.cast_pow, Nat.cast_ofNat] at hfloor
  rw [← Int32.toInt_toBitVec, Int32.toBitVec_shiftRight, BitVec.sshiftRight', toNat_shiftAmount,
    BitVec.toInt_sshiftRight, Int.shiftRight_eq_div_pow, Int32.toInt_toBitVec, hfloor]

open Binary64 (IsInt integerPart)

structure IsWord (r : Float) (n : ℤ) : Prop where
  isInt : IsInt r n
  low : -2 ^ 31 ≤ n
  high : n < 2 ^ 31

theorem isWord_toFloat (w : Int32) : IsWord (toFloat w) w.toInt := by
  have hlow := w.le_toInt
  have hhigh := w.toInt_lt
  exact ⟨Binary64.isInt_ofInt (by omega), hlow, hhigh⟩

theorem ofFloat_eq (x : Float) : ofFloat x = Int32.ofInt (integerPart x) := by
  rw [ofFloat, Binary64.truncate_eq]

end Word32

open Word32 (wrap IsWord ofRemainder)
open Binary64 (integerPart)

theorem words_wrap_integers (x y : Float) :
    Word32.ofFloat x = ofRemainder (integerPart x) ∧
    (Word32.ofFloat x).toInt = wrap (integerPart x) ∧ wrap (integerPart x) ≡ integerPart x [ZMOD 2 ^ 32] ∧
    IsWord (BinaryOp.or.apply x y) (wrap ((integerPart x).lor (integerPart y))) ∧
    IsWord (BinaryOp.and.apply x y) (wrap ((integerPart x).land (integerPart y))) ∧
    IsWord (PrefixOp.complement.apply x) (wrap (-integerPart x - 1)) ∧
    IsWord (BinaryOp.shiftLeft.apply x y) (wrap (integerPart x * 2 ^ (integerPart y % 32).toNat)) ∧
    IsWord (BinaryOp.shiftRight.apply x y)
      ⌊(wrap (integerPart x) / 2 ^ (integerPart y % 32).toNat : ℚ)⌋ := by
  have hx := Word32.ofFloat_eq x
  have hy := Word32.ofFloat_eq y
  have hresult {w : Int32} {n : ℤ} (h : w = Int32.ofInt n) : IsWord (Word32.toFloat w) (wrap n) := by
    rw [h, ← Word32.toInt_ofInt]
    exact Word32.isWord_toFloat _
  refine ⟨?_, ?_, Word32.wrap_modEq _, hresult ?_, hresult ?_, hresult ?_, hresult ?_, ?_⟩
  · rw [hx, Word32.ofRemainder_eq]
  · rw [hx, Word32.toInt_ofInt]
  · rw [hx, hy, Word32.ofInt_lor]
  · rw [hx, hy, Word32.ofInt_land]
  · rw [hx, Word32.ofInt_complement]
  · rw [hx, Word32.shiftAmount, hy, Word32.ofInt_shiftLeft]
  · rw [← Word32.toInt_ofInt (integerPart x), ← Word32.toInt_shiftRight, ← hx, ← hy]
    exact Word32.isWord_toFloat _

end Formula
