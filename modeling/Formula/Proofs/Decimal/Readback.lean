import Mathlib
import Formula.Proofs.Literal.Denotation

namespace Formula

theorem Digits.point_notMem {ds : List Char} {n : ℕ} (h : Digits ds n) : '.' ∉ ds := by
  cases h with
  | intro h =>
    intro hmem
    cases h '.' hmem

theorem Digits.unique {ds : List Char} {n m : ℕ} (h : Digits ds n) (h' : Digits ds m) : n = m := by
  cases h
  cases h'
  rfl

theorem Mantissa.unique {s : List Char} {q q' : ℚ} (h : Mantissa s q) (h' : Mantissa s q') : q = q' := by
  generalize hs : s = s' at h'
  cases h with
  | @whole ds n hds hne =>
    cases h' with
    | @whole ds' n' hds' hne' =>
      subst hs
      rw [hds.unique hds']
    | @point ds' fs' n' m' hds' hfs' hne' =>
      apply absurd _ hds.point_notMem
      rw [hs]
      simp
  | @point ds fs n m hds hfs hne =>
    cases h' with
    | @whole ds' n' hds' hne' =>
      apply absurd _ hds'.point_notMem
      rw [← hs]
      simp
    | @point ds' fs' n' m' hds' hfs' hne' =>
      obtain ⟨rfl, -, rfl⟩ := (List.append_cons_inj_of_notMem hds.point_notMem hfs.point_notMem).mp hs
      rw [hds.unique hds', hfs.unique hfs']

theorem Mantissa.mem {s : List Char} {q : ℚ} (h : Mantissa s q) {c : Char} (hc : c ∈ s) :
    c.isDigit ∨ c = '.' := by
  cases h with
  | @whole ds n hds hne =>
    cases hds with
    | intro hds => exact .inl (hds c hc)
  | @point ds fs n m hds hfs hne =>
    cases hds with
    | intro hds =>
      cases hfs with
      | intro hfs =>
        rcases List.mem_append.mp hc with hc | hc
        · exact .inl (hds c hc)
        · rcases List.mem_cons.mp hc with rfl | hc
          · exact .inr rfl
          · exact .inl (hfs c hc)

namespace Layout

open Radix (decimal natural_append)

theorem isDigit_of_mem_zeros {n : ℕ} {c : Char} (h : c ∈ zeros n) : c.isDigit := by
  rw [List.eq_of_mem_replicate h]
  rfl

theorem natural_zeros (n : ℕ) : decimal.natural (zeros n) = 0 := by
  induction n with
  | zero => rfl
  | succ n ih =>
    have hsplit : zeros (n + 1) = ['0'] ++ zeros n := rfl
    have hzero : decimal.natural ['0'] = 0 := rfl
    rw [hsplit, natural_append, hzero, ih, Nat.zero_mul]

theorem length_digits {run : List Char} (h : ∀ c ∈ run, c.isDigit) :
    (run.filterMap decimal.digit?).length = run.length := by
  rw [Radix.length_decimal_digits, List.filter_eq_self.mpr h]

theorem natural_append_digits {run run' : List Char} (h : ∀ c ∈ run', c.isDigit) :
    decimal.natural (run ++ run') = decimal.natural run * 10 ^ run'.length + decimal.natural run' := by
  rw [natural_append, length_digits h]
  rfl

theorem natural_append_zeros (run : List Char) (n : ℕ) :
    decimal.natural (run ++ zeros n) = decimal.natural run * 10 ^ n := by
  rw [natural_append_digits fun c hc => isDigit_of_mem_zeros hc, natural_zeros, zeros,
    List.length_replicate, Nat.add_zero]

structure Holds (q : ℚ) (digits : List Char) (power : ℤ) : Prop where
  ne_nil : digits ≠ []
  isDigit : ∀ c ∈ digits, c.isDigit
  eq : q = decimal.natural digits * 10 ^ (power + 1 - digits.length)

theorem exists_zeros (digits : List Char) :
    ∃ n, digits = (digits.reverse.dropWhile (· == '0')).reverse ++ zeros n := by
  refine ⟨(digits.reverse.takeWhile (· == '0')).length, ?_⟩
  have hzeros : digits.reverse.takeWhile (· == '0') = zeros (digits.reverse.takeWhile (· == '0')).length := by
    rw [zeros, List.eq_replicate_iff]
    exact ⟨rfl, fun c hc => by simpa using List.mem_takeWhile_imp hc⟩
  have hreverse : zeros (digits.reverse.takeWhile (· == '0')).length =
      (digits.reverse.takeWhile (· == '0')).reverse := by
    rw [zeros, ← List.reverse_replicate]
    exact congrArg List.reverse hzeros.symm
  rw [hreverse, ← List.reverse_append, List.takeWhile_append_dropWhile, List.reverse_reverse]

theorem significant_holds (d : Decimal) : Holds d.toRat (significant d).1 (significant d).2 := by
  have hten : (10 : ℚ) ≠ 0 := by norm_num
  have hall : ∀ c ∈ Nat.toDigits 10 d.digits, c.isDigit :=
    fun c hc => Nat.isDigit_of_mem_toDigits (by norm_num) le_rfl hc
  have hvalue : decimal.natural (Nat.toDigits 10 d.digits) = d.digits := by
    rw [Radix.natural_eq_ofDigitChars hall, Nat.ofDigitChars_ten_toDigits]
  obtain ⟨n, hn⟩ := exists_zeros (Nat.toDigits 10 d.digits)
  have hsignificant : significant d =
      if ((Nat.toDigits 10 d.digits).reverse.dropWhile (· == '0')).reverse.isEmpty then (['0'], 0)
      else (((Nat.toDigits 10 d.digits).reverse.dropWhile (· == '0')).reverse,
        d.exponent + (Nat.toDigits 10 d.digits).length - 1) := rfl
  generalize ((Nat.toDigits 10 d.digits).reverse.dropWhile (· == '0')).reverse = kept at hn hsignificant
  rw [hn, natural_append_zeros] at hvalue
  rw [hsignificant]
  split
  · rename_i hempty
    have hzero : d.digits = 0 := by
      rw [← hvalue, List.isEmpty_iff.mp hempty]
      exact Nat.zero_mul _
    have hdigit : decimal.natural ['0'] = 0 := rfl
    refine ⟨List.cons_ne_nil _ _, List.forall_mem_singleton.mpr rfl, ?_⟩
    rw [Decimal.toRat, hzero, hdigit, Nat.cast_zero, zero_mul, zero_mul]
  · rename_i hne
    refine ⟨fun hnil => hne (List.isEmpty_iff.mpr hnil), fun c hc => hall c ?_, ?_⟩
    · rw [hn]
      exact List.mem_append_left _ hc
    · have hlength := congrArg List.length hn
      rw [List.length_append, zeros, List.length_replicate] at hlength
      have hexp : d.exponent + (Nat.toDigits 10 d.digits).length - 1 + 1 - (kept.length : ℤ) =
          n + d.exponent := by omega
      rw [hexp, zpow_add₀ hten, zpow_natCast, ← mul_assoc, Decimal.toRat, ← hvalue]
      push_cast
      rfl

section

variable {q : ℚ} {digits : List Char} {power : ℤ}

theorem mantissa_below_one (h : Holds q digits power) (hp : power < 0) :
    Mantissa ('0' :: '.' :: zeros (-power - 1).toNat ++ digits) q := by
  obtain ⟨-, hdigits, rfl⟩ := h
  have hzero : Digits ['0'] 0 := .intro (List.forall_mem_singleton.mpr rfl)
  have hall : ∀ c ∈ zeros (-power - 1).toNat ++ digits, c.isDigit := by
    rw [List.forall_mem_append]
    exact ⟨fun c hc => isDigit_of_mem_zeros hc, hdigits⟩
  have hmantissa := Mantissa.point hzero (.intro hall) (.inl (List.cons_ne_nil _ _))
  have hexp : power + 1 - (digits.length : ℤ) = -((-power - 1).toNat + digits.length : ℕ) := by omega
  rw [natural_append_digits hdigits, natural_zeros, Nat.zero_mul, Nat.zero_add, List.length_append, zeros,
    List.length_replicate, Nat.cast_zero, zero_add, div_eq_mul_inv, ← zpow_natCast, ← zpow_neg,
    ← hexp] at hmantissa
  exact hmantissa

theorem mantissa_whole (h : Holds q digits power) (hp : 0 ≤ power)
    (hlength : digits.length ≤ power.toNat + 1) :
    Mantissa (digits ++ zeros (power.toNat + 1 - digits.length)) q := by
  obtain ⟨hne, hdigits, rfl⟩ := h
  have hall : ∀ c ∈ digits ++ zeros (power.toNat + 1 - digits.length), c.isDigit := by
    rw [List.forall_mem_append]
    exact ⟨hdigits, fun c hc => isDigit_of_mem_zeros hc⟩
  have hmantissa := Mantissa.whole (.intro hall) (List.append_ne_nil_of_left_ne_nil hne _)
  have hexp : power + 1 - (digits.length : ℤ) = (power.toNat + 1 - digits.length : ℕ) := by omega
  rw [natural_append_zeros, Nat.cast_mul, Nat.cast_pow, Nat.cast_ofNat, ← zpow_natCast,
    ← hexp] at hmantissa
  exact hmantissa

theorem mantissa_point (h : Holds q digits power) (hp : 0 ≤ power)
    (hlength : power.toNat + 1 < digits.length) :
    Mantissa (digits.take (power.toNat + 1) ++ '.' :: digits.drop (power.toNat + 1)) q := by
  obtain ⟨-, hdigits, rfl⟩ := h
  have hten : (10 : ℚ) ≠ 0 := by norm_num
  have hmem := hdigits
  rw [← List.take_append_drop (power.toNat + 1) digits, List.forall_mem_append] at hmem
  obtain ⟨htake, hdrop⟩ := hmem
  have hne : digits.take (power.toNat + 1) ≠ [] := by
    apply List.ne_nil_of_length_pos
    rw [List.length_take]
    omega
  have hmantissa := Mantissa.point (.intro htake) (.intro hdrop) (.inl hne)
  have hvalue := @natural_append_digits (digits.take (power.toNat + 1)) _ hdrop
  have hexp : power + 1 - (digits.length : ℤ) = -((digits.drop (power.toNat + 1)).length : ℤ) := by
    rw [List.length_drop]
    omega
  rw [List.take_append_drop] at hvalue
  rw [hexp, hvalue, zpow_neg, zpow_natCast]
  push_cast
  rw [add_mul, mul_assoc, mul_inv_cancel₀ (pow_ne_zero _ hten), mul_one, ← div_eq_mul_inv]
  exact hmantissa

theorem mantissa_fixedPoint (h : Holds q digits power) : Mantissa (fixedPoint [] digits power) q := by
  unfold fixedPoint
  split
  · exact mantissa_below_one h ‹_›
  · rename_i hp
    simp only
    split
    · rw [List.append_nil]
      exact mantissa_whole h (not_lt.mp hp) ‹_›
    · exact mantissa_point h (not_lt.mp hp) (not_le.mp ‹_›)

end

open Binary64

theorem write_ofBits {bits : ℕ} (h : bits ≤ infinityBits) :
    (bits = infinityBits ∧ plain.write (Float.ofBits (UInt64.ofNat bits)) = ['i', 'n', 'f']) ∨
      ∃ d : Decimal, d.nearestBits = bits ∧
        Mantissa (plain.write (Float.ofBits (UInt64.ofNat bits))) d.toRat := by
  rw [write, ofFloat_ofBits h]
  rcases h.lt_or_eq with hlt | rfl
  · obtain ⟨m, e, hfinite, -, hplace⟩ := ofBits_eq hlt
    rw [hfinite]
    refine .inr ⟨Decimal.shortest m e, Decimal.nearestBits_shortest h hplace, ?_⟩
    exact mantissa_fixedPoint (significant_holds _)
  · exact .inl ⟨rfl, rfl⟩

theorem write_cases {x : Float} (h : Unsigned x) :
    plain.write x = ['i', 'n', 'f'] ∨ ∃ q, Mantissa (plain.write x) q := by
  obtain ⟨bits, hbits, rfl⟩ := h.exists_bits
  rcases write_ofBits hbits with ⟨-, hinf⟩ | ⟨d, -, hmantissa⟩
  · exact .inl hinf
  · exact .inr ⟨_, hmantissa⟩

theorem not_mantissa_inf {q : ℚ} : ¬Mantissa ['i', 'n', 'f'] q := by
  intro h
  have hmem := h.mem List.mem_cons_self
  revert hmem
  decide

theorem eq_of_write_eq {x y : Float} (hx : Unsigned x) (hy : Unsigned y)
    (h : plain.write x = plain.write y) : x = y := by
  obtain ⟨b, hb, rfl⟩ := hx.exists_bits
  obtain ⟨c, hc, rfl⟩ := hy.exists_bits
  rcases write_ofBits hb with ⟨rfl, hx⟩ | ⟨d, rfl, hx⟩
  · rcases write_ofBits hc with ⟨rfl, -⟩ | ⟨d', rfl, hy⟩
    · rfl
    · rw [← h, hx] at hy
      exact absurd hy not_mantissa_inf
  · rcases write_ofBits hc with ⟨rfl, hy⟩ | ⟨d', rfl, hy⟩
    · rw [h, hy] at hx
      exact absurd hx not_mantissa_inf
    · rw [h] at hx
      rw [Decimal.nearestBits_eq_of_toRat_eq (hx.unique hy)]

end Layout

end Formula
