import Mathlib
import Formula.Proofs.Binary64.Rational

namespace Formula.Binary64

/-- Where a double stands among the numbers. For this purpose an infinity is a number: the power of two
behind the greatest finite double. -/
def station? : Binary64 → Option ℚ
  | .nan => none
  | .infinity negative => some ((if negative then -1 else 1) * 2 ^ 1024)
  | .finite negative m e => toRat? (.finite negative m e)

def hasEvenSignificand : Binary64 → Bool
  | .finite _ m _ => m % 2 == 0
  | _ => true

structure IsNearest (q : ℚ) (x : Float) : Prop where
  unsigned : Unsigned x
  closest : ∃ r, (ofFloat x).station? = some r ∧ ∀ y s, (ofFloat y).station? = some s →
    |r - q| ≤ |s - q| ∧ (|s - q| = |r - q| → s = r ∨ (ofFloat x).hasEvenSignificand)

structure NearestPlace (q : ℚ) (bits : ℕ) : Prop where
  le_infinity : bits ≤ infinityBits
  closest : ∀ c ≤ infinityBits, |place bits - q| ≤ |place c - q|
  even_of_tie : ∀ c ≤ infinityBits, |place c - q| = |place bits - q| → c = bits ∨ bits % 2 = 0

theorem station?_of_le {bits : ℕ} (h : bits ≤ infinityBits) :
    (ofBits bits).station? = some (place bits) ∧ (ofBits bits).hasEvenSignificand = (bits % 2 == 0) := by
  rcases h.lt_or_eq with hlt | rfl
  · obtain ⟨m, e, he, hparity, hplace⟩ := ofBits_eq hlt
    rw [he, ← hparity, ← hplace]
    exact ⟨congrArg some (one_mul _), rfl⟩
  · rw [place_infinityBits, ofBits_infinityBits]
    exact ⟨congrArg some (one_mul _), rfl⟩

theorem station?_negate (b : Binary64) : b.negate.station? = b.station?.map (-·) := by
  rcases b with _ | negative | ⟨negative, m, e⟩
  · rfl
  · cases negative <;> simp [negate, station?]
  · cases negative <;> simp [negate, station?, toRat?]

theorem station?_ofFloat {y : Float} {s : ℚ} (h : (ofFloat y).station? = some s) :
    ∃ c ≤ infinityBits, s = place c ∨ s = -place c := by
  have hle {c : ℕ} (hc : c < 2 ^ 63) (hnan : ofBits c ≠ .nan) : c ≤ infinityBits := by
    by_contra! hlt
    exact hnan (ofBits_of_infinity_lt hlt hc)
  have hlt : y.toBits.toNat < 2 ^ 64 := y.toBits.toNat_lt
  rw [ofFloat] at h
  rcases lt_or_ge y.toBits.toNat (2 ^ 63) with hsmall | hlarge
  · have hbits := hle hsmall fun hnan => by rw [hnan] at h; cases h
    rw [(station?_of_le hbits).1] at h
    exact ⟨_, hbits, .inl (Option.some.inj h).symm⟩
  · obtain ⟨c, hc⟩ := Nat.exists_eq_add_of_le hlarge
    rw [hc, ofBits_add_sign (by omega), station?_negate] at h
    have hbits := hle (show c < 2 ^ 63 by omega) fun hnan => by rw [hnan] at h; cases h
    rw [(station?_of_le hbits).1] at h
    exact ⟨c, hbits, .inr (Option.some.inj h).symm⟩

namespace NearestPlace

variable {q : ℚ} {b c : ℕ}

theorem isNearest (h : NearestPlace q b) (hq : 0 ≤ q) : IsNearest q (Float.ofBits (UInt64.ofNat b)) := by
  refine ⟨unsigned_ofBits h.le_infinity, place b, ?_⟩
  rw [ofFloat_ofBits h.le_infinity, (station?_of_le h.le_infinity).1, (station?_of_le h.le_infinity).2]
  refine ⟨rfl, fun y s hs => ?_⟩
  obtain ⟨c, hc, rfl | rfl⟩ := station?_ofFloat hs
  · refine ⟨h.closest c hc, fun htie => ?_⟩
    rcases h.even_of_tie c hc htie with rfl | heven
    · exact .inl rfl
    · exact .inr (beq_iff_eq.mpr heven)
  · -- A number below zero is no nearer than zero.
    have hdist : |-place c - q| = place c + q := by
      rw [abs_of_nonpos (by linarith [place_nonneg c])]
      ring
    have hzero : |place 0 - q| = q := by rw [place_zero, zero_sub, abs_neg, abs_of_nonneg hq]
    have hclosest := h.closest 0 (Nat.zero_le _)
    rw [hzero] at hclosest
    rw [hdist]
    refine ⟨by linarith [place_nonneg c], fun htie => ?_⟩
    have hplace : place c = 0 := by linarith [place_nonneg c]
    have htie0 : |place 0 - q| = |place b - q| := by rw [hzero]; linarith
    rcases h.even_of_tie 0 (Nat.zero_le _) htie0 with rfl | heven
    · rw [hplace, place_zero, neg_zero]
      exact .inl rfl
    · exact .inr (beq_iff_eq.mpr heven)

theorem le_of_nearest (hb : NearestPlace q b) (hc : NearestPlace q c) : c ≤ b := by
  by_contra! hlt
  have hplace : place b < place c := strictMono_place hlt
  have htie : |place c - q| = |place b - q| :=
    le_antisymm (hc.closest b hb.le_infinity) (hb.closest c hc.le_infinity)
  have hmid : place c - q = -(place b - q) := by
    rcases abs_eq_abs.mp htie with h | h
    · linarith
    · exact h
  have hbeven : b % 2 = 0 := (hb.even_of_tie c hc.le_infinity htie).resolve_left hlt.ne'
  have hceven : c % 2 = 0 := (hc.even_of_tie b hb.le_infinity htie.symm).resolve_left hlt.ne
  -- Two neighbours are not both even, and what lies between the two is nearer.
  have hbetween : b + 1 < c := by omega
  have hlow : place b < place (b + 1) := strictMono_place b.lt_succ_self
  have hhigh : place (b + 1) < place c := strictMono_place hbetween
  have hnear : |place (b + 1) - q| < |place b - q| := by
    rw [abs_of_nonpos (by linarith : place b - q ≤ 0)]
    exact abs_lt.mpr ⟨by linarith, by linarith⟩
  exact absurd (hb.closest (b + 1) (hbetween.le.trans hc.le_infinity)) hnear.not_ge

theorem unique (hb : NearestPlace q b) (hc : NearestPlace q c) : b = c :=
  le_antisymm (hc.le_of_nearest hb) (hb.le_of_nearest hc)

theorem of_place (h : b ≤ infinityBits) : NearestPlace (place b) b where
  le_infinity := h
  closest c _ := by
    rw [sub_self, abs_zero]
    exact abs_nonneg _
  even_of_tie c _ htie := by
    rw [sub_self, abs_zero, abs_eq_zero, sub_eq_zero] at htie
    exact .inl (strictMono_place.injective htie)

theorem of_lower (hb : b < infinityBits) (hlow : place b ≤ q) (hhigh : q < place (b + 1))
    (hnear : q - place b < place (b + 1) - q ∨ q - place b = place (b + 1) - q ∧ b % 2 = 0) :
    NearestPlace q b := by
  have hdist : |place b - q| = q - place b := by
    rw [abs_of_nonpos (by linarith)]
    ring
  have hcases (c : ℕ) : |place b - q| ≤ |place c - q| ∧
      (|place c - q| = |place b - q| → c = b ∨ b % 2 = 0) := by
    rw [hdist]
    rcases lt_trichotomy c b with hc | rfl | hc
    · have hplace : place c < place b := strictMono_place hc
      rw [abs_of_nonpos (by linarith)]
      exact ⟨by linarith, fun htie => absurd htie (by linarith)⟩
    · exact ⟨hdist.ge, fun _ => .inl rfl⟩
    · have hplace : place (b + 1) ≤ place c := strictMono_place.monotone hc
      rw [abs_of_nonneg (by linarith)]
      rcases hnear with hlt | ⟨heq, heven⟩
      · exact ⟨by linarith, fun htie => absurd htie (by linarith)⟩
      · exact ⟨by linarith, fun _ => .inr heven⟩
  exact ⟨hb.le, fun c _ => (hcases c).1, fun c _ => (hcases c).2⟩

theorem of_upper (hb : b < infinityBits) (hlow : place b ≤ q) (hhigh : q < place (b + 1))
    (hnear : place (b + 1) - q < q - place b ∨ q - place b = place (b + 1) - q ∧ b % 2 = 1) :
    NearestPlace q (b + 1) := by
  have hdist : |place (b + 1) - q| = place (b + 1) - q := abs_of_nonneg (by linarith)
  have hcases (c : ℕ) : |place (b + 1) - q| ≤ |place c - q| ∧
      (|place c - q| = |place (b + 1) - q| → c = b + 1 ∨ (b + 1) % 2 = 0) := by
    rw [hdist]
    rcases lt_trichotomy c (b + 1) with hc | rfl | hc
    · have hplace : place c ≤ place b := strictMono_place.monotone (Nat.le_of_lt_succ hc)
      rw [abs_of_nonpos (by linarith)]
      rcases hnear with hlt | ⟨heq, hodd⟩
      · exact ⟨by linarith, fun htie => absurd htie (by linarith)⟩
      · exact ⟨by linarith, fun _ => .inr (by omega)⟩
    · exact ⟨hdist.ge, fun _ => .inl rfl⟩
    · have hplace : place (b + 1) < place c := strictMono_place hc
      rw [abs_of_nonneg (by linarith)]
      exact ⟨by linarith, fun htie => absurd htie (by linarith)⟩
  exact ⟨hb, fun c _ => (hcases c).1, fun c _ => (hcases c).2⟩

theorem of_infinity_le (h : place infinityBits ≤ q) : NearestPlace q infinityBits := by
  have hdist (c : ℕ) (hc : c ≤ infinityBits) : |place c - q| = q - place c := by
    have hplace : place c ≤ place infinityBits := strictMono_place.monotone hc
    rw [abs_of_nonpos (by linarith)]
    ring
  refine ⟨le_rfl, fun c hc => ?_, fun c _ _ => .inr rfl⟩
  rw [hdist c hc, hdist _ le_rfl]
  linarith [strictMono_place.monotone hc]

end NearestPlace

theorem IsNearest.exists_place {q : ℚ} {x : Float} (h : IsNearest q x) :
    ∃ bits, NearestPlace q bits ∧ x = Float.ofBits (UInt64.ofNat bits) := by
  obtain ⟨bits, hbits, rfl⟩ := h.unsigned.exists_bits
  obtain ⟨r, hr, hclosest⟩ := h.closest
  rw [ofFloat_ofBits hbits, (station?_of_le hbits).1] at hr
  obtain rfl := Option.some.inj hr
  have hall (c : ℕ) (hc : c ≤ infinityBits) := hclosest (Float.ofBits (UInt64.ofNat c)) (place c)
    (by rw [ofFloat_ofBits hc, (station?_of_le hc).1])
  refine ⟨bits, ⟨hbits, fun c hc => (hall c hc).1, fun c hc htie => ?_⟩, rfl⟩
  rcases (hall c hc).2 htie with hplace | heven
  · exact .inl (strictMono_place.injective hplace)
  · rw [ofFloat_ofBits hbits, (station?_of_le hbits).2] at heven
    exact .inr (beq_iff_eq.mp heven)

theorem IsNearest.unique {q : ℚ} {x y : Float} (hx : IsNearest q x) (hy : IsNearest q y) : x = y := by
  obtain ⟨b, hb, rfl⟩ := hx.exists_place
  obtain ⟨c, hc, rfl⟩ := hy.exists_place
  rw [hb.unique hc]

theorem NearestPlace.of_part {b k : ℕ} {q part unit : ℚ} (hunit : 0 < unit)
    (hlow : q = place b + part * unit) (hhigh : place (b + 1) = place b + unit) (hpart0 : 0 ≤ part)
    (hpart : part < 1) (hk : k = if 2 * part < 1 then b else if 1 < 2 * part then b + 1 else b + b % 2) :
    NearestPlace q (min infinityBits k) := by
  have hbottom : place b ≤ q := by nlinarith
  have htop : q < place (b + 1) := by nlinarith
  rcases le_or_gt infinityBits b with hover | hfits
  · rw [min_eq_left (by split_ifs at hk <;> omega)]
    exact .of_infinity_le ((strictMono_place.monotone hover).trans hbottom)
  · rw [min_eq_right (by split_ifs at hk <;> omega)]
    rcases lt_trichotomy (2 * part) 1 with hlt | heq | hgt
    · rw [if_pos hlt] at hk
      subst hk
      exact .of_lower hfits hbottom htop (.inl (by nlinarith))
    · rw [if_neg heq.not_lt, if_neg heq.not_gt] at hk
      have htie : q - place b = place (b + 1) - q := by
        rw [hhigh, hlow]
        linear_combination heq * unit
      rcases Nat.mod_two_eq_zero_or_one b with heven | hodd
      · rw [hk, heven]
        exact .of_lower hfits hbottom htop (.inr ⟨htie, heven⟩)
      · rw [hk, hodd]
        exact .of_upper hfits hbottom htop (.inr ⟨htie, hodd⟩)
    · rw [if_neg hgt.not_gt, if_pos hgt] at hk
      subst hk
      exact .of_upper hfits hbottom htop (.inl (by nlinarith))

theorem cast_div_eq {a d : ℕ} (hd : 0 < d) : (a / d : ℚ) = (a / d : ℕ) + (a % d : ℕ) / d := by
  have hd' : (d : ℚ) ≠ 0 := Nat.cast_ne_zero.mpr hd.ne'
  have hdivision : (a : ℚ) = d * (a / d : ℕ) + (a % d : ℕ) := by exact_mod_cast (Nat.div_add_mod a d).symm
  conv => lhs; rw [hdivision]
  field_simp

theorem nearestPlace_roundQuotient {E a d : ℕ} (hd : 0 < d) (hE : E = 0 ∨ 2 ^ 52 ≤ a / d)
    (hw : a / d < 2 ^ 53) :
    NearestPlace (a / d * 2 ^ (E - 1074 : ℤ)) (min infinityBits (E * 2 ^ 52 + roundQuotient a d)) := by
  have hd' : (0 : ℚ) < d := Nat.cast_pos.mpr hd
  have hplace := place_add hE hw.le
  have hnext := place_add (hE.imp_right Nat.le_succ_of_le) (Nat.succ_le_of_lt hw)
  have hbelow : 2 * (a % d) < d ↔ 2 * ((a % d : ℕ) / d : ℚ) < 1 := by
    rw [← mul_div_assoc, div_lt_one hd']
    exact_mod_cast Iff.rfl
  have habove : d < 2 * (a % d) ↔ 1 < 2 * ((a % d : ℕ) / d : ℚ) := by
    rw [← mul_div_assoc, one_lt_div hd']
    exact_mod_cast Iff.rfl
  refine .of_part (b := E * 2 ^ 52 + a / d) (zpow_pos two_pos (E - 1074 : ℤ)) ?_ ?_
    (div_nonneg (Nat.cast_nonneg (a % d)) hd'.le) ((div_lt_one hd').mpr (Nat.cast_lt.mpr (Nat.mod_lt a hd))) ?_
  · rw [cast_div_eq hd, hplace, add_mul]
  · rw [Nat.add_assoc, hnext, hplace, Nat.cast_succ, add_mul, one_mul]
  · have hparity : (E * 2 ^ 52 + a / d) % 2 = a / d % 2 := by omega
    rw [hparity, roundQuotient]
    simp only [hbelow, habove, Nat.add_assoc, apply_ite (E * 2 ^ 52 + ·)]

theorem log2Quotient_bounds {num den : ℕ} (hn : 0 < num) (hd : 0 < den) :
    (2 : ℚ) ^ log2Quotient num den ≤ num / den ∧ (num / den : ℚ) < 2 ^ (log2Quotient num den + 1) := by
  have hd' : (0 : ℚ) < den := Nat.cast_pos.mpr hd
  have hnlow : (2 : ℚ) ^ (num.log2 : ℤ) ≤ num := by
    rw [zpow_natCast]
    exact_mod_cast Nat.log2_self_le hn.ne'
  have hnhigh : (num : ℚ) < 2 ^ (num.log2 + 1 : ℤ) := by
    exact_mod_cast (Nat.lt_log2_self : num < 2 ^ (num.log2 + 1))
  have hdlow : (2 : ℚ) ^ (den.log2 : ℤ) ≤ den := by
    rw [zpow_natCast]
    exact_mod_cast Nat.log2_self_le hd.ne'
  have hdhigh : (den : ℚ) < 2 ^ (den.log2 + 1 : ℤ) := by
    exact_mod_cast (Nat.lt_log2_self : den < 2 ^ (den.log2 + 1))
  have hcompare (k : ℤ) : den * Nat.pow 2 k.toNat ≤ num * Nat.pow 2 (-k).toNat ↔ (2 : ℚ) ^ k ≤ num / den := by
    have hpow : (0 : ℚ) < (Nat.pow 2 (-k).toNat : ℕ) := Nat.cast_pos.mpr (Nat.two_pow_pos _)
    rw [le_div_iff₀ hd', mul_comm (2 ^ k), mul_zpow_eq, div_le_iff₀ hpow]
    exact_mod_cast Iff.rfl
  unfold log2Quotient
  simp only [hcompare]
  split
  · rename_i hle
    refine ⟨hle, ?_⟩
    rw [div_lt_iff₀ hd']
    calc (num : ℚ) < 2 ^ (num.log2 + 1 : ℤ) := hnhigh
      _ = 2 ^ (num.log2 - den.log2 + 1 : ℤ) * 2 ^ (den.log2 : ℤ) := by
        rw [← zpow_add₀ two_ne_zero]
        congr 1
        omega
      _ ≤ 2 ^ (num.log2 - den.log2 + 1 : ℤ) * den :=
        mul_le_mul_of_nonneg_left hdlow (zpow_nonneg zero_le_two _)
  · rename_i hlt
    rw [sub_add_cancel]
    refine ⟨?_, not_le.mp hlt⟩
    rw [le_div_iff₀ hd']
    calc (2 : ℚ) ^ (num.log2 - den.log2 - 1 : ℤ) * den
        ≤ 2 ^ (num.log2 - den.log2 - 1 : ℤ) * 2 ^ (den.log2 + 1 : ℤ) :=
          mul_le_mul_of_nonneg_left hdhigh.le (zpow_nonneg zero_le_two _)
      _ = 2 ^ (num.log2 : ℤ) := by
        rw [← zpow_add₀ two_ne_zero]
        congr 1
        omega
      _ ≤ num := hnlow

theorem nearestPlace_nearestBits {num den : ℕ} (hd : 0 < den) :
    NearestPlace (num / den) (nearestBits num den) := by
  rcases Nat.eq_zero_or_pos num with rfl | hn
  · rw [Nat.cast_zero, zero_div, ← place_zero]
    exact .of_place (Nat.zero_le _)
  · obtain ⟨hlow, hhigh⟩ := log2Quotient_bounds hn hd
    have hd' : (0 : ℚ) < den := Nat.cast_pos.mpr hd
    generalize he : lastPlace num den = e
    rw [lastPlace] at he
    have hE : (((e + 1074).toNat : ℕ) - 1074 : ℤ) = e := by omega
    -- The quotient in units of the last place.
    have hunits : ((num * Nat.pow 2 (-e).toNat : ℕ) : ℚ) / (den * Nat.pow 2 e.toNat : ℕ) =
        num / den * 2 ^ (-e) := by
      have h := mul_zpow_eq num (-e)
      rw [neg_neg] at h
      rw [div_mul_eq_mul_div, h, div_div, Nat.cast_mul den, mul_comm (den : ℚ)]
    have hscaled : (num / den : ℚ) = ((num * Nat.pow 2 (-e).toNat : ℕ) : ℚ) / (den * Nat.pow 2 e.toNat : ℕ) *
        2 ^ ((e + 1074).toNat - 1074 : ℤ) := by
      rw [hunits, hE, mul_assoc, ← zpow_add₀ two_ne_zero, neg_add_cancel, zpow_zero, mul_one]
    have hden : 0 < den * Nat.pow 2 e.toNat := Nat.mul_pos hd (Nat.two_pow_pos _)
    have hden' : (0 : ℚ) < (den * Nat.pow 2 e.toNat : ℕ) := Nat.cast_pos.mpr hden
    have hnearest := @nearestPlace_roundQuotient (e + 1074).toNat (num * Nat.pow 2 (-e).toNat)
      (den * Nat.pow 2 e.toNat) hden ?_ ?_
    · rw [← hscaled] at hnearest
      rw [nearestBits, if_neg hn.ne', lastPlace, he]
      exact hnearest
    · rcases Nat.eq_zero_or_pos (e + 1074).toNat with hzero | hpos
      · exact .inl hzero
      · refine .inr ((Nat.le_div_iff_mul_le hden).mpr ?_)
        have hq : (2 : ℚ) ^ (52 : ℤ) ≤ num / den * 2 ^ (-e) := by
          calc (2 : ℚ) ^ (52 : ℤ) = 2 ^ log2Quotient num den * 2 ^ (-e) := by
                rw [← zpow_add₀ two_ne_zero]
                congr 1
                omega
            _ ≤ num / den * 2 ^ (-e) := mul_le_mul_of_nonneg_right hlow (zpow_nonneg zero_le_two _)
        rw [← hunits, le_div_iff₀ hden'] at hq
        exact_mod_cast hq
    · refine (Nat.div_lt_iff_lt_mul hden).mpr ?_
      have hq : (num / den * 2 ^ (-e) : ℚ) < 2 ^ (53 : ℤ) := by
        calc (num / den * 2 ^ (-e) : ℚ) < 2 ^ (log2Quotient num den + 1) * 2 ^ (-e) :=
              mul_lt_mul_of_pos_right hhigh (zpow_pos two_pos _)
          _ = (2 : ℚ) ^ (log2Quotient num den + 1 - e) := by
            rw [← zpow_add₀ two_ne_zero, sub_eq_add_neg]
          _ ≤ 2 ^ (53 : ℤ) := zpow_le_zpow_right₀ one_le_two (by omega)
      rw [← hunits, div_lt_iff₀ hden'] at hq
      exact_mod_cast hq

end Formula.Binary64
