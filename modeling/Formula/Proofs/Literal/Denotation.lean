import Mathlib
import Formula.Proofs.Decimal.Nearest
import Formula.Proofs.Literal.Digits
import Formula.Proofs.Scanning.Literal

namespace Formula

inductive Digits : List Char → ℕ → Prop where
  | intro {ds : List Char} (h : ∀ c ∈ ds, c.isDigit) : Digits ds (Radix.decimal.natural ds)

inductive Mantissa : List Char → ℚ → Prop where
  | whole {ds : List Char} {n : ℕ} (h : Digits ds n) (hne : ds ≠ []) : Mantissa ds n
  | point {ds fs : List Char} {n m : ℕ} (h : Digits ds n) (hf : Digits fs m) (hne : ds ≠ [] ∨ fs ≠ []) :
    Mantissa (ds ++ '.' :: fs) (n + m / 10 ^ fs.length)

inductive Numeral : List Char → ℚ → Prop where
  | plain {s : List Char} {q : ℚ} (h : Mantissa s q) : Numeral s q
  | scaled {s ds : List Char} {q : ℚ} {n : ℕ} {marker : Char} {sign : Option Char} (h : Mantissa s q)
    (hm : marker = 'e' ∨ marker = 'E') (hs : sign = none ∨ sign = some '+' ∨ sign = some '-')
    (hd : Digits ds n) (hne : ds ≠ []) :
    Numeral (s ++ marker :: (sign.toList ++ ds)) (q * 10 ^ (if sign = some '-' then -n else n : ℤ))

namespace Literal

/-- Something stands behind the marker of a radix, nothing stands there but digits and separators, and
every separator stands between two digits of its part. -/
def Sound : Literal → Prop
  | based radix _ digits =>
    digits ≠ [] ∧ (∀ c ∈ digits, radix.isDigit c ∨ c = '_') ∧ radix.Separated digits
  | decimal whole fraction exponent =>
    Radix.decimal.Separated whole ∧ Radix.decimal.Separated (fraction.getD []) ∧
      Radix.decimal.Separated ((exponent.map Exponent.digits).getD [])

def Fits : Literal → Prop
  | based radix _ digits => radix.natural digits < 2 ^ 64
  | decimal _ _ _ => True

def Exponent.power (e : Exponent) : ℤ :=
  if e.sign = some '-' then -Radix.decimal.natural e.digits else Radix.decimal.natural e.digits

def number : Literal → ℚ
  | based radix _ digits => radix.natural digits
  | decimal whole fraction exponent =>
    (Radix.decimal.natural whole + Radix.decimal.natural (fraction.getD []) /
      10 ^ ((fraction.getD []).filter Char.isDigit).length) * 10 ^ (exponent.map Exponent.power).getD 0

def stripped (l : Literal) : List Char := l.text.filter (· != '_')

theorem toRat_toDecimal (whole : List Char) (fraction : Option (List Char)) (exponent : Option Exponent) :
    (toDecimal whole (fraction.getD []) exponent).toRat = (decimal whole fraction exponent).number := by
  have hpower : (exponent.map Exponent.value).getD 0 = (exponent.map Exponent.power).getD 0 := by
    rcases exponent with _ | e
    · rfl
    · simp only [Option.map_some, Option.getD_some, Exponent.value, Exponent.power, Radix.value_eq_natural]
  have hten : (10 : ℚ) ≠ 0 := by norm_num
  rw [toDecimal, Decimal.toRat, number, hpower, Radix.value_eq_natural, Radix.natural_append,
    Radix.length_decimal_digits, zpow_sub₀ hten, zpow_natCast]
  simp only [Radix.base, Nat.cast_add, Nat.cast_mul, Nat.cast_pow, Nat.cast_ofNat]
  field_simp

theorem value_based {radix : Radix} {marker : Char} {digits : List Char} :
    ((based radix marker digits).Sound ∧
      (based radix marker digits).value =
        if radix.natural digits < 2 ^ 64 then .ok (Binary64.ofNat (radix.natural digits))
        else .error .tooLarge) ∨
    (¬(based radix marker digits).Sound ∧
      ∃ flaw, flaw ≠ .tooLarge ∧ (based radix marker digits).value = .error flaw) := by
  simp only [value, Sound, Nat.pow_eq, Radix.value_eq_natural]
  by_cases hempty : digits = []
  · refine .inr ⟨fun h => h.1 hempty, .missingDigits, by decide, ?_⟩
    rw [if_pos (List.isEmpty_iff.mpr hempty)]
  rw [if_neg (by simpa using hempty)]
  by_cases hforeign : digits.any fun c => c != '_' && !radix.isDigit c
  · refine .inr ⟨fun h => ?_, .foreignDigit radix, by simp, if_pos hforeign⟩
    obtain ⟨c, hc, hbad⟩ := List.any_eq_true.mp hforeign
    rcases h.2.1 c hc with hd | rfl
    · simp [hd] at hbad
    · simp at hbad
  rw [if_neg hforeign]
  have hdigits : ∀ c ∈ digits, radix.isDigit c ∨ c = '_' := by
    intro c hc
    by_contra! hbad
    exact hforeign (List.any_eq_true.mpr ⟨c, hc, by simp [hbad]⟩)
  by_cases hsep : radix.wellSeparated digits
  · refine .inl ⟨⟨hempty, hdigits, Radix.wellSeparated_iff.mp hsep⟩, ?_⟩
    simp [hsep]
  · refine .inr ⟨fun h => hsep (Radix.wellSeparated_iff.mpr h.2.2), .misplacedSeparator, by decide, ?_⟩
    simp [hsep]

theorem value_decimal {whole : List Char} {fraction : Option (List Char)} {exponent : Option Exponent} :
    ((decimal whole fraction exponent).Sound ∧
      (decimal whole fraction exponent).value =
        .ok (toDecimal whole (fraction.getD []) exponent).toFloat) ∨
    (¬(decimal whole fraction exponent).Sound ∧
      (decimal whole fraction exponent).value = .error .misplacedSeparator) := by
  have hsound : (decimal whole fraction exponent).Sound ↔
      [whole, fraction.getD [], (exponent.map Exponent.digits).getD []].all Radix.decimal.wellSeparated := by
    simp [Sound, Radix.wellSeparated_iff]
  simp only [value]
  split
  · exact .inl ⟨hsound.mpr ‹_›, rfl⟩
  · exact .inr ⟨fun h => absurd (hsound.mp h) ‹_›, rfl⟩

theorem value_cases (l : Literal) :
    (l.Sound ∧ l.Fits ∧ ∃ x, l.value = .ok x ∧ Binary64.IsNearest l.number x) ∨
    (l.Sound ∧ ¬l.Fits ∧ l.value = .error .tooLarge) ∨
    (¬l.Sound ∧ ∃ flaw, flaw ≠ .tooLarge ∧ l.value = .error flaw) := by
  cases l with
  | based radix marker digits =>
    rcases @value_based radix marker digits with ⟨hsound, hvalue⟩ | hflawed
    · by_cases hfits : radix.natural digits < 2 ^ 64
      · rw [if_pos hfits] at hvalue
        refine .inl ⟨hsound, hfits, _, hvalue, ?_⟩
        have hnearest := @Binary64.nearestPlace_nearestBits (radix.natural digits) 1 Nat.one_pos
        rw [Nat.cast_one, div_one] at hnearest
        exact hnearest.isNearest (Nat.cast_nonneg _)
      · rw [if_neg hfits] at hvalue
        exact .inr (.inl ⟨hsound, hfits, hvalue⟩)
    · exact .inr (.inr hflawed)
  | decimal whole fraction exponent =>
    rcases @value_decimal whole fraction exponent with ⟨hsound, hvalue⟩ | ⟨hsound, hvalue⟩
    · refine .inl ⟨hsound, trivial, _, hvalue, ?_⟩
      rw [← toRat_toDecimal]
      exact Decimal.isNearest_toFloat _
    · exact .inr (.inr ⟨hsound, .misplacedSeparator, by decide, hvalue⟩)

theorem value_eq_ok_iff {l : Literal} {x : Float} :
    l.value = .ok x ↔ l.Sound ∧ l.Fits ∧ Binary64.IsNearest l.number x := by
  rcases l.value_cases with ⟨hsound, hfits, y, hy, hnearest⟩ | ⟨hsound, hfits, hflaw⟩ | ⟨hsound, flaw, -, hflaw⟩
  · rw [hy, Except.ok.injEq]
    constructor
    · rintro rfl
      exact ⟨hsound, hfits, hnearest⟩
    · rintro ⟨-, -, hx⟩
      exact hnearest.unique hx
  · rw [hflaw]
    exact ⟨nofun, fun h => absurd h.2.1 hfits⟩
  · rw [hflaw]
    exact ⟨nofun, fun h => absurd h.1 hsound⟩

theorem exists_value {l : Literal} (hsound : l.Sound) (hfits : l.Fits) :
    ∃ x, l.value = .ok x ∧ Binary64.IsNearest l.number x := by
  rcases l.value_cases with ⟨-, -, hvalue⟩ | ⟨-, hlarge, -⟩ | ⟨hflawed, -⟩
  · exact hvalue
  · exact absurd hfits hlarge
  · exact absurd hsound hflawed

theorem value_eq_tooLarge_iff {l : Literal} : l.value = .error .tooLarge ↔ l.Sound ∧ ¬l.Fits := by
  rcases l.value_cases with ⟨hsound, hfits, y, hy, -⟩ | ⟨hsound, hfits, hflaw⟩ | ⟨hsound, flaw, hne, hflaw⟩
  · rw [hy]
    exact ⟨nofun, fun h => absurd hfits h.2⟩
  · exact ⟨fun _ => ⟨hsound, hfits⟩, fun _ => hflaw⟩
  · rw [hflaw, Except.error.injEq]
    exact ⟨fun h => absurd h hne, fun h => absurd h.1 hsound⟩

theorem value_flawed_iff {l : Literal} : (∃ flaw, flaw ≠ .tooLarge ∧ l.value = .error flaw) ↔ ¬l.Sound := by
  rcases l.value_cases with ⟨hsound, -, y, hy, -⟩ | ⟨hsound, -, hflaw⟩ | ⟨hsound, hflaw⟩
  · simp [hy, hsound]
  · simp [hflaw, hsound]
  · exact ⟨fun _ => hsound, fun _ => hflaw⟩

end Literal

end Formula
