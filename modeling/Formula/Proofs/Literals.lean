import Formula.Proofs.Literal.Denotation
import Formula.Proofs.Scanning.Longest

namespace Formula

namespace Literal

theorem filter_of_inRun {run : List Char} (h : ∀ c ∈ run, inRun c) :
    run.filter (· != '_') = run.filter Char.isDigit := by
  apply List.filter_congr
  intro c hc
  by_cases hsep : c = '_'
  · rw [hsep]
    rfl
  · have hrun := h c hc
    simp only [inRun, beq_eq_false_iff_ne.mpr hsep, Bool.or_false] at hrun
    simp [hsep, hrun]

theorem digits_filter (run : List Char) :
    Digits (run.filter Char.isDigit) (Radix.decimal.natural run) := by
  have hsame : run.filter Char.isDigit = run.filter Radix.decimal.isDigit :=
    List.filter_congr fun c _ => (Radix.decimal_isDigit c).symm
  have hnatural : Radix.decimal.natural (run.filter Char.isDigit) = Radix.decimal.natural run := by
    rw [hsame, Radix.natural_filter_isDigit]
  rw [← hnatural]
  exact .intro fun c hc => (List.mem_filter.mp hc).2

theorem filter_ne_nil {run : List Char} {d : Char} (hd : d ∈ run) (h : d.isDigit) :
    run.filter Char.isDigit ≠ [] :=
  List.ne_nil_of_mem (List.mem_filter.mpr ⟨hd, h⟩)

theorem mantissa_stripped {whole : List Char} {fraction : Option (List Char)}
    (h : (decimal whole fraction none).Scanned) (hd : ∃ d ∈ whole ++ fraction.getD [], d.isDigit) :
    Mantissa (decimal whole fraction none).stripped (decimal whole fraction none).number := by
  obtain ⟨hwhole, hfraction, -⟩ := h
  obtain ⟨d, hmem, hd⟩ := hd
  rw [number, stripped]
  simp only [Option.map_none, Option.getD_none, zpow_zero, mul_one]
  rcases fraction with _ | f
  · rw [Option.getD_none, List.append_nil] at hmem
    have hzero : Radix.decimal.natural [] = 0 := rfl
    have htext : (decimal whole none none).text.filter (· != '_') = whole.filter Char.isDigit := by
      simp [text, filter_of_inRun hwhole]
    rw [htext, Option.getD_none, hzero, Nat.cast_zero, zero_div, add_zero]
    exact .whole (digits_filter whole) (filter_ne_nil hmem hd)
  · rw [Option.getD_some] at hmem ⊢
    have htext : (decimal whole (some f) none).text.filter (· != '_') =
        whole.filter Char.isDigit ++ '.' :: f.filter Char.isDigit := by
      simp [text, filter_of_inRun hwhole, filter_of_inRun (hfraction f rfl)]
    rw [htext]
    refine .point (digits_filter whole) (digits_filter f) ?_
    rcases List.mem_append.mp hmem with hmem | hmem
    · exact .inl (filter_ne_nil hmem hd)
    · exact .inr (filter_ne_nil hmem hd)

theorem numeral_stripped {whole : List Char} {fraction : Option (List Char)} {exponent : Option Exponent}
    (h : (decimal whole fraction exponent).Scanned) (hd : ∃ d ∈ whole ++ fraction.getD [], d.isDigit) :
    Numeral (decimal whole fraction exponent).stripped (decimal whole fraction exponent).number := by
  obtain ⟨hwhole, hfraction, hexponent⟩ := h
  have hmantissa := mantissa_stripped ⟨hwhole, hfraction, nofun⟩ hd
  rcases exponent with _ | e
  · exact .plain hmantissa
  · obtain ⟨hmarker, hsign, d, ds, hdigits, hdigit, hds⟩ := hexponent e rfl
    have hrun : ∀ c ∈ e.digits, inRun c := by
      rw [hdigits]
      exact List.forall_mem_cons.mpr ⟨inRun_of_isDigit hdigit, hds⟩
    have hmarked : (e.marker != '_') = true := by
      rcases hmarker with hm | hm <;> rw [hm] <;> rfl
    have hsigned : e.sign = none ∨ e.sign = some '+' ∨ e.sign = some '-' := by
      rcases hs : e.sign with _ | c
      · exact .inl rfl
      · rcases hsign c hs with rfl | rfl
        · exact .inr (.inl rfl)
        · exact .inr (.inr rfl)
    have hkept : e.sign.toList.filter (· != '_') = e.sign.toList := by
      rcases hsigned with hs | hs | hs <;> rw [hs] <;> rfl
    have htext : (decimal whole fraction (some e)).stripped = (decimal whole fraction none).stripped ++
        e.marker :: (e.sign.toList ++ e.digits.filter Char.isDigit) := by
      simp [stripped, text, Exponent.text, hmarked, hkept, filter_of_inRun hrun]
    have hnumber : (decimal whole fraction (some e)).number =
        (decimal whole fraction none).number * 10 ^ e.power := by
      simp [number]
    have hmem : d ∈ e.digits := by
      rw [hdigits]
      exact List.mem_cons_self
    rw [htext, hnumber]
    exact .scaled hmantissa hmarker hsigned (digits_filter e.digits) (filter_ne_nil hmem hdigit)

theorem exists_decimalFrom (whole s : List Char) :
    ∃ fraction exponent, decimalFrom whole s = decimal whole fraction exponent := by
  rcases s with _ | ⟨c, rest⟩
  · exact ⟨none, none, rfl⟩
  · rw [decimalFrom]
    split
    · exact ⟨_, _, rfl⟩
    · exact ⟨_, _, rfl⟩

theorem exists_digit_of_scan {c : Char} {rest whole : List Char} {fraction : Option (List Char)}
    {exponent : Option Exponent} (h : beginsAt (c :: rest))
    (hs : scan (c :: rest) = decimal whole fraction exponent) :
    ∃ d ∈ whole ++ fraction.getD [], d.isDigit := by
  have hnone : radixAt? c rest = none := by
    rcases hr : radixAt? c rest with _ | radix
    · rfl
    · rcases rest with _ | ⟨marker, more⟩
      · simp [radixAt?] at hr
      · rw [scan_of_radix hr] at hs
        cases hs
  rw [scan_of_none hnone, scanDecimal_eq] at hs
  simp only [beginsAt, Bool.or_eq_true, Bool.and_eq_true, beq_iff_eq] at h
  rcases h with hdigit | ⟨rfl, hdigit⟩
  · rw [List.takeWhile_cons_of_pos (inRun_of_isDigit hdigit)] at hs
    obtain ⟨f, e, hfrom⟩ := exists_decimalFrom (c :: rest.takeWhile inRun) ((c :: rest).dropWhile inRun)
    cases hfrom.symm.trans hs
    exact ⟨c, List.mem_cons_self, hdigit⟩
  · obtain ⟨d, ds, rfl⟩ := exists_cons_of_head? hdigit
    have hrun : inRun d := inRun_of_isDigit hdigit
    rw [List.dropWhile_cons_of_neg (by decide), decimalFrom, if_pos rfl,
      List.takeWhile_cons_of_pos hrun] at hs
    cases hs
    refine ⟨d, ?_, hdigit⟩
    simp

theorem scan_eq_based_iff {s digits : List Char} {radix : Radix} {marker : Char} :
    scan s = based radix marker digits ↔ ∃ more, s = '0' :: marker :: more ∧
      radixOfMarker? marker = some radix ∧ digits = more.takeWhile Text.continuesName := by
  constructor
  · intro h
    rcases s with _ | ⟨c, rest⟩
    · cases h
    rcases hr : radixAt? c rest with _ | found
    · rw [scan_of_none hr, scanDecimal_eq] at h
      obtain ⟨f, e, hfrom⟩ := exists_decimalFrom ((c :: rest).takeWhile inRun) ((c :: rest).dropWhile inRun)
      cases hfrom.symm.trans h
    · obtain ⟨rfl, m, more, rfl, hmarker⟩ := radixAt?_eq_some hr
      rw [scan_of_radix hr] at h
      cases h
      exact ⟨more, rfl, hmarker, rfl⟩
  · rintro ⟨more, rfl, hmarker, rfl⟩
    exact scan_of_radix hmarker

theorem locate_eq_ok_iff (l : Literal) (offset : ℕ) {x : Float} :
    (Lexeme.ofLiteral l).locate offset = .ok ⟨.number x, l.text, offset⟩ ↔ l.value = .ok x := by
  cases hv : l.value <;> simp [Lexeme.ofLiteral, Lexeme.locate, hv]

theorem locate_eq_error_iff (l : Literal) (offset : ℕ) {flaw : Flaw} :
    (Lexeme.ofLiteral l).locate offset =
      .error (.flawedLiteral flaw l.text ⟨offset, Text.width l.text⟩) ↔ l.value = .error flaw := by
  cases hv : l.value <;> simp [Lexeme.ofLiteral, Lexeme.locate, hv]

structure ReadAt (offset : ℕ) (s : List Char) (l : Literal) (item : Item) : Prop where
  begins : l.text <+: s
  scanned : l.Scanned
  longest : ∀ l' : Literal, l'.Scanned → l'.text <+: s → l'.text.length ≤ l.text.length
  based_iff : ∀ radix marker digits, l = .based radix marker digits ↔
    ∃ more, s = '0' :: marker :: more ∧
      ((marker = 'x' ∨ marker = 'X') ∧ radix = .hexadecimal ∨
        (marker = 'b' ∨ marker = 'B') ∧ radix = .binary) ∧
      digits = more.takeWhile Text.continuesName
  items : ∀ vs, s = l.text ++ vs →
    Item.scanFrom offset 0 s = item :: Item.scanFrom (offset + Text.width l.text) 0 vs
  exists_number : l.Sound → l.Fits → ∃ x, item = .ok ⟨.number x, l.text, offset⟩
  number_iff : ∀ x, item = .ok ⟨.number x, l.text, offset⟩ ↔
    l.Sound ∧ l.Fits ∧ Binary64.IsNearest l.number x
  tooLarge_iff : item = .error (.flawedLiteral .tooLarge l.text ⟨offset, Text.width l.text⟩) ↔
    l.Sound ∧ ¬l.Fits
  flawed_iff : (∃ flaw, flaw ≠ .tooLarge ∧
    item = .error (.flawedLiteral flaw l.text ⟨offset, Text.width l.text⟩)) ↔ ¬l.Sound
  numeral : ∀ whole fraction exponent, l = .decimal whole fraction exponent → Numeral l.stripped l.number

theorem readAt_scan {c : Char} {rest : List Char} (h : beginsAt (c :: rest)) (offset : ℕ) :
    ReadAt offset (c :: rest) (scan (c :: rest))
      ((Lexeme.ofLiteral (scan (c :: rest))).locate offset) where
  begins := (scan_scanned _).1
  scanned := (scan_scanned _).2
  longest _ hl hp := scan_longest hl hp
  based_iff radix marker digits := by
    simp only [scan_eq_based_iff, radixOfMarker?_eq_some_iff]
  items vs hs := by
    have hscan : Lexeme.scan c rest = Lexeme.ofLiteral (scan (c :: rest)) := if_pos h
    have hblank : ¬Text.isBlank c := by
      intro hc
      have hends := Text.endsLexeme_of_isBlank hc
      simp [beginsAt, Text.isDigit_of_endsLexeme hends, Text.ne_of_endsLexeme hends (d := '.') rfl] at h
    rw [← Lexeme.slice_ofLiteral, ← hscan] at hs
    rw [Item.scanFrom_lexeme hblank hs, hscan, Lexeme.slice_ofLiteral]
  exists_number hsound hfits := by
    obtain ⟨x, hx, -⟩ := exists_value hsound hfits
    exact ⟨x, (locate_eq_ok_iff _ offset).mpr hx⟩
  number_iff x := by
    rw [locate_eq_ok_iff, value_eq_ok_iff]
  tooLarge_iff := by
    rw [locate_eq_error_iff, value_eq_tooLarge_iff]
  flawed_iff := by
    simp only [locate_eq_error_iff]
    exact value_flawed_iff
  numeral whole fraction exponent hl := by
    have hscanned := (scan_scanned (c :: rest)).2
    rw [hl] at hscanned ⊢
    exact numeral_stripped hscanned (exists_digit_of_scan h hl)

end Literal

end Formula
