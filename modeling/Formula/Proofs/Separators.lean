import Formula.Proofs.LongestMatch

namespace Formula

namespace Radix

variable {r : Radix}

theorem continuesName_of_isDigit {c : Char} (h : r.isDigit c) : Text.continuesName c := by
  obtain ⟨d, hd⟩ := Option.isSome_iff_exists.mp h
  obtain ⟨hworth, -⟩ := Option.filter_eq_some_iff.mp hd
  have hletter (h : c.isAlpha) : Text.continuesName c := by simp [Text.continuesName, Char.isAlphanum, h]
  unfold worth? at hworth
  split at hworth
  · simp [Text.continuesName, Char.isAlphanum, ‹c.isDigit›]
  · apply hletter
    have hrange : 97 ≤ c.toNat ∧ c.toNat ≤ 102 ∨ 65 ≤ c.toNat ∧ c.toNat ≤ 70 := by
      split at hworth
      · rename_i hc
        simp only [Bool.and_eq_true, decide_eq_true_eq, Char.le_def, UInt32.le_iff_toNat_le] at hc
        exact .inl hc
      · split at hworth
        · rename_i hc
          simp only [Bool.and_eq_true, decide_eq_true_eq, Char.le_def, UInt32.le_iff_toNat_le] at hc
          exact .inr hc
        · cases hworth
    simp only [Char.isAlpha, Char.isUpper, Char.isLower, Bool.or_eq_true, Bool.and_eq_true,
      decide_eq_true_eq, UInt32.le_iff_toNat_le]
    change (65 ≤ c.toNat ∧ c.toNat ≤ 90) ∨ 97 ≤ c.toNat ∧ c.toNat ≤ 122
    omega

end Radix

theorem takeWhile_run {p : Char → Bool} {run tail : List Char} (hrun : ∀ c ∈ run, p c)
    (htail : ∀ c ∈ tail.head?, p c = false) :
    (run ++ tail).takeWhile p = run ∧ (run ++ tail).dropWhile p = tail := by
  rw [List.takeWhile_append_of_pos hrun, List.dropWhile_append_of_pos hrun]
  rcases tail with _ | ⟨c, rest⟩
  · exact ⟨List.append_nil run, rfl⟩
  · have hc : ¬p c := by simp [htail c rfl]
    rw [List.takeWhile_cons_of_neg hc, List.dropWhile_cons_of_neg hc, List.append_nil]
    exact ⟨rfl, rfl⟩

namespace Literal

structure Exponent.Spelled (e : Exponent) : Prop where
  marker : e.marker = 'e' ∨ e.marker = 'E'
  sign : ∀ c, e.sign = some c → c = '+' ∨ c = '-'
  digits : ∀ c ∈ e.digits, inRun c
  hasDigit : ∃ d ∈ e.digits, d.isDigit

def Spelled : Literal → Prop
  | based radix marker digits =>
    radixOfMarker? marker = some radix ∧ (∀ c ∈ digits, radix.isDigit c ∨ c = '_') ∧
      ∃ d ∈ digits, radix.isDigit d
  | decimal whole fraction exponent =>
    beginsAt (decimal whole fraction exponent).text ∧ (∀ c ∈ whole, inRun c) ∧
      (∀ f, fraction = some f → ∀ c ∈ f, inRun c) ∧ ∀ e, exponent = some e → e.Spelled

def radix : Literal → Radix
  | based radix _ _ => radix
  | decimal _ _ _ => .decimal

/-- An exponent without a sign begins with a separator, and all before its marker is sound. -/
def Splits : Literal → Prop
  | decimal whole fraction (some e) =>
    e.sign = none ∧ e.digits.head? = some '_' ∧ (decimal whole fraction none).Sound
  | _ => False

theorem ne_separator_of_marker {c : Char} {r : Radix} (h : radixOfMarker? c = some r) : c ≠ '_' := by
  rcases radixOfMarker?_eq_some_iff.mp h with ⟨rfl | rfl, -⟩ | ⟨rfl | rfl, -⟩ <;> decide

theorem Exponent.Spelled.separated {e : Exponent} {r : Radix} (h : e.Spelled) (hd : r.Separated e.digits) :
    r.Separated e.text := by
  have hfront : '_' ∉ e.marker :: e.sign.toList := by
    rw [List.mem_cons, Option.mem_toList]
    rintro (hm | hs)
    · rcases h.marker with he | he <;> cases hm.trans he
    · rcases h.sign _ hs with hc | hc <;> cases hc
  exact (Radix.separated_of_notMem hfront).append hd

theorem Spelled.separated {l : Literal} (h : l.Spelled) (hs : l.Sound) : l.radix.Separated l.text := by
  cases l with
  | based radix marker digits =>
    have hfront : '_' ∉ ['0', marker] := by
      have hm := ne_separator_of_marker h.1
      simp [Ne.symm hm]
    exact (Radix.separated_of_notMem hfront).append hs.2.2
  | decimal whole fraction exponent =>
    obtain ⟨-, -, -, hexponent⟩ := h
    obtain ⟨hw, hf, hd⟩ := hs
    have htail : Radix.decimal.Separated ((exponent.map Exponent.text).getD []) := by
      rcases exponent with _ | e
      · exact Radix.separated_of_notMem nofun
      · exact (hexponent e rfl).separated hd
    rcases fraction with _ | f
    · rw [text_none_eq]
      exact hw.append htail
    · have hpoint : Radix.decimal.Separated ['.'] := Radix.separated_of_notMem (by decide)
      rw [text_some_eq]
      exact hw.append (hpoint.append (hf.append htail))

def Exponent.beginsWithDigit (e : Exponent) : Bool := e.digits.head?.any Char.isDigit

theorem Exponent.Spelled.scanExponent_text {e : Exponent} (h : e.Spelled) :
    scanExponent e.text = if e.beginsWithDigit then some e else none := by
  obtain ⟨marker, sign, digits⟩ := e
  obtain ⟨hmarker, hsign, hdigits, d, hd, -⟩ := h
  have hmarked : (decide (marker = 'e') || decide (marker = 'E')) = true := by simpa using hmarker
  have hsplit : splitSign (sign.toList ++ digits) = (sign, digits) := by
    rcases sign with _ | c
    · rcases digits with _ | ⟨c, digits⟩
      · rfl
      · refine if_neg fun hc => ?_
        have hrun := hdigits c List.mem_cons_self
        rcases (Bool.or_eq_true _ _).mp hc with hc | hc <;> cases of_decide_eq_true hc <;> cases hrun
    · exact if_pos (by simpa using hsign c rfl)
  change scanExponent (marker :: (sign.toList ++ digits)) = _
  have hrun : digits.takeWhile inRun = digits := List.takeWhile_eq_self_iff.mpr hdigits
  rw [scanExponent_cons, hsplit, exponentOf, hmarked, Bool.true_and, hrun]
  rfl

theorem exponent_head {exponent : Option Exponent} (h : ∀ e, exponent = some e → e.Spelled) :
    ∀ c ∈ ((exponent.map Exponent.text).getD []).head?, c = 'e' ∨ c = 'E' := by
  rcases exponent with _ | e
  · exact nofun
  · rintro c ⟨⟩
    exact (h e rfl).marker

theorem scanDecimal_spelled {whole : List Char} {fraction : Option (List Char)} {exponent : Option Exponent}
    (h : (decimal whole fraction exponent).Spelled) :
    scanDecimal (decimal whole fraction exponent).text =
      decimal whole fraction (exponent.filter Exponent.beginsWithDigit) := by
  obtain ⟨-, hwhole, hfraction, hexponent⟩ := h
  have hhead := exponent_head hexponent
  have htail : ∀ c ∈ ((exponent.map Exponent.text).getD []).head?, inRun c = false := by
    intro c hc
    rcases hhead c hc with rfl | rfl <;> rfl
  have htaken : scanExponent ((exponent.map Exponent.text).getD []) =
      exponent.filter Exponent.beginsWithDigit := by
    rcases exponent with _ | e
    · rfl
    · rw [Option.filter_some]
      exact (hexponent e rfl).scanExponent_text
  rw [scanDecimal_eq]
  rcases fraction with _ | f
  · obtain ⟨htake, hdrop⟩ := takeWhile_run hwhole htail
    rw [text_none_eq, htake, hdrop, decimalFrom_of_ne, htaken]
    intro hpoint
    rcases hhead '.' hpoint with hc | hc <;> cases hc
  · obtain ⟨htake, hdrop⟩ := @takeWhile_run inRun whole
      ('.' :: (f ++ (exponent.map Exponent.text).getD [])) hwhole (by rintro c ⟨⟩; rfl)
    obtain ⟨htakef, hdropf⟩ := takeWhile_run (hfraction f rfl) htail
    rw [text_some_eq, htake, hdrop, decimalFrom, if_pos rfl, htakef, hdropf, htaken]

theorem text_eq_mantissa (whole : List Char) (fraction : Option (List Char)) (exponent : Option Exponent) :
    (decimal whole fraction exponent).text =
      (decimal whole fraction none).text ++ (exponent.map Exponent.text).getD [] := by
  cases exponent <;> simp [text]

theorem radixAt?_of_spelled {whole rest : List Char} {fraction : Option (List Char)}
    {exponent : Option Exponent} {c : Char} (h : (decimal whole fraction exponent).Spelled)
    (ht : (decimal whole fraction exponent).text = c :: rest) : radixAt? c rest = none := by
  rcases hr : radixAt? c rest with _ | radix
  · rfl
  · obtain ⟨rfl, marker, more, rfl, hmarker⟩ := radixAt?_eq_some hr
    obtain ⟨hbegins, hwhole, hfraction, hexponent⟩ := h
    have hhead := exponent_head hexponent
    -- The character behind the zero would be the marker of a radix, which no part of a decimal holds.
    have hnone : ¬(inRun marker ∨ marker ∈ ['.', 'e', 'E', '+', '-']) := by
      rcases radixOfMarker?_eq_some_iff.mp hmarker with ⟨rfl | rfl, -⟩ | ⟨rfl | rfl, -⟩ <;> decide
    rw [text_eq_mantissa] at ht hbegins
    rcases hm : (decimal whole fraction none).text with _ | ⟨d, _ | ⟨m, ts⟩⟩
    · rw [hm, List.nil_append] at ht
      rcases hhead '0' (by rw [ht]; rfl) with hc | hc <;> cases hc
    · rw [hm] at ht
      have htail : (exponent.map Exponent.text).getD [] = marker :: more := (List.cons.inj ht).2
      rcases hhead marker (by rw [htail]; rfl) with rfl | rfl <;> exact absurd (by decide) hnone
    · rw [hm] at ht
      obtain rfl : m = marker := (List.cons.inj (List.cons.inj ht).2).1
      have hmantissa : (decimal whole fraction none).Scanned := ⟨hwhole, hfraction, nofun⟩
      exact absurd (mem_text_decimal hmantissa (by rw [hm]; simp)) hnone

def taken : Literal → Literal
  | based radix marker digits => .based radix marker digits
  | decimal whole fraction exponent => .decimal whole fraction (exponent.filter Exponent.beginsWithDigit)

theorem Spelled.beginsAt_text {l : Literal} (h : l.Spelled) : beginsAt l.text := by
  cases l with
  | based radix marker digits => rfl
  | decimal whole fraction exponent => exact h.1

theorem Spelled.scan_text {l : Literal} (h : l.Spelled) : scan l.text = l.taken := by
  cases l with
  | based radix marker digits =>
    obtain ⟨hmarker, hdigits, -⟩ := h
    have hrun : ∀ c ∈ digits, Text.continuesName c := by
      intro c hc
      rcases hdigits c hc with hd | rfl
      · exact Radix.continuesName_of_isDigit hd
      · rfl
    exact scan_eq_based_iff.mpr ⟨digits, rfl, hmarker, (List.takeWhile_eq_self_iff.mpr hrun).symm⟩
  | decimal whole fraction exponent =>
    have hbegins := h.beginsAt_text
    rcases ht : (decimal whole fraction exponent).text with _ | ⟨c, rest⟩
    · rw [ht] at hbegins
      cases hbegins
    · rw [scan_of_none (radixAt?_of_spelled h ht), ← ht, scanDecimal_spelled h, taken]

theorem exists_fault_of_scan {s : List Char} (h : beginsAt s) (hs : ¬(scan s).Sound) :
    ∃ f, .error f ∈ Item.scan s := by
  rcases s with _ | ⟨c, rest⟩
  · cases h
  · have hread := readAt_scan h 0
    obtain ⟨vs, hvs⟩ := hread.begins
    obtain ⟨flaw, -, hflaw⟩ := hread.flawed_iff.mpr hs
    have hitems := hread.items vs hvs.symm
    rw [hflaw] at hitems
    exact ⟨_, hitems ▸ List.mem_cons_self⟩

theorem exists_number_of_scan {s vs : List Char} {l : Literal} (h : beginsAt s) (hl : scan s = l)
    (hsound : l.Sound) (hfits : l.Fits) (hvs : s = l.text ++ vs) :
    ∃ x, Item.scan s = .ok ⟨.number x, l.text, 0⟩ :: Item.scanFrom (Text.width l.text) 0 vs := by
  rcases s with _ | ⟨c, rest⟩
  · cases h
  · have hread := readAt_scan h 0
    rw [hl] at hread
    obtain ⟨x, hx⟩ := hread.exists_number hsound hfits
    have hitems := hread.items vs hvs
    rw [hx, Nat.zero_add] at hitems
    exact ⟨x, hitems⟩

theorem Exponent.Spelled.head_eq {e : Exponent} (h : e.Spelled) (hd : ¬e.beginsWithDigit) :
    ∃ ds, e.digits = '_' :: ds := by
  rcases hdigits : e.digits with _ | ⟨c, ds⟩
  · obtain ⟨d, hmem, -⟩ := h.hasDigit
    rw [hdigits] at hmem
    cases hmem
  · have hrun := h.digits c (by rw [hdigits]; exact List.mem_cons_self)
    rcases (Bool.or_eq_true _ _).mp hrun with hdigit | hline
    · rw [beginsWithDigit, hdigits] at hd
      exact absurd hdigit hd
    · exact ⟨ds, by rw [eq_of_beq hline]⟩

theorem continuesName_of_inRun {c : Char} (h : inRun c) : Text.continuesName c := by
  rcases (Bool.or_eq_true _ _).mp h with hdigit | hline
  · simp [Text.continuesName, Char.isAlphanum, hdigit]
  · simp [Text.continuesName, hline]

theorem Exponent.Spelled.items_unsigned {e : Exponent} (h : e.Spelled) (hs : e.sign = none) (offset : Nat) :
    Item.scanFrom offset 0 e.text = [.ok ⟨.name, e.text, offset⟩] := by
  have htext : e.text = e.marker :: e.digits := by rw [text, hs]; rfl
  have halpha : e.marker.isAlpha ∧ ¬Text.isBlank e.marker := by
    rcases h.marker with hm | hm <;> rw [hm] <;> decide
  have hrun : e.digits.takeWhile Text.continuesName = e.digits :=
    List.takeWhile_eq_self_iff.mpr fun c hc => continuesName_of_inRun (h.digits c hc)
  have hscan : Lexeme.scan e.marker e.digits = .token .name e.text := by
    rw [Lexeme.scan_of_isAlpha halpha.1, hrun, htext]
  have hitems := @Item.scanFrom_lexeme e.marker e.digits [] halpha.2
    (by rw [hscan, Lexeme.slice, List.append_nil, htext]) offset
  rw [hscan] at hitems
  rw [htext]
  rw [htext] at hitems
  exact hitems

theorem Exponent.Spelled.items_signed {e : Exponent} {c : Char} {ds : List Char} (h : e.Spelled)
    (hs : e.sign = some c) (hd : e.digits = '_' :: ds) (offset : Nat) :
    ∃ f, .error f ∈ Item.scanFrom offset 0 e.text := by
  have htext : e.text = e.marker :: c :: '_' :: ds := by rw [text, hs, hd]; rfl
  refine ⟨.strayCharacter '_' ⟨offset + 1 + 1, 1⟩, ?_⟩
  rw [htext]
  rcases h.marker with hm | hm <;> rcases h.sign c hs with rfl | rfl <;> rw [hm] <;>
    exact .tail _ (.tail _ (.head _))

theorem taken_some {whole : List Char} {fraction : Option (List Char)} {e : Exponent} :
    (decimal whole fraction (some e)).taken =
      .decimal whole fraction (if e.beginsWithDigit then some e else none) := by
  rw [taken, Option.filter_some]

theorem Splits.exists_items {l : Literal} (h : l.Splits) (hl : l.Spelled) :
    ∃ whole fraction e x, l = .decimal whole fraction (some e) ∧
      Item.scan l.text = [.ok ⟨.number x, (decimal whole fraction none).text, 0⟩,
        .ok ⟨.name, e.text, Text.width (decimal whole fraction none).text⟩] := by
  rcases l with _ | ⟨whole, fraction, _ | e⟩
  · cases h
  · cases h
  · obtain ⟨hsign, hhead, hsound⟩ := h
    have hd : ¬e.beginsWithDigit := by
      rw [Exponent.beginsWithDigit, hhead]
      decide
    have hscan := hl.scan_text
    rw [taken_some, if_neg hd] at hscan
    obtain ⟨x, hx⟩ := exists_number_of_scan hl.beginsAt_text hscan hsound trivial
      (text_eq_mantissa whole fraction (some e))
    exact ⟨whole, fraction, e, x, rfl, hx.trans (congrArg _ ((hl.2.2.2 e rfl).items_unsigned hsign _))⟩

theorem Spelled.exists_fault {l : Literal} (hl : l.Spelled) (hunsound : ¬l.Sound) (h : ¬l.Splits) :
    ∃ f, .error f ∈ Item.scan l.text := by
  by_cases htaken : l.taken.Sound
  · rcases l with _ | ⟨whole, fraction, _ | e⟩
    · exact absurd htaken hunsound
    · exact absurd htaken hunsound
    · have he : e.Spelled := hl.2.2.2 e rfl
      have hscan := hl.scan_text
      rw [taken_some] at htaken hscan
      by_cases hd : e.beginsWithDigit
      · rw [if_pos hd] at htaken
        exact absurd htaken hunsound
      · rw [if_neg hd] at htaken hscan
        obtain ⟨ds, hds⟩ := he.head_eq hd
        -- a sign has to stand before the separator, or the literal would split
        rcases hsign : e.sign with _ | c
        · exact absurd ⟨hsign, by rw [hds]; rfl, htaken⟩ h
        · obtain ⟨x, hx⟩ := exists_number_of_scan hl.beginsAt_text hscan htaken trivial
            (text_eq_mantissa whole fraction (some e))
          obtain ⟨f, hf⟩ := he.items_signed hsign hds (Text.width (decimal whole fraction none).text)
          exact ⟨f, hx ▸ List.mem_cons_of_mem _ hf⟩
  · exact exists_fault_of_scan hl.beginsAt_text (by rwa [hl.scan_text])

end Literal

open Literal

theorem misplaced_separator_found {l : Literal} {text : String} (ht : text.toList = l.text)
    (hl : l.Spelled) (hm : ¬l.radix.Separated l.text) :
    ((∃ f, .error f ∈ tokenize text) ↔ ¬l.Splits) ∧
    (l.Splits → ∃ whole fraction e x, l = .decimal whole fraction (some e) ∧
      tokenize text = [.ok ⟨.number x, (decimal whole fraction none).text, 0⟩,
        .ok ⟨.name, e.text, Text.width (decimal whole fraction none).text⟩]) := by
  have htokens : tokenize text = Item.scan l.text := congrArg Item.scan ht
  rw [htokens]
  refine ⟨⟨?_, hl.exists_fault fun hs => hm (hl.separated hs)⟩, fun h => h.exists_items hl⟩
  rintro ⟨f, hf⟩ h
  obtain ⟨whole, fraction, e, x, -, hitems⟩ := h.exists_items hl
  rw [hitems] at hf
  simp at hf

theorem misplaced_separator_found_behind_sign :
    ∃ l : Literal, "2.5e-_2".toList = l.text ∧ l.Spelled ∧ ¬l.radix.Separated l.text ∧
      ∃ f, .error f ∈ tokenize "2.5e-_2" := by
  have hl : (decimal ['2'] (some ['5']) (some ⟨'e', some '-', ['_', '2']⟩)).Spelled := by
    refine ⟨rfl, by simp [inRun], by rintro f ⟨⟩; simp [inRun], ?_⟩
    rintro e ⟨⟩
    exact ⟨.inl rfl, by rintro c ⟨⟩; exact .inr rfl, by simp [inRun], ⟨'2', by simp, rfl⟩⟩
  have hm : ¬Radix.decimal.Separated ['2', '.', '5', 'e', '-', '_', '2'] := by
    rw [← Radix.wellSeparated_iff]
    decide
  have hsplit : ¬(decimal ['2'] (some ['5']) (some ⟨'e', some '-', ['_', '2']⟩)).Splits := by
    rintro ⟨hsign, -⟩
    cases hsign
  exact ⟨_, rfl, hl, hm, (misplaced_separator_found rfl hl hm).1.mpr hsplit⟩

theorem separator_behind_marker_not_found :
    ∃ l : Literal, "1e_5".toList = l.text ∧ l.Spelled ∧ ¬l.radix.Separated l.text ∧
      ¬∃ f, .error f ∈ tokenize "1e_5" := by
  have hl : (decimal ['1'] none (some ⟨'e', none, ['_', '5']⟩)).Spelled := by
    refine ⟨rfl, by simp [inRun], by rintro f ⟨⟩, ?_⟩
    rintro e ⟨⟩
    exact ⟨.inl rfl, by rintro c ⟨⟩, by simp [inRun], ⟨'5', by simp, rfl⟩⟩
  have hm : ¬Radix.decimal.Separated ['1', 'e', '_', '5'] := by
    rw [← Radix.wellSeparated_iff]
    decide
  have hitems : tokenize "1e_5" =
      [.ok ⟨.number (toDecimal ['1'] [] none).toFloat, ['1'], 0⟩, .ok ⟨.name, ['e', '_', '5'], 1⟩] := rfl
  refine ⟨_, rfl, hl, hm, ?_⟩
  rw [hitems]
  rintro ⟨f, hf⟩
  simp at hf

end Formula
