import Formula.Proofs.Scanning.Extent

namespace Formula

theorem run_bounded {p : Char → Bool} {run tail s : List Char} (hrun : ∀ c ∈ run, p c)
    (htail : ∀ c ∈ tail.head?, p c = false) (h : run ++ tail <+: s) :
    run.length ≤ (s.takeWhile p).length ∧
      (tail ≠ [] → run = s.takeWhile p ∧ tail <+: s.dropWhile p) := by
  induction run generalizing s with
  | nil =>
    refine ⟨Nat.zero_le _, fun hne => ?_⟩
    obtain ⟨c, rest, rfl⟩ := List.exists_cons_of_ne_nil hne
    obtain ⟨vs, rfl⟩ := h
    have hc : ¬p c := by simp [htail c rfl]
    rw [List.nil_append, List.cons_append, List.takeWhile_cons_of_neg hc, List.dropWhile_cons_of_neg hc]
    exact ⟨rfl, vs, rfl⟩
  | cons c run ih =>
    obtain ⟨hc, hrun⟩ := List.forall_mem_cons.mp hrun
    obtain ⟨vs, rfl⟩ := h
    obtain ⟨hlength, hexact⟩ := ih hrun (List.prefix_append _ vs)
    simp only [List.cons_append, List.takeWhile_cons_of_pos hc, List.dropWhile_cons_of_pos hc,
      List.length_cons]
    refine ⟨Nat.succ_le_succ hlength, fun hne => ?_⟩
    obtain ⟨htake, hdrop⟩ := hexact hne
    exact ⟨congrArg (c :: ·) htake, hdrop⟩

namespace Literal

theorem length_le_of_run {run s : List Char} (hrun : ∀ c ∈ run, inRun c) (h : run <+: s) :
    run.length ≤ (s.takeWhile inRun).length := by
  rw [← List.append_nil run] at h
  have htail : ∀ c ∈ ([] : List Char).head?, inRun c = false := by simp
  exact (run_bounded hrun htail h).1

theorem splitSign_of_isDigit {d : Char} {s : List Char} (hd : d.isDigit) :
    splitSign (d :: s) = (none, d :: s) := by
  refine if_neg fun h => ?_
  rcases (Bool.or_eq_true _ _).mp h with hc | hc <;> cases of_decide_eq_true hc <;> cases hd

theorem Exponent.Scanned.scanExponent_length {e : Exponent} {s : List Char} (he : e.Scanned)
    (h : e.text <+: s) : e.text.length ≤ ((scanExponent s).map (·.text.length)).getD 0 := by
  obtain ⟨marker, sign, digits⟩ := e
  obtain ⟨hmarker, hsign, d, ds, rfl, hd, hds⟩ := he
  obtain ⟨vs, rfl⟩ := h
  have hrun : ∀ c ∈ d :: ds, inRun c := List.forall_mem_cons.mpr ⟨inRun_of_isDigit hd, hds⟩
  have hmarked : (decide (marker = 'e') || decide (marker = 'E')) = true := by simpa using hmarker
  have hsplit : splitSign (sign.toList ++ d :: ds ++ vs) = (sign, d :: ds ++ vs) := by
    rcases sign with _ | c
    · exact splitSign_of_isDigit hd
    · exact if_pos (by simpa using hsign c rfl)
  have hlength := length_le_of_run hrun (List.prefix_append (d :: ds) vs)
  have hscan : scanExponent (Exponent.text ⟨marker, sign, d :: ds⟩ ++ vs) =
      some ⟨marker, sign, (d :: ds ++ vs).takeWhile inRun⟩ := by
    change scanExponent (marker :: (sign.toList ++ d :: ds ++ vs)) = _
    rw [scanExponent_cons, hsplit]
    exact if_pos ((Bool.and_eq_true _ _).mpr ⟨hmarked, hd⟩)
  rw [hscan, Option.map_some, Option.getD_some, Exponent.text, Exponent.text]
  simp only [List.length_append, List.length_cons] at hlength ⊢
  omega

theorem run_exponent_length {run s : List Char} {exponent : Option Exponent} (hrun : ∀ c ∈ run, inRun c)
    (he : ∀ e, exponent = some e → e.Scanned) (h : run ++ (exponent.map Exponent.text).getD [] <+: s) :
    run.length + (exponent.map (·.text.length)).getD 0 ≤ (s.takeWhile inRun).length +
      ((scanExponent (s.dropWhile inRun)).map (·.text.length)).getD 0 := by
  rcases exponent with _ | e
  · rw [Option.map_none, Option.getD_none, List.append_nil] at h
    exact Nat.le_add_right_of_le (length_le_of_run hrun h)
  · have hmarker : ∀ c ∈ e.text.head?, inRun c = false := by
      rintro c ⟨⟩
      rcases (he e rfl).marker with hm | hm <;> rw [hm] <;> rfl
    rw [Option.map_some, Option.getD_some] at h
    obtain ⟨hlength, hexact⟩ := run_bounded hrun hmarker h
    obtain ⟨-, hdrop⟩ := hexact nofun
    exact Nat.add_le_add hlength ((he e rfl).scanExponent_length hdrop)

theorem text_none_eq (whole : List Char) (exponent : Option Exponent) :
    (decimal whole none exponent).text = whole ++ (exponent.map Exponent.text).getD [] := by
  cases exponent <;> simp [text]

theorem text_some_eq (whole f : List Char) (exponent : Option Exponent) :
    (decimal whole (some f) exponent).text = whole ++ '.' :: (f ++ (exponent.map Exponent.text).getD []) := by
  cases exponent <;> simp [text]

theorem scanDecimal_longest {whole s : List Char} {fraction : Option (List Char)}
    {exponent : Option Exponent} (hl : (decimal whole fraction exponent).Scanned)
    (h : (decimal whole fraction exponent).text <+: s) :
    (decimal whole fraction exponent).text.length ≤ (scanDecimal s).text.length := by
  obtain ⟨hwhole, hfraction, hexponent⟩ := hl
  rw [scanDecimal_eq]
  rcases fraction with _ | f
  · rw [text_none_eq] at h
    have hlength := run_exponent_length hwhole hexponent h
    rw [length_text_none]
    by_cases hpoint : (s.dropWhile inRun).head? = some '.'
    · obtain ⟨rest, hrest⟩ := List.head?_eq_some_iff.mp hpoint
      rw [hrest] at hlength ⊢
      exact Nat.le_trans hlength (length_le_decimalFrom _ _)
    · rwa [decimalFrom_of_ne hpoint, length_text_none]
  · rw [text_some_eq] at h
    obtain ⟨-, hexact⟩ := run_bounded hwhole (by rintro c ⟨⟩; rfl) h
    obtain ⟨hrun, vs, hdrop⟩ := hexact nofun
    rw [List.cons_append] at hdrop
    have hlength := run_exponent_length (hfraction f rfl) hexponent (List.prefix_append _ vs)
    rw [length_text_some, ← hdrop, decimalFrom, if_pos rfl, length_text_some, hrun]
    omega

theorem mem_text_decimal {whole : List Char} {fraction : Option (List Char)} {exponent : Option Exponent}
    (h : (decimal whole fraction exponent).Scanned) {c : Char} (hc : c ∈ (decimal whole fraction exponent).text) :
    inRun c ∨ c ∈ ['.', 'e', 'E', '+', '-'] := by
  obtain ⟨hwhole, hfraction, hexponent⟩ := h
  simp only [text, List.mem_append] at hc
  rcases hc with (hc | hc) | hc
  · exact .inl (hwhole c hc)
  · rcases fraction with _ | f
    · cases hc
    · rcases List.mem_cons.mp hc with rfl | hc
      · exact .inr (by decide)
      · exact .inl (hfraction f rfl c hc)
  · rcases exponent with _ | e
    · cases hc
    · obtain ⟨hmarker, hsign, d, ds, hdigits, hd, hds⟩ := hexponent e rfl
      simp only [Exponent.text, hdigits, List.mem_append, List.mem_cons, Option.mem_toList] at hc
      rcases hc with (rfl | hc) | rfl | hc
      · rcases hmarker with hm | hm <;> rw [hm] <;> exact .inr (by decide)
      · rcases hsign c hc with rfl | rfl <;> exact .inr (by decide)
      · exact .inl (inRun_of_isDigit hd)
      · exact .inl (hds c hc)

theorem radixAt?_of_based {c marker : Char} {radix : Radix} {digits rest : List Char}
    (hl : (based radix marker digits).Scanned) (h : (based radix marker digits).text <+: c :: rest) :
    radixAt? c rest = some radix := by
  obtain ⟨rfl, vs, rfl⟩ := List.cons_prefix_cons.mp h
  exact hl.1

theorem scan_longest {l : Literal} {s : List Char} (hl : l.Scanned) (h : l.text <+: s) :
    l.text.length ≤ (scan s).text.length := by
  rcases s with _ | ⟨c, rest⟩
  · rw [List.prefix_nil.mp h]
    exact Nat.zero_le _
  rcases hr : radixAt? c rest with _ | radix
  · rw [scan_of_none hr]
    cases l with
    | based radix marker digits => cases hr.symm.trans (radixAt?_of_based hl h)
    | decimal whole fraction exponent => exact scanDecimal_longest hl h
  · obtain ⟨rfl, marker, more, rfl, hmarker⟩ := radixAt?_eq_some hr
    rw [scan_of_radix hr]
    cases l with
    | based radix' marker' digits =>
      obtain ⟨-, h⟩ := List.cons_prefix_cons.mp h
      obtain ⟨-, vs, rfl⟩ := List.cons_prefix_cons.mp h
      have hrun : digits.length ≤ ((digits ++ vs).takeWhile Text.continuesName).length := by
        rw [List.takeWhile_append_of_pos hl.2, List.length_append]
        exact Nat.le_add_right _ _
      simpa [text] using hrun
    | decimal whole fraction exponent =>
      -- The marker of a radix does not stand in a decimal literal, so that one ends before it.
      rcases ht : (decimal whole fraction exponent).text with _ | ⟨d, _ | ⟨m, ts⟩⟩
      · exact Nat.zero_le _
      · exact Nat.succ_le_succ (Nat.zero_le _)
      · rw [ht] at h
        obtain ⟨-, h⟩ := List.cons_prefix_cons.mp h
        obtain ⟨rfl, -⟩ := List.cons_prefix_cons.mp h
        have hmem := mem_text_decimal hl (c := m) (by rw [ht]; simp)
        rcases radixOfMarker?_eq_some_iff.mp hmarker with ⟨rfl | rfl, -⟩ | ⟨rfl | rfl, -⟩ <;>
          exact absurd hmem (by decide)

end Literal

end Formula
