import Formula.Literal

namespace Formula.Literal

structure Exponent.Scanned (e : Exponent) : Prop where
  marker : e.marker = 'e' ∨ e.marker = 'E'
  sign : ∀ c, e.sign = some c → c = '+' ∨ c = '-'
  digits : ∃ d ds, e.digits = d :: ds ∧ d.isDigit ∧ ∀ c ∈ ds, inRun c

def Scanned : Literal → Prop
  | based radix marker digits => radixOfMarker? marker = some radix ∧ ∀ c ∈ digits, Text.continuesName c
  | decimal whole fraction exponent =>
    (∀ c ∈ whole, inRun c) ∧ (∀ f, fraction = some f → ∀ c ∈ f, inRun c) ∧
      ∀ e, exponent = some e → e.Scanned

theorem of_mem_takeWhile {p : Char → Bool} {c : Char} {s : List Char} (h : c ∈ s.takeWhile p) : p c :=
  List.all_eq_true.mp List.all_takeWhile c h

theorem radixOfMarker?_eq_some_iff {c : Char} {r : Radix} :
    radixOfMarker? c = some r ↔
      (c = 'x' ∨ c = 'X') ∧ r = .hexadecimal ∨ (c = 'b' ∨ c = 'B') ∧ r = .binary := by
  constructor
  · intro h
    unfold radixOfMarker? at h
    split at h
    · rename_i hx
      cases h
      exact .inl ⟨by simpa using hx, rfl⟩
    · split at h
      · rename_i hb
        cases h
        exact .inr ⟨by simpa using hb, rfl⟩
      · cases h
  · rintro (⟨rfl | rfl, rfl⟩ | ⟨rfl | rfl, rfl⟩) <;> rfl

theorem inRun_of_isDigit {c : Char} (h : c.isDigit) : inRun c := by
  simp [inRun, h]

theorem exists_cons_of_head? {s : List Char} (h : s.head?.any Char.isDigit) :
    ∃ d ds, s = d :: ds := by
  rcases s with _ | ⟨d, ds⟩
  · cases h
  · exact ⟨d, ds, rfl⟩

theorem splitSign_append (s : List Char) : (splitSign s).1.toList ++ (splitSign s).2 = s := by
  unfold splitSign
  split
  · rfl
  · split <;> rfl

theorem splitSign_sign {s : List Char} {c : Char} (h : (splitSign s).1 = some c) : c = '+' ∨ c = '-' := by
  unfold splitSign at h
  split at h
  · cases h
  · split at h
    · rename_i hc
      cases h
      simpa using hc
    · cases h

theorem scanExponent_scanned {s : List Char} {e : Exponent} (h : scanExponent s = some e) :
    e.text <+: s ∧ e.Scanned := by
  rcases s with _ | ⟨c, rest⟩
  · cases h
  · simp only [scanExponent, Bool.and_eq_true, Bool.or_eq_true, decide_eq_true_eq] at h
    split at h
    · rename_i hcond
      cases h
      obtain ⟨hmarker, hdigit⟩ := hcond
      obtain ⟨d, ds, hd⟩ := exists_cons_of_head? hdigit
      rw [hd] at hdigit
      have hrun : inRun d := inRun_of_isDigit hdigit
      have hdigits : (splitSign rest).2.takeWhile inRun = d :: ds.takeWhile inRun := by
        rw [hd, List.takeWhile_cons_of_pos hrun]
      refine ⟨?_, hmarker, fun _ hs => splitSign_sign hs, d, _, hdigits, hdigit, fun c hc => ?_⟩
      · have hprefix : (splitSign rest).1.toList ++ (splitSign rest).2.takeWhile inRun <+: rest := by
          conv => rhs; rw [← splitSign_append rest]
          exact (List.prefix_append_right_inj _).mpr (List.takeWhile_prefix _)
        exact List.cons_prefix_cons.mpr ⟨rfl, hprefix⟩
      · exact of_mem_takeWhile hc
    · cases h

theorem text_prefix_of_exponent {whole before s : List Char} {fraction : Option (List Char)}
    (hb : (decimal whole fraction none).text = before) :
    (decimal whole fraction (scanExponent s)).text <+: before ++ s := by
  rcases he : scanExponent s with _ | e
  · rw [hb]
    exact List.prefix_append _ _
  · have htext : (decimal whole fraction (some e)).text = before ++ e.text := by
      rw [← hb]
      simp [text]
    rw [htext]
    exact (List.prefix_append_right_inj _).mpr (scanExponent_scanned he).1

theorem scanDecimal_scanned (s : List Char) : (scanDecimal s).text <+: s ∧ (scanDecimal s).Scanned := by
  have hwhole : ∀ c ∈ s.takeWhile inRun, inRun c := fun c hc => of_mem_takeWhile hc
  have hsplit : s.takeWhile inRun ++ s.dropWhile inRun = s := List.takeWhile_append_dropWhile
  unfold scanDecimal
  rcases hd : s.dropWhile inRun with _ | ⟨c, rest⟩
  · rw [hd, List.append_nil] at hsplit
    refine ⟨?_, hwhole, nofun, nofun⟩
    simp [text, hsplit]
  · rw [hd] at hsplit
    by_cases hc : c = '.'
    · subst hc
      have hrest : rest.takeWhile inRun ++ rest.dropWhile inRun = rest := List.takeWhile_append_dropWhile
      have hbefore : (decimal (s.takeWhile inRun) (some (rest.takeWhile inRun)) none).text =
          s.takeWhile inRun ++ '.' :: rest.takeWhile inRun := by simp [text]
      refine ⟨?_, hwhole, ?_, fun e he => (scanExponent_scanned he).2⟩
      · have h := @text_prefix_of_exponent _ _ (rest.dropWhile inRun) _ hbefore
        simpa [hrest, hsplit] using h
      · rintro f ⟨⟩ c hc
        exact of_mem_takeWhile hc
    · have hbefore : (decimal (s.takeWhile inRun) none none).text = s.takeWhile inRun := by simp [text]
      simp only [hc, if_false]
      refine ⟨?_, hwhole, nofun, fun e he => (scanExponent_scanned he).2⟩
      have h := @text_prefix_of_exponent _ _ (c :: rest) _ hbefore
      rwa [hsplit] at h

theorem scan_scanned (s : List Char) : (scan s).text <+: s ∧ (scan s).Scanned := by
  unfold scan
  split
  · rename_i c marker rest
    split
    · rename_i radix h
      split at h
      · rename_i hc
        subst hc
        refine ⟨?_, h, fun c hc => of_mem_takeWhile hc⟩
        exact List.cons_prefix_cons.mpr ⟨rfl, List.cons_prefix_cons.mpr ⟨rfl, List.takeWhile_prefix _⟩⟩
      · cases h
    · exact scanDecimal_scanned _
  · exact scanDecimal_scanned _

theorem text_scanDecimal_ne_nil {s : List Char} (h : beginsAt s) : (scanDecimal s).text ≠ [] := by
  rcases s with _ | ⟨c, rest⟩
  · cases h
  · simp only [beginsAt, Bool.or_eq_true, Bool.and_eq_true, beq_iff_eq] at h
    unfold scanDecimal
    rcases h with hdigit | ⟨rfl, -⟩
    · rw [List.takeWhile_cons_of_pos (inRun_of_isDigit hdigit)]
      split
      · simp [text]
      · split <;> simp [text]
    · simp [text, inRun]

theorem text_scan_ne_nil {s : List Char} (h : beginsAt s) : (scan s).text ≠ [] := by
  unfold scan
  split
  · split
    · exact nofun
    · exact text_scanDecimal_ne_nil h
  · exact text_scanDecimal_ne_nil h

end Formula.Literal
