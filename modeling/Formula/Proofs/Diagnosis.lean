import Formula.Proofs.Parsing.Locality
import Formula.Proofs.Parsing.Nesting
import Formula.Proofs.Parsing.Obstruction

namespace Formula

open Parse Token

def Derivable (ts : List Token) : Prop := ∃ p, Derives .comparison ts p

def Viable (ts : List Token) : Prop := ∃ us, Derivable (ts ++ us)

def Diagnoses (all : List Item) : Fault → Prop
  | .lexical f => ∃ (before : List Token) (after : List Item), all = before.map .ok ++ .error f :: after
  | .syntactic (.trailingInput found span) =>
    ∃ (before : List Token) (t : Token) (after : List Item), all = before.map .ok ++ .ok t :: after ∧
      t.text = found ∧ t.span = span ∧
      Derivable before ∧ ¬Viable (before ++ [t])
  | .syntactic (.unexpectedToken found _ span) =>
    ∃ (before : List Token) (t : Token) (after : List Item), all = before.map .ok ++ .ok t :: after ∧
      t.text = found ∧ t.span = span ∧
      (∃ us, us ≠ [] ∧ Derivable (before ++ us)) ∧ ¬Viable (before ++ [t])
  | .syntactic (.unexpectedEnd ..) => ∃ ts : List Token, all = ts.map .ok ∧ Viable ts ∧ ¬Derivable ts
  | .syntactic (.unclosedParen ..) => ∃ ts : List Token, all = ts.map .ok ∧ Viable ts ∧ ¬Derivable ts
  | _ => True

theorem Parse.Unfinished.derivable {power : Nat} {ts : List Token} (h : Unfinished power ts) :
    ∃ us, us ≠ [] ∧ Derivable (ts ++ us) := by
  obtain ⟨us, p, l, hus, hp, -⟩ := h
  exact ⟨us, hus, p, hp.loosen Layer.comparison_floor_le⟩

section

variable {m n : Nat} {atEnd : Text.Span} {all after : List Item} {before ts : List Token} {t : Token}
  {p : Phrase} {f : Fault}

theorem Derives.mismatch_of_error (h : Derives .comparison ts p) (hn : p.need ≤ m)
    (hr : whole m atEnd (items ts) = ⟨.error f, n⟩) : f.Mismatch := by
  by_cases hf : p.Fits
  · rw [Derivation.whole_eq ⟨h, hf⟩ hn] at hr
    cases hr
  · have hbad : ¬(p.Fits ∧ p.need ≤ m) := fun hgood => hf hgood.1
    obtain ⟨g, k, hg, hblame⟩ : FailsFor m m p (phrase m atEnd m 0 (items ts ++ [])) :=
      failsFor_below hbad fun j hj => h.fails j 0 [] hj (Nat.zero_le _) trivial
    rw [List.append_nil] at hg
    have hwhole : whole m atEnd (items ts) = ⟨.error g, k⟩ := bind_of_error hg
    obtain rfl : g = f := Except.error.inj (congrArg Parsed.result (hwhole.symm.trans hr))
    rcases hblame with ⟨-, hlt⟩ | ⟨hmismatch, -⟩
    · exact absurd hn (Nat.not_le.mpr hlt)
    · exact hmismatch

variable (hr : whole m atEnd all = ⟨.error f, n⟩) (hs : Shallow (whole m atEnd all)) (hf : ¬f.Mismatch)

include hr hs hf

theorem not_derivable_of_error (ha : all = items ts) : ¬Derivable ts := by
  rintro ⟨p, hp⟩
  have hdeep : whole (max m p.need) atEnd (items ts) = ⟨.error f, n⟩ := by
    rw [← ha, ← whole_eq_of_shallow (Nat.le_max_left _ _) hs, hr]
  exact hf (hp.mismatch_of_error (Nat.le_max_right _ _) hdeep)

theorem not_viable_of_error (ha : all = items before ++ .ok t :: after)
    (hreach : f.reach all n = before.length + 1) : ¬Viable (before ++ [t]) := by
  rintro ⟨us, p, hp⟩
  -- The fault is the same at the depth that the derivation needs, and on all items that begin so.
  have hdeep : whole (max m p.need) atEnd all = ⟨.error f, n⟩ := by
    rw [← whole_eq_of_shallow (Nat.le_max_left _ _) hs, hr]
  have hlocal : Local 1 (whole (max m p.need) atEnd) all := whole_local
  have hreads := hlocal.reads
  rw [hdeep] at hreads
  have htake : (items (before ++ [t] ++ us)).take (before.length + 1) = all.take (before.length + 1) := by
    rw [ha, items_append, items_append, List.append_assoc, ← length_items before]
    simp [List.take_append]
  have hrun := (hreads _ (hreach ▸ htake)).trans hdeep
  exact hf (hp.mismatch_of_error (Nat.le_max_right _ _) hrun)

end

theorem not_mismatch {f : SyntacticFault} (h : ∀ name arity given span, f ≠ .arityMismatch name arity given span) :
    ¬(Fault.syntactic f).Mismatch := by
  rintro ⟨name, arity, given, span, heq⟩
  exact h _ _ _ _ (Fault.syntactic.inj heq)

theorem whole_diagnoses {m n : Nat} {atEnd : Text.Span} {all : List Item} {f : Fault}
    (hr : whole m atEnd all = ⟨.error f, n⟩) (hs : Shallow (whole m atEnd all)) : Diagnoses all f := by
  rcases whole_obstructed hr with hhalts | ⟨ts, t, rest, p, ha, rfl, rfl, hp⟩
  · rcases f with f | f | f
    · exact hhalts
    · cases f with
      | unexpectedToken found expected span =>
        obtain ⟨ts, t, rest, ha, rfl, hfound, hspan, hts⟩ := hhalts
        have hnot := not_viable_of_error hr hs (not_mismatch nofun) ha rfl
        exact ⟨ts, t, rest, ha, hfound, hspan, hts.derivable, hnot⟩
      | unexpectedEnd expected span =>
        obtain ⟨ts, ha, hts⟩ := hhalts
        have hnot := not_derivable_of_error hr hs (not_mismatch nofun) ha
        exact ⟨ts, ha, hts.derivable.imp fun _ h => h.2, hnot⟩
      | unclosedParen span =>
        obtain ⟨ts, ha, hts⟩ := hhalts
        have hnot := not_derivable_of_error hr hs (not_mismatch nofun) ha
        exact ⟨ts, ha, hts.derivable.imp fun _ h => h.2, hnot⟩
      | trailingInput found span => exact hhalts.elim
      | _ => trivial
    · trivial
  · have hnot := not_viable_of_error hr hs (not_mismatch nofun) ha rfl
    exact ⟨ts, t, rest, ha, rfl, rfl, ⟨p, hp⟩, hnot⟩

theorem parse_diagnoses (limits : Limits) (text : String) (f : Fault) (h : parse limits text = .error f)
    (hl : Text.width text.toList ≤ limits.maxLength)
    (hd : ∀ depth span, f ≠ .syntactic (.tooDeep depth span)) : Diagnoses (tokenize text) f := by
  rw [parse_eq_whole hl] at h
  rcases hr : whole limits.maxDepth ⟨Text.width text.toList, 0⟩ (tokenize text) with ⟨g | p, n⟩
  · rw [hr] at h
    obtain rfl : g = f := Except.error.inj h
    apply whole_diagnoses hr
    rw [hr]
    exact shallow_error (fun depth ⟨span, heq⟩ => hd depth span heq) n
  · rw [hr] at h
    cases h

theorem parse_diagnoses_bracket_behind_constant :
    parse {} "π)" = .error (.syntactic (.trailingInput ")" ⟨2, 1⟩)) ∧
      Diagnoses (tokenize "π)") (.syntactic (.trailingInput ")" ⟨2, 1⟩)) := by
  let constant : Token := ⟨.name, ['π'], 0⟩
  let close : Token := ⟨.symbol .rightParen, [')'], 2⟩
  let atEnd : Text.Span := ⟨3, 0⟩
  have hl : Text.width "π)".toList ≤ 4096 := by decide
  have hclose : Ends 0 [.ok close] := ends_of_symbol rfl (by decide) rfl
  have hoperand : operand atEnd (phrase 64 atEnd 63) [.ok constant, .ok close] =
      ⟨.ok (.constant "π" Binding.pi), 1⟩ := operand_constant rfl rfl hclose
  have hphrase : phrase 64 atEnd 64 0 [.ok constant, .ok close] = ⟨.ok (.constant "π" Binding.pi), 1⟩ := by
    rw [phrase_of_operand hoperand, List.drop_one, List.tail_cons, climb_of_stops hclose.stops]
    rfl
  have hwhole : whole 64 atEnd [.ok constant, .ok close] =
      ⟨.error (.syntactic (.trailingInput ")" ⟨2, 1⟩)), 2⟩ := bind_of_ok hphrase
  have hparse : parse {} "π)" = .error (.syntactic (.trailingInput ")" ⟨2, 1⟩)) :=
    (parse_eq_whole hl).trans (congrArg (fun r => r.result.map Phrase.expr) hwhole)
  exact ⟨hparse, parse_diagnoses {} "π)" _ hparse hl nofun⟩

end Formula
