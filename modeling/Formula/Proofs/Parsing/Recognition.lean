import Formula.Evaluate
import Formula.Proofs.Parsing.Shortfall
import Formula.Proofs.Parsing.Soundness

namespace Formula

open Parse Token

variable {ts : List Token} {p q : Phrase}

theorem Derivation.whole_eq {maxDepth : Nat} {atEnd : Text.Span} (h : Derivation ts p)
    (hn : p.need ≤ maxDepth) : whole maxDepth atEnd (items ts) = ⟨.ok p, ts.length⟩ := by
  have hphrase : phrase maxDepth atEnd maxDepth 0 (items ts ++ []) = ⟨.ok p, ts.length⟩ :=
    phrase_below hn (fun j => h.derives.continues j h.fits) (Nat.zero_le _) trivial trivial
  rw [List.append_nil] at hphrase
  change (phrase maxDepth atEnd maxDepth 0 >>= _) _ = _
  rw [bind_of_ok hphrase, ← length_items, List.drop_length]
  rfl

theorem Derivation.whole_tooDeep {maxDepth : Nat} (h : Derivation ts p) (atEnd : Text.Span)
    (hn : maxDepth < p.need) :
    ∃ span n, whole maxDepth atEnd (items ts) = ⟨.error (.syntactic (.tooDeep maxDepth span)), n⟩ := by
  have hbad : ¬(p.Fits ∧ p.need ≤ maxDepth) := fun hd => absurd hd.2 (Nat.not_le.mpr hn)
  obtain ⟨f, n, hr, hb⟩ : FailsFor maxDepth maxDepth p (phrase maxDepth atEnd maxDepth 0 (items ts ++ [])) :=
    failsFor_below hbad fun j hj => h.derives.fails j 0 [] hj (Nat.zero_le _) trivial
  rw [List.append_nil] at hr
  rcases hb with ⟨⟨span, rfl⟩, -⟩ | ⟨-, hf⟩
  · exact ⟨span, n, bind_of_error hr⟩
  · exact absurd h.fits hf

theorem Derivation.unique (h : Derivation ts p) (h' : Derivation ts q) : p = q := by
  have hp : whole (max p.need q.need) ⟨0, 0⟩ (items ts) = ⟨.ok p, ts.length⟩ :=
    h.whole_eq (Nat.le_max_left _ _)
  have hq : whole (max p.need q.need) ⟨0, 0⟩ (items ts) = ⟨.ok q, ts.length⟩ :=
    h'.whole_eq (Nat.le_max_right _ _)
  have he := congrArg Parsed.result (hp.symm.trans hq)
  exact Except.ok.inj he

theorem parse_of_too_long {limits : Limits} {text : String}
    (h : limits.maxLength < Text.width text.toList) :
    parse limits text =
      .error (.syntactic (.tooLong (Text.width text.toList) limits.maxLength)) :=
  congrArg Prod.fst (Parser.parse_of_too_long (p := .ofText limits text.toList) h)

theorem parse_eq_whole {limits : Limits} {text : String}
    (h : Text.width text.toList ≤ limits.maxLength) :
    parse limits text =
      (whole limits.maxDepth ⟨Text.width text.toList, 0⟩ (tokenize text)).result.map Phrase.expr :=
  congrArg Prod.fst (Parser.parse_of_fits (p := .ofText limits text.toList) h)

theorem Derivation.parse_eq {limits : Limits} {text : String} (h : Derivation ts p)
    (hl : Text.width text.toList ≤ limits.maxLength) (ht : tokenize text = items ts)
    (hn : p.need ≤ limits.maxDepth) : parse limits text = .ok p.expr := by
  rw [parse_eq_whole hl, ht, h.whole_eq hn]
  rfl

theorem Derivation.parse_tooDeep {limits : Limits} {text : String} (h : Derivation ts p)
    (hl : Text.width text.toList ≤ limits.maxLength) (ht : tokenize text = items ts)
    (hn : limits.maxDepth < p.need) :
    ∃ span, parse limits text = .error (.syntactic (.tooDeep limits.maxDepth span)) := by
  obtain ⟨span, n, hr⟩ := h.whole_tooDeep ⟨Text.width text.toList, 0⟩ hn
  exact ⟨span, by rw [parse_eq_whole hl, ht, hr]; rfl⟩

theorem derivation_of_parse_eq {limits : Limits} {text : String} {e : Expr}
    (h : parse limits text = .ok e) : ∃ ts p, tokenize text = items ts ∧ Derivation ts p ∧ p.expr = e := by
  by_cases hl : Text.width text.toList ≤ limits.maxLength
  · rw [parse_eq_whole hl] at h
    rcases hrun : whole limits.maxDepth ⟨Text.width text.toList, 0⟩ (tokenize text) with ⟨f | p, n⟩
    · rw [hrun] at h
      cases h
    · rw [hrun] at h
      cases h
      obtain ⟨ts, ht, hd⟩ := whole_sound hrun
      exact ⟨ts, p, ht, hd, rfl⟩
  · rw [parse_of_too_long (Nat.not_le.mp hl)] at h
    cases h

theorem parse_recognizes (limits : Limits) (text : String)
    (hl : Text.width text.toList ≤ limits.maxLength)
    (hd : ∀ depth span, parse limits text ≠ .error (.syntactic (.tooDeep depth span))) :
    (∀ e, parse limits text = .ok e ↔
      ∃ ts p, tokenize text = ts.map .ok ∧ Derivation ts p ∧ p.expr = e) ∧
    ∀ ts p q, Derivation ts p → Derivation ts q → p = q := by
  refine ⟨fun e => ⟨derivation_of_parse_eq, ?_⟩, fun ts p q hp hq => hp.unique hq⟩
  rintro ⟨ts, p, ht, h, rfl⟩
  by_cases hn : p.need ≤ limits.maxDepth
  · exact h.parse_eq hl ht hn
  · obtain ⟨span, htooDeep⟩ := h.parse_tooDeep hl ht (Nat.not_le.mp hn)
    exact absurd htooDeep (hd _ _)

theorem parse_recognizes_signed_factorial :
    parse {} "-(π^π)!" =
      .ok (.prefixed .negate (.factorial
        (.binary .power (.constant "π" Binding.pi) (.constant "π" Binding.pi)) ⟨8, 1⟩)) := by
  let minus : Token := ⟨.symbol .minus, ['-'], 0⟩
  let paren : Token := ⟨.symbol .leftParen, ['('], 1⟩
  let caret : Token := ⟨.symbol .caret, ['^'], 4⟩
  let close : Token := ⟨.symbol .rightParen, [')'], 7⟩
  let bang : Token := ⟨.symbol .bang, ['!'], 8⟩
  let ts : List Token := [minus, paren, ⟨.name, ['π'], 2⟩, caret, ⟨.name, ['π'], 5⟩, close, bang]
  let p : Phrase :=
    .prefixed .negate (.factorial (.bracketed
      (.binary .power (.constant "π" Binding.pi) (.constant "π" Binding.pi))) ⟨8, 1⟩)
  have hpi (offset : Nat) : Derives .primary [⟨.name, ['π'], offset⟩] (.constant "π" Binding.pi) :=
    .constant rfl rfl
  have hpower := @Derives.power caret _ _ _ _ ((hpi 2).loosen (by decide)) rfl ((hpi 5).loosen (by decide))
  have hbracketed := @Derives.bracketed paren close _ _ rfl (hpower.loosen (by decide)) rfl
  have hfactorial := @Derives.factorial bang _ _ (.tighter rfl hbracketed) rfl
  have hsigned := @Derives.prefixed minus _ .negate _ _ (by decide) rfl (.tighter rfl hfactorial)
  have hp : Derivation ts p := ⟨hsigned.loosen (by decide), ⟨trivial, trivial⟩⟩
  have ht : tokenize "-(π^π)!" = ts.map .ok := rfl
  have hl : Text.width "-(π^π)!".toList ≤ 4096 := by decide
  have hok : parse {} "-(π^π)!" = .ok p.expr := hp.parse_eq hl ht (by decide)
  refine ((parse_recognizes {} "-(π^π)!" hl fun depth span h => ?_).1 _).mpr ⟨ts, p, ht, hp, rfl⟩
  exact nomatch hok.symm.trans h

end Formula
