import Mathlib.Data.Nat.Find
import Formula.Proofs.Parsing.Agreement
import Formula.Proofs.Parsing.Recognition

namespace Formula

namespace Parse

variable {m k : Nat} {atEnd : Text.Span} {all : List Item}

theorem tooDeep_or_shallow (m : Nat) (atEnd : Text.Span) (all : List Item) :
    (∃ span n, whole m atEnd all = ⟨.error (.syntactic (.tooDeep m span)), n⟩) ∨
      Shallow (whole m atEnd all) := by
  have h : Agrees (Fault.TooDeep m) (whole m atEnd all) (whole m atEnd all) :=
    whole_agrees (.inl rfl) (Nat.le_refl m) (.inl fun f hf => hf)
  rcases h with ⟨f, n, hr, span, rfl⟩ | ⟨-, hs⟩
  · exact .inl ⟨span, n, hr⟩
  · exact .inr hs

theorem shallow_of_lt (h : all.length < m) : Shallow (whole m atEnd all) := by
  have hagrees : Agrees (fun _ => False) (whole m atEnd all) (whole m atEnd all) :=
    whole_agrees (.inl rfl) (Nat.le_refl m) (.inr h)
  rcases hagrees with ⟨f, n, hr, hf⟩ | ⟨-, hs⟩
  · exact hf.elim
  · exact hs

theorem whole_eq_of_shallow (hm : m ≤ k) (h : Shallow (whole m atEnd all)) :
    whole m atEnd all = whole k atEnd all := by
  have hagrees : Agrees (Fault.TooDeep m) (whole m atEnd all) (whole k atEnd all) :=
    whole_agrees (.inl rfl) hm (.inl fun f hf => hf)
  rcases hagrees with ⟨f, n, hr, hf⟩ | ⟨heq, -⟩
  · exact absurd hf (h m f (by rw [hr]))
  · exact heq

theorem not_shallow_zero : ¬Shallow (whole 0 atEnd all) := by
  intro h
  exact h 0 _ rfl ⟨_, rfl⟩

theorem exists_nesting (atEnd : Text.Span) (all : List Item) :
    ∃ d, 1 ≤ d ∧ d ≤ all.length + 1 ∧ ∀ m, Shallow (whole m atEnd all) ↔ d ≤ m := by
  classical
  have hex : ∃ m, Shallow (whole m atEnd all) := ⟨all.length + 1, shallow_of_lt (Nat.lt_succ_self _)⟩
  refine ⟨Nat.find hex, ?_, ?_, fun m => ⟨Nat.find_min' hex, fun hm => ?_⟩⟩
  · apply Nat.one_le_iff_ne_zero.mpr
    intro hzero
    exact not_shallow_zero (hzero ▸ Nat.find_spec hex)
  · exact Nat.find_min' hex (shallow_of_lt (Nat.lt_succ_self _))
  · rw [← whole_eq_of_shallow hm (Nat.find_spec hex)]
    exact Nat.find_spec hex

end Parse

open Parse Token

theorem Derivation.shallow_iff {ts : List Token} {p : Phrase} (h : Derivation ts p) (atEnd : Text.Span)
    (m : Nat) : Shallow (whole m atEnd (items ts)) ↔ p.need ≤ m := by
  constructor
  · intro hs
    by_contra hn
    obtain ⟨span, n, hr⟩ := h.whole_tooDeep atEnd (Nat.lt_of_not_le hn)
    exact hs m _ (by rw [hr]) ⟨span, rfl⟩
  · intro hn
    rw [h.whole_eq hn]
    exact shallow_ok _ _

theorem parse_tooDeep_iff {limits : Limits} {text : String}
    (hl : Text.width text.toList ≤ limits.maxLength) :
    (∃ span, parse limits text = .error (.syntactic (.tooDeep limits.maxDepth span))) ↔
      ¬Shallow (whole limits.maxDepth ⟨Text.width text.toList, 0⟩ (tokenize text)) := by
  rw [parse_eq_whole hl]
  constructor
  · rintro ⟨span, h⟩ hs
    rcases hr : whole limits.maxDepth ⟨Text.width text.toList, 0⟩ (tokenize text) with ⟨f | p, n⟩
    · rw [hr] at h hs
      exact hs limits.maxDepth f rfl ⟨span, Except.error.inj h⟩
    · rw [hr] at h
      cases h
  · intro hs
    rcases tooDeep_or_shallow limits.maxDepth ⟨Text.width text.toList, 0⟩ (tokenize text) with
      ⟨span, n, hr⟩ | hshallow
    · exact ⟨span, by rw [hr]; rfl⟩
    · exact absurd hshallow hs

theorem derivation_within_of_parse_eq {limits : Limits} {text : String} {e : Expr}
    (h : parse limits text = .ok e) :
    ∃ ts p, tokenize text = items ts ∧ Derivation ts p ∧ p.expr = e ∧
      Text.width text.toList ≤ limits.maxLength ∧ p.need ≤ limits.maxDepth := by
  obtain ⟨ts, p, ht, hp, rfl⟩ := derivation_of_parse_eq h
  have hl : Text.width text.toList ≤ limits.maxLength := by
    by_contra hl
    rw [parse_of_too_long (Nat.lt_of_not_le hl)] at h
    cases h
  refine ⟨ts, p, ht, hp, rfl, hl, ?_⟩
  by_contra hn
  obtain ⟨span, htooDeep⟩ := hp.parse_tooDeep hl ht (Nat.lt_of_not_le hn)
  cases h.symm.trans htooDeep

theorem parse_limits_only_filter (text : String) :
    (∀ limits : Limits, limits.maxLength < Text.width text.toList →
      parse limits text =
        .error (.syntactic (.tooLong (Text.width text.toList) limits.maxLength))) ∧
    ∃ d, 1 ≤ d ∧ d ≤ (tokenize text).length + 1 ∧
      ∀ limits : Limits, Text.width text.toList ≤ limits.maxLength →
        ((∃ span, parse limits text = .error (.syntactic (.tooDeep limits.maxDepth span))) ↔
          limits.maxDepth < d) ∧
        (d ≤ limits.maxDepth → ∀ deep, d ≤ deep →
          parse limits text = parse { limits with maxDepth := deep } text) ∧
        ∀ e, parse limits text = .ok e →
          ∃ ts p, tokenize text = ts.map .ok ∧ Derivation ts p ∧ p.expr = e ∧ p.need = d := by
  refine ⟨fun limits h => parse_of_too_long h, ?_⟩
  obtain ⟨d, hone, hd, hiff⟩ := exists_nesting ⟨Text.width text.toList, 0⟩ (tokenize text)
  refine ⟨d, hone, hd, fun limits hl => ⟨?_, fun hdepth deep hdeep => ?_, fun e he => ?_⟩⟩
  · rw [parse_tooDeep_iff hl, hiff, Nat.not_le]
  · have hdeepest : ∀ m, d ≤ m → whole d ⟨Text.width text.toList, 0⟩ (tokenize text) =
        whole m ⟨Text.width text.toList, 0⟩ (tokenize text) :=
      fun m hm => whole_eq_of_shallow hm ((hiff d).mpr (Nat.le_refl d))
    have hl' : Text.width text.toList ≤ ({ limits with maxDepth := deep } : Limits).maxLength := hl
    rw [parse_eq_whole hl, parse_eq_whole hl', ← hdeepest _ hdepth, ← hdeepest deep hdeep]
  · obtain ⟨ts, p, ht, hp, hexpr⟩ := derivation_of_parse_eq he
    refine ⟨ts, p, ht, hp, hexpr, ?_⟩
    have hneed := hp.shallow_iff ⟨Text.width text.toList, 0⟩
    rw [show items ts = tokenize text from ht.symm] at hneed
    have hle : d ≤ p.need := (hiff _).mp ((hneed _).mpr (Nat.le_refl _))
    have hge : p.need ≤ d := (hneed _).mp ((hiff _).mpr (Nat.le_refl _))
    exact Nat.le_antisymm hge hle

end Formula
