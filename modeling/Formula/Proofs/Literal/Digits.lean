import Mathlib
import Formula.Literal

namespace Formula.Radix

def Separated (r : Radix) (run : List Char) : Prop :=
  ∀ before after, run = before ++ '_' :: after →
    (∃ d ∈ before.getLast?, r.isDigit d) ∧ ∃ d ∈ after.head?, r.isDigit d

def natural (r : Radix) (run : List Char) : ℕ := Nat.ofDigits r.base (run.filterMap r.digit?).reverse

variable {r : Radix} {run run' : List Char}

theorem separatedFrom_iff {afterDigit : Bool} :
    r.separatedFrom afterDigit run ↔ ∀ before after, run = before ++ '_' :: after →
      before.getLast?.elim afterDigit r.isDigit ∧ after.head?.any r.isDigit := by
  induction run generalizing afterDigit with
  | nil => simp [separatedFrom]
  | cons c rest ih =>
    have hlast (d : Char) (before : List Char) :
        (d :: before).getLast?.elim afterDigit r.isDigit = before.getLast?.elim (r.isDigit d) r.isDigit := by
      rw [List.getLast?_cons]
      cases before.getLast? <;> rfl
    rw [separatedFrom, Bool.and_eq_true, ih]
    constructor
    · rintro ⟨hhead, hrest⟩ before after hsplit
      rcases before with _ | ⟨d, before⟩
      · cases hsplit
        simpa using hhead
      · injection hsplit with hcd hsplit
        rw [hlast, ← hcd]
        exact hrest before after hsplit
    · intro h
      refine ⟨?_, fun before after hsplit => ?_⟩
      · by_cases hc : c = '_'
        · obtain ⟨hbefore, hafter⟩ := h [] rest (by rw [hc, List.nil_append])
          rw [List.getLast?_nil, Option.elim_none] at hbefore
          simp [hbefore, hafter]
        · simp [hc]
      · rw [← hlast]
        exact h (c :: before) after (by rw [hsplit, List.cons_append])

theorem wellSeparated_iff : r.wellSeparated run ↔ r.Separated run := by
  rw [wellSeparated, separatedFrom_iff]
  refine forall_congr' fun before => forall_congr' fun after => imp_congr_right fun _ => and_congr ?_ ?_
  · rcases before.getLast? with _ | d <;> simp
  · rcases after.head? with _ | d <;> simp

theorem separated_of_notMem (h : '_' ∉ run) : r.Separated run := by
  rintro before after rfl
  exact absurd (List.mem_append_right before List.mem_cons_self) h

theorem Separated.append (h : r.Separated run) (h' : r.Separated run') : r.Separated (run ++ run') := by
  intro before after hsplit
  rcases List.append_eq_append_iff.mp hsplit with ⟨ts, rfl, hrun'⟩ | ⟨ts, hrun, htail⟩
  · obtain ⟨⟨d, hd, hdigit⟩, hafter⟩ := h' ts after hrun'
    refine ⟨⟨d, ?_, hdigit⟩, hafter⟩
    rw [List.getLast?_append_of_ne_nil _ (by rintro rfl; cases hd)]
    exact hd
  · rcases ts with _ | ⟨c, ts⟩
    · obtain ⟨⟨d, hd, -⟩, -⟩ := h' [] after htail.symm
      cases hd
    · obtain ⟨hc, hafter⟩ := List.cons.inj htail
      obtain ⟨hbefore, d, hd, hdigit⟩ := h before ts (by rw [hrun, hc])
      refine ⟨hbefore, d, ?_, hdigit⟩
      rw [show after = ts ++ run' from hafter, List.head?_append_of_ne_nil _ (by rintro rfl; cases hd)]
      exact hd

theorem value_eq_natural : r.value run = r.natural run := by
  rw [value, natural, Nat.ofDigits_eq_foldr, List.foldr_reverse]
  congr 1
  funext n d
  exact Nat.add_comm _ _

theorem natural_append (run run' : List Char) :
    r.natural (run ++ run') =
      r.natural run * r.base ^ (run'.filterMap r.digit?).length + r.natural run' := by
  rw [natural, natural, natural, List.filterMap_append, List.reverse_append, Nat.ofDigits_append,
    List.length_reverse, Nat.add_comm, Nat.mul_comm]

theorem natural_filter_isDigit : r.natural (run.filter r.isDigit) = r.natural run := by
  rw [natural, natural, List.filterMap_filter]
  congr 3
  funext c
  by_cases hc : r.isDigit c
  · rw [if_pos hc]
  · rw [if_neg hc, eq_comm, ← Option.not_isSome_iff_eq_none]
    exact hc

theorem digit?_of_isDigit {c : Char} (h : c.isDigit) : decimal.digit? c = some (c.toNat - '0'.toNat) := by
  have hrange := h
  simp only [Char.isDigit, Bool.and_eq_true, decide_eq_true_eq, UInt32.le_iff_toNat_le] at hrange
  change 48 ≤ c.toNat ∧ c.toNat ≤ 57 at hrange
  have hlt : c.toNat - '0'.toNat < decimal.base := by
    change c.toNat - 48 < 10
    omega
  rw [digit?, worth?, if_pos h, Option.filter_some, if_pos (decide_eq_true hlt)]

theorem decimal_isDigit (c : Char) : decimal.isDigit c = c.isDigit := by
  by_cases hc : c.isDigit
  · rw [isDigit, digit?_of_isDigit hc, hc]
    rfl
  · have hbig (n : ℕ) : Option.filter (· < decimal.base) (some (n + 10)) = none := by
      simp [Option.filter, base]
    rw [isDigit, digit?, worth?, if_neg hc]
    split
    · rw [hbig]
      simpa using hc
    · split
      · rw [hbig]
        simpa using hc
      · simpa using hc

theorem natural_eq_ofDigitChars {ds : List Char} (h : ∀ c ∈ ds, c.isDigit) :
    decimal.natural ds = Nat.ofDigitChars 10 ds 0 := by
  have hdigits : ds.filterMap decimal.digit? = ds.map fun c => c.toNat - '0'.toNat := by
    rw [← List.filterMap_eq_map]
    exact List.filterMap_congr fun c hc => digit?_of_isDigit (h c hc)
  rw [← value_eq_natural, value, hdigits, List.foldl_map]
  rfl

theorem length_decimal_digits (run : List Char) :
    (run.filterMap decimal.digit?).length = (run.filter Char.isDigit).length := by
  rw [List.length_filterMap_eq_countP, List.countP_eq_length_filter]
  congr 2
  funext c
  exact decimal_isDigit c

end Formula.Radix
