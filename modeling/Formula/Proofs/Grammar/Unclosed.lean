import Formula.Proofs.Grammar.Brackets
import Formula.Proofs.Parsing.Actions

namespace Formula.Token

/-- The brackets that are open behind the tokens, the innermost one first, where those in `outer` are open
before them. A bracket that is closed and has not been opened leaves nothing. -/
def unclosed (outer : List Token) : List Token → Option (List Token)
  | [] => some outer
  | t :: ts =>
    if t.isSymbol .leftParen then unclosed (t :: outer) ts
    else if t.isSymbol .rightParen then
      match outer with
      | [] => none
      | _ :: outer => unclosed outer ts
    else unclosed outer ts

variable {t paren : Token} {outer stack ts us : List Token}

theorem unclosed_open (h : t.kind = .symbol .leftParen) : unclosed outer (t :: ts) = unclosed (t :: outer) ts := by
  simp [unclosed, isSymbol, h]

theorem unclosed_close (h : t.kind = .symbol .rightParen) : unclosed (paren :: outer) (t :: ts) = unclosed outer ts := by
  simp [unclosed, isSymbol, h]

theorem unclosed_plain (ho : t.kind ≠ .symbol .leftParen) (hc : t.kind ≠ .symbol .rightParen) :
    unclosed outer (t :: ts) = unclosed outer ts := by
  simp [unclosed, mt Parse.isSymbol_iff.mp ho, mt Parse.isSymbol_iff.mp hc]

theorem unclosed_name (h : t.kind = .name) : unclosed outer (t :: ts) = unclosed outer ts :=
  unclosed_plain (by simp [h]) (by simp [h])

theorem unclosed_symbol {s : Symbol} (h : t.kind = .symbol s) (ho : s ≠ .leftParen) (hc : s ≠ .rightParen) :
    unclosed outer (t :: ts) = unclosed outer ts :=
  unclosed_plain (by simp [h, ho]) (by simp [h, hc])

theorem unclosed_append : unclosed outer (ts ++ us) = (unclosed outer ts).bind (unclosed · us) := by
  induction ts generalizing outer with
  | nil => rfl
  | cons t ts ih =>
    simp only [List.cons_append, unclosed]
    split
    · exact ih
    · split
      · cases outer with
        | nil => rfl
        | cons paren outer => exact ih
      · exact ih

theorem openAfter_length (outer ts : List Token) :
    openAfter outer.length ts = (unclosed outer ts).map List.length := by
  induction ts generalizing outer with
  | nil => rfl
  | cons t ts ih =>
    simp only [openAfter, unclosed]
    split
    · exact ih (t :: outer)
    · split
      · cases outer with
        | nil => rfl
        | cons paren outer => exact ih outer
      · exact ih outer

theorem unclosed_within (h : unclosed outer ts = some stack) (further : List Token) :
    unclosed (outer ++ further) ts = some (stack ++ further) := by
  induction ts generalizing outer with
  | nil =>
    cases h
    rfl
  | cons t ts ih =>
    simp only [unclosed] at h ⊢
    split at h
    · exact (if_pos ‹_›).trans (ih h)
    · rw [if_neg ‹_›]
      split at h
      · rw [if_pos ‹_›]
        cases outer with
        | nil => cases h
        | cons paren outer => exact ih h
      · exact (if_neg ‹_›).trans (ih h)

theorem Balanced.unclosed_eq (h : Balanced ts) (outer : List Token) : unclosed outer ts = some outer := by
  have hcount := (openAfter_length [] ts).symm.trans h.openAfter_zero
  obtain ⟨stack, hstack, hlength⟩ := Option.map_eq_some_iff.mp hcount
  obtain rfl := List.eq_nil_of_length_eq_zero hlength
  exact unclosed_within hstack outer

theorem unclosed_split {ts outer : List Token} {paren : Token} (h : unclosed [] ts = some (paren :: outer)) :
    ∃ before after, ts = before ++ paren :: after ∧ paren.kind = .symbol .leftParen ∧
      unclosed [] before = some outer ∧ unclosed [] after = some [] := by
  rcases ts.eq_nil_or_concat with rfl | ⟨us, t, hconcat⟩
  · cases h
  · have hus : us.length < ts.length := by
      rw [hconcat, List.length_concat]
      exact Nat.lt_succ_self _
    rw [List.concat_eq_append] at hconcat
    subst hconcat
    rw [unclosed_append] at h
    obtain ⟨stack, hstack, ht⟩ := Option.bind_eq_some_iff.mp h
    by_cases hopen : t.kind = .symbol .leftParen
    · rw [unclosed_open hopen] at ht
      cases ht
      exact ⟨us, [], rfl, hopen, hstack, rfl⟩
    · by_cases hclose : t.kind = .symbol .rightParen
      · rcases stack with _ | ⟨inner, stack⟩
        · simp [unclosed, isSymbol, hclose] at ht
        · rw [unclosed_close hclose] at ht
          cases ht
          -- `t` closes `inner`, so the bracket looked for is the innermost one before that.
          obtain ⟨middle, last, heq, ho, hmiddle, hlast⟩ := unclosed_split hstack
          have hshort : middle.length < us.length := by
            rw [heq, List.length_append, List.length_cons]
            omega
          subst heq
          obtain ⟨before, after, rfl, hk, hbefore, hafter⟩ := unclosed_split hmiddle
          have hinside : unclosed [inner] last = some [inner] := unclosed_within hlast [inner]
          refine ⟨before, after ++ inner :: (last ++ [t]), by simp, hk, hbefore, ?_⟩
          rw [unclosed_append, hafter, Option.bind_some, unclosed_open ho, unclosed_append, hinside,
            Option.bind_some, unclosed_close hclose]
          rfl
      · rw [unclosed_plain hopen hclose] at ht
        cases ht
        obtain ⟨before, after, rfl, hk, hbefore, hafter⟩ := unclosed_split hstack
        refine ⟨before, after ++ [t], by simp, hk, hbefore, ?_⟩
        rw [unclosed_append, hafter, Option.bind_some, unclosed_plain hopen hclose]
        rfl
termination_by ts.length
decreasing_by all_goals omega

end Formula.Token
