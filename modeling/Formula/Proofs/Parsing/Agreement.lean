import Formula.Proofs.Parsing.Actions

/-!
The actions of the parser agree where the parsers one level further down agree on fewer items. All that
can set two runs apart is a fault at the limit on nesting, and one at the end of the text if the two have
different ends.
-/

namespace Formula

namespace Parse

section

variable {α β : Type} {P : Fault → Prop} {r r' : Parsed α}

def Shallow (r : Parsed α) : Prop :=
  ∀ limit f, r.result = .error f → ¬f.TooDeep limit

/-- The first run stops with a fault that satisfies the predicate, or both do the same, and neither
stops at a limit on nesting. -/
def Agrees (P : Fault → Prop) (r r' : Parsed α) : Prop :=
  (∃ f n, r = ⟨.error f, n⟩ ∧ P f) ∨ r = r' ∧ Shallow r

theorem shallow_ok (x : α) (n : Nat) : Shallow ⟨.ok x, n⟩ := by
  intro limit f h
  cases h

theorem shallow_error {f : Fault} (h : ∀ limit, ¬f.TooDeep limit) (n : Nat) :
    Shallow (⟨.error f, n⟩ : Parsed α) := by
  intro limit g hg
  cases hg
  exact h limit

theorem Shallow.of_error {f : Fault} {m : Nat} (h : Shallow (⟨.error f, m⟩ : Parsed β)) (n : Nat) :
    Shallow (⟨.error f, n⟩ : Parsed α) :=
  shallow_error (fun limit => h limit f rfl) n

theorem shallow_lexical (f : LexicalFault) (n : Nat) :
    Shallow (⟨.error (.lexical f), n⟩ : Parsed α) := by
  apply shallow_error
  rintro limit ⟨span, h⟩
  cases h

theorem shallow_syntactic {f : SyntacticFault} (h : ∀ limit span, f ≠ .tooDeep limit span) (n : Nat) :
    Shallow (⟨.error (.syntactic f), n⟩ : Parsed α) := by
  apply shallow_error
  rintro limit ⟨span, hspan⟩
  injection hspan with hf
  exact h limit span hf

theorem Shallow.after (h : Shallow r) (n : Nat) : Shallow (r.after n) := h

theorem Agrees.after (h : Agrees P r r') (n : Nat) : Agrees P (r.after n) (r'.after n) := by
  rcases h with ⟨f, m, rfl, hf⟩ | ⟨rfl, hs⟩
  · exact .inl ⟨f, n + m, rfl, hf⟩
  · exact .inr ⟨rfl, hs.after n⟩

theorem Agrees.bind {p p' : Parse α} {k k' : α → Parse β} {all : List Item}
    (hp : Agrees P (p all) (p' all))
    (hk : ∀ x n, p all = ⟨.ok x, n⟩ → Agrees P (k x (all.drop n)) (k' x (all.drop n))) :
    Agrees P ((p >>= k) all) ((p' >>= k') all) := by
  rcases hp with ⟨f, n, hf, hP⟩ | ⟨heq, hs⟩
  · rw [bind_of_error hf]
    exact .inl ⟨f, n, rfl, hP⟩
  · rcases hr : p all with ⟨f | x, n⟩
    · rw [bind_of_error hr, bind_of_error (heq ▸ hr)]
      rw [hr] at hs
      exact .inr ⟨rfl, hs.of_error n⟩
    · rw [bind_of_ok hr, bind_of_ok (heq ▸ hr)]
      exact (hk x n hr).after n

end

variable {P : Fault → Prop} {below below' : Below} {paren t : Token} {all : List Item}

def AgreeBelow (P : Fault → Prop) (bound : Nat) (below below' : Below) : Prop :=
  ∀ power all, all.length < bound → Agrees P (below power all) (below' power all)

theorem AgreeBelow.mono {m n : Nat} (h : AgreeBelow P n below below') (hm : m ≤ n) :
    AgreeBelow P m below below' :=
  fun power all hl => h power all (Nat.lt_of_lt_of_le hl hm)

theorem next_agrees : Agrees P (next all) (next all) := by
  rcases all with _ | ⟨f | u, rest⟩
  · exact .inr ⟨rfl, shallow_ok _ _⟩
  · exact .inr ⟨rfl, shallow_lexical f _⟩
  · exact .inr ⟨rfl, shallow_ok _ _⟩

theorem peek_agrees : Agrees P (peek all) (peek all) := by
  rcases all with _ | ⟨f | u, rest⟩
  · exact .inr ⟨rfl, shallow_ok _ _⟩
  · exact .inr ⟨rfl, shallow_lexical f _⟩
  · exact .inr ⟨rfl, shallow_ok _ _⟩

theorem pure_agrees {α : Type} (x : α) :
    Agrees P ((Pure.pure x : Parse α) all) ((Pure.pure x : Parse α) all) :=
  .inr ⟨rfl, shallow_ok x 0⟩

theorem fail_agrees {α : Type} {f : SyntacticFault} (h : ∀ limit span, f ≠ .tooDeep limit span) :
    Agrees P ((fail (.syntactic f) : Parse α) all) ((fail (.syntactic f) : Parse α) all) :=
  .inr ⟨rfl, shallow_syntactic h 0⟩

theorem unexpected_agrees {α : Type} (expected : Expected) :
    Agrees P ((unexpected t expected : Parse α) all) ((unexpected t expected : Parse α) all) :=
  fail_agrees nofun

theorem next_lt {u : Token} {n : Nat} (h : next all = ⟨.ok (some u), n⟩) :
    (all.drop n).length < all.length := by
  rcases all with _ | ⟨f | v, rest⟩ <;> cases h
  exact Nat.lt_succ_self _

theorem prepend_agrees {p : Phrase} {more more' : Parse (List Phrase × Text.Span)}
    (h : Agrees P (more all) (more' all)) : Agrees P (prepend p more all) (prepend p more' all) :=
  h.bind fun _ _ _ => pure_agrees _

theorem moreArguments_agrees {all : List Item} (h : AgreeBelow P (all.length + 1) below below') :
    Agrees P (moreArguments below paren all) (moreArguments below' paren all) := by
  rw [moreArguments_eq, moreArguments_eq]
  refine (h 0 all (Nat.lt_succ_self _)).bind fun p n hp => next_agrees.bind fun ahead m hm => ?_
  cases ahead with
  | none => exact fail_agrees nofun
  | some u =>
    have hlt := next_lt hm
    have hdrop : ((all.drop n).drop m).length < all.length := by
      simp only [List.length_drop] at hlt ⊢
      omega
    by_cases hc : u.isSymbol .comma
    · simp only [hc, if_true]
      exact prepend_agrees (moreArguments_agrees (h.mono (by omega)))
    · by_cases hr : u.isSymbol .rightParen
      · simp only [hc, hr, if_true]
        exact pure_agrees _
      · simp only [hc, hr, Bool.false_eq_true, if_false]
        exact unexpected_agrees _
termination_by all.length
decreasing_by
  simp only [List.length_drop] at *
  omega

theorem arguments_agrees (h : AgreeBelow P (all.length + 1) below below') :
    Agrees P (arguments below paren all) (arguments below' paren all) := by
  rcases all with _ | ⟨f | u, rest⟩
  · exact (moreArguments_agrees h).after 0
  · exact .inr ⟨rfl, shallow_lexical f _⟩
  · by_cases hr : u.kind = .symbol .rightParen
    · rw [arguments_close hr, arguments_close hr]
      exact .inr ⟨rfl, shallow_ok _ _⟩
    · rw [arguments_more hr, arguments_more hr]
      exact moreArguments_agrees h

theorem named_agrees (h : AgreeBelow P all.length below below') :
    Agrees P (named below t all) (named below' t all) := by
  refine Agrees.bind peek_agrees fun ahead n hp => ?_
  obtain ⟨rfl, hahead⟩ := of_peek_ok hp
  rw [List.drop_zero]
  cases Binding.ofName? t.text with
  | none => exact fail_agrees nofun
  | some binding =>
    cases hfilter : ahead.filter (·.isSymbol .leftParen) with
    | none =>
      cases binding with
      | constant value => exact pure_agrees _
      | function f => exact fail_agrees nofun
    | some paren =>
      cases binding with
      | constant value => exact fail_agrees nofun
      | function f =>
        obtain ⟨hsome, -⟩ := Option.filter_eq_some_iff.mp hfilter
        obtain ⟨rest, rfl⟩ := hahead paren hsome
        refine next_agrees.bind fun _ m hn => ?_
        cases hn
        refine (arguments_agrees h).bind fun x k _ => ?_
        by_cases hl : x.1.length = f.arity
        · simp only [hl, if_true]
          exact pure_agrees _
        · simp only [hl, if_false]
          exact fail_agrees nofun

theorem closing_agrees : Agrees P (closing paren all) (closing paren all) := by
  refine next_agrees.bind fun ahead n _ => ?_
  cases ahead with
  | none => exact fail_agrees nofun
  | some u =>
    by_cases hr : u.isSymbol .rightParen
    · simp only [hr, if_true]
      exact pure_agrees _
    · simp only [hr, Bool.false_eq_true, if_false]
      exact unexpected_agrees _

def EndsAgree (P : Fault → Prop) (atEnd atEnd' : Text.Span) : Prop :=
  atEnd = atEnd' ∨ ∀ expected, P (.syntactic (.unexpectedEnd expected atEnd))

variable {atEnd atEnd' : Text.Span}

theorem operand_agrees (he : EndsAgree P atEnd atEnd') (h : AgreeBelow P all.length below below') :
    Agrees P (operand atEnd below all) (operand atEnd' below' all) := by
  rcases all with _ | ⟨f | t, rest⟩
  · rcases he with rfl | hP
    · exact .inr ⟨rfl, shallow_syntactic (by exact nofun) _⟩
    · exact .inl ⟨_, 0, rfl, hP .expression⟩
  · exact .inr ⟨rfl, shallow_lexical f _⟩
  · have hrest (power : Nat) : Agrees P (below power rest) (below' power rest) :=
      h power rest (Nat.lt_succ_self _)
    cases hk : t.kind with
    | number value =>
      rw [operand_number hk, operand_number hk]
      exact .inr ⟨rfl, shallow_ok _ _⟩
    | name =>
      rw [operand_name hk, operand_name hk]
      exact (named_agrees (h.mono (Nat.le_succ _))).after 1
    | symbol s =>
      by_cases hl : s = .leftParen
      · subst hl
        rw [operand_bracketed hk, operand_bracketed hk]
        exact ((hrest 0).bind fun _ _ _ => closing_agrees.bind fun _ _ _ => pure_agrees _).after 1
      · cases hop : PrefixOp.ofSymbol? s with
        | none =>
          rw [operand_unexpected hk hl hop, operand_unexpected hk hl hop]
          exact .inr ⟨rfl, shallow_syntactic (by exact nofun) _⟩
        | some op =>
          rw [operand_prefixed hk hl hop, operand_prefixed hk hl hop]
          exact ((hrest prefixPower).bind fun _ _ _ => pure_agrees _).after 1

theorem climb_agrees {all : List Item} {power : Nat} {left : Phrase}
    (h : AgreeBelow P all.length below below') :
    Agrees P (climb below power left all) (climb below' power left all) := by
  rw [climb.eq_def below, climb.eq_def below']
  match all, h with
  | [], _ => exact .inr ⟨rfl, shallow_ok _ _⟩
  | .error f :: _, _ => exact .inr ⟨rfl, shallow_lexical f _⟩
  | .ok t :: rest, h =>
    simp only
    cases Suffix.ofToken? t with
    | none => exact .inr ⟨rfl, shallow_ok _ _⟩
    | some suffix =>
      by_cases hlt : suffix.power < power
      · simp only [hlt, if_true]
        exact .inr ⟨rfl, shallow_ok _ _⟩
      · simp only [hlt, if_false]
        cases suffix with
        | factorial => exact (climb_agrees (h.mono (Nat.le_succ _))).after 1
        | binary op =>
          rcases h op.rightPower rest (Nat.lt_succ_self _) with ⟨f, n, hf, hP⟩ | ⟨heq, hs⟩
          · simp only [hf]
            exact .inl ⟨f, 1 + n, rfl, hP⟩
          · simp only [← heq]
            rcases hr : below op.rightPower rest with ⟨f | q, n⟩
            · rw [hr] at hs
              exact .inr ⟨rfl, hs.of_error _⟩
            · have hdrop : (rest.drop n).length ≤ (Except.ok t :: rest : List Item).length := by
                simp only [List.length_drop, List.length_cons]
                omega
              exact (climb_agrees (h.mono hdrop)).after (1 + n)
termination_by all.length
decreasing_by all_goals simp only [List.length_drop, List.length_cons]; omega

variable {limit limit' levels levels' power : Nat}

theorem phrase_agrees (he : EndsAgree P atEnd atEnd') (hl : levels ≤ levels')
    (h : (∀ f, f.TooDeep limit → P f) ∨ all.length < levels) :
    Agrees P (phrase limit atEnd levels power all) (phrase limit' atEnd' levels' power all) := by
  -- Operands and suffixes are preceded by a token, so one level further down fewer items are left.
  induction levels generalizing levels' power all with
  | zero =>
    rcases h with hP | hlt
    · exact .inl ⟨_, 0, rfl, hP _ ⟨_, rfl⟩⟩
    · exact absurd hlt (Nat.not_lt_zero _)
  | succ m ih =>
    obtain ⟨k, rfl⟩ : ∃ k, levels' = k + 1 := ⟨levels' - 1, by omega⟩
    have hbelow : AgreeBelow P all.length (phrase limit atEnd m) (phrase limit' atEnd' k) := by
      intro power' all' hlt
      exact ih (Nat.le_of_succ_le_succ hl) (h.imp id fun hm => by omega)
    rw [phrase, phrase]
    refine (operand_agrees he hbelow).bind fun left n _ => ?_
    exact climb_agrees (hbelow.mono (by rw [List.length_drop]; omega))

theorem whole_agrees {depth depth' : Nat} (he : EndsAgree P atEnd atEnd') (hl : depth ≤ depth')
    (h : (∀ f, f.TooDeep depth → P f) ∨ all.length < depth) :
    Agrees P (whole depth atEnd all) (whole depth' atEnd' all) := by
  refine (phrase_agrees he hl h).bind fun p n _ => next_agrees.bind fun ahead m _ => ?_
  cases ahead with
  | none => exact pure_agrees _
  | some u => exact fail_agrees nofun

end Parse

def Fault.TellsEnd : Fault → Prop
  | .syntactic (.unexpectedEnd ..) => True
  | .syntactic (.tooDeep ..) => True
  | _ => False

theorem Parse.whole_eq_of_ends {depth : Nat} {atEnd : Text.Span} {all : List Item}
    (h : ∀ f n, whole depth atEnd all = ⟨.error f, n⟩ → ¬f.TellsEnd) (atEnd' : Text.Span) :
    whole depth atEnd' all = whole depth atEnd all := by
  have hagrees : Agrees Fault.TellsEnd (whole depth atEnd all) (whole depth atEnd' all) := by
    refine whole_agrees (.inr fun _ => trivial) (Nat.le_refl depth) (.inl ?_)
    rintro f ⟨span, rfl⟩
    trivial
  rcases hagrees with ⟨f, n, hf, hend⟩ | ⟨heq, -⟩
  · exact absurd hend (h f n hf)
  · exact heq.symm

end Formula
