import Formula.Proofs.Parsing.Agreement
import Formula.Proofs.Parsing.Soundness

/-!
Faults of the parser name items that are there.
-/

namespace Formula

open Token (items)

inductive Given : List Token → Nat → Prop where
  | nothing : Given [] 0
  | arguments {ts : List Token} {ps : List Phrase} (h : Separated (Derives .comparison) ts ps) :
    Given ts ps.length

structure Called (all : List Item) (name : String) (given : Nat) (span : Text.Span)
    (t paren : Token) (inner : List Token) (close : Token) : Prop where
  infix_all : items (t :: (paren :: inner ++ [close])) <:+: all
  text_eq : t.text = name
  kind_open : paren.kind = .symbol .leftParen
  kind_close : close.kind = .symbol .rightParen
  span_eq : span = t.span.upTo close.span
  inner_given : Given inner given

def Read (all : List Item) (found : String) (span : Text.Span) : Prop :=
  ∃ t, .ok t ∈ all ∧ t.text = found ∧ t.span = span

def ReadBefore (all left : List Item) (found : String) (span : Text.Span) : Prop :=
  ∃ t, .ok t :: left <:+ all ∧ t.text = found ∧ t.span = span

theorem ReadBefore.read {all left : List Item} {found : String} {span : Text.Span}
    (h : ReadBefore all left found span) : Read all found span := by
  obtain ⟨t, ht, hfound, hspan⟩ := h
  exact ⟨t, ht.subset List.mem_cons_self, hfound, hspan⟩

/-- The fault speaks of an item, of the end or of a call, and says of it what is so. A name that is
reported is the last token before the items that are left, and a constant that is called has one behind
it. Where the limit on nesting is reached, it is the items that are left that count. -/
def Fault.Blames (atEnd : Text.Span) (all left : List Item) : Fault → Prop
  | .lexical f => .error f ∈ all
  | .syntactic (.unexpectedToken found _ span) => Read all found span
  | .syntactic (.unexpectedEnd _ span) => span = atEnd
  | .syntactic (.unclosedParen span) => ∃ t, .ok t ∈ all ∧ t.kind = .symbol .leftParen ∧ t.span = span
  | .syntactic (.trailingInput found span) => Read all found span
  | .syntactic (.unknownName name span) => ReadBefore all left name span
  | .syntactic (.constantCalled name span) => ReadBefore all left name span ∧ left ≠ []
  | .syntactic (.functionNotCalled name span) => ReadBefore all left name span
  | .syntactic (.arityMismatch name _ given span) =>
    ∃ t paren inner close, Called all name given span t paren inner close
  | .syntactic (.tooDeep _ span) => left <:+ all ∧ span = Parse.depthSpan atEnd left
  | .syntactic (.tooLong ..) => False
  | .domain _ => False

namespace Parse

def Reports (atEnd : Text.Span) (all : List Item) {α : Type} (p : Parse α) (rest : List Item) : Prop :=
  ∀ f n, p rest = ⟨.error f, n⟩ → f.Blames atEnd all (rest.drop n)

def ReportsBelow (atEnd : Text.Span) (all : List Item) (below : Below) : Prop :=
  ∀ power rest, rest <:+ all → Reports atEnd all (below power) rest

variable {atEnd : Text.Span} {all rest : List Item}

section

variable {α β : Type} {p : Parse α} {k : α → Parse β}

theorem Reports.bind (hp : Reports atEnd all p rest)
    (hk : ∀ x n, p rest = ⟨.ok x, n⟩ → Reports atEnd all (k x) (rest.drop n)) :
    Reports atEnd all (p >>= k) rest := by
  intro f n h
  rcases hr : p rest with ⟨g | x, m⟩
  · rw [bind_of_error hr] at h
    cases h
    exact hp _ _ hr
  · rw [bind_of_ok hr] at h
    obtain ⟨j, hj, rfl⟩ := Parsed.of_after_eq h
    rw [← List.drop_drop]
    exact hk x m hr f j hj

theorem reports_pure (x : α) : Reports atEnd all (Pure.pure x) rest :=
  fun _ _ h => nomatch h

theorem reports_fail {f : Fault} (hf : f.Blames atEnd all rest) : Reports atEnd all (fail f : Parse α) rest := by
  intro g n h
  cases h
  exact hf

end

variable {below : Below} {t paren : Token}

theorem of_next_some {n : Nat} (h : next rest = ⟨.ok (some t), n⟩) : ∃ us, rest = .ok t :: us ∧ n = 1 := by
  rcases rest with _ | ⟨f | u, us⟩
  · cases h
  · cases h
  · cases h
    exact ⟨us, rfl, rfl⟩

section

variable (h : rest <:+ all)

include h

theorem drop_suffix_all (n : Nat) : rest.drop n <:+ all := (List.drop_suffix n rest).trans h

theorem mem_of_next {n : Nat} (ht : next rest = ⟨.ok (some t), n⟩) : .ok t ∈ all := by
  obtain ⟨us, rfl, -⟩ := of_next_some ht
  exact h.subset List.mem_cons_self

theorem next_reports : Reports atEnd all next rest := by
  intro f n hf
  rcases rest with _ | ⟨g | t, us⟩
  · cases hf
  · cases hf
    exact h.subset List.mem_cons_self
  · cases hf

theorem peek_reports : Reports atEnd all peek rest := by
  intro f n hf
  rcases rest with _ | ⟨g | t, us⟩
  · cases hf
  · cases hf
    exact h.subset List.mem_cons_self
  · cases hf

end

section

variable (hp : .ok paren ∈ all) (ho : paren.kind = .symbol .leftParen)

include hp ho

theorem closing_reports (h : rest <:+ all) : Reports atEnd all (closing paren) rest := by
  refine (next_reports h).bind fun ahead n hnext => ?_
  cases ahead with
  | none => exact reports_fail ⟨paren, hp, ho, rfl⟩
  | some t =>
    by_cases hr : t.isSymbol .rightParen
    · simp only [hr, if_true]
      exact reports_pure _
    · simp only [hr, Bool.false_eq_true, if_false]
      exact reports_fail ⟨t, mem_of_next h hnext, rfl, rfl⟩

theorem moreArguments_reports (hb : ReportsBelow atEnd all below) {rest : List Item} (h : rest <:+ all) :
    Reports atEnd all (moreArguments below paren) rest := by
  rw [moreArguments_bind]
  refine (hb 0 rest h).bind fun p n _ => ?_
  have h := drop_suffix_all h n
  refine (next_reports h).bind fun ahead m hnext => ?_
  cases ahead with
  | none => exact reports_fail ⟨paren, hp, ho, rfl⟩
  | some t =>
    have hlt := next_lt hnext
    simp only
    by_cases hc : t.isSymbol .comma
    · simp only [hc, if_true]
      have hmore := moreArguments_reports hb (drop_suffix_all h m)
      exact hmore.bind fun _ _ _ => reports_pure _
    · by_cases hr : t.isSymbol .rightParen
      · simp only [hc, hr, if_true]
        exact reports_pure _
      · simp only [hc, hr, Bool.false_eq_true, if_false]
        exact reports_fail ⟨t, mem_of_next h hnext, rfl, rfl⟩
termination_by rest.length
decreasing_by
  simp only [List.length_drop] at *
  omega

theorem arguments_reports (hb : ReportsBelow atEnd all below) (h : rest <:+ all) :
    Reports atEnd all (arguments below paren) rest := by
  refine (peek_reports h).bind fun ahead n _ => ?_
  have h := drop_suffix_all h n
  cases ahead.filter (·.isSymbol .rightParen) with
  | none => exact moreArguments_reports hp ho hb h
  | some close => exact (next_reports h).bind fun _ _ _ => reports_pure _

end

theorem arguments_given {ps : List Phrase} {close : Text.Span} {n : Nat} (hs : Sound 0 (below 0))
    (h : arguments below paren rest = ⟨.ok (ps, close), n⟩) :
    ∃ inner t after, rest = items (inner ++ [t]) ++ after ∧ t.kind = .symbol .rightParen ∧
      close = t.span ∧ Given inner ps.length := by
  rcases arguments_sound h with ⟨t, after, rfl, ht, rfl, -, rfl⟩ | hmore
  · exact ⟨[], t, after, rfl, ht, rfl, .nothing⟩
  · obtain ⟨ts, t, after, rfl, ht, rfl, -, hgiven, -⟩ := moreArguments_sound hs hmore
    exact ⟨ts, t, after, by simp, ht, rfl, .arguments hgiven⟩

theorem named_reports (hb : ReportsBelow atEnd all below) (hs : Sound 0 (below 0))
    (h : .ok t :: rest <:+ all) : Reports atEnd all (named below t) rest := by
  have hread : ReadBefore all rest t.text t.span := ⟨t, h, rfl, rfl⟩
  have hrest : rest <:+ all := drop_suffix_all h 1
  refine (peek_reports hrest).bind fun ahead n hpeek => ?_
  obtain ⟨rfl, hahead⟩ := of_peek_ok hpeek
  cases Binding.ofName? t.text with
  | none => exact reports_fail hread
  | some binding =>
    cases hfilter : ahead.filter (·.isSymbol .leftParen) with
    | none =>
      cases binding with
      | constant value => exact reports_pure _
      | function f => exact reports_fail hread
    | some paren =>
      obtain ⟨hsome, hparen⟩ := Option.filter_eq_some_iff.mp hfilter
      obtain ⟨us, rfl⟩ := hahead paren hsome
      cases binding with
      | constant value => exact reports_fail ⟨hread, List.cons_ne_nil _ _⟩
      | function f =>
        have ho := isSymbol_iff.mp hparen
        have hp : .ok paren ∈ all := hrest.subset List.mem_cons_self
        refine (next_reports hrest).bind fun _ m hnext => ?_
        cases hnext
        have hus : us <:+ all := drop_suffix_all hrest 1
        refine (arguments_reports hp ho hb hus).bind fun x k hargs => ?_
        by_cases hn : x.1.length = f.arity
        · simp only [hn, if_true]
          exact reports_pure _
        · simp only [hn, if_false]
          obtain ⟨inner, close, after, hitems, hc, hspan, hgiven⟩ := arguments_given hs hargs
          have hus : us = items (inner ++ [close]) ++ after := hitems
          refine reports_fail ⟨t, paren, inner, close, ?_, rfl, ho, hc, by rw [hspan], hgiven⟩
          refine List.IsInfix.trans ?_ h.isInfix
          rw [hus]
          exact ⟨[], after, by simp⟩

theorem operand_reports (hb : ReportsBelow atEnd all below) (hs : Sound 0 (below 0)) (h : rest <:+ all) :
    Reports atEnd all (operand atEnd below) rest := by
  refine (next_reports h).bind fun ahead n hnext => ?_
  cases ahead with
  | none => exact reports_fail rfl
  | some t =>
    have ht := mem_of_next h hnext
    obtain ⟨us, rfl, rfl⟩ := of_next_some hnext
    have hus : us <:+ all := drop_suffix_all h 1
    simp only
    cases hk : t.kind with
    | number value => exact reports_pure _
    | name => exact named_reports hb hs h
    | symbol x =>
      by_cases hl : x = .leftParen
      · subst hl
        refine (hb 0 us hus).bind fun p m _ => ?_
        exact (closing_reports ht hk (drop_suffix_all hus m)).bind fun _ _ _ => reports_pure _
      · cases hop : PrefixOp.ofSymbol? x with
        | none =>
          simp only [hop]
          exact reports_fail ⟨t, ht, rfl, rfl⟩
        | some op =>
          simp only [hop]
          exact (hb prefixPower us hus).bind fun _ _ _ => reports_pure _

theorem climb_reports {power : Nat} {left : Phrase} (hb : ReportsBelow atEnd all below)
    {rest : List Item} (h : rest <:+ all) : Reports atEnd all (climb below power left) rest := by
  rw [climb_eq]
  refine (peek_reports h).bind fun ahead n hpeek => ?_
  obtain ⟨rfl, hahead⟩ := of_peek_ok hpeek
  cases ahead with
  | none => exact reports_pure _
  | some t =>
    simp only
    cases Suffix.ofToken? t with
    | none => exact reports_pure _
    | some suffix =>
      by_cases hlt : suffix.power < power
      · simp only [hlt, if_true]
        exact reports_pure _
      · simp only [hlt, if_false]
        obtain ⟨us, hrest⟩ := hahead t rfl
        refine (next_reports h).bind fun _ m hnext => ?_
        have hus := drop_suffix_all h m
        rw [hrest] at hnext
        cases hnext
        cases suffix with
        | factorial => exact climb_reports hb hus
        | binary op =>
          refine (hb op.rightPower _ hus).bind fun right k _ => ?_
          exact climb_reports hb (drop_suffix_all hus k)
termination_by rest.length
decreasing_by
  all_goals
    have hlength := congrArg List.length hrest
    simp only [List.length_drop, List.length_cons] at hlength ⊢
    omega

variable {limit maxDepth levels : Nat}

theorem depthSpan_cases (atEnd : Text.Span) (items : List Item) :
    (∃ t, .ok t ∈ items ∧ t.span = depthSpan atEnd items) ∨ depthSpan atEnd items = atEnd := by
  rcases items with _ | ⟨f | t, more⟩
  · exact .inr rfl
  · exact .inr rfl
  · exact .inl ⟨t, List.mem_cons_self, rfl⟩

theorem phrase_reports : ReportsBelow atEnd all (phrase limit atEnd levels) := by
  induction levels with
  | zero =>
    intro power rest h f n hf
    cases hf
    exact ⟨h, rfl⟩
  | succ levels ih =>
    intro power rest h
    refine (operand_reports ih (phrase_sound (Nat.zero_le _)) h).bind fun left n _ => ?_
    exact climb_reports ih (drop_suffix_all h n)

theorem whole_reports (h : rest <:+ all) : Reports atEnd all (whole maxDepth atEnd) rest := by
  refine (phrase_reports 0 rest h).bind fun p n _ => ?_
  have h := drop_suffix_all h n
  refine (next_reports h).bind fun ahead m hnext => ?_
  cases ahead with
  | none => exact reports_pure _
  | some t => exact reports_fail ⟨t, mem_of_next h hnext, rfl, rfl⟩

end Parse

end Formula
