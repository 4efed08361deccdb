import Formula.Proofs.Parsing.Rounds

namespace Formula

theorem Parse.phrase_length_lt {limit levels power n : Nat} {atEnd : Text.Span} {all : List Item} {p : Phrase}
    (h : phrase limit atEnd levels power all = ⟨.ok p, n⟩) : (all.drop n).length < all.length := by
  rcases levels with _ | levels
  · cases h
  · obtain ⟨left, a, b, hoperand, -, rfl⟩ := of_bind_ok h
    obtain ⟨ahead, c, d, hnext, hrest, rfl⟩ := of_bind_ok hoperand
    rcases ahead with _ | t
    · cases hrest
    · have hlt := next_lt hnext
      simp only [List.length_drop] at hlt ⊢
      omega

namespace Reader

variable {α : Type} {limit power : Nat} {atEnd : Text.Span} {r r' : Reader} {paren t : Token}

theorem expression_follows_below (limit : Nat) (atEnd : Text.Span) (r : Reader) (m : Nat) :
    FollowsBelow [] (min (max limit r.depth + 1) (r.depth + m)) r.depth m (expression limit atEnd)
      (Parse.phrase limit atEnd (limit - r.depth)) :=
  expression_follows rfl (Nat.le_refl _)

theorem expression_follows_phrase (limit : Nat) (atEnd : Text.Span) (power : Nat) (r : Reader) :
    Follows [] (min (max limit r.depth + 1) (r.depth + r.unread.length + 1))
      (expression limit atEnd power) (Parse.phrase limit atEnd (limit - r.depth) power) r :=
  expression_follows_below limit atEnd r (r.unread.length + 1) power r rfl (Nat.lt_succ_self _)

theorem expression_ends (limit : Nat) (atEnd : Text.Span) (power : Nat) (r : Reader) :
    ∃ outcome, expression limit atEnd power r = some outcome := by
  obtain ⟨r', hrun, -⟩ := expression_follows_phrase limit atEnd power r
  exact ⟨_, hrun⟩

theorem climb_ends (limit : Nat) (atEnd : Text.Span) (power : Nat) (left : Phrase) (r : Reader) :
    ∃ outcome, climb (expression limit atEnd) power left r = some outcome := by
  have hbelow := expression_follows_below limit atEnd r r.unread.length
  obtain ⟨r', hrun, -⟩ := @climb_follows _ _ _ _ _ _ power left hbelow r rfl (Nat.le_refl _)
  exact ⟨_, hrun⟩

theorem moreArguments_ends (limit : Nat) (atEnd : Text.Span) (paren : Token) (r : Reader) :
    ∃ outcome, moreArguments (expression limit atEnd) paren r = some outcome := by
  have hbelow := expression_follows_below limit atEnd r (r.unread.length + 1)
  obtain ⟨r', hrun, -⟩ := @moreArguments_follows _ _ paren _ _ _ _ hbelow r rfl (Nat.lt_succ_self _)
  exact ⟨_, hrun⟩

theorem expression_eq_level : expression limit atEnd = level limit atEnd (expression limit atEnd) := by
  funext power
  exact level_extends.recurring_eq (expression_ends limit atEnd power)

theorem climb_eq_rounds {left : Phrase} : climb (expression limit atEnd) power left =
    climbRound (expression limit atEnd) power left >>= goOn (climb (expression limit atEnd) power) := by
  have hself (k : Nat) : Approximates (expression limit atEnd k) (expression limit atEnd k) := .refl _
  have hends := climb_ends limit atEnd power left
  rw [climb_eq] at hends ⊢
  exact (climb_extends hself).recurring_eq hends

theorem moreArguments_eq_rounds : moreArguments (expression limit atEnd) paren =
    argumentRound (expression limit atEnd) paren >>= collect (moreArguments (expression limit atEnd) paren) := by
  have hself (k : Nat) : Approximates (expression limit atEnd k) (expression limit atEnd k) := .refl _
  have hends := moreArguments_ends limit atEnd paren
  rw [moreArguments_eq] at hends ⊢
  exact (moreArguments_extends hself).recurring_eq hends

variable {result : Except Fault Phrase}

theorem depth_lt_peak (h : expression limit atEnd power r = some (result, r')) : r.depth < r'.peak := by
  rw [expression_eq_level] at h
  obtain ⟨behind, hrun, hleave⟩ := of_deeper h
  have hentered : r.depth + 1 ≤ r.enter.peak := Nat.le_max_right _ _
  have hbehind : r.enter.peak ≤ behind.peak := by
    by_cases hdeep : limit < r.enter.depth
    · rw [if_pos hdeep] at hrun
      cases hrun
      exact Nat.le_refl _
    · rw [if_neg hdeep] at hrun
      have hbelow := expression_follows_below limit atEnd r.enter r.enter.unread.length
      obtain ⟨n, -, hmoved⟩ := (opened_follows hbelow rfl).of_run hrun
      exact hmoved.le_peak
  rw [peak_of_leave hleave]
  exact Nat.le_trans hentered hbehind

structure Passed (limit : Nat) (r : Reader) (result : Except Fault Phrase) (r' : Reader) : Prop where
  depth_eq : r'.depth = r.depth
  unread_suffix : r'.unread <:+ r.unread
  unread_lt : ∀ p, result = .ok p → r'.unread.length < r.unread.length
  le_peak : r.peak ≤ r'.peak
  depth_lt_peak : r.depth < r'.peak
  peak_le : r'.peak ≤ max r.peak (min (max limit r.depth + 1) (r.depth + r.unread.length + 1))

theorem Passed.of_expression (h : expression limit atEnd power r = some (result, r')) :
    Passed limit r result r' := by
  obtain ⟨n, hphrase, hmoved⟩ := (expression_follows_phrase limit atEnd power r).of_run h
  refine ⟨hmoved.depth_eq, ?_, ?_, hmoved.le_peak, Reader.depth_lt_peak h, hmoved.peak_le⟩
  · rw [hmoved.unread_eq]
    exact List.drop_suffix _ _
  · rintro p rfl
    rw [hmoved.unread_eq]
    exact Parse.phrase_length_lt hphrase

theorem expression_passed (limit : Nat) (atEnd : Text.Span) (power : Nat) (r : Reader) :
    ∃ result r', expression limit atEnd power r = some (result, r') ∧ Passed limit r result r' := by
  obtain ⟨⟨result, r'⟩, hrun⟩ := expression_ends limit atEnd power r
  exact ⟨result, r', hrun, .of_expression hrun⟩

theorem length_lt_of_next (h : next r = some (.ok (some t), r')) : r'.unread.length < r.unread.length := by
  obtain ⟨n, hnext, hmoved⟩ := (@next_follows [] 0 r).of_run h
  exact hmoved.length_lt hnext

theorem length_lt_of_peek {ahead : Option Token} {middle : Reader}
    (h : peek r = some (.ok (some t), middle)) (h' : next middle = some (.ok ahead, r')) :
    r'.unread.length < r.unread.length := by
  obtain ⟨n, hpeek, hmoved⟩ := (@peek_follows [] 0 r).of_run h
  obtain ⟨rfl, hahead⟩ := Parse.of_peek_ok hpeek
  obtain ⟨rest, hall⟩ := hahead t rfl
  have hunread : middle.unread = .ok t :: rest := hmoved.unread_eq.trans hall
  obtain ⟨k, hnext, hmoved'⟩ := (@next_follows [] 0 middle).of_run h'
  rw [hunread] at hnext
  cases hnext
  rw [hmoved'.unread_eq, hunread, hall]
  exact Nat.lt_succ_self _

theorem argumentRound_length_lt {x : Phrase × Option Text.Span}
    (h : argumentRound (expression limit atEnd) paren r = some (.ok x, r')) :
    r'.unread.length < r.unread.length := by
  obtain ⟨p, r₁, hargument, hbehind⟩ := of_bind_ok h
  obtain ⟨ahead, r₂, hnext, hrest⟩ := of_bind_ok hbehind
  have hfirst := (Passed.of_expression hargument).unread_lt p rfl
  rcases ahead with _ | t
  · cases hrest
  · have hlast : r' = r₂ := by
      by_cases hc : t.isSymbol .comma
      · simp only [hc, if_true] at hrest
        cases hrest
        rfl
      · by_cases hr : t.isSymbol .rightParen
        · simp only [hc, hr, if_true] at hrest
          cases hrest
          rfl
        · simp only [hc, hr, Bool.false_eq_true, if_false] at hrest
          cases hrest
    rw [hlast]
    exact Nat.lt_trans (length_lt_of_next hnext) hfirst

theorem climbRound_length_lt {left p : Phrase}
    (h : climbRound (expression limit atEnd) power left r = some (.ok (.yield p), r')) :
    r'.unread.length < r.unread.length := by
  obtain ⟨ahead, r₁, hpeek, hround⟩ := of_bind_ok h
  rcases ahead with _ | t
  · cases hround
  · simp only at hround
    cases hs : Suffix.ofToken? t with
    | none =>
      rw [hs] at hround
      cases hround
    | some suffix =>
      simp only [hs] at hround
      by_cases hlt : suffix.power < power
      · simp only [hlt, if_true] at hround
        cases hround
      · simp only [hlt, if_false] at hround
        obtain ⟨_, r₂, hnext, hrest⟩ := of_bind_ok hround
        have htaken := length_lt_of_peek hpeek hnext
        cases suffix with
        | factorial =>
          cases hrest
          exact htaken
        | binary op =>
          obtain ⟨right, r₃, hright, hlast⟩ := of_bind_ok hrest
          cases hlast
          exact Nat.lt_trans ((Passed.of_expression hright).unread_lt right rfl) htaken

structure Ends (limit : Nat) (atEnd : Text.Span) : Prop where
  expression_eq : expression limit atEnd = level limit atEnd (expression limit atEnd)
  climb_eq : ∀ power left, climb (expression limit atEnd) power left =
    climbRound (expression limit atEnd) power left >>= goOn (climb (expression limit atEnd) power)
  moreArguments_eq : ∀ paren, moreArguments (expression limit atEnd) paren =
    argumentRound (expression limit atEnd) paren >>= collect (moreArguments (expression limit atEnd) paren)
  expression_passed : ∀ power r, ∃ result r', expression limit atEnd power r = some (result, r') ∧
    Passed limit r result r'
  climb_ends : ∀ power left r, ∃ outcome, climb (expression limit atEnd) power left r = some outcome
  moreArguments_ends : ∀ paren r, ∃ outcome, moreArguments (expression limit atEnd) paren r = some outcome
  climbRound_lt : ∀ power left r p r',
    climbRound (expression limit atEnd) power left r = some (.ok (.yield p), r') →
    r'.unread.length < r.unread.length
  argumentRound_lt : ∀ paren r x r', argumentRound (expression limit atEnd) paren r = some (.ok x, r') →
    r'.unread.length < r.unread.length

theorem ends (limit : Nat) (atEnd : Text.Span) : Ends limit atEnd where
  expression_eq := expression_eq_level
  climb_eq _ _ := climb_eq_rounds
  moreArguments_eq _ := moreArguments_eq_rounds
  expression_passed := Reader.expression_passed limit atEnd
  climb_ends := Reader.climb_ends limit atEnd
  moreArguments_ends := Reader.moreArguments_ends limit atEnd
  climbRound_lt _ _ _ _ _ := climbRound_length_lt
  argumentRound_lt _ _ _ _ := argumentRound_length_lt

structure Resting (limit count : Nat) (r : Reader) : Prop where
  depth_eq : r.depth = 0
  length_le : r.unread.length ≤ count
  peak_le : r.peak ≤ min (limit + 1) (count + 1)

variable {limits : Limits} {length count : Nat}

theorem Resting.parse (h : r.Resting limits.maxDepth count) :
    ∃ answer behind, r.parse limits length = some (answer, behind) ∧
      behind.Resting limits.maxDepth count := by
  by_cases hl : length ≤ limits.maxLength
  · have hlength := h.length_le
    have hb : min (limits.maxDepth + 1) (r.unread.length + 1) ≤ min (limits.maxDepth + 1) (count + 1) := by
      omega
    obtain ⟨behind, hrun, hmoved⟩ := @whole_follows [] _ r limits.maxDepth ⟨length, 0⟩ h.depth_eq hb
    refine ⟨_, behind, parse_of_whole hl hrun, hmoved.depth_eq.trans h.depth_eq,
      Nat.le_trans hmoved.length_le hlength, ?_⟩
    exact Nat.le_trans hmoved.peak_le (Nat.max_le.mpr ⟨h.peak_le, Nat.le_refl _⟩)
  · exact ⟨_, r, parse_of_too_long (Nat.not_le.mp hl), h⟩

theorem Resting.parseTimes (h : r.Resting limits.maxDepth count) (calls : Nat) :
    ∃ answers behind, parseTimes limits length calls r = some (answers, behind) ∧
      behind.Resting limits.maxDepth count := by
  induction calls generalizing r with
  | zero => exact ⟨[], r, rfl, h⟩
  | succ n ih =>
    obtain ⟨answer, middle, hfirst, hmiddle⟩ := @Resting.parse r limits length count h
    obtain ⟨answers, behind, hrest, hbehind⟩ := ih hmiddle
    refine ⟨answer :: answers, behind, ?_, hbehind⟩
    rw [Reader.parseTimes, hfirst]
    change Option.bind (Reader.parseTimes limits length n middle) _ = _
    rw [hrest]
    rfl

theorem resting_ofText (limit : Nat) (text : String) :
    (ofText text.toList).Resting limit (tokenize text).length :=
  ⟨rfl, Nat.le_refl _, Nat.zero_le _⟩

end Reader

theorem parsing_goes_forward :
    (∀ limit atEnd, Reader.Ends limit atEnd) ∧
    ∀ (limits : Limits) (text : String) (calls : Nat), ∃ answers r,
      Reader.parseTimes limits (Text.width text.toList) calls (.ofText text.toList) = some (answers, r) ∧
        r.depth = 0 ∧ r.peak ≤ min (limits.maxDepth + 1) ((tokenize text).length + 1) ∧
        (tokenize text).length ≤ Text.width text.toList := by
  refine ⟨Reader.ends, fun limits text calls => ?_⟩
  obtain ⟨answers, r, hrun, hresting⟩ := (Reader.resting_ofText limits.maxDepth text).parseTimes calls
  exact ⟨answers, r, hrun, hresting.depth_eq, hresting.peak_le,
    (Item.scanFrom_cut 0 text.toList).length_le_width⟩

end Formula
