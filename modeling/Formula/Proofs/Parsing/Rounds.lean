import Formula.Proofs.Parsing.Reading

/-!
An action that may begin again only with fewer items left comes to the outcome that it would come to
without that condition. The loops of the parser, one round at a time.
-/

namespace Formula.Reader

section

variable {α β σ : Type} {a a' : Action α} {k k' : α → Action β} {r : Reader}

def Approximates (a a' : Action α) : Prop :=
  ∀ r outcome, a r = some outcome → a' r = some outcome

theorem Approximates.refl (a : Action α) : Approximates a a := fun _ _ => id

theorem Approximates.bind (h : Approximates a a') (hk : ∀ x, Approximates (k x) (k' x)) :
    Approximates (a >>= k) (a' >>= k') := by
  intro r outcome hrun
  rcases ha : a r with _ | ⟨f | x, r'⟩
  · change (a r).bind _ = _ at hrun
    rw [ha] at hrun
    cases hrun
  · rw [bind_of_error ha] at hrun
    rw [bind_of_error (h _ _ ha), hrun]
  · rw [bind_of_ok ha] at hrun
    rw [bind_of_ok (h _ _ ha)]
    exact hk x _ _ hrun

theorem fewer_approximates : Approximates (fewer r a) a := by
  intro r' outcome hrun
  by_cases hlt : r'.unread.length < r.unread.length
  · rwa [fewer, if_pos hlt] at hrun
  · rw [fewer, if_neg hlt] at hrun
    cases hrun

/-- The bodies of two recurring actions, of which the second one does what the first one does as long as
what begins again does. -/
def Extends (body body' : (σ → Action α) → σ → Action α) : Prop :=
  ∀ ⦃again again'⦄, (∀ y, Approximates (again y) (again' y)) →
    ∀ x, Approximates (body again x) (body' again' x)

variable {body body' : (σ → Action α) → σ → Action α}

theorem Extends.recurring (h : Extends body body') (x : σ) :
    Approximates (recurring body x) (recurring body' x) := by
  intro r
  -- On the items left: what begins again is asked for its outcome only where there are fewer.
  induction hn : r.unread.length using Nat.strongRecOn generalizing r x with
  | ind n ih =>
    intro outcome hrun
    rw [Reader.recurring] at hrun ⊢
    refine h (fun y r' outcome' hagain => ?_) x r outcome hrun
    by_cases hlt : r'.unread.length < r.unread.length
    · rw [if_pos hlt] at hagain ⊢
      exact ih _ (hn ▸ hlt) y r' rfl outcome' hagain
    · rw [if_neg hlt] at hagain
      cases hagain

theorem Extends.recurring_eq {x : σ} (h : Extends body body)
    (hends : ∀ r, ∃ outcome, Reader.recurring body x r = some outcome) :
    Reader.recurring body x = body (Reader.recurring body) x := by
  funext r
  obtain ⟨outcome, hrun⟩ := hends r
  have hfewer := hrun
  rw [Reader.recurring] at hfewer
  rw [hrun, h (fun y => fewer_approximates) x r outcome hfewer]

end

section

variable (inner : Nat → Action Phrase)

def argumentRound (paren : Token) : Action (Phrase × Option Text.Span) := do
  let p ← inner 0
  match ← next with
  | none => throw (.syntactic (.unclosedParen paren.span))
  | some t =>
    if t.isSymbol .comma then return (p, none)
    else if t.isSymbol .rightParen then return (p, some t.span)
    else unexpected t .commaOrClosingParen

def collect (again : Action (List Phrase × Text.Span)) :
    Phrase × Option Text.Span → Action (List Phrase × Text.Span)
  | (p, some close) => return ([p], close)
  | (p, none) => do
    let (ps, close) ← again
    return (p :: ps, close)

def climbRound (power : Nat) (left : Phrase) : Action (ForInStep Phrase) := do
  match ← peek with
  | none => return .done left
  | some t =>
    match Suffix.ofToken? t with
    | none => return .done left
    | some suffix =>
      if suffix.power < power then return .done left
      else
        let _ ← next
        match suffix with
        | .factorial => return .yield (.factorial left t.span)
        | .binary op =>
          let right ← inner op.rightPower
          return .yield (.binary op left right)

def goOn (again : Phrase → Action Phrase) : ForInStep Phrase → Action Phrase
  | .done p => return p
  | .yield p => again p

variable {inner} {inner' : Nat → Action Phrase} {paren t : Token} {power : Nat}

theorem moreArguments_eq : moreArguments inner paren =
    recurring (fun again _ => argumentRound inner paren >>= collect (again ())) () := by
  rw [moreArguments]
  congr
  funext again _
  rw [argumentRound, bind_assoc]
  congr
  funext p
  rw [bind_assoc]
  congr
  funext ahead
  cases ahead with
  | none => rfl
  | some t =>
    by_cases hc : t.isSymbol .comma
    · simp only [hc, if_true]
      rfl
    · by_cases hr : t.isSymbol .rightParen
      · simp only [hc, hr, if_true]
        rfl
      · simp only [hc, hr]
        rfl

theorem climb_eq : climb inner power =
    recurring fun again left => climbRound inner power left >>= goOn again := by
  funext left
  rw [climb]
  congr
  funext again left
  rw [climbRound, bind_assoc]
  congr
  funext ahead
  cases ahead with
  | none => rfl
  | some t =>
    simp only
    cases Suffix.ofToken? t with
    | none => rfl
    | some suffix =>
      by_cases hlt : suffix.power < power
      · simp only [hlt, if_true]
        rfl
      · simp only [hlt, if_false]
        rw [bind_assoc]
        congr
        funext _
        cases suffix with
        | factorial => rfl
        | binary op => rw [bind_assoc]; rfl

variable {limit : Nat} {atEnd : Text.Span} (h : ∀ power, Approximates (inner power) (inner' power))

include h

theorem argumentRound_approximates :
    Approximates (argumentRound inner paren) (argumentRound inner' paren) :=
  (h 0).bind fun _ => .refl _

theorem climbRound_approximates (left : Phrase) :
    Approximates (climbRound inner power left) (climbRound inner' power left) := by
  refine (Approximates.refl peek).bind fun ahead => ?_
  cases ahead with
  | none => exact .refl _
  | some t =>
    simp only
    cases Suffix.ofToken? t with
    | none => exact .refl _
    | some suffix =>
      by_cases hlt : suffix.power < power
      · simp only [hlt, if_true]
        exact .refl _
      · simp only [hlt, if_false]
        refine (Approximates.refl next).bind fun _ => ?_
        cases suffix with
        | factorial => exact .refl _
        | binary op => exact (h op.rightPower).bind fun _ => .refl _

theorem moreArguments_extends : Extends
    (fun again (_ : Unit) => argumentRound inner paren >>= collect (again ()))
    (fun again _ => argumentRound inner' paren >>= collect (again ())) := by
  intro again again' hagain _
  refine (argumentRound_approximates h).bind fun x => ?_
  obtain ⟨p, _ | close⟩ := x
  · exact (hagain ()).bind fun _ => .refl _
  · exact .refl _

theorem climb_extends : Extends (fun again left => climbRound inner power left >>= goOn again)
    (fun again left => climbRound inner' power left >>= goOn again) := by
  intro again again' hagain left
  refine (climbRound_approximates h left).bind fun x => ?_
  cases x with
  | done p => exact .refl _
  | yield p => exact hagain p

theorem arguments_approximates : Approximates (arguments inner paren) (arguments inner' paren) := by
  refine (Approximates.refl peek).bind fun ahead => ?_
  cases ahead.filter (·.isSymbol .rightParen) with
  | none =>
    simp only [moreArguments_eq]
    exact (moreArguments_extends h).recurring ()
  | some close => exact .refl _

theorem named_approximates : Approximates (named inner t) (named inner' t) := by
  refine (Approximates.refl peek).bind fun ahead => ?_
  cases Binding.ofName? t.text with
  | none => exact .refl _
  | some binding =>
    cases ahead.filter (·.isSymbol .leftParen) with
    | none => cases binding <;> exact .refl _
    | some paren =>
      cases binding with
      | constant value => exact .refl _
      | function f =>
        exact (Approximates.refl next).bind fun _ => (arguments_approximates h).bind fun _ => .refl _

theorem operand_approximates : Approximates (operand atEnd inner) (operand atEnd inner') := by
  refine (Approximates.refl next).bind fun ahead => ?_
  cases ahead with
  | none => exact .refl _
  | some t =>
    simp only
    cases hk : t.kind with
    | number value => exact .refl _
    | name => exact named_approximates h
    | symbol x =>
      by_cases hl : x = .leftParen
      · subst hl
        exact (h 0).bind fun _ => .refl _
      · cases hop : PrefixOp.ofSymbol? x with
        | none =>
          simp only [hop]
          exact .refl _
        | some op =>
          simp only [hop]
          exact (h prefixPower).bind fun _ => .refl _

theorem opened_approximates : Approximates (opened atEnd inner power) (opened atEnd inner' power) := by
  refine (operand_approximates h).bind fun left => ?_
  rw [climb_eq, climb_eq]
  exact (climb_extends h).recurring left

end

theorem Approximates.deeper {a a' : Action Phrase} (h : Approximates a a') :
    Approximates (deeper a) (deeper a') := by
  rintro r ⟨result, r'⟩ hrun
  obtain ⟨behind, ha, hleave⟩ := of_deeper hrun
  exact deeper_of_run (h _ _ ha) hleave

def level (limit : Nat) (atEnd : Text.Span) (inner : Nat → Action Phrase) (power : Nat) : Action Phrase :=
  deeper fun r => if limit < r.depth then tooDeep limit atEnd r else opened atEnd inner power r

theorem level_extends {limit : Nat} {atEnd : Text.Span} : Extends (level limit atEnd) (level limit atEnd) := by
  intro inner inner' h power
  refine Approximates.deeper fun r outcome hrun => ?_
  by_cases hdeep : limit < r.depth
  · rwa [if_pos hdeep] at hrun ⊢
  · rw [if_neg hdeep] at hrun ⊢
    exact opened_approximates h r outcome hrun

end Formula.Reader
