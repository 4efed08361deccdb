import Formula.Parser.Reader
import Formula.Proofs.Parsing.Agreement
import Formula.Proofs.Parsing.Climbing
import Formula.Proofs.Scanning.Cursor

namespace Formula.Reader

open Parse (Below)

structure Moved (s : List Char) (bound used : Nat) (r r' : Reader) : Prop where
  unread_eq : r'.unread = r.unread.drop used
  within : r.cursor.Within s → r'.cursor.Within s
  depth_eq : r'.depth = r.depth
  le_peak : r.peak ≤ r'.peak
  peak_le : r'.peak ≤ max r.peak bound

section

variable {α β : Type} {s : List Char} {bound m n : Nat} {a : Action α} {k : α → Action β} {p : Parse α}
  {q : α → Parse β} {r r' r'' : Reader}

theorem Moved.refl (r : Reader) : Moved s bound 0 r r :=
  ⟨rfl, id, rfl, Nat.le_refl _, Nat.le_max_left _ _⟩

theorem Moved.trans (h : Moved s bound m r r') (h' : Moved s bound n r' r'') :
    Moved s bound (m + n) r r'' := by
  refine ⟨?_, fun hin => h'.within (h.within hin), h'.depth_eq.trans h.depth_eq,
    Nat.le_trans h.le_peak h'.le_peak, ?_⟩
  · rw [h'.unread_eq, h.unread_eq, List.drop_drop]
  · have hfirst := h.peak_le
    have hsecond := h'.peak_le
    omega

theorem bind_of_ok {x : α} (h : a r = some (.ok x, r')) : (a >>= k) r = k x r' := by
  change (a r).bind _ = _
  rw [h]
  rfl

theorem bind_of_error {f : Fault} (h : a r = some (.error f, r')) :
    (a >>= k) r = some (.error f, r') := by
  change (a r).bind _ = _
  rw [h]
  rfl

theorem of_bind_ok {y : β} (h : (a >>= k) r = some (.ok y, r'')) :
    ∃ x r', a r = some (.ok x, r') ∧ k x r' = some (.ok y, r'') := by
  rcases ha : a r with _ | ⟨f | x, r'⟩
  · change (a r).bind _ = _ at h
    rw [ha] at h
    cases h
  · rw [bind_of_error ha] at h
    cases h
  · rw [bind_of_ok ha] at h
    exact ⟨x, r', rfl, h⟩

theorem deeper_of_run {x : Except Fault α} (h : a r.enter = some (x, r')) (hleave : r'.leave = some r'') :
    deeper a r = some (x, r'') := by
  change (a r.enter).bind _ = _
  rw [h]
  change (r'.leave).bind _ = _
  rw [hleave]
  rfl

theorem of_deeper {x : Except Fault α} (h : deeper a r = some (x, r')) :
    ∃ behind, a r.enter = some (x, behind) ∧ behind.leave = some r' := by
  change (a r.enter).bind _ = _ at h
  rcases ha : a r.enter with _ | ⟨y, behind⟩
  · rw [ha] at h
    cases h
  · rw [ha] at h
    change (behind.leave).bind _ = _ at h
    rcases hleave : behind.leave with _ | last
    · rw [hleave] at h
      cases h
    · rw [hleave] at h
      cases h
      exact ⟨behind, rfl, hleave⟩

theorem peak_of_leave (h : r.leave = some r') : r'.peak = r.peak := by
  unfold leave at h
  split at h
  · cases h
  · cases h
    rfl

def Follows (s : List Char) (bound : Nat) (a : Action α) (p : Parse α) (r : Reader) : Prop :=
  ∃ r', a r = some ((p r.unread).result, r') ∧ Moved s bound (p r.unread).used r r'

theorem Follows.bind (ha : Follows s bound a p r)
    (hk : ∀ x n r', p r.unread = ⟨.ok x, n⟩ → Moved s bound n r r' → Follows s bound (k x) (q x) r') :
    Follows s bound (a >>= k) (p >>= q) r := by
  obtain ⟨r', hrun, hmoved⟩ := ha
  rcases hp : p r.unread with ⟨f | x, n⟩
  · rw [hp] at hrun hmoved
    rw [Follows, Parse.bind_of_error hp]
    exact ⟨r', bind_of_error hrun, hmoved⟩
  · rw [hp] at hrun hmoved
    obtain ⟨r'', hnext, hmoved'⟩ := hk x n r' hp hmoved
    rw [hmoved.unread_eq] at hnext hmoved'
    rw [Follows, Parse.bind_of_ok hp]
    exact ⟨r'', (bind_of_ok hrun).trans hnext, hmoved.trans hmoved'⟩

theorem Follows.of_run {x : Except Fault α} (h : Follows s bound a p r) (hrun : a r = some (x, r')) :
    ∃ n, p r.unread = ⟨x, n⟩ ∧ Moved s bound n r r' := by
  obtain ⟨r'', hrun', hmoved⟩ := h
  rcases hp : p r.unread with ⟨result, n⟩
  rw [hp] at hrun' hmoved
  cases hrun'.symm.trans hrun
  exact ⟨n, rfl, hmoved⟩

theorem follows_pure (x : α) : Follows s bound (Pure.pure x) (Pure.pure x) r :=
  ⟨r, rfl, .refl r⟩

theorem follows_throw (f : Fault) : Follows s bound (throw f : Action α) (Parse.fail f) r :=
  ⟨r, rfl, .refl r⟩

def fewer (r : Reader) (a : Action α) : Action α := fun r' =>
  if r'.unread.length < r.unread.length then a r' else none

theorem follows_recurring {σ : Type} {body : (σ → Action α) → σ → Action α} {x : σ}
    (h : Follows s bound (body (fun y => fewer r (recurring body y)) x) p r) :
    Follows s bound (recurring body x) p r := by
  rw [Follows, recurring]
  exact h

theorem Follows.fewer (h : Follows s bound a p r') (hlt : r'.unread.length < r.unread.length) :
    Follows s bound (fewer r a) p r' := by
  rw [Follows, Reader.fewer, if_pos hlt]
  exact h

end

variable {s : List Char} {bound : Nat} {r : Reader} {paren t : Token}

theorem next_follows : Follows s bound next Parse.next r := by
  obtain ⟨hhead, htail⟩ := r.cursor.next_eq
  refine ⟨{ r with cursor := r.cursor.next.2 }, ?_, ?_, Cursor.Within.next, rfl, Nat.le_refl _,
    Nat.le_max_left _ _⟩
  · change some (token? r.cursor.next.1, _) = _
    rw [hhead]
    change some (token? r.unread.head?, _) = _
    rcases r.unread with _ | ⟨f | u, rest⟩ <;> rfl
  · change r.cursor.next.2.unread = _
    rw [htail]
    change r.unread.tail = _
    rcases r.unread with _ | ⟨f | u, rest⟩ <;> rfl

theorem peek_follows : Follows s bound peek Parse.peek r := by
  refine ⟨{ r with cursor := r.cursor.peek.2 }, ?_, r.cursor.unread_peek, Cursor.Within.peek, rfl,
    Nat.le_refl _, Nat.le_max_left _ _⟩
  change some (token? r.cursor.peek.1, _) = _
  rw [r.cursor.peek_fst, r.cursor.next_eq.1]
  change some (token? r.unread.head?, _) = _
  unfold Parse.peek
  rcases r.unread with _ | ⟨f | u, rest⟩ <;> rfl

theorem closing_follows : Follows s bound (closing paren) (Parse.closing paren) r := by
  refine next_follows.bind fun ahead n r' _ _ => ?_
  cases ahead with
  | none => exact follows_throw _
  | some t =>
    by_cases hr : t.isSymbol .rightParen
    · simp only [hr, if_true]
      exact follows_pure _
    · simp only [hr, Bool.false_eq_true, if_false]
      exact follows_throw _

variable {limit m d : Nat} {atEnd : Text.Span} {below : Below} {inner : Nat → Action Phrase}

/-- At the given depth, where fewer than `m` items are not read yet, expressions are read as the parser
of phrases one level further down has them. -/
def FollowsBelow (s : List Char) (bound d m : Nat) (inner : Nat → Action Phrase) (below : Below) : Prop :=
  ∀ power r, r.depth = d → r.unread.length < m → Follows s bound (inner power) (below power) r

theorem Moved.length_le {n : Nat} {r' : Reader} (h : Moved s bound n r r') :
    r'.unread.length ≤ r.unread.length := by
  rw [h.unread_eq, List.length_drop]
  exact Nat.sub_le _ _

theorem Moved.length_lt {n : Nat} {r' : Reader} (h : Moved s bound n r r')
    (ht : Parse.next r.unread = ⟨.ok (some t), n⟩) : r'.unread.length < r.unread.length := by
  rw [h.unread_eq]
  exact Parse.next_lt ht

theorem moreArguments_follows (h : FollowsBelow s bound d m inner below) (r : Reader)
    (hd : r.depth = d) (hm : r.unread.length < m) :
    Follows s bound (moreArguments inner paren) (Parse.moreArguments below paren) r := by
  rw [moreArguments, Parse.moreArguments_bind]
  apply follows_recurring
  refine (h 0 r hd hm).bind fun p n r₁ _ h₁ => next_follows.bind fun ahead k r₂ hnext h₂ => ?_
  cases ahead with
  | none => exact follows_throw _
  | some t =>
    have hlt := h₂.length_lt hnext
    have hle := h₁.length_le
    have hd₂ : r₂.depth = d := (h₂.depth_eq.trans h₁.depth_eq).trans hd
    by_cases hc : t.isSymbol .comma
    · simp only [hc, if_true]
      have hmore := (moreArguments_follows h r₂ hd₂ (by omega)).fewer (show _ < r.unread.length by omega)
      refine hmore.bind fun x j r₃ _ _ => ?_
      exact follows_pure _
    · by_cases hr : t.isSymbol .rightParen
      · simp only [hc, hr, if_true]
        exact follows_pure _
      · simp only [hc, hr, Bool.false_eq_true, if_false]
        exact follows_throw _
termination_by r.unread.length

theorem arguments_follows (h : FollowsBelow s bound d m inner below) (hd : r.depth = d)
    (hm : r.unread.length < m) :
    Follows s bound (arguments inner paren) (Parse.arguments below paren) r := by
  rw [arguments]
  refine peek_follows.bind fun ahead n r₁ _ h₁ => ?_
  cases ahead.filter (·.isSymbol .rightParen) with
  | none =>
    exact moreArguments_follows h r₁ (h₁.depth_eq.trans hd) (Nat.lt_of_le_of_lt h₁.length_le hm)
  | some close => exact next_follows.bind fun _ _ _ _ _ => follows_pure _

theorem named_follows (h : FollowsBelow s bound d m inner below) (hd : r.depth = d)
    (hm : r.unread.length < m) :
    Follows s bound (named inner t) (Parse.named below t) r := by
  rw [named]
  refine peek_follows.bind fun ahead n r₁ _ h₁ => ?_
  cases Binding.ofName? t.text with
  | none => exact follows_throw _
  | some binding =>
    cases ahead.filter (·.isSymbol .leftParen) with
    | none =>
      cases binding with
      | constant value => exact follows_pure _
      | function f => exact follows_throw _
    | some paren =>
      cases binding with
      | constant value => exact follows_throw _
      | function f =>
        refine next_follows.bind fun _ _ r₂ _ h₂ => ?_
        have hd₂ : r₂.depth = d := (h₂.depth_eq.trans h₁.depth_eq).trans hd
        have hm₂ : r₂.unread.length < m :=
          Nat.lt_of_le_of_lt (Nat.le_trans h₂.length_le h₁.length_le) hm
        refine (arguments_follows h hd₂ hm₂).bind fun x _ r₃ _ _ => ?_
        by_cases hn : x.1.length = f.arity
        · simp only [hn, if_true]
          exact follows_pure _
        · simp only [hn, if_false]
          exact follows_throw _

theorem operand_follows (h : FollowsBelow s bound d m inner below) (hd : r.depth = d)
    (hm : r.unread.length ≤ m) :
    Follows s bound (operand atEnd inner) (Parse.operand atEnd below) r := by
  rw [operand]
  refine next_follows.bind fun ahead n r₁ hnext h₁ => ?_
  cases ahead with
  | none => exact follows_throw _
  | some t =>
    have hd₁ : r₁.depth = d := h₁.depth_eq.trans hd
    have hm₁ : r₁.unread.length < m := Nat.lt_of_lt_of_le (h₁.length_lt hnext) hm
    simp only
    cases hk : t.kind with
    | number value => exact follows_pure _
    | name => exact named_follows h hd₁ hm₁
    | symbol x =>
      by_cases hl : x = .leftParen
      · subst hl
        exact (h 0 r₁ hd₁ hm₁).bind fun _ _ _ _ _ => closing_follows.bind fun _ _ _ _ _ => follows_pure _
      · cases hop : PrefixOp.ofSymbol? x with
        | none =>
          simp only [hop]
          exact follows_throw _
        | some op =>
          simp only [hop]
          exact (h prefixPower r₁ hd₁ hm₁).bind fun _ _ _ _ _ => follows_pure _

theorem climb_follows {power : Nat} {left : Phrase} (h : FollowsBelow s bound d m inner below)
    (r : Reader) (hd : r.depth = d) (hm : r.unread.length ≤ m) :
    Follows s bound (climb inner power left) (Parse.climb below power left) r := by
  rw [climb, Parse.climb_eq]
  apply follows_recurring
  refine peek_follows.bind fun ahead n r₁ hpeek h₁ => ?_
  obtain ⟨rfl, hahead⟩ := Parse.of_peek_ok hpeek
  cases ahead with
  | none => exact follows_pure _
  | some t =>
    simp only
    cases Suffix.ofToken? t with
    | none => exact follows_pure _
    | some suffix =>
      by_cases hlt : suffix.power < power
      · simp only [hlt, if_true]
        exact follows_pure _
      · simp only [hlt, if_false]
        refine next_follows.bind fun _ k r₂ hnext h₂ => ?_
        obtain ⟨rest, hall⟩ := hahead t rfl
        have hunread : r₁.unread = .ok t :: rest := h₁.unread_eq.trans hall
        rw [hunread] at hnext
        cases hnext
        have hd₂ : r₂.depth = d := (h₂.depth_eq.trans h₁.depth_eq).trans hd
        have hlt₂ : r₂.unread.length < r.unread.length := by
          rw [h₂.unread_eq, hunread, hall]
          exact Nat.lt_succ_self _
        cases suffix with
        | factorial => exact (climb_follows h r₂ hd₂ (by omega)).fewer hlt₂
        | binary op =>
          refine (h op.rightPower r₂ hd₂ (by omega)).bind fun right j r₃ _ h₃ => ?_
          have hle₃ := h₃.length_le
          exact (climb_follows h r₃ (h₃.depth_eq.trans hd₂) (by omega)).fewer (by omega)
termination_by r.unread.length

theorem opened_follows {power : Nat} (h : FollowsBelow s bound d r.unread.length inner below)
    (hd : r.depth = d) :
    Follows s bound (opened atEnd inner power)
      (Parse.operand atEnd below >>= Parse.climb below power) r := by
  refine (operand_follows h hd (Nat.le_refl _)).bind fun left n r₁ _ h₁ => ?_
  exact climb_follows h r₁ (h₁.depth_eq.trans hd) h₁.length_le

theorem tooDeep_follows {levels power : Nat} (hl : levels = 0) :
    Follows s bound (tooDeep limit atEnd) (Parse.phrase limit atEnd levels power) r := by
  subst hl
  refine ⟨{ r with cursor := r.cursor.peek.2 }, ?_, r.cursor.unread_peek, Cursor.Within.peek, rfl,
    Nat.le_refl _, Nat.le_max_left _ _⟩
  have hspan : aheadSpan atEnd r.cursor.peek.1 = Parse.depthSpan atEnd r.unread := by
    rw [r.cursor.peek_fst, r.cursor.next_eq.1]
    change aheadSpan atEnd r.unread.head? = _
    rcases r.unread with _ | ⟨f | u, rest⟩ <;> rfl
  exact congrArg (fun span => some (Except.error (Fault.syntactic (.tooDeep limit span)), _)) hspan

theorem leave_of_depth {k : Nat} (h : r.depth = k + 1) : r.leave = some { r with depth := k } := by
  unfold leave
  rw [h]

theorem Follows.deeper {a : Action Phrase} {q : Parse Phrase} (hb : r.depth + 1 ≤ bound)
    (h : Follows s bound a q r.enter) : Follows s bound (deeper a) q r := by
  obtain ⟨r', hrun, hmoved⟩ := h
  have hleave := leave_of_depth hmoved.depth_eq
  refine ⟨{ r' with depth := r.depth }, deeper_of_run hrun hleave, hmoved.unread_eq, hmoved.within, rfl,
    Nat.le_trans (Nat.le_max_left _ _) hmoved.le_peak, ?_⟩
  have hpeak : r'.peak ≤ max (max r.peak (r.depth + 1)) bound := hmoved.peak_le
  change r'.peak ≤ _
  omega

theorem expression_follows {levels : Nat} (hl : limit - d = levels)
    (hb : min (max limit d + 1) (d + m) ≤ bound) :
    FollowsBelow s bound d m (expression limit atEnd) (Parse.phrase limit atEnd levels) := by
  -- One level further down at least one item less is left, so the sum of `d` and `m` does not grow.
  induction levels generalizing d m with
  | zero =>
    intro power r hd hm
    have hdeep : limit < r.enter.depth := by
      change limit < r.depth + 1
      omega
    apply follows_recurring
    refine Follows.deeper (by omega) ?_
    rw [Follows, if_pos hdeep]
    exact tooDeep_follows rfl
  | succ levels ih =>
    intro power r hd hm
    have hdeep : ¬limit < r.enter.depth := by
      change ¬limit < r.depth + 1
      omega
    have hdepth : r.enter.depth = d + 1 := congrArg (· + 1) hd
    have hlength : r.unread.length ≤ m - 1 := Nat.le_sub_one_of_lt hm
    have hexpression : FollowsBelow s bound (d + 1) (m - 1) (expression limit atEnd)
        (Parse.phrase limit atEnd levels) := ih (by omega) (by omega)
    have hbelow : FollowsBelow s bound (d + 1) r.unread.length
        (fun power => fewer r (expression limit atEnd power)) (Parse.phrase limit atEnd levels) :=
      fun power r' hd' hlt => (hexpression power r' hd' (by omega)).fewer hlt
    apply follows_recurring
    refine Follows.deeper (by omega) ?_
    rw [Follows, if_neg hdeep, Parse.phrase]
    exact opened_follows hbelow hdepth

theorem whole_follows (hd : r.depth = 0) (hb : min (limit + 1) (r.unread.length + 1) ≤ bound) :
    Follows s bound (whole limit atEnd) (Parse.whole limit atEnd) r := by
  have hbelow : FollowsBelow s bound 0 (r.unread.length + 1) (expression limit atEnd) (Parse.phrase limit atEnd limit) :=
    expression_follows (Nat.sub_zero limit) (by omega)
  refine (hbelow 0 r hd (Nat.lt_succ_self _)).bind fun p n r₁ _ _ => next_follows.bind fun ahead k r₂ _ _ => ?_
  cases ahead with
  | none => exact follows_pure _
  | some t => exact follows_throw _

theorem parse_of_too_long {limits : Limits} {length : Nat} (h : limits.maxLength < length) :
    r.parse limits length = some (.error (.syntactic (.tooLong length limits.maxLength)), r) :=
  if_pos h

theorem parse_of_whole {limits : Limits} {length : Nat} {x : Except Fault Phrase} {r' : Reader}
    (hl : length ≤ limits.maxLength) (h : whole limits.maxDepth ⟨length, 0⟩ r = some (x, r')) :
    r.parse limits length = some (x.map Phrase.expr, r') := by
  rw [parse, if_neg (Nat.not_lt.mpr hl), h]
  rfl

end Formula.Reader
