import Formula.Proofs.Parsing.Climbing

/-!
How many items an outcome of the parser depends on. A token that is not expected, one behind a whole
expression, and the bracket behind a wrong number of arguments are the last items that are looked at.
-/

namespace Formula

def Item.lead : List Item → Nat
  | .ok _ :: rest => lead rest + 1
  | _ => 0

/-- How many items a fault depends on that is found after `used` of them have been used up. -/
def Fault.reach (all : List Item) (used : Nat) : Fault → Nat
  | .lexical _ => Item.lead all + 1
  | .syntactic (.unexpectedToken ..) => used
  | .syntactic (.trailingInput ..) => used
  | .syntactic (.arityMismatch ..) => used
  | _ => used + 1

def Parsed.reach {α : Type} (slack : Nat) (all : List Item) (r : Parsed α) : Nat :=
  match r.result with
  | .ok _ => r.used + slack
  | .error f => f.reach all r.used

namespace Parse

variable {α β : Type} {p : Parse α} {k : α → Parse β} {all rest : List Item} {m n : Nat}

def Reads (n : Nat) (p : Parse α) (all : List Item) : Prop :=
  ∀ all', all'.take n = all.take n → p all' = p all

theorem take_eq_of_le {all' : List Item} (h : all'.take n = all.take n) (hm : m ≤ n) :
    all'.take m = all.take m := by
  have htake := congrArg (List.take m) h
  rwa [List.take_take, List.take_take, Nat.min_eq_left hm] at htake

theorem Reads.mono (h : Reads m p all) (hm : m ≤ n) : Reads n p all := by
  intro all' hall
  exact h all' (take_eq_of_le hall hm)

theorem Reads.bind {x : α} {a : Nat} (hp : Reads m p all) (hx : p all = ⟨.ok x, a⟩)
    (hk : Reads n (k x) (all.drop a)) (hm : m ≤ a + n) : Reads (a + n) (p >>= k) all := by
  intro all' hall
  have hx' : p all' = ⟨.ok x, a⟩ := (hp all' (take_eq_of_le hall hm)).trans hx
  have hdrop : (all'.drop a).take n = (all.drop a).take n := by
    rw [List.take_drop, List.take_drop, hall]
  rw [bind_of_ok hx', bind_of_ok hx, hk _ hdrop]

theorem Reads.bind_error {f : Fault} {a : Nat} (hp : Reads n p all) (hf : p all = ⟨.error f, a⟩) :
    Reads n (p >>= k) all := by
  intro all' hall
  rw [bind_of_error ((hp all' hall).trans hf), bind_of_error hf]

/-- The outcome depends on no more items than its reach, no more items are used up than there are, and a
result uses up nothing but tokens. -/
structure Local (slack : Nat) (p : Parse α) (all : List Item) : Prop where
  reads : Reads ((p all).reach slack all) p all
  used_le_length : (p all).used ≤ all.length
  used_le : ∀ x n, p all = ⟨.ok x, n⟩ → n ≤ Item.lead all

theorem lead_drop (hn : n ≤ Item.lead all) : n + Item.lead (all.drop n) = Item.lead all := by
  induction n generalizing all with
  | zero => simp
  | succ n ih =>
    rcases all with _ | ⟨f | t, rest⟩
    · cases hn
    · cases hn
    · have hrest := ih (Nat.le_of_succ_le_succ hn)
      rw [List.drop_succ_cons, Item.lead]
      omega

theorem reach_after {slack : Nat} (r : Parsed α) (hn : n ≤ Item.lead all) :
    (r.after n).reach slack all = n + r.reach slack (all.drop n) := by
  have hlead := lead_drop hn
  rcases r with ⟨f | x, used⟩
  · rcases f with f | f | f
    · simp only [Parsed.after, Parsed.reach, Fault.reach]
      omega
    · cases f <;> simp only [Parsed.after, Parsed.reach, Fault.reach, Nat.add_assoc]
    · simp only [Parsed.after, Parsed.reach, Fault.reach, Nat.add_assoc]
  · simp only [Parsed.after, Parsed.reach, Nat.add_assoc]

theorem Local.bind {slack slack' : Nat} (hp : Local slack p all)
    (hk : ∀ x a, p all = ⟨.ok x, a⟩ → Local slack' (k x) (all.drop a) ∧
      slack ≤ (k x (all.drop a)).reach slack' (all.drop a)) : Local slack' (p >>= k) all := by
  have hlength := hp.used_le_length
  rcases hr : p all with ⟨f | x, a⟩
  · refine ⟨?_, ?_, fun y n h => ?_⟩
    · rw [bind_of_error hr]
      have hreads := hp.reads
      rw [hr] at hreads
      exact hreads.bind_error hr
    · rw [bind_of_error hr]
      rwa [hr] at hlength
    · rw [bind_of_error hr] at h
      cases h
  · obtain ⟨hlocal, hslack⟩ := hk x a hr
    have ha := hp.used_le x a hr
    refine ⟨?_, ?_, fun y n h => ?_⟩
    · rw [bind_of_ok hr, reach_after _ ha]
      have hreads := hp.reads
      rw [hr] at hreads
      exact hreads.bind hr hlocal.reads (Nat.add_le_add_left hslack a)
    · rw [hr] at hlength
      have hrest := hlocal.used_le_length
      rw [bind_of_ok hr, Parsed.after]
      rw [List.length_drop] at hrest
      exact Nat.add_le_of_le_sub' hlength hrest
    · rw [bind_of_ok hr] at h
      obtain ⟨b, hb, rfl⟩ := Parsed.of_after_eq h
      have hle := hlocal.used_le y b hb
      have hlead := lead_drop ha
      omega

theorem local_pure {slack : Nat} (x : α) : Local slack (Pure.pure x : Parse α) all := by
  refine ⟨fun _ _ => rfl, Nat.zero_le _, fun y n h => ?_⟩
  cases h
  exact Nat.zero_le _

theorem local_fail {slack : Nat} (f : Fault) : Local slack (fail f : Parse α) all := by
  refine ⟨fun _ _ => rfl, Nat.zero_le _, fun y n h => ?_⟩
  cases h

theorem Local.cons {slack : Nat} {t : Token} {q : Parse α}
    (hp : ∀ rest, p (.ok t :: rest) = (q rest).after 1) (hq : Local slack q rest) :
    Local slack p (.ok t :: rest) := by
  have hone : 1 ≤ Item.lead (.ok t :: rest) := Nat.le_add_left _ _
  refine ⟨?_, ?_, fun x n h => ?_⟩
  · rw [hp, reach_after _ hone]
    intro all' hall
    rw [Nat.add_comm] at hall
    rcases all' with _ | ⟨u, rest'⟩
    · cases hall
    · injection hall with hu htake
      subst hu
      rw [hp, hp, hq.reads rest' htake]
  · rw [hp, Parsed.after, List.length_cons, Nat.add_comm]
    exact Nat.succ_le_succ hq.used_le_length
  · rw [hp] at h
    obtain ⟨a, ha, rfl⟩ := Parsed.of_after_eq h
    have hle := hq.used_le x a ha
    rw [Item.lead]
    omega

theorem reads_nil : Reads 1 p [] := by
  intro all' hall
  rcases all' with _ | ⟨u, rest⟩
  · rfl
  · cases hall

theorem reads_one {x : Item} (h : ∀ rest rest', p (x :: rest) = p (x :: rest')) : Reads 1 p (x :: rest) := by
  intro all' hall
  rcases all' with _ | ⟨u, rest'⟩
  · cases hall
  · injection hall with hu _
    subst hu
    exact h _ _

theorem local_lexical {slack : Nat} {f : LexicalFault} {used : Nat}
    (h : ∀ rest, p (.error f :: rest) = ⟨.error (.lexical f), used⟩) (hu : used ≤ 1) :
    Local slack p (.error f :: rest) := by
  refine ⟨?_, ?_, fun x n hx => ?_⟩
  · rw [h]
    exact reads_one fun rest rest' => (h rest).trans (h rest').symm
  · rw [h]
    exact Nat.le_trans hu (Nat.le_add_left 1 _)
  · rw [h] at hx
    cases hx

theorem local_nil {slack : Nat} (hr : 1 ≤ (p []).reach slack []) (hu : (p []).used = 0) :
    Local slack p [] := by
  refine ⟨reads_nil.mono hr, Nat.le_of_eq hu, fun x n h => ?_⟩
  rw [h] at hu
  exact Nat.le_of_eq hu

theorem one_le_reach_of_used {slack : Nat} {r : Parsed α} (h : 1 ≤ r.used) : 1 ≤ r.reach slack all := by
  rcases r with ⟨f | x, used⟩
  · rcases f with f | f | f
    · exact Nat.le_add_left _ _
    · cases f <;> first | exact h | exact Nat.le_add_left _ _
    · exact Nat.le_add_left _ _
  · exact Nat.le_trans h (Nat.le_add_right _ _)

theorem one_le_reach_after {slack : Nat} (r : Parsed α) : 1 ≤ (r.after 1).reach slack all :=
  one_le_reach_of_used (Nat.le_add_right _ _)

theorem one_le_reach_bind {slack : Nat} (h : 1 ≤ (p all).reach 0 all) :
    1 ≤ ((p >>= k) all).reach slack all := by
  rcases hr : p all with ⟨f | x, a⟩
  · rw [hr] at h
    rw [bind_of_error hr]
    exact h
  · rw [hr] at h
    rw [bind_of_ok hr]
    exact one_le_reach_of_used (Nat.le_trans h (Nat.le_add_right _ _))

theorem peek_local : Local 1 peek all := by
  rcases all with _ | ⟨f | t, rest⟩
  · exact local_nil (Nat.le_refl _) rfl
  · exact local_lexical (fun _ => rfl) (Nat.zero_le _)
  · refine ⟨reads_one fun _ _ => rfl, Nat.zero_le _, fun x n h => ?_⟩
    rw [(of_peek_ok h).1]
    exact Nat.zero_le _

theorem next_bind_cons (k : Option Token → Parse β) (t : Token) (rest : List Item) :
    (next >>= k) (.ok t :: rest) = (k (some t) rest).after 1 :=
  bind_of_ok (next_cons t rest)

section

variable {slack : Nat} {k : Option Token → Parse β} {t : Token}

theorem next_bind_local_cons (h : Local slack (k (some t)) rest) : Local slack (next >>= k) (.ok t :: rest) :=
  .cons (fun rest => next_bind_cons k t rest) h

theorem one_le_reach_next_cons : 1 ≤ ((next >>= k) (.ok t :: rest)).reach slack all := by
  rw [next_bind_cons]
  exact one_le_reach_after _

theorem next_bind_local (hnil : 1 ≤ (k none []).reach slack []) (hu : (k none []).used = 0)
    (hcons : ∀ t rest, all = .ok t :: rest → Local slack (k (some t)) rest) :
    Local slack (next >>= k) all := by
  have hend : (next >>= k) [] = k none [] := Parsed.after_zero _
  rcases all with _ | ⟨f | t, rest⟩
  · exact local_nil (hend ▸ hnil) (hend ▸ hu)
  · exact local_lexical (fun _ => rfl) (Nat.le_refl _)
  · exact next_bind_local_cons (hcons t rest rfl)

theorem one_le_reach_next_bind (hnil : 1 ≤ (k none []).reach slack []) :
    1 ≤ ((next >>= k) all).reach slack all := by
  have hend : (next >>= k) [] = k none [] := Parsed.after_zero _
  rcases all with _ | ⟨f | t, rest⟩
  · exact hend ▸ hnil
  · exact Nat.le_add_left _ _
  · exact one_le_reach_next_cons

end

variable {below : Below} {paren t : Token}

theorem closing_local : Local 0 (closing paren) all := by
  refine next_bind_local (Nat.le_refl _) rfl fun t rest _ => ?_
  by_cases hr : t.isSymbol .rightParen
  · simp only [hr, if_true]
    exact local_pure ()
  · simp only [hr, Bool.false_eq_true, if_false]
    exact local_fail _

theorem one_le_reach_closing : 1 ≤ (closing paren all).reach 0 all :=
  one_le_reach_next_bind (Nat.le_refl _)

def LocalBelow (below : Below) : Prop :=
  ∀ power all, Local 1 (below power) all ∧ 1 ≤ (below power all).reach 1 all

theorem prepend_local {p : Phrase} {more : Parse (List Phrase × Text.Span)} (h : Local 0 more all) :
    Local 0 (prepend p more) all :=
  h.bind fun _ _ _ => ⟨local_pure _, Nat.zero_le _⟩

theorem afterArgument_local {p : Phrase}
    (h : ∀ t rest, all = .ok t :: rest → Local 0 (moreArguments below paren) rest) :
    Local 0 (afterArgument below paren p) all := by
  refine next_bind_local (Nat.le_refl _) rfl fun t rest hall => ?_
  by_cases hc : t.isSymbol .comma
  · simp only [hc, if_true]
    exact prepend_local (h t rest hall)
  · by_cases hr : t.isSymbol .rightParen
    · simp only [hc, hr, if_true]
      exact local_pure _
    · simp only [hc, hr, Bool.false_eq_true, if_false]
      exact local_fail _

theorem one_le_reach_afterArgument {p : Phrase} : 1 ≤ (afterArgument below paren p all).reach 0 all :=
  one_le_reach_next_bind (Nat.le_refl _)

theorem moreArguments_local {all : List Item} (h : LocalBelow below) :
    Local 0 (moreArguments below paren) all := by
  rw [moreArguments_bind]
  refine (h 0 all).1.bind fun p n _ => ⟨afterArgument_local fun t rest hd => ?_, one_le_reach_afterArgument⟩
  exact moreArguments_local h
termination_by all.length
decreasing_by
  have hl := congrArg List.length hd
  simp only [List.length_drop, List.length_cons] at hl
  omega

theorem one_le_reach_moreArguments (h : LocalBelow below) :
    1 ≤ (moreArguments below paren all).reach 0 all := by
  have hbelow := (h 0 all).2
  rw [moreArguments_eq]
  rcases hp : below 0 all with ⟨f | p, n⟩
  · rw [hp] at hbelow
    rw [bind_of_error hp]
    exact hbelow
  · have hlocal := (h 0 all).1.used_le p n hp
    rw [bind_of_ok hp, reach_after _ hlocal]
    exact Nat.le_trans one_le_reach_afterArgument (Nat.le_add_left _ _)

theorem arguments_local (h : LocalBelow below) : Local 0 (arguments below paren) all := by
  refine peek_local.bind fun ahead n hpeek => ?_
  obtain ⟨rfl, hahead⟩ := of_peek_ok hpeek
  rw [List.drop_zero]
  cases hfilter : ahead.filter (·.isSymbol .rightParen) with
  | none => exact ⟨moreArguments_local h, one_le_reach_moreArguments h⟩
  | some close =>
    obtain ⟨hsome, -⟩ := Option.filter_eq_some_iff.mp hfilter
    obtain ⟨rest, rfl⟩ := hahead close hsome
    exact ⟨next_bind_local_cons (local_pure _), one_le_reach_next_cons⟩

theorem named_local (h : LocalBelow below) : Local 1 (named below t) all := by
  refine peek_local.bind fun ahead n hpeek => ?_
  obtain ⟨rfl, hahead⟩ := of_peek_ok hpeek
  rw [List.drop_zero]
  cases Binding.ofName? t.text with
  | none => exact ⟨local_fail _, Nat.le_refl _⟩
  | some binding =>
    cases hfilter : ahead.filter (·.isSymbol .leftParen) with
    | none =>
      cases binding with
      | constant value => exact ⟨local_pure _, Nat.le_refl _⟩
      | function f => exact ⟨local_fail _, Nat.le_refl _⟩
    | some paren =>
      cases binding with
      | constant value => exact ⟨local_fail _, Nat.le_refl _⟩
      | function f =>
        obtain ⟨hsome, -⟩ := Option.filter_eq_some_iff.mp hfilter
        obtain ⟨rest, rfl⟩ := hahead paren hsome
        refine ⟨next_bind_local_cons ?_, one_le_reach_next_cons⟩
        refine (arguments_local h).bind fun x a _ => ⟨?_, Nat.zero_le _⟩
        by_cases hn : x.1.length = f.arity
        · simp only [hn, if_true]
          exact local_pure _
        · simp only [hn, if_false]
          exact local_fail _

variable {atEnd : Text.Span}

theorem operand_local (h : LocalBelow below) : Local 1 (operand atEnd below) all := by
  refine next_bind_local (Nat.le_refl _) rfl fun t rest _ => ?_
  simp only
  cases hk : t.kind with
  | number value => exact local_pure _
  | name => exact named_local h
  | symbol s =>
    by_cases hl : s = .leftParen
    · subst hl
      refine (h 0 rest).1.bind fun p n _ => ⟨?_, one_le_reach_bind one_le_reach_closing⟩
      exact closing_local.bind fun _ _ _ => ⟨local_pure _, Nat.zero_le _⟩
    · cases hop : PrefixOp.ofSymbol? s with
      | none =>
        simp only [hop]
        exact local_fail _
      | some op =>
        simp only [hop]
        exact (h prefixPower rest).1.bind fun _ _ _ => ⟨local_pure _, Nat.le_refl _⟩

theorem one_le_reach_operand : 1 ≤ (operand atEnd below all).reach 0 all :=
  one_le_reach_next_bind (Nat.le_refl _)

variable {power : Nat} {left : Phrase}

theorem one_le_reach_climb : 1 ≤ (climb below power left all).reach 1 all := by
  rw [climb_eq]
  rcases all with _ | ⟨f | t, rest⟩
  · exact Nat.le_refl _
  · exact Nat.le_add_left _ _
  · rw [climbOnce, bind_of_ok (peek_cons t rest), List.drop_zero, Parsed.after_zero]
    simp only
    cases Suffix.ofToken? t with
    | none => exact Nat.le_refl _
    | some suffix =>
      by_cases hlt : suffix.power < power
      · simp only [hlt, if_true]
        exact Nat.le_refl _
      · simp only [hlt, if_false]
        exact one_le_reach_next_cons

theorem climb_local {all : List Item} {left : Phrase} (h : LocalBelow below) :
    Local 1 (climb below power left) all := by
  rw [climb_eq]
  refine peek_local.bind fun ahead n hpeek => ?_
  obtain ⟨rfl, hahead⟩ := of_peek_ok hpeek
  rw [List.drop_zero]
  cases ahead with
  | none => exact ⟨local_pure _, Nat.le_refl _⟩
  | some t =>
    obtain ⟨rest, hall⟩ := hahead t rfl
    rw [hall]
    simp only
    cases Suffix.ofToken? t with
    | none => exact ⟨local_pure _, Nat.le_refl _⟩
    | some suffix =>
      by_cases hlt : suffix.power < power
      · simp only [hlt, if_true]
        exact ⟨local_pure _, Nat.le_refl _⟩
      · simp only [hlt, if_false]
        refine ⟨next_bind_local_cons ?_, one_le_reach_next_cons⟩
        cases suffix with
        | factorial => exact climb_local h
        | binary op =>
          refine (h op.rightPower rest).1.bind fun right n _ => ?_
          exact ⟨climb_local h, one_le_reach_climb⟩
termination_by all.length
decreasing_by
  all_goals
    have hlength := congrArg List.length hall
    simp only [List.length_drop, List.length_cons] at hlength ⊢
    omega

variable {limit levels maxDepth : Nat}

theorem phrase_local : LocalBelow (phrase limit atEnd levels) := by
  induction levels with
  | zero =>
    -- Only the place that is reported depends on the items, and on the first one alone.
    intro power all
    refine ⟨⟨?_, Nat.zero_le _, fun x n h => nomatch h⟩, Nat.le_refl _⟩
    rcases all with _ | ⟨x, rest⟩
    · exact reads_nil
    · exact reads_one fun _ _ => by cases x <;> rfl
  | succ levels ih =>
    intro power all
    have hlocal : Local 1 (phrase limit atEnd (levels + 1) power) all :=
      (operand_local ih).bind fun left n _ => ⟨climb_local ih, one_le_reach_climb⟩
    exact ⟨hlocal, one_le_reach_bind one_le_reach_operand⟩

def finish (p : Phrase) : Parse Phrase := do
  match ← next with
  | none => return p
  | some t => fail (.syntactic (.trailingInput t.text t.span))

theorem finish_local {p : Phrase} : Local 1 (finish p) all := by
  exact next_bind_local (Nat.le_refl _) rfl fun t rest _ => local_fail _

theorem one_le_reach_finish {p : Phrase} : 1 ≤ (finish p all).reach 1 all :=
  one_le_reach_next_bind (Nat.le_refl _)

theorem whole_local : Local 1 (whole maxDepth atEnd) all :=
  (phrase_local 0 all).1.bind fun _ _ _ => ⟨finish_local, one_le_reach_finish⟩

end Parse

end Formula
