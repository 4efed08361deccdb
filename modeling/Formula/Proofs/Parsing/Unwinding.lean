import Formula.Proofs.Grammar.Unclosed
import Formula.Proofs.Parsing.Locality
import Formula.Proofs.Parsing.Shortfall
import Formula.Proofs.Parsing.Soundness

/-!
Where the parser reports a bracket that is not closed, that is the innermost one that is open at the end
of the text. Closing brackets behind the text lead the parser out of all brackets that it is in.
-/

namespace Formula.Parse

open Token (items drop_items items_snoc items_cons_append unclosed unclosed_append unclosed_within
  unclosed_open unclosed_name unclosed_symbol)

inductive Shut : List Item → Prop where
  | nil : Shut []
  | close {t : Token} (rest : List Item) (ht : t.kind = .symbol .rightParen) : Shut (.ok t :: rest)

def Passes {α : Type} (n : Nat) (r : Parsed α) : Prop :=
  (∃ x, r = ⟨.ok x, n⟩) ∨ ∃ f m, r = ⟨.error f, m⟩ ∧ f.Mismatch

def Completes {α : Type} (p : Parse α) (ts : List Token) : Prop :=
  ∀ tail, Shut tail → Passes ts.length (p (items ts ++ tail))

def Closers (cs : List Token) : Prop := ∀ c ∈ cs, c.kind = .symbol .rightParen

/-- Behind the tokens some brackets are open, the innermost one at `span`, where those in `outer` are open
before them. With a closing bracket for each the action completes. -/
def LeftOpen {α : Type} (outer : List Token) (p : Parse α) (all : List Item) (span : Text.Span) : Prop :=
  ∃ ts stack, all = items ts ∧ unclosed outer ts = some stack ∧ stack.head?.map Token.span = some span ∧
    ∀ cs, cs.length = stack.length → Closers cs → Completes p (ts ++ cs)

def Unwinds {α : Type} (outer : List Token) (p : Parse α) (all : List Item) : Prop :=
  ∀ span n, p all = ⟨.error (.syntactic (.unclosedParen span)), n⟩ → LeftOpen outer p all span

section

variable {α β : Type} {p q : Parse α} {k : α → Parse β} {all rest : List Item}
  {outer inner ts : List Token} {paren t : Token} {span : Text.Span} {m n : Nat}

theorem Passes.after {r : Parsed α} (h : Passes n r) (m : Nat) : Passes (m + n) (r.after m) := by
  rcases h with ⟨x, rfl⟩ | ⟨f, j, rfl, hf⟩
  · exact .inl ⟨x, rfl⟩
  · exact .inr ⟨f, m + j, rfl, hf⟩

theorem Passes.bind (h : Passes m (p all)) (hk : ∀ x, Passes n (k x (all.drop m))) :
    Passes (m + n) ((p >>= k) all) := by
  rcases h with ⟨x, hx⟩ | ⟨f, j, hf, hmismatch⟩
  · rw [bind_of_ok hx]
    exact (hk x).after m
  · rw [bind_of_error hf]
    exact .inr ⟨f, j, rfl, hmismatch⟩

theorem LeftOpen.cons (h : LeftOpen inner q rest span) (ho : unclosed outer [t] = some inner)
    (hrun : ∀ more, p (.ok t :: more) = (q more).after 1) : LeftOpen outer p (.ok t :: rest) span := by
  obtain ⟨ts, stack, rfl, hstack, hspan, hcs⟩ := h
  refine ⟨t :: ts, stack, rfl, ?_, hspan, fun cs hlength hc tail ht => ?_⟩
  · rw [← List.singleton_append, unclosed_append, ho]
    exact hstack
  · rw [List.cons_append, items_cons_append, hrun, List.length_cons, Nat.add_comm]
    exact (hcs cs hlength hc tail ht).after 1

theorem LeftOpen.bind (h : LeftOpen outer p all span)
    (hk : ∀ x tail, Shut tail → Passes 0 (k x tail)) : LeftOpen outer (p >>= k) all span := by
  obtain ⟨ts, stack, rfl, hstack, hspan, hcs⟩ := h
  refine ⟨ts, stack, rfl, hstack, hspan, fun cs hlength hc tail ht => ?_⟩
  refine (hcs cs hlength hc tail ht).bind (n := 0) fun x => ?_
  rw [drop_items]
  exact hk x tail ht

theorem LeftOpen.closed (h : LeftOpen [] p all span)
    (hk : ∀ x close tail, close.kind = .symbol .rightParen → Passes 1 (k x (.ok close :: tail))) :
    LeftOpen [paren] (p >>= k) all span := by
  obtain ⟨ts, stack, rfl, hstack, hspan, hcs⟩ := h
  refine ⟨ts, stack ++ [paren], rfl, unclosed_within hstack [paren], ?_, fun cs hlength hc tail _ => ?_⟩
  · rcases stack with _ | ⟨u, stack⟩
    · cases hspan
    · exact hspan
  · rcases cs.eq_nil_or_concat with rfl | ⟨cs, close, rfl⟩
    · simp at hlength
    · rw [List.concat_eq_append] at hlength hc ⊢
      obtain ⟨hbefore, hclose⟩ := List.forall_mem_append.mp hc
      have hclose : close.kind = .symbol .rightParen := hclose close (List.mem_singleton_self _)
      have hpasses := hcs cs (by simpa using hlength) hbefore _ (.close tail hclose)
      rw [← List.append_assoc, items_snoc, List.length_append]
      refine hpasses.bind fun x => ?_
      rw [drop_items]
      exact hk x close tail hclose

theorem leftOpen_nil (h : ∀ close tail, close.kind = .symbol .rightParen → Passes 1 (p (.ok close :: tail))) :
    LeftOpen [paren] p [] paren.span := by
  refine ⟨[], [paren], rfl, rfl, rfl, fun cs hlength hc tail _ => ?_⟩
  obtain ⟨close, rfl⟩ := List.length_eq_one_iff.mp hlength
  exact h close tail (hc close (List.mem_singleton_self _))

def Extends (rest more : List Item) : Prop := more.head? = rest.head? ∨ rest = [] ∧ Shut more

theorem LeftOpen.behind {x : α} (h : LeftOpen outer (k x) rest span) (hb : Token.Balanced ts)
    (hp : ∀ more, Extends rest more → p (items ts ++ more) = ⟨.ok x, ts.length⟩) :
    LeftOpen outer (p >>= k) (items ts ++ rest) span := by
  obtain ⟨us, stack, rfl, hstack, hspan, hcs⟩ := h
  refine ⟨ts ++ us, stack, (Token.items_append ts us).symm, ?_, hspan, fun cs hlength hc tail ht => ?_⟩
  · rw [unclosed_append, hb.unclosed_eq]
    exact hstack
  · have hmore : Extends (items us) (items (us ++ cs) ++ tail) := by
      rcases us with _ | ⟨u, us⟩
      · rcases cs with _ | ⟨c, cs⟩
        · obtain rfl := List.eq_nil_of_length_eq_zero hlength.symm
          cases hspan
        · exact .inr ⟨rfl, .close _ (hc c List.mem_cons_self)⟩
      · exact .inl rfl
    rw [List.append_assoc, Token.items_append, List.append_assoc, bind_of_ok (hp _ hmore), drop_items,
      List.length_append]
    exact (hcs cs hlength hc tail ht).after ts.length

theorem Unwinds.cons (h : Unwinds inner q rest) (ho : unclosed outer [t] = some inner)
    (hrun : ∀ more, p (.ok t :: more) = (q more).after 1) : Unwinds outer p (.ok t :: rest) := by
  intro span n hp
  rw [hrun] at hp
  obtain ⟨m, hq, -⟩ := Parsed.of_after_eq hp
  exact (h span m hq).cons ho hrun

theorem Unwinds.last (h : Unwinds outer p all) (hk : ∀ x rest, Passes 0 (k x rest)) :
    Unwinds outer (p >>= k) all := by
  intro span n hp
  rcases of_bind_error hp with hfirst | ⟨x, a, b, -, hsecond, -⟩
  · exact (h span n hfirst).bind fun x tail _ => hk x tail
  · rcases hk x (all.drop a) with ⟨y, hy⟩ | ⟨f, m, hf, name, arity, given, call, rfl⟩
    · cases hsecond.symm.trans hy
    · cases hsecond.symm.trans hf

theorem passes_pure (x : α) : Passes 0 ((Pure.pure x : Parse α) all) := .inl ⟨x, rfl⟩

theorem Local.ok_of_head {x : α} {more : List Item} (h : Local 1 p (items ts ++ rest))
    (hp : p (items ts ++ rest) = ⟨.ok x, ts.length⟩) (hmore : more.head? = rest.head?) :
    p (items ts ++ more) = ⟨.ok x, ts.length⟩ := by
  have hreads := h.reads
  rw [hp] at hreads
  refine (hreads _ ?_).trans hp
  change (items ts ++ more).take (ts.length + 1) = (items ts ++ rest).take (ts.length + 1)
  rw [← Token.length_items, List.take_length_add_append, List.take_length_add_append, List.take_one,
    List.take_one, hmore]

end

structure UnwindsBelow (below : Below) : Prop where
  sound : ∀ k ≤ Layer.signed.floor, Sound k (below k)
  isLocal : LocalBelow below
  steady : ∀ p ts rest more, below 0 (items ts ++ rest) = ⟨.ok p, ts.length⟩ → Extends rest more →
    below 0 (items ts ++ more) = ⟨.ok p, ts.length⟩
  unwinds : ∀ k ≤ Layer.signed.floor, ∀ all, Unwinds [] (below k) all

variable {below : Below} {paren t : Token} {all rest : List Item} {span : Text.Span} {n : Nat}

theorem UnwindsBelow.closed {α : Type} {k : Phrase → Parse α} (hb : UnwindsBelow below)
    (hclose : ∀ x close tail, close.kind = .symbol .rightParen → Passes 1 (k x (.ok close :: tail)))
    (hk : ∀ x n, below 0 all = ⟨.ok x, n⟩ → Unwinds [paren] (k x) (all.drop n)) :
    Unwinds [paren] (below 0 >>= k) all := by
  intro span n h
  rcases of_bind_error h with hfirst | ⟨x, a, b, hx, hsecond, -⟩
  · exact (hb.unwinds 0 (Nat.zero_le _) all span n hfirst).closed hclose
  · have hopen := hk x a hx span b hsecond
    obtain ⟨ts, rest, l, rfl, rfl, hd, -, -, -⟩ := hb.sound 0 (Nat.zero_le _) _ _ _ hx
    rw [drop_items] at hopen
    exact hopen.behind hd.balanced fun more => hb.steady x ts rest more hx

theorem closing_passes {α : Type} {x : α} {close : Token} (hc : close.kind = .symbol .rightParen)
    (tail : List Item) : Passes 1 ((closing t >>= fun _ => Pure.pure x) (.ok close :: tail)) := by
  rw [bind_of_ok (closing_ok hc)]
  exact .inl ⟨x, rfl⟩

theorem closing_unwinds {α : Type} {x : α} : Unwinds [t] (closing t >>= fun _ => Pure.pure x) all := by
  intro span n h
  rcases of_bind_error h with hfirst | ⟨_, _, _, _, hpure, -⟩
  · rcases all with _ | ⟨f | u, us⟩
    · cases hfirst
      exact leftOpen_nil fun close tail hc => closing_passes hc tail
    · cases hfirst
    · change (next >>= _) _ = _ at hfirst
      rw [bind_of_ok (next_cons u us)] at hfirst
      simp only at hfirst
      split at hfirst <;> cases hfirst
  · cases hpure

theorem bracketed_unwinds (hb : UnwindsBelow below) :
    Unwinds [t] (below 0 >>= fun p => closing t >>= fun _ => Pure.pure (Phrase.bracketed p)) all :=
  hb.closed (fun _ _ tail hc => closing_passes hc tail) fun _ _ _ => closing_unwinds

theorem afterArgument_comma {p : Phrase} (hc : t.kind = .symbol .comma) (more : List Item) :
    afterArgument below paren p (.ok t :: more) = (prepend p (moreArguments below paren) more).after 1 := by
  change (next >>= _) _ = _
  rw [bind_of_ok (next_cons t more)]
  simp only [isSymbol_of_kind hc]
  rfl

theorem afterArgument_close {p : Phrase} (hc : t.kind = .symbol .rightParen) (more : List Item) :
    afterArgument below paren p (.ok t :: more) = ⟨.ok ([p], t.span), 1⟩ := by
  change (next >>= _) _ = _
  rw [bind_of_ok (next_cons t more)]
  simp only [isSymbol_of_kind hc]
  rfl

theorem afterArgument_unwinds {p : Phrase}
    (h : ∀ u us, all = .ok u :: us → Unwinds [paren] (moreArguments below paren) us) :
    Unwinds [paren] (afterArgument below paren p) all := by
  rcases all with _ | ⟨f | u, us⟩
  · intro span n hrun
    cases hrun
    exact leftOpen_nil fun close tail hc => .inl ⟨_, afterArgument_close hc tail⟩
  · intro span n hrun
    cases hrun
  · by_cases hcomma : u.isSymbol .comma
    · have hc := isSymbol_iff.mp hcomma
      have hmore : Unwinds [paren] (prepend p (moreArguments below paren)) us :=
        (h u us rfl).last fun x _ => passes_pure (p :: x.1, x.2)
      exact hmore.cons (unclosed_symbol hc (by decide) (by decide)) fun more => afterArgument_comma hc more
    · intro span n hrun
      change (next >>= _) _ = _ at hrun
      rw [bind_of_ok (next_cons u us)] at hrun
      by_cases hr : u.isSymbol .rightParen
      · simp only [hcomma, hr, if_true] at hrun
        cases hrun
      · simp only [hcomma, hr, Bool.false_eq_true, if_false] at hrun
        cases hrun

theorem moreArguments_unwinds {all : List Item} (hb : UnwindsBelow below) :
    Unwinds [paren] (moreArguments below paren) all := by
  rw [moreArguments_bind]
  refine hb.closed (fun p close tail hc => .inl ⟨_, afterArgument_close hc tail⟩) fun p n _ => ?_
  exact afterArgument_unwinds fun u us hdrop => moreArguments_unwinds hb
termination_by all.length
decreasing_by
  have hlength := congrArg List.length hdrop
  simp only [List.length_drop, List.length_cons] at hlength
  omega

theorem arguments_unwinds (hb : UnwindsBelow below) : Unwinds [paren] (arguments below paren) all := by
  intro span n h
  rcases all with _ | ⟨f | t, rest⟩
  · have hmore : moreArguments below paren [] = _ := (Parsed.after_zero _).symm.trans h
    obtain ⟨ts, stack, hnil, hstack, hspan, -⟩ := moreArguments_unwinds hb span n hmore
    obtain rfl : ts = [] := List.map_eq_nil_iff.mp hnil.symm
    cases hstack
    cases hspan
    exact leftOpen_nil fun close tail hc => .inl ⟨_, arguments_close hc⟩
  · cases h
  · by_cases ht : t.kind = .symbol .rightParen
    · rw [arguments_close ht] at h
      cases h
    · rw [arguments_more ht] at h
      obtain ⟨ts, stack, hall, hstack, hspan, hcs⟩ := moreArguments_unwinds hb span n h
      refine ⟨ts, stack, hall, hstack, hspan, fun cs hlength hc tail htail => ?_⟩
      have hpasses := hcs cs hlength hc tail htail
      rcases ts with _ | ⟨u, us⟩
      · cases hall
      · cases hall
        rwa [List.cons_append, items_cons_append, arguments_more ht]

theorem named_unwinds (hb : UnwindsBelow below) : Unwinds [] (named below t) all := by
  intro span n h
  rcases of_bind_error h with hpeek | ⟨ahead, a, b, hpeek, hk, -⟩
  · rcases all with _ | ⟨f | u, us⟩ <;> cases hpeek
  · obtain ⟨rfl, hahead⟩ := of_peek_ok hpeek
    cases hbinding : Binding.ofName? t.text with
    | none =>
      simp only [hbinding] at hk
      cases hk
    | some binding =>
      cases hfilter : ahead.filter (·.isSymbol .leftParen) with
      | none =>
        simp only [hbinding, hfilter] at hk
        cases binding <;> cases hk
      | some paren =>
        cases binding with
        | constant value =>
          simp only [hbinding, hfilter] at hk
          cases hk
        | function f =>
          obtain ⟨hsome, hparen⟩ := Option.filter_eq_some_iff.mp hfilter
          obtain ⟨rest, rfl⟩ := hahead paren hsome
          have ho := isSymbol_iff.mp hparen
          refine Unwinds.cons ((arguments_unwinds hb).last fun x rest => ?_) (unclosed_open ho)
            (fun more => named_function hbinding ho) span n h
          by_cases hn : x.1.length = f.arity
          · simp only [hn, if_true]
            exact passes_pure _
          · simp only [hn, if_false]
            exact .inr ⟨_, _, rfl, _, _, _, _, rfl⟩

theorem operand_unwinds {atEnd : Text.Span} (hb : UnwindsBelow below) :
    Unwinds [] (operand atEnd below) all := by
  rcases all with _ | ⟨f | t, rest⟩
  · intro span n h
    cases h
  · intro span n h
    cases h
  · cases hk : t.kind with
    | number value =>
      intro span n h
      rw [operand_number hk] at h
      cases h
    | name => exact (named_unwinds hb).cons (unclosed_name hk) fun more => operand_name hk
    | symbol s =>
      by_cases hl : s = .leftParen
      · subst hl
        exact (bracketed_unwinds hb).cons (unclosed_open hk) fun more => operand_bracketed hk
      · cases hop : PrefixOp.ofSymbol? s with
        | none =>
          intro span n h
          rw [operand_unexpected hk hl hop] at h
          cases h
        | some op =>
          have hr : s ≠ .rightParen := (Layer.mem_signs (Layer.mem_signs_of_prefixOp hop)).2.2
          have hoperand := (hb.unwinds prefixPower (by decide) rest).last
            (k := fun p => Pure.pure (Phrase.prefixed op p)) fun p _ => passes_pure _
          exact hoperand.cons (unclosed_symbol hk hl hr) fun more => operand_prefixed hk hl hop

theorem climb_of_shut {power : Nat} {p : Phrase} {tail : List Item} (h : Shut tail) :
    climb below power p tail = ⟨.ok p, 0⟩ := by
  cases h with
  | nil => exact climb_of_stops trivial
  | close rest ht => exact climb_of_stops (ends_of_symbol ht (by decide) rfl).stops

theorem climb_unwinds {power : Nat} {left : Phrase} (hb : UnwindsBelow below) :
    Unwinds [] (climb below power left) all := by
  intro span n h
  fun_induction climb below power left all generalizing n with
  | case1 | case2 | case3 | case4 => cases h
  | case5 left t rest hx hlt ih =>
    obtain ⟨s, hk, hs⟩ := kind_of_suffix hx
    obtain ⟨ho, hc⟩ := Layer.not_paren_of_suffix hs
    obtain rfl := bang_of_suffix hs
    obtain ⟨m, hm, -⟩ := Parsed.of_after_eq h
    exact (ih m hm).cons (unclosed_symbol hk ho hc) fun more =>
      climb_bang hk (Nat.not_lt.mp hlt)
  | case6 left t rest op f used hq hx hlt =>
    cases h
    obtain ⟨s, hk, hs⟩ := kind_of_suffix hx
    obtain ⟨ho, hc⟩ := Layer.not_paren_of_suffix hs
    have hopen := (hb.unwinds op.rightPower (Layer.rightPower_le op) rest span used hq).bind
      (k := afterRight below power op left) fun right tail ht => .inl ⟨_, climb_of_shut ht⟩
    exact hopen.cons (unclosed_symbol hk ho hc) fun more =>
      climb_binary_bind hk hs (Nat.not_lt.mp hlt)
  | case7 left t rest op q used hq hx hlt ih =>
    obtain ⟨s, hk, hs⟩ := kind_of_suffix hx
    obtain ⟨ho, hc⟩ := Layer.not_paren_of_suffix hs
    obtain ⟨m, hm, -⟩ := Parsed.of_after_eq h
    have hopen := ih m hm
    obtain ⟨us, after, l, rfl, rfl, hd, -, -, -⟩ := hb.sound _ (Layer.rightPower_le op) _ _ _ hq
    rw [drop_items] at hopen hm
    have hne : after ≠ [] := by
      rintro rfl
      rw [climb_of_shut .nil] at hm
      cases hm
    have hbehind := LeftOpen.behind (k := afterRight below power op left) hopen hd.balanced fun more hmore =>
      (hb.isLocal _ _).1.ok_of_head hq (hmore.resolve_right fun hend => hne hend.1)
    exact hbehind.cons (unclosed_symbol hk ho hc) fun more =>
      climb_binary_bind hk hs (Nat.not_lt.mp hlt)

variable {limit levels maxDepth : Nat} {atEnd : Text.Span}

theorem phrase_of_shut {p : Phrase} {ts : List Token}
    (h : phrase limit atEnd levels 0 (items ts) = ⟨.ok p, ts.length⟩) {tail : List Item} (ht : Shut tail) :
    phrase limit atEnd levels 0 (items ts ++ tail) = ⟨.ok p, ts.length⟩ := by
  obtain ⟨us, rest, l, hall, hlength, hd, hf, -, -⟩ := phrase_sound (Nat.zero_le _) _ _ _ h
  obtain rfl : rest = [] := by
    have htotal := congrArg List.length hall
    rw [List.length_append, Token.length_items, Token.length_items] at htotal
    exact List.eq_nil_of_length_eq_zero (by omega)
  obtain rfl : ts = us := by
    rw [List.append_nil] at hall
    exact (List.map_inj_right fun _ _ => Except.ok.inj).mp hall
  have hn : p.need ≤ levels := by
    refine Nat.le_of_not_lt fun hlt => ?_
    obtain ⟨f, m, hfails, -⟩ : FailsFor limit levels p (phrase limit atEnd levels 0 (items ts ++ [])) :=
      failsFor_below (fun hgood => absurd hgood.2 (Nat.not_le.mpr hlt)) fun j hj =>
        hd.fails j 0 [] hj (Nat.zero_le _) trivial
    rw [List.append_nil, h] at hfails
    cases hfails
  have hends : Ends 0 tail := by
    cases ht with
    | nil => trivial
    | close rest ht => exact ends_of_symbol ht (by decide) rfl
  exact phrase_below hn (fun j => hd.continues j hf) (Nat.zero_le _) (hends.mono (Nat.zero_le _)) hends.stops

theorem unwindsBelow_phrase (h : ∀ k ≤ Layer.signed.floor, ∀ all, Unwinds [] (phrase limit atEnd levels k) all) :
    UnwindsBelow (phrase limit atEnd levels) where
  sound _ hk := phrase_sound hk
  isLocal := phrase_local
  steady p ts rest more hp hmore := by
    rcases hmore with hhead | ⟨rfl, hshut⟩
    · exact (phrase_local 0 _).1.ok_of_head hp hhead
    · rw [List.append_nil] at hp
      exact phrase_of_shut hp hshut
  unwinds := h

theorem phrase_unwinds {power : Nat} (hp : power ≤ Layer.signed.floor) (all : List Item) :
    Unwinds [] (phrase limit atEnd levels power) all := by
  induction levels generalizing power all with
  | zero =>
    intro span n h
    cases h
  | succ levels ih =>
    intro span n h
    have hb : UnwindsBelow (phrase limit atEnd levels) := unwindsBelow_phrase fun k hk all => ih hk all
    rw [phrase] at h ⊢
    rcases of_bind_error h with hoperand | ⟨left, a, b, hleft, hclimb, -⟩
    · exact (operand_unwinds hb span n hoperand).bind fun x tail ht => .inl ⟨_, climb_of_shut ht⟩
    · obtain ⟨ts, rest, l, rfl, rfl, hd, -, -, -⟩ := operand_sound hb.sound hleft
      rw [drop_items] at hclimb
      have hne : rest ≠ [] := by
        rintro rfl
        rw [climb_of_shut .nil] at hclimb
        cases hclimb
      exact (climb_unwinds hb span b hclimb).behind hd.balanced fun more hmore =>
        (operand_local hb.isLocal).ok_of_head hleft (hmore.resolve_right fun hend => hne hend.1)

theorem whole_unwinds (h : whole maxDepth atEnd all = ⟨.error (.syntactic (.unclosedParen span)), n⟩) :
    ∃ ts stack, all = items ts ∧ unclosed [] ts = some stack ∧ stack.head?.map Token.span = some span ∧
      ∀ cs, cs.length = stack.length → Closers cs →
        Passes (ts ++ cs).length (whole maxDepth atEnd (items (ts ++ cs))) := by
  rcases of_bind_error h with hphrase | ⟨p, a, b, -, hlast, -⟩
  · obtain ⟨ts, stack, rfl, hstack, hspan, hcs⟩ := phrase_unwinds (Nat.zero_le _) all span n hphrase
    refine ⟨ts, stack, rfl, hstack, hspan, fun cs hlength hc => ?_⟩
    have hpasses := hcs cs hlength hc [] .nil
    rw [List.append_nil] at hpasses
    refine hpasses.bind (n := 0) fun p => ?_
    rw [← Token.length_items, List.drop_length]
    exact .inl ⟨p, rfl⟩
  · generalize all.drop a = rest at hlast
    rcases rest with _ | ⟨f | t, us⟩ <;> cases hlast

end Formula.Parse
