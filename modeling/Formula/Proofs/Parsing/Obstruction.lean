import Formula.Proofs.Parsing.Soundness

namespace Formula.Parse

open Token (items drop_items)

def Unfinished (power : Nat) (ts : List Token) : Prop :=
  ∃ us p l, us ≠ [] ∧ Derives l (ts ++ us) p ∧ power ≤ l.floor

def digit : Token := ⟨.number 0, ['0'], 0⟩

def closeBracket : Token := ⟨.symbol .rightParen, [')'], 0⟩

theorem unfinished_nil {power : Nat} (hp : power ≤ Layer.primary.floor) : Unfinished power [] :=
  ⟨[digit], .number 0, .primary, List.cons_ne_nil _ _, .number rfl, hp⟩

theorem Unfinished.mono {power power' : Nat} {ts : List Token} (h : Unfinished power ts)
    (hp : power' ≤ power) : Unfinished power' ts := by
  obtain ⟨us, p, l, hus, hd, hl⟩ := h
  exact ⟨us, p, l, hus, hd, Nat.le_trans hp hl⟩

def BeginsArguments (ts : List Token) : Prop :=
  ∃ us ps, Separated (Derives .comparison) (ts ++ us) ps

/-- Before the place where the fault is found stand tokens only, and these satisfy the predicate where
the fault says what else was expected there. -/
def Halts (C : List Token → Prop) (all : List Item) (used : Nat) : Fault → Prop
  | .lexical f => ∃ ts rest, all = items ts ++ .error f :: rest
  | .syntactic (.unexpectedToken found _ span) =>
    ∃ ts t rest, all = items ts ++ .ok t :: rest ∧ used = ts.length + 1 ∧ t.text = found ∧
      t.span = span ∧ C ts
  | .syntactic (.unexpectedEnd ..) => ∃ ts, all = items ts ∧ C ts
  | .syntactic (.unclosedParen ..) => ∃ ts, all = items ts ∧ C ts
  | .syntactic (.trailingInput ..) => False
  | _ => True

def Obstructed {α : Type} (C : List Token → Prop) (all : List Item) (r : Parsed α) : Prop :=
  ∀ f n, r = ⟨.error f, n⟩ → Halts C all n f

section

variable {α β : Type} {C D : List Token → Prop} {p : Parse α} {k : α → Parse β} {all rest : List Item}

theorem Halts.prepend {f : Fault} {n : Nat} (ts : List Token) (h : Halts C rest n f)
    (hC : ∀ us, C us → D (ts ++ us)) : Halts D (items ts ++ rest) (ts.length + n) f := by
  rcases f with f | f | f
  · obtain ⟨us, more, rfl⟩ := h
    exact ⟨ts ++ us, more, by simp⟩
  · cases f with
    | unexpectedToken found expected span =>
      obtain ⟨us, t, more, rfl, rfl, hfound, hspan, hus⟩ := h
      exact ⟨ts ++ us, t, more, by simp, by simp [Nat.add_assoc], hfound, hspan, hC us hus⟩
    | unexpectedEnd expected span =>
      obtain ⟨us, rfl, hus⟩ := h
      exact ⟨ts ++ us, by simp, hC us hus⟩
    | unclosedParen span =>
      obtain ⟨us, rfl, hus⟩ := h
      exact ⟨ts ++ us, by simp, hC us hus⟩
    | trailingInput found span => exact h.elim
    | _ => trivial
  · trivial

theorem Obstructed.prepend {r : Parsed α} (ts : List Token) (h : Obstructed C rest r)
    (hC : ∀ us, C us → D (ts ++ us)) :
    Obstructed D (items ts ++ rest) (r.after ts.length) := by
  intro f n hr
  obtain ⟨m, hm, rfl⟩ := Parsed.of_after_eq hr
  exact (h f m hm).prepend ts hC

theorem Obstructed.mono {r : Parsed α} (h : Obstructed C all r) (hC : ∀ us, C us → D us) :
    Obstructed D all r := by
  have hnil := h.prepend [] hC
  rwa [List.length_nil, Parsed.after_zero] at hnil

theorem obstructed_ok (x : α) (n : Nat) : Obstructed C all ⟨.ok x, n⟩ :=
  fun _ _ h => nomatch h

theorem obstructed_error {f : Fault} {n : Nat} (h : Halts C all n f) :
    Obstructed C all (⟨.error f, n⟩ : Parsed α) := by
  intro g m hr
  cases hr
  exact h

theorem Obstructed.bind (hp : Obstructed C all (p all))
    (hk : ∀ x n, p all = ⟨.ok x, n⟩ → Obstructed C all ((k x (all.drop n)).after n)) :
    Obstructed C all ((p >>= k) all) := by
  rcases hr : p all with ⟨f | x, n⟩
  · rw [bind_of_error hr]
    rw [hr] at hp
    exact obstructed_error (hp f n rfl)
  · rw [bind_of_ok hr]
    exact hk x n hr

end

variable {below : Below} {paren t : Token} {all rest : List Item} {C : List Token → Prop}

theorem peek_obstructed : Obstructed C all (peek all) := by
  rcases all with _ | ⟨f | t, rest⟩
  · exact obstructed_ok _ _
  · exact obstructed_error ⟨[], rest, rfl⟩
  · exact obstructed_ok _ _

theorem closing_obstructed : Obstructed (· = []) all (closing paren all) := by
  rcases all with _ | ⟨f | t, rest⟩
  · exact obstructed_error ⟨[], rfl, rfl⟩
  · exact obstructed_error ⟨[], rest, rfl⟩
  · change Obstructed _ _ ((next >>= _) _)
    rw [bind_of_ok (next_cons t rest)]
    by_cases hr : t.isSymbol .rightParen
    · simp only [hr, if_true]
      exact obstructed_ok _ _
    · simp only [hr, Bool.false_eq_true, if_false]
      exact obstructed_error ⟨[], t, rest, rfl, rfl, rfl, rfl, rfl⟩

theorem BeginsArguments.of_phrase {power : Nat} {ts : List Token} (h : Unfinished power ts) :
    BeginsArguments ts := by
  obtain ⟨us, p, l, -, hp, -⟩ := h
  exact ⟨us, [p], .last (hp.loosen Layer.comparison_floor_le)⟩

def BeginsMore (ts : List Token) : Prop :=
  ts = [] ∨ ∃ comma us, ts = comma :: us ∧ comma.kind = .symbol .comma ∧ BeginsArguments us

theorem BeginsArguments.of_derives {ts us : List Token} {p : Phrase} (hp : Derives .comparison ts p)
    (hus : BeginsMore us) : BeginsArguments (ts ++ us) := by
  rcases hus with rfl | ⟨comma, us, rfl, hk, vs, ps, hps⟩
  · exact ⟨[], [p], by simpa using .last hp⟩
  · exact ⟨vs, p :: ps, by simpa using .more hp hk hps⟩

theorem prepend_obstructed {p : Phrase} {more : Parse (List Phrase × Text.Span)}
    (h : Obstructed C all (more all)) : Obstructed C all (prepend p more all) :=
  h.bind fun _ _ _ => obstructed_ok _ _

theorem afterArgument_obstructed {p : Phrase}
    (h : ∀ t rest, all = .ok t :: rest → Obstructed BeginsArguments rest (moreArguments below paren rest)) :
    Obstructed BeginsMore all (afterArgument below paren p all) := by
  rcases all with _ | ⟨f | t, rest⟩
  · exact obstructed_error ⟨[], rfl, .inl rfl⟩
  · exact obstructed_error ⟨[], rest, rfl⟩
  · change Obstructed _ _ ((next >>= _) _)
    rw [bind_of_ok (next_cons t rest)]
    by_cases hc : t.isSymbol .comma
    · simp only [hc, if_true]
      exact (prepend_obstructed (h t rest rfl)).prepend [t] fun us hus =>
        .inr ⟨t, us, rfl, isSymbol_iff.mp hc, hus⟩
    · by_cases hr : t.isSymbol .rightParen
      · simp only [hc, hr, if_true]
        exact obstructed_ok _ _
      · simp only [hc, hr, Bool.false_eq_true, if_false]
        exact obstructed_error ⟨[], t, rest, rfl, rfl, rfl, rfl, .inl rfl⟩

variable {power : Nat}

def ObstructedBelow (below : Below) : Prop :=
  ∀ power ≤ Layer.signed.floor, ∀ all, Obstructed (Unfinished power) all (below power all)

theorem moreArguments_obstructed {all : List Item} (hs : Sound 0 (below 0)) (h : ObstructedBelow below) :
    Obstructed BeginsArguments all (moreArguments below paren all) := by
  rw [moreArguments_eq]
  refine ((h 0 (Nat.zero_le _) all).mono fun us => .of_phrase).bind fun p n hp => ?_
  obtain ⟨ts, rest, l, rfl, rfl, hd, -, -, -⟩ := hs _ _ _ hp
  rw [drop_items]
  have hmore : ∀ t us, rest = .ok t :: us → Obstructed BeginsArguments us (moreArguments below paren us) :=
    fun t us _ => moreArguments_obstructed hs h
  exact (afterArgument_obstructed hmore).prepend ts fun us =>
    .of_derives (hd.loosen Layer.comparison_floor_le)
termination_by all.length
decreasing_by
  subst_vars
  simp only [List.length_append, List.length_cons]
  omega

theorem arguments_obstructed (hs : Sound 0 (below 0)) (h : ObstructedBelow below) :
    Obstructed BeginsArguments all (arguments below paren all) := by
  rcases all with _ | ⟨f | t, rest⟩
  · rw [show arguments below paren [] = moreArguments below paren [] from Parsed.after_zero _]
    exact moreArguments_obstructed hs h
  · exact obstructed_error ⟨[], rest, rfl⟩
  · by_cases hr : t.kind = .symbol .rightParen
    · rw [arguments_close hr]
      exact obstructed_ok _ _
    · rw [arguments_more hr]
      exact moreArguments_obstructed hs h

def BeginsCall (t : Token) (ts : List Token) : Prop :=
  ∃ f paren us, Binding.ofName? t.text = some (.function f) ∧ ts = paren :: us ∧
    paren.kind = .symbol .leftParen ∧ BeginsArguments us

theorem named_obstructed (hs : Sound 0 (below 0)) (h : ObstructedBelow below) :
    Obstructed (BeginsCall t) all (named below t all) := by
  refine peek_obstructed.bind fun ahead n hpeek => ?_
  obtain ⟨rfl, hahead⟩ := of_peek_ok hpeek
  rw [List.drop_zero, Parsed.after_zero]
  cases hb : Binding.ofName? t.text with
  | none => exact obstructed_error trivial
  | some binding =>
    cases hfilter : ahead.filter (·.isSymbol .leftParen) with
    | none =>
      cases binding with
      | constant value => exact obstructed_ok _ _
      | function f => exact obstructed_error trivial
    | some paren =>
      cases binding with
      | constant value => exact obstructed_error trivial
      | function f =>
        obtain ⟨hsome, hparen⟩ := Option.filter_eq_some_iff.mp hfilter
        obtain ⟨rest, rfl⟩ := hahead paren hsome
        change Obstructed _ _ ((next >>= _) _)
        rw [bind_of_ok (next_cons paren rest)]
        refine Obstructed.prepend (C := BeginsArguments) [paren] ?_ fun us hus =>
          ⟨f, paren, us, hb, rfl, isSymbol_iff.mp hparen, hus⟩
        refine (arguments_obstructed hs h).bind fun x n _ => ?_
        by_cases hn : x.1.length = f.arity
        · simp only [hn, if_true]
          exact obstructed_ok _ _
        · simp only [hn, if_false]
          exact obstructed_error trivial

theorem Unfinished.of_call (hk : t.kind = .name) {ts : List Token} (h : BeginsCall t ts) :
    Unfinished Layer.primary.floor (t :: ts) := by
  obtain ⟨f, paren, us, hb, rfl, ho, vs, ps, hps⟩ := h
  have hd := @Derives.call t paren closeBracket f _ _ hk hb ho hps rfl
  exact ⟨vs ++ [closeBracket], _, .primary, by simp, by simpa using hd, Nat.le_refl _⟩

def BeginsBracketed (ts : List Token) : Prop :=
  ∃ us p, Derives .comparison (ts ++ us) p

theorem Unfinished.of_bracketed (ho : t.kind = .symbol .leftParen) {ts : List Token}
    (h : BeginsBracketed ts) : Unfinished Layer.primary.floor (t :: ts) := by
  obtain ⟨us, p, hp⟩ := h
  have hd := @Derives.bracketed t closeBracket _ _ ho hp rfl
  exact ⟨us ++ [closeBracket], _, .primary, by simp, by simpa using hd, Nat.le_refl _⟩

theorem bracketed_obstructed (hs : Sound 0 (below 0)) (h : ObstructedBelow below) :
    Obstructed BeginsBracketed all
      ((below 0 >>= fun p => closing t >>= fun _ => Pure.pure (Phrase.bracketed p)) all) := by
  refine ((h 0 (Nat.zero_le _) all).mono fun us hus => ?_).bind fun p n hp => ?_
  · obtain ⟨vs, p, l, -, hp, -⟩ := hus
    exact ⟨vs, p, hp.loosen Layer.comparison_floor_le⟩
  · obtain ⟨ts, rest, l, rfl, rfl, hd, -, -, -⟩ := hs _ _ _ hp
    rw [drop_items]
    refine Obstructed.prepend (C := (· = [])) ts ?_ fun us hus => ⟨[], p, ?_⟩
    · exact closing_obstructed.bind fun _ _ _ => obstructed_ok _ _
    · rw [hus, List.append_nil, List.append_nil]
      exact hd.loosen Layer.comparison_floor_le

theorem Unfinished.of_prefixed {s : Symbol} {op : PrefixOp} (hk : t.kind = .symbol s)
    (hop : PrefixOp.ofSymbol? s = some op) {ts : List Token} (h : Unfinished prefixPower ts) :
    Unfinished Layer.signed.floor (t :: ts) := by
  obtain ⟨us, p, l, hus, hp, hl⟩ := h
  have hsigned := hp.loosen (Layer.signed_floor_le_of_ceiling hl)
  exact ⟨us, .prefixed op p, .signed, hus, .prefixed (Layer.mem_signs_of_prefixOp hop) hk hsigned,
    Nat.le_refl _⟩

theorem operand_obstructed {atEnd : Text.Span} (hs : ∀ k ≤ Layer.signed.floor, Sound k (below k))
    (h : ObstructedBelow below) :
    Obstructed (Unfinished Layer.signed.floor) all (operand atEnd below all) := by
  have hzero := hs 0 (Nat.zero_le _)
  rcases all with _ | ⟨f | t, rest⟩
  · exact obstructed_error ⟨[], rfl, unfinished_nil (by decide)⟩
  · exact obstructed_error ⟨[], rest, rfl⟩
  · cases hk : t.kind with
    | number value =>
      rw [operand_number hk]
      exact obstructed_ok _ _
    | name =>
      rw [operand_name hk]
      exact (named_obstructed hzero h).prepend [t] fun us hus =>
        (Unfinished.of_call hk hus).mono (by decide)
    | symbol s =>
      by_cases hl : s = .leftParen
      · subst hl
        rw [operand_bracketed hk]
        exact (bracketed_obstructed hzero h).prepend [t] fun us hus =>
          (Unfinished.of_bracketed hk hus).mono (by decide)
      · cases hop : PrefixOp.ofSymbol? s with
        | none =>
          rw [operand_unexpected hk hl hop]
          exact obstructed_error ⟨[], t, rest, rfl, rfl, rfl, rfl, unfinished_nil (by decide)⟩
        | some op =>
          rw [operand_prefixed hk hl hop]
          refine Obstructed.prepend [t] ?_ fun us => .of_prefixed hk hop
          exact (h prefixPower (by decide) rest).bind fun _ _ _ => obstructed_ok _ _

theorem Unfinished.of_binary {power : Nat} {s : Symbol} {op : BinaryOp} {l : Layer} {ts us : List Token}
    {p : Phrase} (hp : Derives l ts p) (hk : t.kind = .symbol s)
    (hs : Suffix.ofSymbol? s = some (.binary op)) (hc : op.leftPower < l.ceiling)
    (hpow : power ≤ op.leftPower) (h : Unfinished op.rightPower us) : Unfinished power (ts ++ t :: us) := by
  obtain ⟨vs, q, m, hvs, hq, hm⟩ := h
  have hd := hp.join hk hs hq hc hm
  rw [Layer.leftPower_eq] at hpow
  exact ⟨vs, _, _, hvs, by simpa using hd, hpow⟩

theorem climb_obstructed {left : Phrase} {l : Layer} {ts : List Token}
    (hs : ∀ k ≤ Layer.signed.floor, Sound k (below k)) (h : ObstructedBelow below)
    (hl : Derives l ts left) (hr : Bounded l.ceiling all) :
    Obstructed (fun us => Unfinished power (ts ++ us)) all (climb below power left all) := by
  -- Each round hands on the derivation of the tokens that `left` has come to consist of.
  fun_induction climb below power left all generalizing l ts with
  | case1 | case3 | case4 => exact obstructed_ok _ _
  | case2 left f rest => exact obstructed_error ⟨[], rest, rfl⟩
  | case5 left t rest hx hlt ih =>
    obtain ⟨s, hk, hs⟩ := kind_of_suffix hx
    obtain rfl := bang_of_suffix hs
    have hleft : Derives .postfixed (ts ++ [t]) (.factorial left t.span) :=
      .factorial (hl.loosen (Layer.postfixed_floor_le (hr t rest _ rfl hx))) hk
    refine (ih hleft (bounded_ceiling_primary rest)).prepend [t] fun us hus => ?_
    rwa [List.append_assoc] at hus
  | case6 left t rest op f used hq hx hlt =>
    obtain ⟨s, hk, hs⟩ := kind_of_suffix hx
    have hstop := h op.rightPower (Layer.rightPower_le op) rest f used hq
    exact obstructed_error (hstop.prepend [t] fun us =>
      .of_binary hl hk hs (hr t rest _ rfl hx) (Nat.not_lt.mp hlt))
  | case7 left t rest op q used hq hx hlt ih =>
    obtain ⟨s, hk, hsuffix⟩ := kind_of_suffix hx
    obtain ⟨us, after, m, rfl, rfl, hd, -, hm, hb⟩ := hs _ (Layer.rightPower_le op) _ _ _ hq
    rw [drop_items] at ih ⊢
    have hleft := hl.join hk hsuffix hd (hr t _ _ rfl hx) hm
    rw [Nat.add_comm 1]
    refine (ih hleft (Layer.rightPower_eq op ▸ hb)).prepend (t :: us) fun vs hvs => ?_
    rwa [List.append_assoc] at hvs

variable {limit levels maxDepth : Nat} {atEnd : Text.Span}

theorem phrase_obstructed : ObstructedBelow (phrase limit atEnd levels) := by
  induction levels with
  | zero => exact fun power _ all => obstructed_error trivial
  | succ levels ih =>
    intro power hp all
    have hsound (k : Nat) (hk : k ≤ Layer.signed.floor) : Sound k (phrase limit atEnd levels k) :=
      phrase_sound hk
    rw [phrase]
    refine ((operand_obstructed hsound ih).mono fun us hus => hus.mono hp).bind fun left n hleft => ?_
    obtain ⟨ts, rest, l, rfl, rfl, hd, -, -, hr⟩ := operand_sound hsound hleft
    rw [drop_items]
    exact (climb_obstructed hsound ih hd hr).prepend ts fun us hus => hus

theorem whole_obstructed {f : Fault} {n : Nat} (h : whole maxDepth atEnd all = ⟨.error f, n⟩) :
    Halts (Unfinished 0) all n f ∨
      ∃ ts t rest p, all = items ts ++ .ok t :: rest ∧ n = ts.length + 1 ∧
        f = .syntactic (.trailingInput t.text t.span) ∧ Derives .comparison ts p := by
  change (phrase maxDepth atEnd maxDepth 0 >>= _) _ = _ at h
  rcases hp : phrase maxDepth atEnd maxDepth 0 all with ⟨g | p, m⟩
  · rw [bind_of_error hp] at h
    cases h
    exact .inl (phrase_obstructed 0 (Nat.zero_le _) all f n hp)
  · rw [bind_of_ok hp] at h
    obtain ⟨ts, rest, l, rfl, rfl, hd, -, -, -⟩ := phrase_sound (Nat.zero_le _) _ _ _ hp
    rw [drop_items] at h
    rcases rest with _ | ⟨g | t, us⟩
    · cases h
    · cases h
      exact .inl ⟨ts, us, rfl⟩
    · cases h
      exact .inr ⟨ts, t, us, p, rfl, rfl, rfl, hd.loosen Layer.comparison_floor_le⟩

end Formula.Parse
