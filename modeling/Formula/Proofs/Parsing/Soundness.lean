import Formula.Proofs.Grammar.Derivation
import Formula.Proofs.Parsing.Climbing

namespace Formula

theorem Suffix.power_le (s : Suffix) : s.power ≤ postfixPower := by
  rcases s with _ | op
  · exact Nat.le_refl _
  · cases op <;> decide

theorem Derives.join {l m : Layer} {t : Token} {ts us : List Token} {p q : Phrase} {op : BinaryOp}
    {s : Symbol}
    (hp : Derives l ts p) (hk : t.kind = .symbol s) (hs : Suffix.ofSymbol? s = some (.binary op))
    (hq : Derives m us q) (hc : op.leftPower < l.ceiling) (hm : op.rightPower ≤ m.floor) :
    Derives (.ofOperator op) (ts ++ t :: us) (.binary op p q) := by
  rw [Layer.leftPower_eq] at hc
  rw [Layer.rightPower_eq] at hm
  rcases Layer.mem_operators_of_suffix hs with ⟨rfl, rfl⟩ | hmem
  · exact .power (hp.loosen (Layer.signed_floor_le_of_power hc)) hk
      (hq.loosen (Layer.power_floor_le_of_ceiling hm))
  · obtain ⟨k, hl⟩ := Layer.exists_tighter_of_operator hmem
    exact .binary hl hmem (hp.loosen (Layer.floor_le_of_lt_ceiling hmem hc)) hk
      (hq.loosen (Layer.tighter_floor_le_of_ceiling hmem hl hm))

namespace Parse

open Token (items drop_items)

def Bounded (power : Nat) (rest : List Item) : Prop :=
  ∀ t us s, rest = .ok t :: us → Suffix.ofToken? t = some s → s.power < power

def Sound (power : Nat) (q : Parse Phrase) : Prop :=
  ∀ all p n, q all = ⟨.ok p, n⟩ → ∃ ts rest l, all = items ts ++ rest ∧ n = ts.length ∧
    Derives l ts p ∧ p.Fits ∧ power ≤ l.floor ∧ Bounded power rest

theorem bounded_ceiling_primary (rest : List Item) : Bounded Layer.primary.ceiling rest :=
  fun _ _ s _ _ => Nat.lt_succ_of_le (Suffix.power_le s)

theorem kind_of_suffix {t : Token} {x : Suffix} (h : Suffix.ofToken? t = some x) :
    ∃ s, t.kind = .symbol s ∧ Suffix.ofSymbol? s = some x := by
  unfold Suffix.ofToken? at h
  split at h
  · exact ⟨_, ‹_›, h⟩
  · cases h

theorem bang_of_suffix {s : Symbol} (h : Suffix.ofSymbol? s = some .factorial) : s = .bang := by
  revert h
  cases s <;> decide

variable {below : Below} {paren t : Token} {p : Phrase} {n : Nat} {all rest : List Item}

theorem moreArguments_sound {ps : List Phrase} {close : Text.Span} (hb : Sound 0 (below 0))
    (h : moreArguments below paren all = ⟨.ok (ps, close), n⟩) :
    ∃ ts t rest, all = items ts ++ .ok t :: rest ∧ t.kind = .symbol .rightParen ∧ close = t.span ∧
      n = ts.length + 1 ∧ Separated (Derives .comparison) ts ps ∧ Phrase.FitsAll ps := by
  fun_induction moreArguments below paren all generalizing n ps close with
  | case1 | case2 | case3 | case4 | case7 => cases h
  | case5 all p used hp comma rest hr hcomma qs close' more hmore ih =>
    cases h
    obtain ⟨ts, _, l, rfl, rfl, hd, hf, -, -⟩ := hb _ _ _ hp
    rw [drop_items] at hr
    obtain ⟨us, t, rest', rfl, ht, rfl, rfl, hs, hfs⟩ := ih hmore
    refine ⟨ts ++ comma :: us, t, rest', by simp [hr], ht, rfl, ?_,
      .more (hd.loosen Layer.comparison_floor_le) (isSymbol_iff.mp hcomma) hs, hf, hfs⟩
    simp only [List.length_append, List.length_cons]
    omega
  | case6 all p used hp t rest hr _ ht =>
    cases h
    obtain ⟨ts, _, l, rfl, rfl, hd, hf, -, -⟩ := hb _ _ _ hp
    rw [drop_items] at hr
    exact ⟨ts, t, rest, by rw [hr], isSymbol_iff.mp ht, rfl, rfl,
      .last (hd.loosen Layer.comparison_floor_le), hf, trivial⟩

theorem climb_sound {power : Nat} (hb : ∀ k ≤ Layer.signed.floor, Sound k (below k)) {left : Phrase}
    {l : Layer} {ts : List Token} (hl : Derives l ts left) (hf : left.Fits) (hp : power ≤ l.floor)
    (hr : Bounded l.ceiling all) (h : climb below power left all = ⟨.ok p, n⟩) :
    ∃ us rest m, all = items us ++ rest ∧ n = us.length ∧ Derives m (ts ++ us) p ∧ p.Fits ∧
      power ≤ m.floor ∧ Bounded power rest := by
  fun_induction climb below power left all generalizing l ts n with
  | case2 | case6 => cases h
  | case1 left =>
    cases h
    exact ⟨[], [], l, rfl, rfl, by simpa using hl, hf, hp, fun _ _ _ he => nomatch he⟩
  | case3 left t rest hnone =>
    cases h
    refine ⟨[], .ok t :: rest, l, rfl, rfl, by simpa using hl, hf, hp, fun u us s he hs => ?_⟩
    cases he
    exact nomatch hnone.symm.trans hs
  | case4 left t rest x hx hlt =>
    cases h
    refine ⟨[], .ok t :: rest, l, rfl, rfl, by simpa using hl, hf, hp, fun u us s he hs => ?_⟩
    cases he
    exact Option.some.inj (hx.symm.trans hs) ▸ hlt
  | case5 left t rest hx hlt ih =>
    obtain ⟨s, hk, hs⟩ := kind_of_suffix hx
    obtain rfl := bang_of_suffix hs
    have hleft : Derives .postfixed (ts ++ [t]) (.factorial left t.span) :=
      .factorial (hl.loosen (Layer.postfixed_floor_le (hr t rest _ rfl hx))) hk
    obtain ⟨b, hrun, rfl⟩ := Parsed.of_after_eq h
    obtain ⟨us, rest', m, rfl, rfl, hd, hrest⟩ :=
      ih hleft hf (Nat.not_lt.mp hlt) (bounded_ceiling_primary rest) hrun
    exact ⟨t :: us, rest', m, rfl, by simp [Nat.add_comm], by simpa using hd, hrest⟩
  | case7 left t rest op q used hq hx hlt ih =>
    obtain ⟨s, hk, hs⟩ := kind_of_suffix hx
    obtain ⟨us, after, m, rfl, rfl, hd, hfq, hm, hb'⟩ := hb _ (Layer.rightPower_le op) _ _ _ hq
    rw [drop_items] at h ih
    have hleft := hl.join hk hs hd (hr t _ _ rfl hx) hm
    obtain ⟨b, hrun, rfl⟩ := Parsed.of_after_eq h
    have hpow : power ≤ (Layer.ofOperator op).floor := by
      rw [← Layer.leftPower_eq]
      exact Nat.not_lt.mp hlt
    obtain ⟨vs, rest', m', rfl, rfl, hd', hrest⟩ :=
      ih hleft ⟨hf, hfq⟩ hpow (Layer.rightPower_eq op ▸ hb') hrun
    refine ⟨t :: (us ++ vs), rest', m', by simp, ?_, by simpa using hd', hrest⟩
    simp only [List.length_cons, List.length_append]
    omega

theorem closing_sound {u : Unit} (h : closing paren all = ⟨.ok u, n⟩) :
    ∃ close rest, all = .ok close :: rest ∧ close.kind = .symbol .rightParen ∧ n = 1 := by
  rcases all with _ | ⟨f | close, rest⟩
  · cases h
  · cases h
  · change (next >>= _) _ = _ at h
    rw [bind_of_ok (next_cons close rest)] at h
    simp only at h
    split at h
    · cases h
      exact ⟨close, rest, rfl, isSymbol_iff.mp ‹_›, rfl⟩
    · cases h

theorem of_named_ok (h : named below t all = ⟨.ok p, n⟩) :
    (∃ value, Binding.ofName? t.text = some (.constant value) ∧ p = .constant t.text value ∧ n = 0) ∨
      ∃ f paren rest args close m, Binding.ofName? t.text = some (.function f) ∧
        all = .ok paren :: rest ∧ paren.kind = .symbol .leftParen ∧
        arguments below paren rest = ⟨.ok (args, close), m⟩ ∧ args.length = f.arity ∧
        p = .call t.text f args (t.span.upTo close) ∧ n = m + 1 := by
  obtain ⟨ahead, a, b, hpeek, hk, rfl⟩ := of_bind_ok h
  obtain ⟨rfl, hahead⟩ := of_peek_ok hpeek
  rw [List.drop_zero] at hk
  cases hb : Binding.ofName? t.text with
  | none =>
    simp only [hb] at hk
    cases hk
  | some binding =>
    cases hfilter : ahead.filter (·.isSymbol .leftParen) with
    | none =>
      simp only [hb, hfilter] at hk
      cases binding with
      | constant value =>
        cases hk
        exact .inl ⟨value, rfl, rfl, rfl⟩
      | function f => cases hk
    | some paren =>
      simp only [hb, hfilter] at hk
      cases binding with
      | constant value => cases hk
      | function f =>
        obtain ⟨hsome, hparen⟩ := Option.filter_eq_some_iff.mp hfilter
        obtain ⟨rest, rfl⟩ := hahead paren hsome
        obtain ⟨_, _, c, hnext, hcall, rfl⟩ := of_bind_ok hk
        cases hnext
        obtain ⟨⟨args, close⟩, m, d, hargs, hlast, rfl⟩ := of_bind_ok hcall
        by_cases hn : args.length = f.arity
        · simp only [hn, if_true] at hlast
          cases hlast
          exact .inr ⟨f, paren, rest, args, close, m, rfl, rfl, isSymbol_iff.mp hparen, hargs, hn, rfl,
            by omega⟩
        · simp only [hn, if_false] at hlast
          cases hlast

theorem arguments_sound {ps : List Phrase} {close : Text.Span}
    (h : arguments below paren all = ⟨.ok (ps, close), n⟩) :
    (∃ t rest, all = .ok t :: rest ∧ t.kind = .symbol .rightParen ∧ close = t.span ∧ n = 1 ∧ ps = []) ∨
      moreArguments below paren all = ⟨.ok (ps, close), n⟩ := by
  rcases all with _ | ⟨f | t, rest⟩
  · exact .inr ((Parsed.after_zero _).symm.trans h)
  · cases h
  · by_cases ht : t.kind = .symbol .rightParen
    · rw [arguments_close ht] at h
      cases h
      exact .inl ⟨t, rest, rfl, ht, rfl, rfl, rfl⟩
    · rw [arguments_more ht] at h
      exact .inr h

def IsOperand (all : List Item) (p : Phrase) (n : Nat) : Prop :=
  ∃ ts rest l, all = items ts ++ rest ∧ n = ts.length ∧ Derives l ts p ∧ p.Fits ∧
    Layer.signed.floor ≤ l.floor ∧ Bounded l.ceiling rest

theorem IsOperand.of_primary {ts : List Token} (h : Derives .primary ts p) (hf : p.Fits)
    (ha : all = items ts ++ rest) (hn : n = ts.length) : IsOperand all p n :=
  ⟨ts, rest, .primary, ha, hn, h, hf, by decide, bounded_ceiling_primary rest⟩

theorem named_sound (hb : Sound 0 (below 0)) (hk : t.kind = .name)
    (h : named below t all = ⟨.ok p, n⟩) : IsOperand (.ok t :: all) p (1 + n) := by
  rcases of_named_ok h with ⟨value, hv, rfl, rfl⟩ | hcall
  · exact .of_primary (.constant hk hv) trivial (show _ = items [t] ++ all from rfl) rfl
  · obtain ⟨f, paren, rest, args, close, m, hf, rfl, ho, hargs, hn, rfl, rfl⟩ := hcall
    rcases arguments_sound hargs with ⟨_, _, _, _, _, _, rfl⟩ | hmore
    · exact absurd hn (Nat.ne_of_lt f.arity_pos)
    · obtain ⟨ts, close, rest', rfl, hc, rfl, rfl, hs, hfits⟩ := moreArguments_sound hb hmore
      have hd := Derives.call hk hf ho hs hc
      have ha : Except.ok t :: Except.ok paren :: (items ts ++ .ok close :: rest') =
          items (t :: paren :: (ts ++ [close])) ++ rest' := by simp
      refine .of_primary hd ⟨hn, hfits⟩ ha ?_
      simp only [List.length_cons, List.length_append, List.length_nil]
      omega

theorem bracketed_sound (hb : Sound 0 (below 0)) (hk : t.kind = .symbol .leftParen)
    (h : (below 0 >>= fun p => closing t >>= fun _ => Pure.pure (Phrase.bracketed p)) all = ⟨.ok p, n⟩) :
    IsOperand (.ok t :: all) p (1 + n) := by
  obtain ⟨q, a, b, hq, hclosing, rfl⟩ := of_bind_ok h
  obtain ⟨_, c, d, hclose, hlast, rfl⟩ := of_bind_ok hclosing
  cases hlast
  obtain ⟨ts, rest', l, rfl, rfl, hd, hf, -, -⟩ := hb _ _ _ hq
  rw [drop_items] at hclose
  obtain ⟨close, after, rfl, hc, rfl⟩ := closing_sound hclose
  have hd' := Derives.bracketed hk (hd.loosen Layer.comparison_floor_le) hc
  have ha : Except.ok t :: (items ts ++ .ok close :: after) =
      items (t :: (ts ++ [close])) ++ after := by simp
  refine .of_primary hd' hf ha ?_
  simp only [List.length_cons, List.length_append, List.length_nil]
  omega

theorem prefixed_sound {s : Symbol} {op : PrefixOp} (hb : Sound prefixPower (below prefixPower))
    (hk : t.kind = .symbol s) (hop : PrefixOp.ofSymbol? s = some op)
    (h : (below prefixPower >>= fun p => Pure.pure (Phrase.prefixed op p)) all = ⟨.ok p, n⟩) :
    IsOperand (.ok t :: all) p (1 + n) := by
  obtain ⟨q, a, b, hq, hlast, rfl⟩ := of_bind_ok h
  cases hlast
  obtain ⟨ts, rest', l, rfl, rfl, hd, hf, hpow, hrest⟩ := hb _ _ _ hq
  have hsigned := hd.loosen (Layer.signed_floor_le_of_ceiling hpow)
  have hd' := Derives.prefixed (Layer.mem_signs_of_prefixOp hop) hk hsigned
  exact ⟨t :: ts, rest', .signed, rfl, by simp [Nat.add_comm], hd', hf, Nat.le_refl _, hrest⟩

theorem operand_sound {atEnd : Text.Span} (hb : ∀ k ≤ Layer.signed.floor, Sound k (below k))
    (h : operand atEnd below all = ⟨.ok p, n⟩) : IsOperand all p n := by
  have hzero := hb 0 (Nat.zero_le _)
  rcases all with _ | ⟨f | t, rest⟩
  · cases h
  · cases h
  · cases hk : t.kind with
    | number value =>
      rw [operand_number hk] at h
      cases h
      exact .of_primary (.number hk) trivial (show _ = items [t] ++ rest from rfl) rfl
    | name =>
      rw [operand_name hk] at h
      obtain ⟨m, hrun, rfl⟩ := Parsed.of_after_eq h
      exact named_sound hzero hk hrun
    | symbol s =>
      by_cases hl : s = .leftParen
      · subst hl
        rw [operand_bracketed hk] at h
        obtain ⟨m, hrun, rfl⟩ := Parsed.of_after_eq h
        exact bracketed_sound hzero hk hrun
      · cases hop : PrefixOp.ofSymbol? s with
        | none =>
          rw [operand_unexpected hk hl hop] at h
          cases h
        | some op =>
          rw [operand_prefixed hk hl hop] at h
          obtain ⟨m, hrun, rfl⟩ := Parsed.of_after_eq h
          exact prefixed_sound (hb _ (by decide)) hk hop hrun

variable {limit maxDepth levels power : Nat} {atEnd : Text.Span}

theorem phrase_sound (hp : power ≤ Layer.signed.floor) :
    Sound power (phrase limit atEnd levels power) := by
  induction levels generalizing power with
  | zero =>
    intro all p n h
    cases h
  | succ levels ih =>
    intro all p n h
    rw [phrase] at h
    obtain ⟨left, a, b, hleft, hclimb, rfl⟩ := of_bind_ok h
    obtain ⟨ts, rest, l, rfl, rfl, hd, hf, hl, hr⟩ := operand_sound (fun k hk => ih hk) hleft
    rw [drop_items] at hclimb
    obtain ⟨us, rest', m, rfl, rfl, hd', hrest⟩ :=
      climb_sound (fun k hk => ih hk) hd hf (Nat.le_trans hp hl) hr hclimb
    exact ⟨ts ++ us, rest', m, by simp, by simp, hd', hrest⟩

theorem whole_sound (h : whole maxDepth atEnd all = ⟨.ok p, n⟩) :
    ∃ ts, all = items ts ∧ Derivation ts p := by
  obtain ⟨q, a, b, hq, hlast, rfl⟩ := of_bind_ok h
  obtain ⟨ts, rest, l, rfl, rfl, hd, hf, -, -⟩ := phrase_sound (Nat.zero_le _) _ _ _ hq
  rw [drop_items] at hlast
  rcases rest with _ | ⟨f | t, us⟩
  · cases hlast
    exact ⟨ts, by simp, ⟨hd.loosen Layer.comparison_floor_le, hf⟩⟩
  · cases hlast
  · cases hlast

end Parse

end Formula
