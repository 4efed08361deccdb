import Formula.Proofs.Parsing.Completeness

namespace Formula

def Fault.Mismatch (f : Fault) : Prop :=
  ∃ name arity given span, f = .syntactic (.arityMismatch name arity given span)

namespace Parse

open Token (items drop_items items_append_cons)

def Blamed (limit levels : Nat) (p : Phrase) (f : Fault) : Prop :=
  (f.TooDeep limit ∧ levels < p.need) ∨ (f.Mismatch ∧ ¬p.Fits)

def FailsFor {α : Type} (limit levels : Nat) (p : Phrase) (r : Parsed α) : Prop :=
  ∃ f n, r = ⟨.error f, n⟩ ∧ Blamed limit levels p f

variable {limit levels power : Nat} {atEnd : Text.Span} {l m : Layer} {t : Token} {ts us : List Token}
  {p q : Phrase} {tail : List Item}

theorem Blamed.mono {levels' : Nat} {f : Fault} (h : Blamed limit levels p f)
    (hd : levels < p.need → levels' < q.need) (hf : q.Fits → p.Fits) : Blamed limit levels' q f :=
  h.imp (And.imp_right hd) (And.imp_right fun hp hq => hp (hf hq))

theorem failsFor_zero (items : List Item) :
    FailsFor limit 0 p (phrase limit atEnd 0 power items) :=
  ⟨_, 0, rfl, .inl ⟨⟨_, rfl⟩, p.need_pos⟩⟩

theorem failsFor_below (hn : ¬(p.Fits ∧ p.need ≤ levels)) {items : List Item}
    (h : ∀ j, ¬(p.Fits ∧ p.need ≤ j + 1) →
      FailsFor limit (j + 1) p (phrase limit atEnd (j + 1) power items)) :
    FailsFor limit levels p (phrase limit atEnd levels power items) := by
  cases levels with
  | zero => exact failsFor_zero items
  | succ j => exact h j hn

theorem FailsFor.of_operand {items : List Item}
    (h : FailsFor limit (levels + 1) p (operand atEnd (phrase limit atEnd levels) items)) :
    FailsFor limit (levels + 1) p (phrase limit atEnd (levels + 1) power items) := by
  obtain ⟨f, n, hr, hb⟩ := h
  exact ⟨f, n, phrase_of_operand_error hr, hb⟩

theorem moreArguments_error {below : Below} {R : List Token → Phrase → Prop} {Good : Phrase → Prop}
    {Blame : Fault → Prop} {paren close : Token} {ps : List Phrase} (h : Separated R ts ps)
    (hc : close.kind = .symbol .rightParen)
    (hok : ∀ us p, p ∈ ps → R us p → Good p → ∀ rest, Ends 0 rest →
      below 0 (items us ++ rest) = ⟨.ok p, us.length⟩)
    (hbad : ∀ us p, p ∈ ps → R us p → ¬Good p → ∀ rest, Ends 0 rest →
      ∃ f n, below 0 (items us ++ rest) = ⟨.error f, n⟩ ∧ Blame f)
    (hex : ∃ p ∈ ps, ¬Good p) :
    ∃ f n, moreArguments below paren (items ts ++ .ok close :: tail) = ⟨.error f, n⟩ ∧ Blame f := by
  induction h with
  | @last us p hp =>
    have he : Ends 0 (.ok close :: tail) := ends_of_symbol hc (by decide) rfl
    obtain ⟨q, hq, hg⟩ := hex
    obtain rfl := List.mem_singleton.mp hq
    obtain ⟨f, n, hr, hb⟩ := hbad us q hq hp hg _ he
    exact ⟨f, n, moreArguments_of_error hr, hb⟩
  | @more comma us vs p ps hp hk hps ih =>
    have he : Ends 0 (.ok comma :: (items vs ++ .ok close :: tail)) :=
      ends_of_symbol hk (by decide) rfl
    rw [items_append_cons]
    by_cases hg : Good p
    · have hfirst := hok us p List.mem_cons_self hp hg _ he
      have hex' : ∃ q ∈ ps, ¬Good q := by
        obtain ⟨q, hq, hbadq⟩ := hex
        rcases List.mem_cons.mp hq with rfl | hq
        · exact absurd hg hbadq
        · exact ⟨q, hq, hbadq⟩
      obtain ⟨f, n, hr, hb⟩ := ih (fun ws q hq => hok ws q (List.mem_cons_of_mem _ hq))
        (fun ws q hq => hbad ws q (List.mem_cons_of_mem _ hq)) hex'
      rw [moreArguments_comma hfirst (drop_items _ _) hk, prepend_error hr]
      exact ⟨f, _, rfl, hb⟩
    · obtain ⟨f, n, hr, hb⟩ := hbad us p List.mem_cons_self hp hg _ he
      exact ⟨f, n, moreArguments_of_error hr, hb⟩

theorem FailsFor.binary {s : Symbol} {op : BinaryOp} (hk : t.kind = .symbol s)
    (hs : Suffix.ofSymbol? s = some (.binary op)) (hp : Derives m ts p) (hpow : power ≤ op.leftPower)
    (hm : op.leftPower ≤ m.floor) (hc : op.leftPower < m.ceiling)
    (hn : ¬((Phrase.binary op p q).Fits ∧ (Phrase.binary op p q).need ≤ levels + 1))
    (hleft : ¬(p.Fits ∧ p.need ≤ levels + 1) → ∀ rest, Ends m.ceiling rest →
      FailsFor limit (levels + 1) p (phrase limit atEnd (levels + 1) power (items ts ++ rest)))
    (hright : ¬(q.Fits ∧ q.need ≤ levels) →
      FailsFor limit levels q (phrase limit atEnd levels op.rightPower (items us ++ tail))) :
    FailsFor limit (levels + 1) (.binary op p q)
      (phrase limit atEnd (levels + 1) power (items (ts ++ t :: us) ++ tail)) := by
  have ht : Ends m.ceiling (.ok t :: (items us ++ tail)) := ends_of_suffix hk hs hc
  rw [items_append_cons]
  by_cases hgood : p.Fits ∧ p.need ≤ levels + 1
  · have hbad : ¬(q.Fits ∧ q.need ≤ levels) := by
      rintro ⟨hq, hd⟩
      exact hn ⟨⟨hgood.1, hq⟩, by rw [Phrase.need]; omega⟩
    obtain ⟨f, n, hr, hb⟩ := hright hbad
    rw [hp.continues levels hgood.1 hgood.2 power _ (Nat.le_trans hpow hm) ht,
      climb_binary_error hk hs hpow hr]
    exact ⟨f, _, rfl, hb.mono (by rw [Phrase.need]; omega) And.right⟩
  · obtain ⟨f, n, hr, hb⟩ := hleft hgood _ ht
    exact ⟨f, n, hr, hb.mono (by rw [Phrase.need]; omega) And.left⟩

theorem FailsFor.call {name paren close : Token} {f : Builtin} {args : List Phrase}
    {R : List Token → Phrase → Prop} (hk : name.kind = .name)
    (hb : Binding.ofName? name.text = some (.function f)) (ho : paren.kind = .symbol .leftParen)
    (hc : close.kind = .symbol .rightParen) (ha : Separated R ts args)
    (hD : ∀ us p, R us p → Derives .comparison us p) {span : Text.Span}
    (hn : ¬((Phrase.call name.text f args span).Fits ∧
      (Phrase.call name.text f args span).need ≤ levels + 1))
    (hok : ∀ us p, R us p → p.Fits ∧ p.need ≤ levels → ∀ rest, Ends 0 rest →
      phrase limit atEnd levels 0 (items us ++ rest) = ⟨.ok p, us.length⟩)
    (hbad : ∀ us p, R us p → ¬(p.Fits ∧ p.need ≤ levels) → ∀ rest, Ends 0 rest →
      FailsFor limit levels p (phrase limit atEnd levels 0 (items us ++ rest))) :
    FailsFor limit (levels + 1) (.call name.text f args span)
      (operand atEnd (phrase limit atEnd levels)
        (.ok name :: .ok paren :: (items ts ++ .ok close :: tail))) := by
  have hargs : arguments (phrase limit atEnd levels) paren (items ts ++ .ok close :: tail) =
      moreArguments (phrase limit atEnd levels) paren (items ts ++ .ok close :: tail) :=
    arguments_eq ha hD
  by_cases hgood : ∀ p ∈ args, p.Fits ∧ p.need ≤ levels
  · have hfits : Phrase.FitsAll args := Phrase.fitsAll_iff.mpr fun p hp => (hgood p hp).1
    have hneed : Phrase.needAll args ≤ levels := Phrase.needAll_le_iff.mpr fun p hp => (hgood p hp).2
    have hlength : args.length ≠ f.arity := fun h => hn ⟨⟨h, hfits⟩, by rw [Phrase.need]; omega⟩
    rw [moreArguments_ok ha (fun us p hp hR => hok us p hR (hgood p hp)) hc] at hargs
    exact ⟨_, _, operand_call_mismatch hk hb ho hargs hlength,
      .inr ⟨⟨_, _, _, _, rfl⟩, fun hf => hlength hf.1⟩⟩
  · obtain ⟨g, n, hr, p, hp, hblame⟩ : ∃ g n,
        moreArguments (phrase limit atEnd levels) paren (items ts ++ .ok close :: tail) =
          ⟨.error g, n⟩ ∧ ∃ p ∈ args, Blamed limit levels p g := by
      refine moreArguments_error ha hc (fun us p _ => hok us p) (fun us p hp hR hg rest hr => ?_) ?_
      · obtain ⟨g, n, he, hblame⟩ := hbad us p hR hg rest hr
        exact ⟨g, n, he, p, hp, hblame⟩
      · obtain ⟨p, hp⟩ := Classical.not_forall.mp hgood
        exact ⟨p, Classical.not_imp.mp hp⟩
    rw [hr] at hargs
    refine ⟨g, _, operand_call_error hk hb ho hargs, hblame.mono (fun hd => ?_) fun hf => ?_⟩
    · exact Nat.lt_of_le_of_lt hd (Phrase.need_lt_call hp _ _ _)
    · exact Phrase.fitsAll_iff.mp hf.2 p hp

end Parse

open Parse Token

theorem Derives.fails {limit : Nat} {atEnd : Text.Span} {l : Layer} {ts : List Token} {p : Phrase}
    (h : Derives l ts p) :
    ∀ levels power tail, ¬(p.Fits ∧ p.need ≤ levels + 1) → power ≤ l.floor → Ends l.ceiling tail →
      FailsFor limit (levels + 1) p (phrase limit atEnd (levels + 1) power (items ts ++ tail)) := by
  induction h with
  | number hk => exact fun levels _ _ hn => absurd ⟨trivial, by rw [Phrase.need]; omega⟩ hn
  | constant hk hb => exact fun levels _ _ hn => absurd ⟨trivial, by rw [Phrase.need]; omega⟩ hn
  | @emptyCall name paren close f hk hb ho hc =>
    intro levels power tail hn _ _
    have harity : ([] : List Phrase).length ≠ f.arity := Nat.ne_of_lt f.arity_pos
    exact .of_operand ⟨_, _, operand_call_mismatch hk hb ho (arguments_close hc) harity,
      .inr ⟨⟨_, _, _, _, rfl⟩, fun hf => harity hf.1⟩⟩
  | @call name paren close f ts args hk hb ho ha hc ih =>
    intro levels power tail hn _ _
    rw [items_cons_append, items_cons_append, items_snoc]
    refine .of_operand (.call hk hb ho hc ih (fun us p h => h.1) hn
      (fun us p hR hgood rest hr => ?_) fun us p hR hbad rest hr => ?_)
    · exact phrase_below hgood.2 (fun j => hR.1.continues j hgood.1) (Nat.zero_le _)
        (hr.mono (Nat.zero_le _)) hr.stops
    · exact failsFor_below hbad fun j hj => hR.2 j 0 rest hj (Nat.zero_le _) (hr.mono (Nat.zero_le _))
  | @bracketed paren close ts p ho hp hc ih =>
    intro levels power tail hn _ _
    have hbad : ¬(p.Fits ∧ p.need ≤ levels) := fun h => hn ⟨h.1, by rw [Phrase.need]; omega⟩
    have hend : Ends Layer.comparison.ceiling (.ok close :: tail) := ends_of_symbol hc (by decide) rfl
    obtain ⟨f, n, hr, hb⟩ := failsFor_below hbad fun j hj => ih j 0 _ hj (Nat.zero_le _) hend
    rw [items_cons_append, items_snoc]
    exact .of_operand ⟨f, _, operand_bracketed_error ho hr, hb.mono (by rw [Phrase.need]; omega) id⟩
  | @factorial t ts p hp hk ih =>
    intro levels power tail hn hpow he
    have ht : Ends Layer.postfixed.ceiling (.ok t :: tail) := ends_of_suffix hk rfl (by decide)
    obtain ⟨f, n, hr, hb⟩ := ih levels power _ hn hpow ht
    rw [items_snoc]
    exact ⟨f, n, hr, hb⟩
  | @prefixed t s op ts p hs hk hp ih =>
    intro levels power tail hn _ he
    have hbad : ¬(p.Fits ∧ p.need ≤ levels) := fun h => hn ⟨h.1, by rw [Phrase.need]; omega⟩
    obtain ⟨hop, hl, -⟩ := Layer.mem_signs hs
    obtain ⟨f, n, hr, hb⟩ := failsFor_below hbad fun j hj => ih j prefixPower _ hj (by decide) he
    rw [items_cons_append]
    exact .of_operand ⟨f, _, operand_prefixed_error hk hl hop hr, hb.mono (by rw [Phrase.need]; omega) id⟩
  | @power t ts us p q hp hk hq ihp ihq =>
    intro levels power tail hn hpow he
    refine .binary hk rfl hp hpow (by decide) (by decide) hn
      (fun hbad rest hr => ihp levels power rest hbad ?_ hr) fun hbad => ?_
    · exact Nat.le_trans hpow (by decide)
    · exact failsFor_below hbad fun j hj => ihq j _ _ hj (by decide) he
  | @binary l k t s op ts us p q hl hs hp hk hq ihp ihq =>
    intro levels power tail hn hpow he
    obtain ⟨rfl, hsuffix⟩ := Layer.mem_operators hs
    obtain ⟨hfloor, hceiling⟩ := Layer.operator_between hl hs
    have hleft := Layer.leftPower_eq op
    have hright := Layer.rightPower_eq op
    refine .binary hk hsuffix hp (by omega) (by omega) (by omega) hn
      (fun hbad rest hr => ihp levels power rest hbad hpow hr) fun hbad => ?_
    exact failsFor_below hbad fun j hj =>
      ihq j _ _ hj (by omega) (he.mono (Layer.ceiling_le_tighter hl))
  | tighter hl hp ih =>
    intro levels power tail hn hpow he
    exact ih levels power tail hn (Nat.le_trans hpow (Nat.le_of_lt (Layer.floor_lt_tighter hl)))
      (he.mono (Layer.ceiling_le_tighter hl))

end Formula
