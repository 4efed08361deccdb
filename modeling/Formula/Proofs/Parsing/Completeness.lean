import Formula.Proofs.Grammar.Derivation
import Formula.Proofs.Parsing.Climbing

namespace Formula

theorem Derives.head {l : Layer} {ts : List Token} {p : Phrase} (h : Derives l ts p) :
    ∃ t us, ts = t :: us ∧ t.kind ≠ .symbol .rightParen := by
  induction h with
  | number hk => exact ⟨_, [], rfl, by simp [hk]⟩
  | constant hk hb => exact ⟨_, [], rfl, by simp [hk]⟩
  | emptyCall hk hb ho hc => exact ⟨_, _, rfl, by simp [hk]⟩
  | call hk hb ho ha hc ih => exact ⟨_, _, rfl, by simp [hk]⟩
  | bracketed ho hp hc ih => exact ⟨_, _, rfl, by simp [ho]⟩
  | factorial hp hk ih =>
    obtain ⟨u, us, rfl, hu⟩ := ih
    exact ⟨u, _, rfl, hu⟩
  | prefixed hs hk hp ih =>
    exact ⟨_, _, rfl, by simp [hk, (Layer.mem_signs hs).2.2]⟩
  | power hp hk hq ihp ihq =>
    obtain ⟨u, us, rfl, hu⟩ := ihp
    exact ⟨u, _, rfl, hu⟩
  | binary hl hs hp hk hq ihp ihq =>
    obtain ⟨u, us, rfl, hu⟩ := ihp
    exact ⟨u, _, rfl, hu⟩
  | tighter hl hp ih => exact ih

theorem Separated.head {R : List Token → Phrase → Prop} {ts : List Token} {ps : List Phrase}
    (h : Separated R ts ps) (hR : ∀ ts p, R ts p → Derives .comparison ts p) :
    ∃ t us, ts = t :: us ∧ t.kind ≠ .symbol .rightParen := by
  cases h with
  | last hp => exact (hR _ _ hp).head
  | more hp hk hps =>
    obtain ⟨u, us, rfl, hu⟩ := (hR _ _ hp).head
    exact ⟨u, _, rfl, hu⟩

namespace Parse

open Token (items drop_items items_append_cons items_cons_append items_snoc)

section

variable {below : Below} {paren close : Token} {R : List Token → Phrase → Prop} {ts : List Token}
  {ps : List Phrase} {tail : List Item}

theorem moreArguments_ok (h : Separated R ts ps)
    (hR : ∀ us p, p ∈ ps → R us p → ∀ rest, Ends 0 rest →
      below 0 (items us ++ rest) = ⟨.ok p, us.length⟩)
    (hc : close.kind = .symbol .rightParen) :
    moreArguments below paren (items ts ++ .ok close :: tail) = ⟨.ok (ps, close.span), ts.length + 1⟩ := by
  induction h with
  | last hp =>
    have he : Ends 0 (.ok close :: tail) := ends_of_symbol hc (by decide) rfl
    exact moreArguments_last (hR _ _ (List.mem_singleton.mpr rfl) hp _ he) (drop_items _ _) hc
  | @more comma us vs p ps hp hk hps ih =>
    have he : Ends 0 (.ok comma :: (items vs ++ .ok close :: tail)) :=
      ends_of_symbol hk (by decide) rfl
    have hfirst := hR us p List.mem_cons_self hp _ he
    have hrest := ih fun ws q hq => hR ws q (List.mem_cons_of_mem _ hq)
    rw [items_append_cons, moreArguments_comma hfirst (drop_items _ _) hk, prepend_ok hrest]
    simp only [Parsed.after_mk, List.length_append, List.length_cons]
    congr 1
    omega

theorem arguments_eq (h : Separated R ts ps) (hR : ∀ ts p, R ts p → Derives .comparison ts p) :
    arguments below paren (items ts ++ tail) = moreArguments below paren (items ts ++ tail) := by
  obtain ⟨t, us, rfl, ht⟩ := h.head hR
  exact arguments_more ht

end

section

variable {limit levels : Nat} {atEnd : Text.Span} {l k m : Layer} {t : Token} {ts us : List Token}
  {p q : Phrase}

def Continues (limit : Nat) (atEnd : Text.Span) (levels : Nat) (l : Layer) (ts : List Token)
    (p : Phrase) : Prop :=
  ∀ power tail, power ≤ l.floor → Ends l.ceiling tail →
    phrase limit atEnd (levels + 1) power (items ts ++ tail) =
      (climb (phrase limit atEnd levels) power p tail).after ts.length

theorem Continues.reads (h : Continues limit atEnd levels l ts p) {power : Nat} {tail : List Item}
    (hp : power ≤ l.floor) (he : Ends l.ceiling tail) (hs : Stops power tail) :
    phrase limit atEnd (levels + 1) power (items ts ++ tail) = ⟨.ok p, ts.length⟩ := by
  rw [h power tail hp he, climb_of_stops hs]
  rfl

theorem Continues.of_operand
    (h : ∀ tail, Ends l.ceiling tail →
      operand atEnd (phrase limit atEnd levels) (items ts ++ tail) = ⟨.ok p, ts.length⟩) :
    Continues limit atEnd levels l ts p := by
  intro power tail _ he
  rw [phrase_of_operand (h tail he), drop_items]

theorem Continues.tighter (h : Continues limit atEnd levels k ts p) (hl : l.tighter? = some k) :
    Continues limit atEnd levels l ts p := by
  intro power tail hp he
  have hp' : power ≤ k.floor := Nat.le_trans hp (Nat.le_of_lt (Layer.floor_lt_tighter hl))
  exact h power tail hp' (he.mono (Layer.ceiling_le_tighter hl))

theorem Continues.factorial (h : Continues limit atEnd levels .postfixed ts p)
    (hk : t.kind = .symbol .bang) :
    Continues limit atEnd levels .postfixed (ts ++ [t]) (.factorial p t.span) := by
  intro power tail hp he
  have ht : Ends Layer.postfixed.ceiling (.ok t :: tail) := ends_of_suffix hk rfl (by decide)
  rw [items_snoc, h power _ hp ht, climb_bang hk hp, Parsed.after_after, List.length_append]
  rfl

theorem Continues.binary {s : Symbol} {op : BinaryOp} (h : Continues limit atEnd levels m ts p)
    (hk : t.kind = .symbol s) (hs : Suffix.ofSymbol? s = some (.binary op))
    (hl : l.floor ≤ op.leftPower) (hm : op.leftPower ≤ m.floor) (hc : op.leftPower < m.ceiling)
    (hq : ∀ tail, Ends l.ceiling tail →
      phrase limit atEnd levels op.rightPower (items us ++ tail) = ⟨.ok q, us.length⟩) :
    Continues limit atEnd levels l (ts ++ t :: us) (.binary op p q) := by
  intro power tail hp he
  have ht : Ends m.ceiling (.ok t :: (items us ++ tail)) := ends_of_suffix hk hs hc
  rw [items_append_cons, h power _ (by omega) ht, climb_binary hk hs (Nat.le_trans hp hl) (hq tail he),
    drop_items, Parsed.after_after]
  simp only [List.length_append, List.length_cons]
  congr 1
  omega

theorem Continues.call {R : List Token → Phrase → Prop} {name paren close : Token} {f : Builtin}
    {args : List Phrase} (hk : name.kind = .name) (hb : Binding.ofName? name.text = some (.function f))
    (ho : paren.kind = .symbol .leftParen) (hc : close.kind = .symbol .rightParen)
    (hn : args.length = f.arity) (ha : Separated R ts args)
    (hD : ∀ us p, R us p → Derives .comparison us p)
    (hR : ∀ us p, p ∈ args → R us p → ∀ rest, Ends 0 rest →
      phrase limit atEnd levels 0 (items us ++ rest) = ⟨.ok p, us.length⟩) :
    Continues limit atEnd levels l (name :: paren :: (ts ++ [close]))
      (.call name.text f args (name.span.upTo close.span)) := by
  refine .of_operand fun tail _ => ?_
  have hargs : arguments (phrase limit atEnd levels) paren (items ts ++ .ok close :: tail) =
      ⟨.ok (args, close.span), ts.length + 1⟩ := by
    rw [arguments_eq ha hD]
    exact moreArguments_ok ha hR hc
  simpa using operand_call_ok hk hb ho hargs hn

theorem Continues.bracketed {paren close : Token} (ho : paren.kind = .symbol .leftParen)
    (hc : close.kind = .symbol .rightParen)
    (hp : ∀ rest, Ends 0 rest → phrase limit atEnd levels 0 (items ts ++ rest) = ⟨.ok p, ts.length⟩) :
    Continues limit atEnd levels l (paren :: (ts ++ [close])) (.bracketed p) := by
  refine .of_operand fun tail _ => ?_
  have hinner := hp (.ok close :: tail) (ends_of_symbol hc (by decide) rfl)
  simpa using operand_bracketed_ok ho hinner (drop_items _ _) hc

theorem Continues.prefixed {s : Symbol} {op : PrefixOp} (hs : (s, op) ∈ Layer.signs)
    (hk : t.kind = .symbol s)
    (hp : ∀ rest, Ends Layer.signed.ceiling rest →
      phrase limit atEnd levels prefixPower (items ts ++ rest) = ⟨.ok p, ts.length⟩) :
    Continues limit atEnd levels .signed (t :: ts) (.prefixed op p) := by
  refine .of_operand fun tail he => ?_
  obtain ⟨hop, hl, -⟩ := Layer.mem_signs hs
  simpa using operand_prefixed_ok hk hl hop (hp tail he)

theorem phrase_below (hn : p.need ≤ levels)
    (h : ∀ j, p.need ≤ j + 1 → Continues limit atEnd j l ts p) {power : Nat} {tail : List Item}
    (hp : power ≤ l.floor) (he : Ends l.ceiling tail) (hs : Stops power tail) :
    phrase limit atEnd levels power (items ts ++ tail) = ⟨.ok p, ts.length⟩ := by
  cases levels with
  | zero => exact absurd p.need_pos (by omega)
  | succ j => exact (h j hn).reads hp he hs

end

end Parse

open Parse

theorem Derives.continues {limit : Nat} {atEnd : Text.Span} {l : Layer} {ts : List Token} {p : Phrase}
    (h : Derives l ts p) : ∀ levels, p.Fits → p.need ≤ levels + 1 → Continues limit atEnd levels l ts p := by
  induction h with
  | number hk => exact fun levels _ _ => .of_operand fun tail _ => operand_number hk
  | constant hk hb => exact fun levels _ _ => .of_operand fun tail he => operand_constant hk hb he
  | @emptyCall _ _ _ f hk hb ho hc =>
    intro levels hf hn
    have hzero := hf.1
    cases f <;> cases hzero
  | @call name paren close f ts args hk hb ho ha hc ih =>
    intro levels hf hn
    have hfits := Phrase.fitsAll_iff.mp hf.2
    have hneeds : ∀ p ∈ args, p.need ≤ levels :=
      Phrase.needAll_le_iff.mp (by rw [Phrase.need] at hn; omega)
    refine .call hk hb ho hc hf.1 ih (fun us p h => h.1) fun us p hp hR rest hr => ?_
    exact phrase_below (hneeds p hp) (fun j => hR.2 j (hfits p hp)) (Nat.zero_le _)
      (hr.mono (Nat.zero_le _)) hr.stops
  | @bracketed paren close ts p ho hp hc ih =>
    intro levels hf hn
    rw [Phrase.need] at hn
    refine .bracketed ho hc fun rest hr => ?_
    exact phrase_below (by omega) (fun j => ih j hf) (Nat.zero_le _) (hr.mono (Nat.zero_le _)) hr.stops
  | factorial hp hk ih => exact fun levels hf hn => (ih levels hf hn).factorial hk
  | @prefixed t s op ts p hs hk hp ih =>
    intro levels hf hn
    rw [Phrase.need] at hn
    refine .prefixed hs hk fun rest hr => ?_
    exact phrase_below (by omega) (fun j => ih j hf) (by decide) hr hr.stops
  | @power t ts us p q hp hk hq ihp ihq =>
    intro levels hf hn
    rw [Phrase.need] at hn
    refine (ihp levels hf.1 (by omega)).binary hk rfl (by decide) (by decide) (by decide) ?_
    intro rest hr
    exact phrase_below (by omega) (fun j => ihq j hf.2) (by decide) hr hr.stops
  | @binary l k t s op ts us p q hl hs hp hk hq ihp ihq =>
    intro levels hf hn
    rw [Phrase.need] at hn
    obtain ⟨rfl, hsuffix⟩ := Layer.mem_operators hs
    obtain ⟨hfloor, hceiling⟩ := Layer.operator_between hl hs
    have hleft := Layer.leftPower_eq op
    have hright := Layer.rightPower_eq op
    refine (ihp levels hf.1 (by omega)).binary hk hsuffix (by omega) (by omega) (by omega) ?_
    intro rest hr
    rw [hright]
    exact phrase_below (by omega) (fun j => ihq j hf.2) hceiling (hr.mono (Layer.ceiling_le_tighter hl))
      hr.stops
  | tighter hl hp ih => exact fun levels hf hn => (ih levels hf hn).tighter hl

end Formula
