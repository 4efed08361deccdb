import Formula.Proofs.Grammar.Segment
import Formula.Proofs.Parsing.Nesting

/-!
The levels that a reader of the bounds would count, against the levels that the parser takes up.
-/

namespace Formula

namespace Phrase

mutual

/-- The levels of nesting by the rule of the bounds: arguments, what stands in brackets, and operands of
prefix operators are one level further down, and of all binary operators only powers have their right
operand there. -/
def levels : Phrase → Nat
  | number _ => 1
  | constant _ _ => 1
  | bracketed inner => 1 + inner.levels
  | prefixed _ operand => 1 + operand.levels
  | binary op left right => max left.levels (if op = .power then 1 + right.levels else right.levels)
  | factorial operand _ => operand.levels
  | call _ _ args _ => 1 + levelsAll args

def levelsAll : List Phrase → Nat
  | [] => 0
  | p :: ps => max p.levels (levelsAll ps)

end

mutual

def LeansLeft : Phrase → Prop
  | number _ => True
  | constant _ _ => True
  | bracketed inner => inner.LeansLeft
  | prefixed _ operand => operand.LeansLeft
  | binary op left right => left.LeansLeft ∧ right.LeansLeft ∧ (op ≠ .power → right.need < left.need)
  | factorial operand _ => operand.LeansLeft
  | call _ _ args _ => LeansLeftAll args

def LeansLeftAll : List Phrase → Prop
  | [] => True
  | p :: ps => p.LeansLeft ∧ LeansLeftAll ps

end

theorem levelsAll_le_iff {ps : List Phrase} {n : Nat} : levelsAll ps ≤ n ↔ ∀ p ∈ ps, p.levels ≤ n := by
  induction ps with
  | nil => simp [levelsAll]
  | cons p ps ih => simp only [levelsAll, Nat.max_le, ih, List.forall_mem_cons]

theorem levels_binary_of_ne {op : BinaryOp} (h : op ≠ .power) (left right : Phrase) :
    (binary op left right).levels = max left.levels right.levels := by
  rw [levels, if_neg h]

theorem levels_power (left right : Phrase) :
    (binary .power left right).levels = max left.levels (1 + right.levels) := by
  rw [levels, if_pos rfl]

mutual

theorem levels_le_need : (p : Phrase) → p.levels ≤ p.need
  | number _ => Nat.le_refl _
  | constant _ _ => Nat.le_refl _
  | bracketed inner => by
    have hinner := inner.levels_le_need
    rw [levels, need]
    omega
  | prefixed _ operand => by
    have hoperand := operand.levels_le_need
    rw [levels, need]
    omega
  | binary op left right => by
    have hleft := left.levels_le_need
    have hright := right.levels_le_need
    rw [need]
    by_cases hop : op = .power
    · rw [hop, levels_power]
      omega
    · rw [levels_binary_of_ne hop]
      omega
  | factorial operand _ => by
    rw [levels, need]
    exact operand.levels_le_need
  | call _ _ args _ => by
    have hargs := levelsAll_le_needAll args
    rw [levels, need]
    omega

theorem levelsAll_le_needAll : (ps : List Phrase) → levelsAll ps ≤ needAll ps
  | [] => Nat.le_refl _
  | p :: ps => by
    have hfirst := p.levels_le_need
    have hrest := levelsAll_le_needAll ps
    rw [levelsAll, needAll]
    omega

end

mutual

theorem LeansLeft.need_eq : (p : Phrase) → p.LeansLeft → p.need = p.levels
  | number _, _ => rfl
  | constant _ _, _ => rfl
  | bracketed inner, h => by
    rw [need, levels, LeansLeft.need_eq inner h]
  | prefixed _ operand, h => by
    rw [need, levels, LeansLeft.need_eq operand h]
  | binary op left right, h => by
    obtain ⟨hl, hr, hlt⟩ := h
    have hleft := LeansLeft.need_eq left hl
    have hright := LeansLeft.need_eq right hr
    rw [need]
    by_cases hop : op = .power
    · rw [hop, levels_power]
      omega
    · have hshallow := hlt hop
      rw [levels_binary_of_ne hop]
      omega
  | factorial operand _, h => by
    rw [need, levels, LeansLeft.need_eq operand h]
  | call _ _ args _, h => by
    rw [need, levels, LeansLeftAll.needAll_eq args h]

theorem LeansLeftAll.needAll_eq : (ps : List Phrase) → LeansLeftAll ps → needAll ps = levelsAll ps
  | [], _ => rfl
  | p :: ps, ⟨hp, hps⟩ => by
    rw [needAll, levelsAll, LeansLeft.need_eq p hp, LeansLeftAll.needAll_eq ps hps]

end

end Phrase

/-- How many right operands of a phrase in the layer can be nested in each other outside of all brackets,
where those of powers do not count. -/
def Layer.rightward : Layer → Nat
  | comparison => 6
  | disjunction => 5
  | conjunction => 4
  | shift => 3
  | sum => 2
  | product => 1
  | power | signed | postfixed | primary => 0

theorem Layer.rightward_tighter_le {l k : Layer} (hk : l.tighter? = some k) : k.rightward ≤ l.rightward := by
  cases l <;> cases hk <;> decide

theorem Layer.rightward_operator {l k : Layer} {s : Symbol} {op : BinaryOp} (hk : l.tighter? = some k)
    (h : (s, op) ∈ l.operators) : l.rightward = k.rightward + 1 ∧ op ≠ .power := by
  have all : ∀ x ∈ l.operators, l.rightward = k.rightward + 1 ∧ x.2 ≠ .power := by
    cases l <;> cases hk <;> decide
  exact all _ h

theorem Derives.need_lt {l : Layer} {ts : List Token} {p : Phrase} (h : Derives l ts p) :
    p.need + 6 ≤ 7 * p.levels + l.rightward := by
  induction h with
  | number hk => exact Nat.le_refl _
  | constant hk hb => exact Nat.le_refl _
  | emptyCall hk hb ho hc => exact Nat.le_refl _
  | @call name paren close f ts args hk hb ho ha hc ih =>
    have hargs : Phrase.needAll args ≤ 7 * Phrase.levelsAll args := by
      refine Phrase.needAll_le_iff.mpr fun p hp => ?_
      obtain ⟨_, _, _, -, -, hneed⟩ := ih.exists_stretch hp
      have hlevels := Phrase.levelsAll_le_iff.mp (Nat.le_refl _) p hp
      simp only [Layer.rightward] at hneed
      omega
    rw [Phrase.need, Phrase.levels]
    omega
  | bracketed ho hp hc ih =>
    rw [Phrase.need, Phrase.levels]
    simp only [Layer.rightward] at ih ⊢
    omega
  | factorial hp hk ih => exact ih
  | prefixed hs hk hp ih =>
    rw [Phrase.need, Phrase.levels]
    omega
  | power hp hk hq ihp ihq =>
    rw [Phrase.need, Phrase.levels_power]
    simp only [Layer.rightward] at ihp ihq ⊢
    omega
  | binary hl hs hp hk hq ihp ihq =>
    obtain ⟨hlayer, hop⟩ := Layer.rightward_operator hl hs
    rw [Phrase.need, Phrase.levels_binary_of_ne hop]
    omega
  | tighter hl hp ih =>
    have hlayer := Layer.rightward_tighter_le hl
    omega

theorem Derivation.need_le {ts : List Token} {p : Phrase} (h : Derivation ts p) :
    p.need ≤ 7 * p.levels :=
  Nat.le_of_add_le_add_right h.derives.need_lt

theorem parse_tooDeep_by_need {limits : Limits} {text : String} {e : Expr} (h : parse limits text = .ok e) :
    ∃ ts p, tokenize text = ts.map .ok ∧ Derivation ts p ∧ p.expr = e ∧
      p.levels ≤ p.need ∧ p.need ≤ 7 * p.levels ∧ (p.LeansLeft → p.need = p.levels) ∧
      ∀ bounds : Limits, Text.width text.toList ≤ bounds.maxLength →
        ((∃ span, parse bounds text = .error (.syntactic (.tooDeep bounds.maxDepth span))) ↔
          bounds.maxDepth < p.need) := by
  obtain ⟨ts, p, ht, hp, rfl⟩ := derivation_of_parse_eq h
  refine ⟨ts, p, ht, hp, rfl, p.levels_le_need, hp.need_le, Phrase.LeansLeft.need_eq p, fun bounds hl => ?_⟩
  rw [parse_tooDeep_iff hl, show tokenize text = Token.items ts from ht, hp.shallow_iff, Nat.not_le]

theorem parse_tooDeep_by_need_of_chain :
    (∃ e, parse {} "π<π|π&π<<π+π*π" = .ok e) ∧
    ∃ ts p, tokenize "π<π|π&π<<π+π*π" = ts.map .ok ∧ Derivation ts p ∧ p.levels = 1 ∧ p.need = 7 ∧
      ∀ bounds : Limits, 21 ≤ bounds.maxLength →
        ((∃ span, parse bounds "π<π|π&π<<π+π*π" =
          .error (.syntactic (.tooDeep bounds.maxDepth span))) ↔ bounds.maxDepth < 7) := by
  let pi (offset : Nat) : Token := ⟨.name, ['π'], offset⟩
  let symbol (s : Symbol) (offset : Nat) : Token := ⟨.symbol s, s.spelling, offset⟩
  have hpi (offset : Nat) : Derives .primary [pi offset] (.constant "π" Binding.pi) := .constant rfl rfl
  have hproduct := @Derives.binary .product .power (symbol .star 18) .star .multiply _ _ _ _ rfl
    (by decide) ((hpi 16).loosen (by decide)) rfl ((hpi 19).loosen (by decide))
  have hsum := @Derives.binary .sum .product (symbol .plus 15) .plus .add _ _ _ _ rfl
    (by decide) ((hpi 13).loosen (by decide)) rfl hproduct
  have hshift := @Derives.binary .shift .sum (symbol .shiftLeft 11) .shiftLeft .shiftLeft _ _ _ _ rfl
    (by decide) ((hpi 9).loosen (by decide)) rfl hsum
  have hand := @Derives.binary .conjunction .shift (symbol .ampersand 8) .ampersand .and _ _ _ _ rfl
    (by decide) ((hpi 6).loosen (by decide)) rfl hshift
  have hor := @Derives.binary .disjunction .conjunction (symbol .pipe 5) .pipe .or _ _ _ _ rfl
    (by decide) ((hpi 3).loosen (by decide)) rfl hand
  have hless := @Derives.binary .comparison .disjunction (symbol .less 2) .less .less _ _ _ _ rfl
    (by decide) ((hpi 0).loosen (by decide)) rfl hor
  let ts : List Token := [pi 0, symbol .less 2, pi 3, symbol .pipe 5, pi 6, symbol .ampersand 8, pi 9,
    symbol .shiftLeft 11, pi 13, symbol .plus 15, pi 16, symbol .star 18, pi 19]
  have hd : Derivation ts _ := ⟨hless, by simp [Phrase.Fits]⟩
  have hl : Text.width "π<π|π&π<<π+π*π".toList ≤ 4096 := by decide
  have ht : tokenize "π<π|π&π<<π+π*π" = Token.items ts := rfl
  have hok : parse {} "π<π|π&π<<π+π*π" = .ok _ := hd.parse_eq hl ht (show 7 ≤ 64 by decide)
  obtain ⟨us, q, hus, hq, -, -, -, -, hlimit⟩ := parse_tooDeep_by_need hok
  obtain rfl : us = ts := (List.map_inj_right fun _ _ => Except.ok.inj).mp (hus.symm.trans ht)
  obtain rfl := hq.unique hd
  exact ⟨⟨_, hok⟩, _, _, ht, hd, rfl, rfl, hlimit⟩

theorem sum_too_deep_for_its_levels :
    ∃ ts p, tokenize "1+2" = ts.map .ok ∧ Derivation ts p ∧ parse {} "1+2" = .ok p.expr ∧ p.levels = 1 ∧
      ∃ span, parse { maxDepth := 1 } "1+2" = .error (.syntactic (.tooDeep 1 span)) := by
  let one : Token := ⟨.number (Literal.toDecimal ['1'] [] none).toFloat, ['1'], 0⟩
  let plus : Token := ⟨.symbol .plus, ['+'], 1⟩
  let two : Token := ⟨.number (Literal.toDecimal ['2'] [] none).toFloat, ['2'], 2⟩
  have hone : Derives .primary [one] _ := .number rfl
  have htwo : Derives .primary [two] _ := .number rfl
  have hsum := @Derives.binary .sum .product plus _ _ _ _ _ _ rfl
    (show (Symbol.plus, BinaryOp.add) ∈ _ by decide) (hone.loosen (by decide)) rfl (htwo.loosen (by decide))
  have hd : Derivation [one, plus, two] _ := ⟨hsum.loosen (by decide), trivial, trivial⟩
  have ht : tokenize "1+2" = Token.items [one, plus, two] := rfl
  have hl : Text.width "1+2".toList ≤ 4096 := by decide
  refine ⟨_, _, ht, hd, hd.parse_eq hl ht (show 2 ≤ 64 by decide), rfl, ?_⟩
  exact @Derivation.parse_tooDeep _ _ { maxDepth := 1 } _ hd hl ht (show 1 < 2 by decide)

end Formula
