import Formula.Parser.Phrase
import Formula.Proofs.Grammar.Layer

/-!
The grammar of phrases, layer by layer. Left-recursive layers group to the left and powers to the right.
The number of arguments of a call is free here; `Phrase.Fits` says that it is right in every call.
-/

namespace Formula

inductive Separated (R : List Token → Phrase → Prop) : List Token → List Phrase → Prop where
  | last {ts : List Token} {p : Phrase} (hp : R ts p) : Separated R ts [p]
  | more {t : Token} {ts us : List Token} {p : Phrase} {ps : List Phrase} (hp : R ts p)
      (hk : t.kind = .symbol .comma) (hps : Separated R us ps) :
      Separated R (ts ++ t :: us) (p :: ps)

inductive Derives : Layer → List Token → Phrase → Prop where
  | number {t : Token} {value : Float} (hk : t.kind = .number value) :
      Derives .primary [t] (.number value)
  | constant {t : Token} {value : Float} (hk : t.kind = .name)
      (hb : Binding.ofName? t.text = some (.constant value)) :
      Derives .primary [t] (.constant t.text value)
  | emptyCall {name paren close : Token} {f : Builtin} (hk : name.kind = .name)
      (hb : Binding.ofName? name.text = some (.function f)) (ho : paren.kind = .symbol .leftParen)
      (hc : close.kind = .symbol .rightParen) :
      Derives .primary [name, paren, close] (.call name.text f [] (name.span.upTo close.span))
  | call {name paren close : Token} {f : Builtin} {ts : List Token} {args : List Phrase}
      (hk : name.kind = .name) (hb : Binding.ofName? name.text = some (.function f))
      (ho : paren.kind = .symbol .leftParen) (ha : Separated (Derives .comparison) ts args)
      (hc : close.kind = .symbol .rightParen) :
      Derives .primary (name :: paren :: (ts ++ [close]))
        (.call name.text f args (name.span.upTo close.span))
  | bracketed {paren close : Token} {ts : List Token} {p : Phrase}
      (ho : paren.kind = .symbol .leftParen) (hp : Derives .comparison ts p)
      (hc : close.kind = .symbol .rightParen) :
      Derives .primary (paren :: (ts ++ [close])) (.bracketed p)
  | factorial {t : Token} {ts : List Token} {p : Phrase} (hp : Derives .postfixed ts p)
      (hk : t.kind = .symbol .bang) :
      Derives .postfixed (ts ++ [t]) (.factorial p t.span)
  | prefixed {t : Token} {s : Symbol} {op : PrefixOp} {ts : List Token} {p : Phrase}
      (hs : (s, op) ∈ Layer.signs) (hk : t.kind = .symbol s) (hp : Derives .signed ts p) :
      Derives .signed (t :: ts) (.prefixed op p)
  | power {t : Token} {ts us : List Token} {p q : Phrase} (hp : Derives .signed ts p)
      (hk : t.kind = .symbol .caret) (hq : Derives .power us q) :
      Derives .power (ts ++ t :: us) (.binary .power p q)
  | binary {l k : Layer} {t : Token} {s : Symbol} {op : BinaryOp} {ts us : List Token} {p q : Phrase}
      (hl : l.tighter? = some k) (hs : (s, op) ∈ l.operators) (hp : Derives l ts p)
      (hk : t.kind = .symbol s) (hq : Derives k us q) :
      Derives l (ts ++ t :: us) (.binary op p q)
  | tighter {l k : Layer} {ts : List Token} {p : Phrase} (hl : l.tighter? = some k)
      (hp : Derives k ts p) : Derives l ts p

@[elab_as_elim, induction_eliminator]
theorem Derives.induct
    {motive : (l : Layer) → (ts : List Token) → (p : Phrase) → Derives l ts p → Prop}
    (number : ∀ {t : Token} {value : Float} (hk : t.kind = .number value),
      motive .primary [t] (.number value) (.number hk))
    (constant : ∀ {t : Token} {value : Float} (hk : t.kind = .name)
      (hb : Binding.ofName? t.text = some (.constant value)),
      motive .primary [t] (.constant t.text value) (.constant hk hb))
    (emptyCall : ∀ {name paren close : Token} {f : Builtin} (hk : name.kind = .name)
      (hb : Binding.ofName? name.text = some (.function f)) (ho : paren.kind = .symbol .leftParen)
      (hc : close.kind = .symbol .rightParen), motive .primary _ _ (.emptyCall hk hb ho hc))
    (call : ∀ {name paren close : Token} {f : Builtin} {ts : List Token} {args : List Phrase}
      (hk : name.kind = .name) (hb : Binding.ofName? name.text = some (.function f))
      (ho : paren.kind = .symbol .leftParen) (ha : Separated (Derives .comparison) ts args)
      (hc : close.kind = .symbol .rightParen)
      (_ : Separated (fun ts p => ∃ h : Derives .comparison ts p, motive .comparison ts p h) ts args),
      motive .primary _ _ (.call hk hb ho ha hc))
    (bracketed : ∀ {paren close : Token} {ts : List Token} {p : Phrase}
      (ho : paren.kind = .symbol .leftParen) (hp : Derives .comparison ts p)
      (hc : close.kind = .symbol .rightParen) (_ : motive .comparison ts p hp),
      motive .primary _ _ (.bracketed ho hp hc))
    (factorial : ∀ {t : Token} {ts : List Token} {p : Phrase} (hp : Derives .postfixed ts p)
      (hk : t.kind = .symbol .bang) (_ : motive .postfixed ts p hp),
      motive .postfixed _ _ (.factorial hp hk))
    (prefixed : ∀ {t : Token} {s : Symbol} {op : PrefixOp} {ts : List Token} {p : Phrase}
      (hs : (s, op) ∈ Layer.signs) (hk : t.kind = .symbol s) (hp : Derives .signed ts p)
      (_ : motive .signed ts p hp), motive .signed _ _ (.prefixed hs hk hp))
    (power : ∀ {t : Token} {ts us : List Token} {p q : Phrase} (hp : Derives .signed ts p)
      (hk : t.kind = .symbol .caret) (hq : Derives .power us q) (_ : motive .signed ts p hp)
      (_ : motive .power us q hq), motive .power _ _ (.power hp hk hq))
    (binary : ∀ {l k : Layer} {t : Token} {s : Symbol} {op : BinaryOp} {ts us : List Token}
      {p q : Phrase} (hl : l.tighter? = some k) (hs : (s, op) ∈ l.operators) (hp : Derives l ts p)
      (hk : t.kind = .symbol s) (hq : Derives k us q) (_ : motive l ts p hp) (_ : motive k us q hq),
      motive l _ _ (.binary hl hs hp hk hq))
    (tighter : ∀ {l k : Layer} {ts : List Token} {p : Phrase} (hl : l.tighter? = some k)
      (hp : Derives k ts p) (_ : motive k ts p hp), motive l ts p (.tighter hl hp))
    {l : Layer} {ts : List Token} {p : Phrase} (h : Derives l ts p) : motive l ts p h :=
  @Derives.rec motive
    (fun ts ps _ =>
      Separated (fun ts p => ∃ h : Derives .comparison ts p, motive .comparison ts p h) ts ps)
    number constant emptyCall call bracketed factorial prefixed power binary tighter
    (fun hp ih => .last ⟨hp, ih⟩) (fun hp hk _ ih ihs => .more ⟨hp, ih⟩ hk ihs) l ts p h

theorem Derives.loosen {l m : Layer} {ts : List Token} {p : Phrase} (h : Derives m ts p)
    (hl : l.floor ≤ m.floor) : Derives l ts p := by
  rcases Nat.lt_or_eq_of_le hl with hlt | heq
  · obtain ⟨k, hk⟩ := Layer.exists_tighter hlt
    exact .tighter hk (h.loosen (Layer.tighter_floor_le hk hlt))
  · exact Layer.floor_injective heq ▸ h
termination_by m.floor - l.floor
decreasing_by
  have := Layer.floor_lt_tighter hk
  have := Layer.tighter_floor_le hk hlt
  omega

def Token.Known (t : Token) : Prop := t.kind = .name → (Binding.ofName? t.text).isSome

theorem Token.Known.of_symbol {t : Token} {s : Symbol} (h : t.kind = .symbol s) : t.Known :=
  fun hn => nomatch h.symm.trans hn

theorem Token.Known.of_binding {t : Token} {b : Binding} (h : Binding.ofName? t.text = some b) :
    t.Known :=
  fun _ => by rw [h]; rfl

theorem Separated.forall_mem {R : List Token → Phrase → Prop} {P : Token → Prop} {ts : List Token}
    {ps : List Phrase} (h : Separated R ts ps) (hR : ∀ us p, R us p → ∀ t ∈ us, P t)
    (hcomma : ∀ t : Token, t.kind = .symbol .comma → P t) : ∀ t ∈ ts, P t := by
  induction h with
  | last hp => exact hR _ _ hp
  | more hp hk hps ih =>
    exact List.forall_mem_append.mpr ⟨hR _ _ hp, List.forall_mem_cons.mpr ⟨hcomma _ hk, ih⟩⟩

theorem Derives.known {l : Layer} {ts : List Token} {p : Phrase} (h : Derives l ts p) :
    ∀ t ∈ ts, t.Known := by
  induction h with
  | number hk => exact List.forall_mem_singleton.mpr fun hn => nomatch hk.symm.trans hn
  | constant hk hb => exact List.forall_mem_singleton.mpr (.of_binding hb)
  | emptyCall hk hb ho hc =>
    have hbrackets := List.forall_mem_cons.mpr
      ⟨Token.Known.of_symbol ho, List.forall_mem_singleton.mpr (.of_symbol hc)⟩
    exact List.forall_mem_cons.mpr ⟨.of_binding hb, hbrackets⟩
  | call hk hb ho ha hc ih =>
    have hargs := ih.forall_mem (fun us p hp => hp.2) fun t ht => .of_symbol ht
    have hclosed := List.forall_mem_append.mpr ⟨hargs, List.forall_mem_singleton.mpr (.of_symbol hc)⟩
    exact List.forall_mem_cons.mpr ⟨.of_binding hb, List.forall_mem_cons.mpr ⟨.of_symbol ho, hclosed⟩⟩
  | bracketed ho hp hc ih =>
    have hclosed := List.forall_mem_append.mpr ⟨ih, List.forall_mem_singleton.mpr (.of_symbol hc)⟩
    exact List.forall_mem_cons.mpr ⟨.of_symbol ho, hclosed⟩
  | factorial hp hk ih =>
    exact List.forall_mem_append.mpr ⟨ih, List.forall_mem_singleton.mpr (.of_symbol hk)⟩
  | prefixed hs hk hp ih => exact List.forall_mem_cons.mpr ⟨.of_symbol hk, ih⟩
  | power hp hk hq ihp ihq =>
    exact List.forall_mem_append.mpr ⟨ihp, List.forall_mem_cons.mpr ⟨.of_symbol hk, ihq⟩⟩
  | binary hl hs hp hk hq ihp ihq =>
    exact List.forall_mem_append.mpr ⟨ihp, List.forall_mem_cons.mpr ⟨.of_symbol hk, ihq⟩⟩
  | tighter hl hp ih => exact ih

namespace Phrase

mutual

def Fits : Phrase → Prop
  | number _ => True
  | constant _ _ => True
  | bracketed inner => inner.Fits
  | prefixed _ operand => operand.Fits
  | binary _ left right => left.Fits ∧ right.Fits
  | factorial operand _ => operand.Fits
  | call _ function args _ => args.length = function.arity ∧ FitsAll args

def FitsAll : List Phrase → Prop
  | [] => True
  | p :: ps => p.Fits ∧ FitsAll ps

end

mutual

/-- The levels of nesting that the phrase takes up, itself among them. Left operands share the level of
the phrase. -/
def need : Phrase → Nat
  | number _ => 1
  | constant _ _ => 1
  | bracketed inner => 1 + inner.need
  | prefixed _ operand => 1 + operand.need
  | binary _ left right => max left.need (1 + right.need)
  | factorial operand _ => operand.need
  | call _ _ args _ => 1 + needAll args

def needAll : List Phrase → Nat
  | [] => 0
  | p :: ps => max p.need (needAll ps)

end

theorem need_pos : (p : Phrase) → 0 < p.need
  | number _ => Nat.one_pos
  | constant _ _ => Nat.one_pos
  | bracketed _ => by rw [need]; omega
  | prefixed _ _ => by rw [need]; omega
  | binary _ _ _ => by rw [need]; omega
  | factorial operand _ => by rw [need]; exact operand.need_pos
  | call _ _ _ _ => by rw [need]; omega

theorem fitsAll_iff {ps : List Phrase} : FitsAll ps ↔ ∀ p ∈ ps, p.Fits := by
  induction ps with
  | nil => simp [FitsAll]
  | cons p ps ih => simp [FitsAll, ih]

theorem needAll_le_iff {ps : List Phrase} {n : Nat} : needAll ps ≤ n ↔ ∀ p ∈ ps, p.need ≤ n := by
  induction ps with
  | nil => simp [needAll]
  | cons p ps ih => simp only [needAll, Nat.max_le, ih, List.forall_mem_cons]

theorem need_lt_call {p : Phrase} {args : List Phrase} (h : p ∈ args) (name : String) (f : Builtin)
    (span : Text.Span) : p.need < (call name f args span).need := by
  have hall := needAll_le_iff.mp (Nat.le_refl (needAll args)) p h
  rw [need]
  omega

end Phrase

structure Derivation (ts : List Token) (p : Phrase) : Prop where
  derives : Derives .comparison ts p
  fits : p.Fits

end Formula
