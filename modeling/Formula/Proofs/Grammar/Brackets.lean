import Formula.Proofs.Grammar.Derivation

namespace Formula

namespace Token

/-- How many brackets are open behind the tokens, where `n` are open before them. A bracket that is closed
and has not been opened leaves nothing. -/
def openAfter (n : Nat) : List Token → Option Nat
  | [] => some n
  | t :: ts =>
    if t.isSymbol .leftParen then openAfter (n + 1) ts
    else if t.isSymbol .rightParen then
      match n with
      | 0 => none
      | n + 1 => openAfter n ts
    else openAfter n ts

variable {n : Nat} {t : Token} {ts : List Token}

theorem openAfter_open (h : t.kind = .symbol .leftParen) : openAfter n (t :: ts) = openAfter (n + 1) ts := by
  simp [openAfter, isSymbol, h]

theorem openAfter_close (h : t.kind = .symbol .rightParen) : openAfter (n + 1) (t :: ts) = openAfter n ts := by
  simp [openAfter, isSymbol, h]

theorem openAfter_name (h : t.kind = .name) : openAfter n (t :: ts) = openAfter n ts := by
  simp [openAfter, isSymbol, h]

theorem openAfter_number {value : Float} (h : t.kind = .number value) :
    openAfter n (t :: ts) = openAfter n ts := by
  simp [openAfter, isSymbol, h]

theorem openAfter_symbol {s : Symbol} (h : t.kind = .symbol s) (ho : s ≠ .leftParen) (hc : s ≠ .rightParen) :
    openAfter n (t :: ts) = openAfter n ts := by
  simp [openAfter, isSymbol, h, ho, hc]

def Balanced (ts : List Token) : Prop := ∀ n us, openAfter n (ts ++ us) = openAfter n us

theorem Balanced.openAfter_zero (h : Balanced ts) : openAfter 0 ts = some 0 := by
  have hall := h 0 []
  rwa [List.append_nil] at hall

end Token

open Token

theorem Separated.balanced {R : List Token → Phrase → Prop} {ts : List Token} {ps : List Phrase}
    (h : Separated R ts ps) (hR : ∀ ts p, R ts p → Balanced ts) : Balanced ts := by
  induction h with
  | last hp => exact hR _ _ hp
  | more hp hk hps ih =>
    intro n us
    rw [List.append_assoc, hR _ _ hp, List.cons_append, openAfter_symbol hk (by decide) (by decide), ih]

theorem Derives.balanced {l : Layer} {ts : List Token} {p : Phrase} (h : Derives l ts p) : Balanced ts := by
  induction h with
  | number hk => exact fun n us => openAfter_number hk
  | constant hk hb => exact fun n us => openAfter_name hk
  | emptyCall hk hb ho hc =>
    intro n us
    simp only [List.cons_append, List.nil_append]
    rw [openAfter_name hk, openAfter_open ho, openAfter_close hc]
  | call hk hb ho ha hc ih =>
    intro n us
    simp only [List.cons_append, List.append_assoc, List.nil_append]
    rw [openAfter_name hk, openAfter_open ho, ih.balanced fun _ _ h => h.2, openAfter_close hc]
  | bracketed ho hp hc ih =>
    intro n us
    simp only [List.cons_append, List.append_assoc, List.nil_append]
    rw [openAfter_open ho, ih, openAfter_close hc]
  | factorial hp hk ih =>
    intro n us
    rw [List.append_assoc, ih, List.cons_append, openAfter_symbol hk (by decide) (by decide), List.nil_append]
  | prefixed hs hk hp ih =>
    intro n us
    obtain ⟨-, ho, hc⟩ := Layer.mem_signs hs
    rw [List.cons_append, openAfter_symbol hk ho hc, ih]
  | power hp hk hq ihp ihq =>
    intro n us
    rw [List.append_assoc, ihp, List.cons_append, openAfter_symbol hk (by decide) (by decide), ihq]
  | @binary l k t s op ts us p q hl hs hp hk hq ihp ihq =>
    intro n vs
    have hplain := Layer.not_paren_of_suffix (Layer.mem_operators hs).2
    rw [List.append_assoc, ihp, List.cons_append, openAfter_symbol hk hplain.1 hplain.2, ihq]
  | tighter hl hp ih => exact ih

end Formula
