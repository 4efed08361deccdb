import Formula.Proofs.Scanning.Lexeme

/-!
How the items of a text lie in it: each begins where a visible character comes next, is as long as the
lexeme that begins there, and nothing but blanks lies between them.
-/

namespace Formula

namespace Item

def slice : Item → List Char
  | .ok t => t.slice
  | .error (.strayCharacter c _) => [c]
  | .error (.flawedLiteral _ slice _) => slice

end Item

namespace Lexeme

theorem slice_locate (offset : Nat) (lexeme : Lexeme) : (lexeme.locate offset).slice = lexeme.slice := by
  cases lexeme <;> rfl

theorem span_locate (offset : Nat) (lexeme : Lexeme) :
    (lexeme.locate offset).span = ⟨offset, Text.width lexeme.slice⟩ := by
  cases lexeme <;> rfl

theorem locate_eq_ok {lexeme : Lexeme} {offset : Nat} {t : Token}
    (h : lexeme.locate offset = .ok t) : lexeme = .token t.kind t.slice ∧ t.offset = offset := by
  cases lexeme <;> cases h
  exact ⟨rfl, rfl⟩

theorem locate_shift (offset d : Nat) (lexeme : Lexeme) :
    lexeme.locate (offset + d) = (lexeme.locate offset).shift d := by
  cases lexeme <;> rfl

theorem width_slice_pos (c : Char) (rest : List Char) : 0 < Text.width (scan c rest).slice := by
  obtain ⟨us, vs, h, -⟩ := exists_slice_eq_cons c rest
  rw [h, Text.width_cons]
  have := c.utf8Size_pos
  omega

end Lexeme

theorem Item.scanFrom_shift (d offset taken : Nat) (s : List Char) :
    scanFrom (offset + d) taken s = (scanFrom offset taken s).map (·.shift d) := by
  induction s generalizing offset taken with
  | nil => rfl
  | cons c rest ih =>
    have hstep (taken : Nat) : scanFrom (offset + d + c.utf8Size) taken rest =
        (scanFrom (offset + c.utf8Size) taken rest).map (·.shift d) := by
      rw [Nat.add_right_comm]
      exact ih _ _
    cases taken with
    | succ more => exact hstep more
    | zero =>
      by_cases hc : Text.isBlank c
      · simp only [scanFrom, hc, if_true]
        exact hstep 0
      · simp only [scanFrom, hc, Bool.false_eq_true, if_false, List.map_cons, Lexeme.locate_shift, hstep]

inductive Cut : Nat → List Char → List Item → Prop where
  | nil {offset : Nat} : Cut offset [] []
  | blank {offset : Nat} {c : Char} {rest : List Char} {items : List Item} (hc : Text.isBlank c)
      (h : Cut (offset + c.utf8Size) rest items) : Cut offset (c :: rest) items
  | piece {offset : Nat} {c : Char} {rest vs : List Char} {items : List Item} (hc : ¬Text.isBlank c)
      (hs : c :: rest = (Lexeme.scan c rest).slice ++ vs)
      (h : Cut (offset + Text.width (Lexeme.scan c rest).slice) vs items) :
      Cut offset (c :: rest) ((Lexeme.scan c rest).locate offset :: items)

theorem Item.scanFrom_cut (offset : Nat) (s : List Char) : Cut offset s (scanFrom offset 0 s) := by
  match s with
  | [] => exact .nil
  | c :: rest =>
    by_cases hc : Text.isBlank c
    · rw [scanFrom_blank hc]
      exact .blank hc (scanFrom_cut _ rest)
    · obtain ⟨us, vs, hslice, hrest⟩ := Lexeme.exists_slice_eq_cons c rest
      have hs : c :: rest = (Lexeme.scan c rest).slice ++ vs := by
        rw [hslice, List.cons_append, ← hrest]
      rw [scanFrom_lexeme hc hs]
      exact .piece hc hs (scanFrom_cut _ vs)
termination_by s.length
decreasing_by
  · exact Nat.lt_succ_self _
  · rw [hrest]
    simp only [List.length_cons, List.length_append]
    omega

namespace Cut

variable {offset : Nat} {s : List Char} {items : List Item} {x : Item}

theorem exists_lexeme (h : Cut offset s items) (hx : x ∈ items) :
    ∃ us c rest, s = us ++ c :: rest ∧ ¬Text.isBlank c ∧
      x = (Lexeme.scan c rest).locate (offset + Text.width us) := by
  induction h with
  | nil => cases hx
  | @blank offset c rest items hc h ih =>
    obtain ⟨us, d, vs, rfl, hd, rfl⟩ := ih hx
    refine ⟨c :: us, d, vs, rfl, hd, ?_⟩
    rw [Text.width_cons, Nat.add_assoc]
  | @piece offset c rest vs items hc hs h ih =>
    rcases List.mem_cons.mp hx with rfl | hx
    · exact ⟨[], c, rest, rfl, hc, rfl⟩
    · obtain ⟨us, d, ws, rfl, hd, rfl⟩ := ih hx
      refine ⟨(Lexeme.scan c rest).slice ++ us, d, ws, ?_, hd, ?_⟩
      · rw [hs, List.append_assoc]
      · rw [Text.width_append, Nat.add_assoc]

theorem offset_le (h : Cut offset s items) (hx : x ∈ items) : offset ≤ x.span.offset := by
  obtain ⟨us, c, rest, -, -, rfl⟩ := h.exists_lexeme hx
  rw [Lexeme.span_locate]
  exact Nat.le_add_right _ _

theorem length_pos (h : Cut offset s items) (hx : x ∈ items) : 0 < x.span.length := by
  obtain ⟨us, c, rest, -, -, rfl⟩ := h.exists_lexeme hx
  rw [Lexeme.span_locate]
  exact Lexeme.width_slice_pos c rest

theorem length_le_width (h : Cut offset s items) : items.length ≤ Text.width s := by
  induction h with
  | nil => exact Nat.le_refl _
  | blank hc h ih =>
    rw [Text.width_cons]
    exact Nat.le_trans ih (Nat.le_add_left _ _)
  | @piece offset c rest vs items hc hs h ih =>
    have hpos := Lexeme.width_slice_pos c rest
    rw [hs, Text.width_append, List.length_cons]
    omega

theorem stop_le_offset (h : Cut offset s items) :
    items.Pairwise fun x y => x.span.stop ≤ y.span.offset := by
  induction h with
  | nil => exact .nil
  | blank hc h ih => exact ih
  | piece hc hs h ih =>
    refine .cons (fun y hy => ?_) ih
    rw [Lexeme.span_locate]
    exact h.offset_le hy

theorem exists_covering (h : Cut offset s items) {us vs : List Char} {d : Char} (hs : s = us ++ d :: vs)
    (hd : ¬Text.isBlank d) :
    ∃ x ∈ items, x.span.offset ≤ offset + Text.width us ∧
      offset + Text.width us + d.utf8Size ≤ x.span.stop := by
  induction h generalizing us with
  | nil => exact absurd hs.symm (by simp)
  | @blank offset c rest items hc h ih =>
    rcases us with _ | ⟨e, us⟩
    · injection hs with hcd
      exact absurd (hcd ▸ hc) hd
    · injection hs with hce hrest
      obtain ⟨x, hx, hstart, hstop⟩ := ih hrest
      refine ⟨x, hx, ?_⟩
      rw [Text.width_cons, ← hce]
      omega
  | @piece offset c rest ws items hc hslice h ih =>
    rw [hslice] at hs
    rcases List.append_eq_append_iff.mp hs with ⟨ts, rfl, htail⟩ | ⟨ts, htext, htail⟩
    · obtain ⟨x, hx, hstart, hstop⟩ := ih htail
      refine ⟨x, List.mem_cons_of_mem _ hx, ?_⟩
      rw [Text.width_append]
      omega
    · rcases ts with _ | ⟨e, ts⟩
      · rw [List.append_nil] at htext
        obtain ⟨x, hx, hstart, hstop⟩ := ih (show _ = [] ++ d :: vs from htail.symm)
        refine ⟨x, List.mem_cons_of_mem _ hx, ?_⟩
        rw [← htext]
        simpa using ⟨hstart, hstop⟩
      · injection htail with hde _
        refine ⟨_, List.mem_cons_self, ?_⟩
        have hwidth := congrArg Text.width htext
        rw [Text.width_append, Text.width_cons, ← hde] at hwidth
        simp only [Lexeme.span_locate, Text.Span.stop]
        omega

end Cut

end Formula
