import Formula.Proofs.Scanning.Pieces
import Formula.Token.Cursor

namespace Formula.Cursor

def position (k : Cursor) : Nat :=
  match k.ahead with
  | some x => x.span.offset
  | none => k.offset

def after (k : Cursor) (steps : List Step) : Cursor := steps.foldl (fun k s => (k.step s).2) k

@[simp] theorem after_cons (k : Cursor) (s : Step) (steps : List Step) :
    k.after (s :: steps) = (k.step s).2.after steps := rfl

theorem after_append (k : Cursor) (steps more : List Step) :
    k.after (steps ++ more) = (k.after steps).after more := List.foldl_append

theorem read_cases (offset : Nat) (s : List Char) :
    ((∀ c ∈ s, Text.isBlank c) ∧ read offset s = (none, ⟨[], offset + Text.width s, none⟩)) ∨
      ∃ us c rest vs, s = us ++ c :: rest ∧ (∀ d ∈ us, Text.isBlank d) ∧ ¬Text.isBlank c ∧
        c :: rest = (Lexeme.scan c rest).slice ++ vs ∧
        read offset s = (some ((Lexeme.scan c rest).locate (offset + Text.width us)),
          ⟨vs, offset + Text.width us + Text.width (Lexeme.scan c rest).slice, none⟩) := by
  induction s generalizing offset with
  | nil => exact .inl ⟨nofun, rfl⟩
  | cons c rest ih =>
    by_cases hc : Text.isBlank c
    · have hread : read offset (c :: rest) = read (offset + c.utf8Size) rest := by rw [read, if_pos hc]
      rcases ih (offset + c.utf8Size) with ⟨hall, h⟩ | ⟨us, d, ws, vs, rfl, hus, hd, hs, h⟩
      · refine .inl ⟨List.forall_mem_cons.mpr ⟨hc, hall⟩, ?_⟩
        rw [hread, h, Text.width_cons, Nat.add_assoc]
      · refine .inr ⟨c :: us, d, ws, vs, rfl, List.forall_mem_cons.mpr ⟨hc, hus⟩, hd, hs, ?_⟩
        rw [hread, h, Text.width_cons, Nat.add_assoc offset]
    · obtain ⟨us, vs, hslice, hrest⟩ := Lexeme.exists_slice_eq_cons c rest
      have hs : c :: rest = (Lexeme.scan c rest).slice ++ vs := by
        rw [hslice, List.cons_append, ← hrest]
      have hdrop : (c :: rest).drop (Lexeme.scan c rest).slice.length = vs := by
        conv => lhs; rw [hs]
        exact List.drop_left
      refine .inr ⟨[], c, rest, vs, rfl, nofun, hc, hs, ?_⟩
      rw [read, if_neg hc]
      simp only [hdrop, Text.width_nil, Nat.add_zero]

theorem scanFrom_of_blank_append {us : List Char} (h : ∀ c ∈ us, Text.isBlank c) (offset : Nat)
    (s : List Char) :
    Item.scanFrom offset 0 (us ++ s) = Item.scanFrom (offset + Text.width us) 0 s := by
  induction us generalizing offset with
  | nil => rfl
  | cons c us ih =>
    obtain ⟨hc, hus⟩ := List.forall_mem_cons.mp h
    rw [List.cons_append, Item.scanFrom_blank hc, ih hus, Text.width_cons, Nat.add_assoc]

theorem blank_of_scanFrom {offset : Nat} {s : List Char} (h : Item.scanFrom offset 0 s = []) :
    ∀ c ∈ s, Text.isBlank c := by
  rcases read_cases offset s with ⟨hall, -⟩ | ⟨us, c, rest, vs, rfl, hus, hc, hs, -⟩
  · exact hall
  · rw [scanFrom_of_blank_append hus, Item.scanFrom_lexeme hc hs] at h
    cases h

theorem read_eq (offset : Nat) (s : List Char) :
    (read offset s).1 = (Item.scanFrom offset 0 s).head? ∧
      (read offset s).2.unread = (Item.scanFrom offset 0 s).tail := by
  rcases read_cases offset s with ⟨hall, h⟩ | ⟨us, c, rest, vs, rfl, hus, hc, hs, h⟩
  · rw [h, Item.scanFrom_of_blank hall]
    exact ⟨rfl, rfl⟩
  · rw [h, scanFrom_of_blank_append hus, Item.scanFrom_lexeme hc hs]
    exact ⟨rfl, rfl⟩

theorem next_eq (k : Cursor) : k.next.1 = k.unread.head? ∧ k.next.2.unread = k.unread.tail := by
  rcases k with ⟨rest, offset, _ | x⟩
  · exact read_eq offset rest
  · exact ⟨rfl, rfl⟩

theorem ahead_next (k : Cursor) : k.next.2.ahead = none := by
  rcases k with ⟨rest, offset, _ | x⟩
  · change (read offset rest).2.ahead = none
    rcases read_cases offset rest with ⟨-, h⟩ | ⟨_, _, _, _, -, -, -, -, h⟩ <;> rw [h]
  · rfl

theorem peek_fst (k : Cursor) : k.peek.1 = k.next.1 := by
  unfold peek
  rcases k.next with ⟨_ | x, behind⟩ <;> rfl

theorem peek_snd (k : Cursor) : k.peek.2 = { k.next.2 with ahead := k.next.1 } := by
  have ha := k.ahead_next
  unfold peek
  rcases hk : k.next with ⟨_ | x, behind⟩
  · rw [hk] at ha
    simp only
    rw [← ha]
  · rfl

theorem unread_peek (k : Cursor) : k.peek.2.unread = k.unread := by
  obtain ⟨hhead, htail⟩ := k.next_eq
  have hrest : Item.scanFrom k.next.2.offset 0 k.next.2.rest = k.unread.tail := by
    rw [← htail, unread, k.ahead_next]
    rfl
  rw [peek_snd, unread]
  simp only [hrest, hhead]
  cases k.unread <;> rfl

theorem step_eq (k : Cursor) (step : Step) :
    (k.step step).1 = k.unread.head? ∧ (k.step step).2.unread = k.unread.drop ([step].count .next) := by
  cases step with
  | next => exact ⟨k.next_eq.1, k.next_eq.2.trans List.drop_one.symm⟩
  | peek => exact ⟨k.peek_fst.trans k.next_eq.1, k.unread_peek⟩

theorem unread_after (k : Cursor) (steps : List Step) :
    (k.after steps).unread = k.unread.drop (steps.count .next) := by
  induction steps generalizing k with
  | nil => rfl
  | cons step steps ih =>
    rw [after_cons, ih, (k.step_eq step).2, List.drop_drop, ← List.count_append, List.singleton_append]

theorem run_eq (k : Cursor) (steps : List Step) :
    k.run steps = (List.range steps.length).map fun i => k.unread[(steps.take i).count .next]? := by
  induction steps generalizing k with
  | nil => rfl
  | cons step steps ih =>
    obtain ⟨hanswer, hunread⟩ := k.step_eq step
    rw [run, ih, hanswer, hunread, List.head?_eq_getElem?, List.length_cons, List.range_succ_eq_map,
      List.map_cons, List.map_map]
    congr 1
    apply List.map_congr_left
    intro i _
    rw [List.getElem?_drop, ← List.count_append, List.singleton_append]
    rfl

theorem run_next (k : Cursor) (n : Nat) :
    k.run (List.replicate n .next) = (List.range n).map fun i => k.unread[i]? := by
  rw [run_eq, List.length_replicate]
  apply List.map_congr_left
  intro i hi
  have hlt := List.mem_range.mp hi
  rw [List.take_replicate, List.count_replicate_self, Nat.min_eq_left (Nat.le_of_lt hlt)]

/-- The cursor stands in the text: the rest goes on behind as many bytes as the cursor has counted, and
an item that has been looked at is the last piece before the rest. -/
def Within (s : List Char) (k : Cursor) : Prop :=
  match k.ahead with
  | none => ∃ us, s = us ++ k.rest ∧ k.offset = Text.width us
  | some x => ∃ us c rest, s = us ++ c :: rest ∧ ¬Text.isBlank c ∧
      x = (Lexeme.scan c rest).locate (Text.width us) ∧
      c :: rest = (Lexeme.scan c rest).slice ++ k.rest ∧
      k.offset = Text.width us + Text.width (Lexeme.scan c rest).slice

variable {s : List Char} {k : Cursor}

theorem within_ofText (s : List Char) : (ofText s).Within s := ⟨[], rfl, rfl⟩

theorem Within.place (h : k.Within s) : ∃ us, s = us ++ k.rest ∧ k.offset = Text.width us := by
  rcases k with ⟨rest, offset, _ | x⟩
  · exact h
  · obtain ⟨us, c, vs, rfl, -, -, hs, hoffset⟩ := h
    refine ⟨us ++ (Lexeme.scan c vs).slice, ?_, ?_⟩
    · rw [hs, List.append_assoc]
    · rw [Text.width_append, hoffset]

theorem Within.exists_suffix (h : k.Within s) :
    ∃ us vs, s = us ++ vs ∧ k.position = Text.width us ∧
      k.unread = Item.scanFrom (Text.width us) 0 vs := by
  rcases k with ⟨rest, offset, _ | x⟩
  · obtain ⟨us, rfl, hoffset⟩ := h
    refine ⟨us, rest, rfl, hoffset, ?_⟩
    rw [← hoffset]
    rfl
  · obtain ⟨us, c, vs, rfl, hc, rfl, hs, hoffset⟩ := h
    refine ⟨us, c :: vs, rfl, ?_, ?_⟩
    · change (Lexeme.locate _ _).span.offset = _
      rw [Lexeme.span_locate]
    · rw [Item.scanFrom_lexeme hc hs, ← hoffset]
      rfl

theorem next_cases {us rest : List Char} (offset : Nat) (ho : offset = Text.width us) :
    (∃ k, read offset rest = (none, k) ∧ k.ahead = none ∧ k.Within (us ++ rest)) ∨
      ∃ x k, read offset rest = (some x, k) ∧ k.ahead = none ∧ k.offset = x.span.stop ∧
        { k with ahead := some x }.Within (us ++ rest) := by
  rcases read_cases offset rest with ⟨-, h⟩ | ⟨ts, c, more, vs, rfl, -, hc, hs, h⟩
  · refine .inl ⟨_, h, rfl, us ++ rest, (List.append_nil _).symm, ?_⟩
    rw [Text.width_append, ho]
  · refine .inr ⟨_, _, h, rfl, ?_, us ++ ts, c, more, ?_, hc, ?_, hs, ?_⟩
    · rw [Lexeme.span_locate]
      rfl
    · rw [List.append_assoc]
    · rw [Text.width_append, ho]
    · rw [Text.width_append, ho]

theorem Within.next (h : k.Within s) : k.next.2.Within s := by
  rcases k with ⟨rest, offset, _ | x⟩
  · obtain ⟨us, rfl, hoffset⟩ := h
    change (read offset rest).2.Within _
    rcases next_cases offset hoffset with ⟨k, hk, -, hin⟩ | ⟨x, k, hk, ha, -, hin⟩
    · rw [hk]
      exact hin
    · rw [hk, Within, ha]
      exact hin.place
  · exact h.place

theorem Within.peek (h : k.Within s) : k.peek.2.Within s := by
  rw [peek_snd]
  rcases k with ⟨rest, offset, _ | x⟩
  · obtain ⟨us, rfl, hoffset⟩ := h
    change { (read offset rest).2 with ahead := (read offset rest).1 }.Within _
    rcases next_cases offset hoffset with ⟨k, hk, ha, hin⟩ | ⟨x, k, hk, -, -, hin⟩
    · rw [hk]
      simp only
      rw [← ha]
      exact hin
    · rw [hk]
      exact hin
  · exact h

theorem Within.after (h : k.Within s) (steps : List Step) : (k.after steps).Within s := by
  induction steps generalizing k with
  | nil => exact h
  | cons step steps ih =>
    apply ih
    cases step with
    | next => exact h.next
    | peek => exact h.peek

theorem Within.offset_next {x : Item} (h : k.Within s) (hx : k.next.1 = some x) :
    k.next.2.offset = x.span.stop := by
  rcases k with ⟨rest, offset, _ | y⟩
  · obtain ⟨us, rfl, hoffset⟩ := h
    change (read offset rest).1 = _ at hx
    change (read offset rest).2.offset = _
    rcases next_cases offset hoffset with ⟨k, hk, -, -⟩ | ⟨y, k, hk, -, hstop, -⟩
    · rw [hk] at hx
      cases hx
    · rw [hk] at hx ⊢
      exact Option.some.inj hx ▸ hstop
  · obtain ⟨us, c, vs, -, -, rfl, -, hoffset⟩ := h
    cases hx
    rw [Lexeme.span_locate]
    exact hoffset

end Formula.Cursor
