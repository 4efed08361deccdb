import Formula.Proofs.Scanning.Extent
import Formula.Proofs.Scanning.Pieces

namespace Formula

namespace Cut

variable {offset : Nat} {s : List Char} {items xs ys : List Item} {x y : Item}

theorem scanFrom_eq (h : Cut offset s items) : Item.scanFrom offset 0 s = items := by
  induction h with
  | nil => rfl
  | blank hc h ih => rw [Item.scanFrom_blank hc, ih]
  | piece hc hs h ih => rw [Item.scanFrom_lexeme hc hs, ih]

theorem of_blank_append {us : List Char} (h : Cut (offset + Text.width us) s items)
    (hus : ∀ c ∈ us, Text.isBlank c) : Cut offset (us ++ s) items := by
  induction us generalizing offset with
  | nil => exact h
  | cons c us ih =>
    obtain ⟨hc, hrest⟩ := List.forall_mem_cons.mp hus
    refine .blank hc (ih ?_ hrest)
    rwa [Nat.add_assoc, ← Text.width_cons]

theorem append {g : List Char} {more : List Item} (h : Cut offset s items) (hg : Text.Breaks g)
    (hmore : Cut (offset + Text.width s) g more) : Cut offset (s ++ g) (items ++ more) := by
  induction h with
  | nil => exact hmore
  | @blank offset c rest items hc h ih =>
    rw [Text.width_cons, ← Nat.add_assoc] at hmore
    exact .blank hc (ih hmore)
  | @piece offset c rest vs items hc hs h ih =>
    obtain ⟨us, hscan, rfl⟩ := Lexeme.exists_slice_of_append hs
    have hsame := @Lexeme.scan_of_slice [] g hg c us vs (by rwa [List.append_nil])
    rw [List.append_nil] at hsame
    rw [hs, Text.width_append, ← Nat.add_assoc] at hmore
    have hpiece := @Cut.piece offset c (us ++ (vs ++ g)) (vs ++ g) (items ++ more) hc
      (by rw [hsame, hscan, List.cons_append]) (by rw [hsame]; exact ih hmore)
    rwa [hsame, ← List.append_assoc] at hpiece

theorem split (h : Cut offset s (xs ++ y :: ys)) :
    ∃ us vs, s = us ++ vs ∧ y.span.offset = offset + Text.width us ∧ y.slice <+: vs ∧
      Cut y.span.offset vs (y :: ys) := by
  generalize hitems : xs ++ y :: ys = items at h
  induction h generalizing xs with
  | nil => cases xs <;> cases hitems
  | @blank offset c rest items hc h ih =>
    obtain ⟨us, vs, rfl, hoffset, hslice, hcut⟩ := ih hitems
    refine ⟨c :: us, vs, rfl, ?_, hslice, hcut⟩
    rw [hoffset, Text.width_cons, Nat.add_assoc]
  | @piece offset c rest vs items hc hs h ih =>
    rcases xs with _ | ⟨x, xs⟩
    · cases hitems
      rw [Lexeme.span_locate, Lexeme.slice_locate]
      exact ⟨[], c :: rest, rfl, rfl, ⟨vs, hs.symm⟩, .piece hc hs h⟩
    · injection hitems with _ hitems
      obtain ⟨us, ws, rfl, hoffset, hslice, hcut⟩ := ih hitems
      refine ⟨(Lexeme.scan c rest).slice ++ us, ws, ?_, ?_, hslice, hcut⟩
      · rw [hs, List.append_assoc]
      · rw [hoffset, Text.width_append, Nat.add_assoc]

theorem truncate (h : Cut offset s (xs ++ y :: ys)) :
    ∃ us vs, s = us ++ vs ∧ y.span.stop = offset + Text.width us ∧ y.slice <:+ us ∧
      Cut offset us (xs ++ [y]) := by
  generalize hitems : xs ++ y :: ys = items at h
  induction h generalizing xs with
  | nil => cases xs <;> cases hitems
  | @blank offset c rest items hc h ih =>
    obtain ⟨us, vs, rfl, hstop, ⟨ws, hslice⟩, hcut⟩ := ih hitems
    refine ⟨c :: us, vs, rfl, ?_, ⟨c :: ws, congrArg (c :: ·) hslice⟩, .blank hc hcut⟩
    rw [hstop, Text.width_cons, Nat.add_assoc]
  | @piece offset c rest vs items hc hs h ih =>
    obtain ⟨us, hscan, rfl⟩ := Lexeme.exists_slice_of_append hs
    have hcutoff (more after : List Char) (hts : vs = more ++ after) :
        Lexeme.scan c (us ++ more) = Lexeme.scan c (us ++ vs) := by
      subst hts
      have hsame := Lexeme.scan_of_slice Text.breaks_nil hscan
      rwa [List.append_nil] at hsame
    rcases xs with _ | ⟨x, xs⟩
    · cases hitems
      have hwhole := hcutoff [] vs rfl
      rw [List.append_nil] at hwhole
      rw [Lexeme.slice_locate, Lexeme.span_locate]
      refine ⟨c :: us, vs, by rw [List.cons_append], by rw [hscan, Text.Span.stop],
        ⟨[], hscan⟩, ?_⟩
      have hpiece := @Cut.piece offset c us [] [] hc (by rw [hwhole, hscan, List.append_nil]) .nil
      rwa [hwhole] at hpiece
    · injection hitems with hx hitems
      obtain ⟨more, after, hts, hstop, ⟨ws, hslice⟩, hcut⟩ := ih hitems
      have hsame := hcutoff more after hts
      refine ⟨c :: us ++ more, after, by rw [hts, List.append_assoc, List.cons_append], ?_,
        ⟨c :: us ++ ws, by rw [List.append_assoc, hslice]⟩, ?_⟩
      · rw [hstop, hscan, Text.width_append, Nat.add_assoc]
      · have hpiece := @Cut.piece offset c (us ++ more) more (xs ++ [y]) hc
          (by rw [hsame, hscan, List.cons_append]) (by rwa [hsame])
        rwa [hsame, ← hx] at hpiece

theorem slice_prefix (h : Cut y.span.offset s (y :: ys)) : y.slice <+: s := by
  obtain ⟨us, vs, rfl, hoffset, hslice, -⟩ := @split _ _ [] _ _ h
  obtain rfl : us = [] := by
    rcases us with _ | ⟨c, us⟩
    · rfl
    · have hpos := c.utf8Size_pos
      rw [Text.width_cons] at hoffset
      omega
  exact hslice

end Cut

theorem Item.scan_slice {s : List Char} {before mid after : List Item} {x y : Item}
    (h : Item.scan s = before ++ (x :: mid ++ y :: after)) :
    ∃ us slice vs, s = us ++ slice ++ vs ∧ x.span.offset = Text.width us ∧
      y.span.stop = Text.width (us ++ slice) ∧ x.slice <+: slice ∧ y.slice <:+ slice ∧
      (Item.scan slice).map (·.shift (Text.width us)) = x :: mid ++ [y] := by
  have hcut := scanFrom_cut 0 s
  rw [show scanFrom 0 0 s = _ from h] at hcut
  obtain ⟨us, rest, rfl, hoffset, -, hrest⟩ := @Cut.split _ _ before _ _ hcut
  rw [Nat.zero_add] at hoffset
  obtain ⟨slice, vs, rfl, hstop, hlast, hslice⟩ := @Cut.truncate _ _ (x :: mid) after y hrest
  refine ⟨us, slice, vs, (List.append_assoc us slice vs).symm, hoffset, ?_, hslice.slice_prefix, hlast, ?_⟩
  · rw [hstop, hoffset, Text.width_append]
  · rw [Item.scan, ← scanFrom_shift, Nat.zero_add, ← hoffset]
    exact hslice.scanFrom_eq

end Formula
