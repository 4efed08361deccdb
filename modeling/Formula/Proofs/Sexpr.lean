import Formula.Proofs.Decimal.Readback
import Formula.Proofs.Resolution
import Formula.Proofs.Respacing

namespace Formula

def IsRun (w : List Char) : Prop := ∀ c ∈ w, c ≠ ' ' ∧ c ≠ '(' ∧ c ≠ ')'

instance (w : List Char) : Decidable (IsRun w) := List.decidableBAll _ w

def EndsRun (s : List Char) : Prop := ∀ c ∈ s.head?, c = ' ' ∨ c = ')'

theorem endsRun_nil : EndsRun [] := nofun

theorem endsRun_space (s : List Char) : EndsRun (' ' :: s) := by
  rintro c ⟨⟩
  exact .inl rfl

theorem endsRun_paren (s : List Char) : EndsRun (')' :: s) := by
  rintro c ⟨⟩
  exact .inr rfl

theorem IsRun.not_endsRun {c : Char} {w s : List Char} (hw : IsRun (c :: w)) : ¬EndsRun (c :: s) := by
  intro hs
  obtain ⟨hspace, -, hparen⟩ := hw c List.mem_cons_self
  rcases hs c rfl with hc | hc
  · exact hspace hc
  · exact hparen hc

theorem IsRun.append_inj {w w' r r' : List Char} (hw : IsRun w) (hw' : IsRun w') (hr : EndsRun r)
    (hr' : EndsRun r') (h : w ++ r = w' ++ r') : w = w' ∧ r = r' := by
  induction w generalizing w' with
  | nil =>
    cases w' with
    | nil => exact ⟨rfl, h⟩
    | cons c w' =>
      rw [List.nil_append] at h
      rw [h] at hr
      exact absurd hr hw'.not_endsRun
  | cons c w ih =>
    cases w' with
    | nil =>
      rw [List.nil_append] at h
      rw [← h] at hr'
      exact absurd hr' hw.not_endsRun
    | cons d w' =>
      injection h with hcd h
      obtain ⟨rfl, rfl⟩ := ih (fun e he => hw e (List.mem_cons_of_mem _ he))
        (fun e he => hw' e (List.mem_cons_of_mem _ he)) h
      exact ⟨by rw [hcd], rfl⟩

theorem IsRun.ne_application {w r s : List Char} (hw : IsRun w) (hr : EndsRun r) : w ++ r ≠ '(' :: s := by
  intro h
  cases w with
  | nil =>
    rw [List.nil_append] at h
    rw [h] at hr
    rcases hr '(' rfl with hc | hc <;> cases hc
  | cons c w =>
    injection h with hc
    exact (hw c List.mem_cons_self).2.1 hc

namespace Expr

inductive IsLeaf : Expr → List Char → Prop where
  | number (x : Float) : IsLeaf (.number x) (Layout.plain.write x)
  | constant (name : String) (x : Float) : IsLeaf (.constant name x) name.toList

inductive IsApplication : Expr → List Char → List Expr → Prop where
  | prefixed (op : PrefixOp) (operand : Expr) :
    IsApplication (.prefixed op operand) op.symbol.spelling [operand]
  | binary (op : BinaryOp) (left right : Expr) :
    IsApplication (.binary op left right) op.symbol.spelling [left, right]
  | factorial (operand : Expr) (span : Text.Span) :
    IsApplication (.factorial operand span) Symbol.bang.spelling [operand]
  | call (name : String) (f : Builtin) (args : List Expr) (span : Text.Span) :
    IsApplication (.call name f args span) name.toList args

theorem leaf_or_application (e : Expr) : (∃ w, IsLeaf e w) ∨ ∃ w es, IsApplication e w es := by
  cases e with
  | number x => exact .inl ⟨_, .number x⟩
  | constant name x => exact .inl ⟨_, .constant name x⟩
  | prefixed op operand => exact .inr ⟨_, _, .prefixed op operand⟩
  | binary op left right => exact .inr ⟨_, _, .binary op left right⟩
  | factorial operand span => exact .inr ⟨_, _, .factorial operand span⟩
  | call name f args span => exact .inr ⟨_, _, .call name f args span⟩

variable {e e' : Expr} {w : List Char} {es es' : List Expr}

theorem IsLeaf.sexprOnto_eq (h : IsLeaf e w) (r : List Char) : e.sexprOnto r = w ++ r := by
  cases h with
  | number x => rw [sexprOnto]
  | constant name x => rw [sexprOnto]

theorem IsApplication.sexprOnto_eq (h : IsApplication e w es) (r : List Char) :
    e.sexprOnto r = '(' :: (w ++ sexprAllOnto (')' :: r) es) := by
  cases h with
  | prefixed op operand => simp [sexprOnto, sexprAllOnto]
  | binary op left right => simp [sexprOnto, sexprAllOnto]
  | factorial operand span => simp [sexprOnto, sexprAllOnto]
  | call name f args span => simp [sexprOnto]

theorem IsApplication.sizeAll_le (h : IsApplication e w es) : sizeAll es ≤ e.size := by
  cases h <;> simp only [sizeAll, size] <;> omega

theorem IsApplication.mem_subexpressions (h : IsApplication e w es) {d : Expr}
    (hd : d ∈ subexpressionsAll es) : d ∈ e.subexpressions := by
  cases h <;> simp_all [subexpressionsAll, subexpressions]

theorem endsRun_sexprAllOnto (r : List Char) (es : List Expr) : EndsRun (sexprAllOnto (')' :: r) es) := by
  cases es with
  | nil => exact endsRun_paren r
  | cons e es => exact endsRun_space _

end Expr

theorem Binding.mem_of_constant {name : String} {x : Float} (h : Binding.ofName? name = some (.constant x)) :
    name = "PI" ∨ name = "π" ∨ name = "E" := by
  unfold Binding.ofName? at h
  split at h
  · rename_i entry hentry
    have hname : entry.1 = name := by simpa using List.find?_some hentry
    have hmem := List.mem_of_find?_eq_some hentry
    simp only [Binding.constants, List.mem_cons, List.not_mem_nil, or_false] at hmem
    rw [← hname]
    rcases hmem with rfl | rfl | rfl
    · exact .inl rfl
    · exact .inr (.inl rfl)
    · exact .inr (.inr rfl)
  · cases hf : Builtin.ofName? name <;> rw [hf] at h <;> cases h

theorem Binding.mem_of_function {name : String} {f : Builtin}
    (h : Binding.ofName? name = some (.function f)) : (name, f) ∈ Builtin.functions := by
  unfold Binding.ofName? at h
  split at h
  · cases h
  · obtain ⟨g, hg, hfun⟩ := Option.map_eq_some_iff.mp h
    cases hfun
    obtain ⟨⟨name', f⟩, hentry, rfl⟩ := Option.map_eq_some_iff.mp hg
    obtain rfl : name' = name := by simpa using List.find?_some hentry
    exact List.mem_of_find?_eq_some hentry

namespace Expr

variable {e e' : Expr} {w : List Char} {es es' : List Expr}

theorem IsLeaf.isRun (h : IsLeaf e w) (hr : e.Resolved) : IsRun w := by
  cases h with
  | number x =>
    rcases Layout.write_cases hr with hinf | ⟨q, hmantissa⟩
    · rw [hinf]
      decide
    · intro c hc
      rcases hmantissa.mem hc with hdigit | rfl
      · refine ⟨?_, ?_, ?_⟩ <;> rintro rfl <;> cases hdigit
      · decide
  | constant name x =>
    rcases Binding.mem_of_constant hr with rfl | rfl | rfl <;> decide

theorem IsApplication.isRun (h : IsApplication e w es) (hr : e.Resolved) : IsRun w := by
  cases h with
  | prefixed op operand => cases op <;> decide
  | binary op left right => cases op <;> decide
  | factorial operand span => decide
  | call name f args span =>
    have hruns : ∀ entry ∈ Builtin.functions, IsRun entry.1.toList := by
      simp only [Builtin.functions, List.forall_mem_cons]
      decide
    exact hruns _ (Binding.mem_of_function hr.1)

theorem write_ne_constant {x y : Float} {name : String} (hx : Binary64.Unsigned x)
    (hy : Binding.ofName? name = some (.constant y)) : Layout.plain.write x ≠ name.toList := by
  intro h
  rcases Layout.write_cases hx with hinf | ⟨q, hmantissa⟩
  · rw [hinf] at h
    revert h
    rcases Binding.mem_of_constant hy with rfl | rfl | rfl <;> decide
  · rw [h] at hmantissa
    rcases Binding.mem_of_constant hy with rfl | rfl | rfl
    all_goals
      have hhead := hmantissa.mem List.mem_cons_self
      revert hhead
      decide

theorem IsLeaf.unique (h : IsLeaf e w) (h' : IsLeaf e' w) (hr : e.Resolved) (hr' : e'.Resolved) : e = e' := by
  generalize hw : w = w' at h'
  cases h with
  | number x =>
    cases h' with
    | number y => rw [Layout.eq_of_write_eq hr hr' hw]
    | constant name y => exact absurd hw (write_ne_constant hr hr')
  | constant name x =>
    cases h' with
    | number y => exact absurd hw.symm (write_ne_constant hr' hr)
    | constant name' y =>
      obtain rfl := String.toList_inj.mp hw
      have hbinding : some (Binding.constant x) = some (.constant y) := hr.symm.trans hr'
      injection hbinding with hbinding
      injection hbinding with hxy
      rw [hxy]

def assemble (w : List Char) (es : List Expr) : Option Expr :=
  match Binding.ofName? (String.ofList w), Symbol.ofSpelling? w, es with
  | some (.function f), _, es => some (.call (String.ofList w) f es ⟨0, 0⟩)
  | _, some .bang, [x] => some (.factorial x ⟨0, 0⟩)
  | _, some s, [x] => (PrefixOp.ofSymbol? s).map (.prefixed · x)
  | _, some s, [x, y] => (BinaryOp.ofSymbol? s).map (.binary · x y)
  | _, _, _ => none

theorem IsApplication.assemble_eq (h : IsApplication e w es) (hr : e.Resolved) :
    assemble w (mapSpansAll nowhere es) = some e.unplaced := by
  cases h with
  | prefixed op operand => cases op <;> rfl
  | binary op left right => cases op <;> rfl
  | factorial operand span => rfl
  | call name f args span =>
    have hname : Binding.ofName? (String.ofList name.toList) = some (.function f) := by
      rw [String.ofList_toList]
      exact hr.1
    simp only [assemble, hname]
    rw [String.ofList_toList, unplaced, mapSpans]
    rfl

mutual

theorem sexprOnto_inj {r r' : List Char} (e e' : Expr) (h : ∀ d ∈ e.subexpressions, d.Resolved)
    (h' : ∀ d ∈ e'.subexpressions, d.Resolved) (hr : EndsRun r) (hr' : EndsRun r')
    (heq : e.sexprOnto r = e'.sexprOnto r') : e.unplaced = e'.unplaced ∧ r = r' := by
  have hself (d : Expr) : d ∈ d.subexpressions := by
    cases d <;> simp [subexpressions]
  have hres := h e (hself e)
  have hres' := h' e' (hself e')
  rcases e.leaf_or_application with ⟨w, hw⟩ | ⟨w, es, hw⟩
  · rw [hw.sexprOnto_eq] at heq
    rcases e'.leaf_or_application with ⟨w', hw'⟩ | ⟨w', es', hw'⟩
    · rw [hw'.sexprOnto_eq] at heq
      obtain ⟨rfl, rfl⟩ := (hw.isRun hres).append_inj (hw'.isRun hres') hr hr' heq
      rw [hw.unique hw' hres hres']
      exact ⟨rfl, rfl⟩
    · rw [hw'.sexprOnto_eq] at heq
      exact absurd heq ((hw.isRun hres).ne_application hr)
  · rw [hw.sexprOnto_eq] at heq
    rcases e'.leaf_or_application with ⟨w', hw'⟩ | ⟨w', es', hw'⟩
    · rw [hw'.sexprOnto_eq] at heq
      exact absurd heq.symm ((hw'.isRun hres').ne_application hr')
    · rw [hw'.sexprOnto_eq] at heq
      injection heq with _ heq
      obtain ⟨rfl, htail⟩ := (hw.isRun hres).append_inj (hw'.isRun hres') (endsRun_sexprAllOnto r es)
        (endsRun_sexprAllOnto r' es') heq
      have hsize := hw.sizeAll_le
      obtain ⟨hes, rfl⟩ := sexprAllOnto_inj es es' (fun d hd => h d (hw.mem_subexpressions hd))
        (fun d hd => h' d (hw'.mem_subexpressions hd)) htail
      have hsame := hw.assemble_eq hres
      rw [hes, hw'.assemble_eq hres'] at hsame
      exact ⟨(Option.some.inj hsame).symm, rfl⟩
termination_by 2 * e.size + 1

theorem sexprAllOnto_inj {r r' : List Char} (es es' : List Expr)
    (h : ∀ d ∈ subexpressionsAll es, d.Resolved) (h' : ∀ d ∈ subexpressionsAll es', d.Resolved)
    (heq : sexprAllOnto (')' :: r) es = sexprAllOnto (')' :: r') es') :
    mapSpansAll nowhere es = mapSpansAll nowhere es' ∧ r = r' := by
  cases es with
  | nil =>
    cases es' with
    | nil =>
      injection heq with _ heq
      exact ⟨rfl, heq⟩
    | cons e' es' =>
      injection heq with hc
      cases hc
  | cons e es =>
    cases es' with
    | nil =>
      injection heq with hc
      cases hc
    | cons e' es' =>
      injection heq with _ heq
      rw [subexpressionsAll, List.forall_mem_append] at h h'
      obtain ⟨hfirst, htail⟩ := sexprOnto_inj e e' h.1 h'.1 (endsRun_sexprAllOnto r es)
        (endsRun_sexprAllOnto r' es') heq
      obtain ⟨hrest, rfl⟩ := sexprAllOnto_inj es es' h.2 h'.2 htail
      exact ⟨congrArg₂ List.cons hfirst hrest, rfl⟩
termination_by 2 * sizeAll es
decreasing_by
  all_goals
    subst_vars
    simp only [sizeAll]
    omega

end

theorem unplaced_eq_of_sexpr_eq {e e' : Expr} (h : ∀ d ∈ e.subexpressions, d.Resolved)
    (h' : ∀ d ∈ e'.subexpressions, d.Resolved) (hs : e.sexpr = e'.sexpr) : e.unplaced = e'.unplaced :=
  (sexprOnto_inj e e' h h' endsRun_nil endsRun_nil (String.ofList_injective hs)).1

theorem value_eq_of_unplaced_eq {e e' : Expr} (h : e.unplaced = e'.unplaced) :
    e.value.mapError Fault.unplaced = e'.value.mapError Fault.unplaced := by
  have hvalue (d : Expr) : d.unplaced.value = d.value.mapError Fault.unplaced :=
    value_mapSpans nowhere d
  rw [← hvalue, ← hvalue, h]

end Expr

theorem sexpr_determines_expr {limits limits' : Limits} {text text' : String} {e e' : Expr}
    (h : parse limits text = .ok e) (h' : parse limits' text' = .ok e') (hs : e.sexpr = e'.sexpr) :
    e.unplaced = e'.unplaced ∧
      ((∃ x, e.eval = .ok x ∧ e'.eval = .ok x) ∨
        ∃ x span span', e.eval = .error (.domain (.factorial x span)) ∧
          e'.eval = .error (.domain (.factorial x span'))) := by
  have hres := resolved_of_parse_eq h
  have hres' := resolved_of_parse_eq h'
  have hsame := Expr.unplaced_eq_of_sexpr_eq hres hres' hs
  have hvalue := Expr.value_eq_of_unplaced_eq hsame
  rw [← Expr.eval_eq_value, ← Expr.eval_eq_value] at hvalue
  refine ⟨hsame, ?_⟩
  rcases Expr.eval_ok_or_factorial hres with ⟨x, hx⟩ | ⟨f, hf, -, span, x, -, -, -, rfl⟩
  · rcases Expr.eval_ok_or_factorial hres' with ⟨y, hy⟩ | ⟨f', hf', -⟩
    · rw [hx, hy] at hvalue
      cases hvalue
      exact .inl ⟨x, hx, hy⟩
    · rw [hx, hf'] at hvalue
      cases hvalue
  · rcases Expr.eval_ok_or_factorial hres' with ⟨y, hy⟩ | ⟨f', hf', -, span', x', -, -, -, rfl⟩
    · rw [hf, hy] at hvalue
      cases hvalue
    · rw [hf, hf'] at hvalue
      injection hvalue with hfault
      injection hfault with hdomain
      injection hdomain with hx
      rw [← hx] at hf'
      exact .inr ⟨x, span, span', hf, hf'⟩

theorem sexpr_determines_difference_of_negation :
    let difference (span : Text.Span) : Expr := .binary .subtract (.constant "π" Binding.pi)
      (.prefixed .negate (.factorial (.constant "π" Binding.pi) span))
    let e := difference ⟨6, 1⟩
    let e' := difference ⟨7, 1⟩
    parse {} "π--π!" = .ok e ∧ parse ⟨10, 8⟩ "π-(-π!)" = .ok e' ∧ e.sexpr = e'.sexpr ∧
      e.unplaced = e'.unplaced ∧
      ((∃ x, e.eval = .ok x ∧ e'.eval = .ok x) ∨
        ∃ x span span', e.eval = .error (.domain (.factorial x span)) ∧
          e'.eval = .error (.domain (.factorial x span'))) := by
  intro difference e e'
  let name (offset : Nat) : Token := ⟨.name, ['π'], offset⟩
  let minus (offset : Nat) : Token := ⟨.symbol .minus, ['-'], offset⟩
  let bang (offset : Nat) : Token := ⟨.symbol .bang, ['!'], offset⟩
  let paren : Token := ⟨.symbol .leftParen, ['('], 3⟩
  let close : Token := ⟨.symbol .rightParen, [')'], 8⟩
  have hname (offset : Nat) : Derives .primary [name offset] (.constant "π" Binding.pi) :=
    @Derives.constant (name offset) _ rfl rfl
  have hsigned (i j k : Nat) : Derives .signed [minus i, name j, bang k]
      (.prefixed .negate (.factorial (.constant "π" Binding.pi) ⟨k, 1⟩)) := by
    have hfactorial := @Derives.factorial (bang k) _ _ (.tighter rfl (hname j)) rfl
    exact @Derives.prefixed (minus i) _ .negate _ _ (by decide) rfl (.tighter rfl hfactorial)
  have hplain := @Derives.binary .sum .product (minus 2) .minus .subtract _ _ _ _ rfl (by decide)
    ((hname 0).loosen (by decide)) rfl ((hsigned 3 4 6).loosen (by decide))
  have hbracketed := @Derives.bracketed paren close _ _ rfl ((hsigned 4 5 7).loosen (by decide)) rfl
  have hbetween := @Derives.binary .sum .product (minus 2) .minus .subtract _ _ _ _ rfl (by decide)
    ((hname 0).loosen (by decide)) rfl (hbracketed.loosen (by decide))
  have hd : Derivation _ _ := ⟨hplain.loosen (by decide), trivial, trivial⟩
  have hd' : Derivation _ _ := ⟨hbetween.loosen (by decide), trivial, trivial⟩
  have hok : parse {} "π--π!" = .ok e := hd.parse_eq (by decide) rfl (by decide)
  have hok' : parse ⟨10, 8⟩ "π-(-π!)" = .ok e' := hd'.parse_eq (by decide) rfl (by decide)
  have hs : e.sexpr = e'.sexpr := rfl
  exact ⟨hok, hok', hs, sexpr_determines_expr hok hok' hs⟩

end Formula
