import Formula.Proofs.Binary64.Rational
import Formula.Proofs.Evaluation
import Formula.Proofs.Grammar.Segment
import Formula.Proofs.Parsing.Recognition
import Formula.Proofs.Scanning.Pieces

namespace Formula

namespace Expr

def Resolved : Expr → Prop
  | number x => Binary64.Unsigned x
  | constant name x => Binding.ofName? name = some (.constant x)
  | call name f args _ => Binding.ofName? name = some (.function f) ∧ args.length = f.arity
  | prefixed _ _ => True
  | binary _ _ _ => True
  | factorial _ _ => True

def IsFactorialFault (es : List Expr) (f : Fault) : Prop :=
  ∃ operand span x, .factorial operand span ∈ es ∧ operand.value = .ok x ∧ factorial? x = none ∧
    f = .domain (.factorial x span)

theorem IsFactorialFault.mono {es es' : List Expr} {f : Fault} (h : IsFactorialFault es f)
    (hes : ∀ e ∈ es, e ∈ es') : IsFactorialFault es' f := by
  obtain ⟨operand, span, x, hmem, hx⟩ := h
  exact ⟨operand, span, x, hes _ hmem, hx⟩

theorem of_fault?_factorialAt {span : Text.Span} {x : Float} {f : Fault}
    (h : fault? (factorialAt span x) = some f) :
    factorial? x = none ∧ f = .domain (.factorial x span) := by
  unfold factorialAt at h
  split at h
  · cases h
  · cases h
    exact ⟨‹_›, rfl⟩

theorem length_of_valueAll {es : List Expr} {xs : List Float} (h : valueAll es = .ok xs) :
    xs.length = es.length := by
  induction es generalizing xs with
  | nil =>
    cases h
    rfl
  | cons e es ih =>
    rcases he : e.value with f | x
    · rw [valueAll, he] at h
      cases h
    · rcases hes : valueAll es with f | ys
      · rw [valueAll, he, hes] at h
        cases h
      · rw [valueAll, he, hes] at h
        cases h
        rw [List.length_cons, List.length_cons, ih hes]

theorem fault?_callAt {name : String} {f : Builtin} {span : Text.Span} {xs : List Float}
    (h : xs.length = f.arity) : fault? (callAt name f span xs) = none := by
  obtain ⟨y, hy⟩ := Option.isSome_iff_exists.mp ((f.isSome_call?_iff xs).mpr h)
  rw [callAt, hy]
  rfl

mutual

theorem isFactorialFault_of_mem (e : Expr) (h : ∀ d ∈ e.subexpressions, d.Resolved) {f : Fault}
    (hf : f ∈ e.faults) : IsFactorialFault e.subexpressions f := by
  cases e with
  | number x => cases hf
  | constant name x => cases hf
  | prefixed op operand =>
    have hoperand := isFactorialFault_of_mem operand (fun d hd => h d (List.mem_cons_of_mem _ hd)) hf
    exact hoperand.mono fun d hd => List.mem_cons_of_mem _ hd
  | binary op left right =>
    have hchildren := (List.forall_mem_cons.mp h).2
    rcases List.mem_append.mp hf with hf | hf
    · have hleft := isFactorialFault_of_mem left (fun d hd => hchildren d (List.mem_append_left _ hd)) hf
      exact hleft.mono fun d hd => List.mem_cons_of_mem _ (List.mem_append_left _ hd)
    · have hright :=
        isFactorialFault_of_mem right (fun d hd => hchildren d (List.mem_append_right _ hd)) hf
      exact hright.mono fun d hd => List.mem_cons_of_mem _ (List.mem_append_right _ hd)
  | factorial operand span =>
    rw [faults] at hf
    rcases List.mem_append.mp hf with hf | hf
    · have hoperand := isFactorialFault_of_mem operand (fun d hd => h d (List.mem_cons_of_mem _ hd)) hf
      exact hoperand.mono fun d hd => List.mem_cons_of_mem _ hd
    · rcases hx : operand.value with g | x
      · rw [hx] at hf
        cases hf
      · rw [hx] at hf
        obtain ⟨hnone, rfl⟩ := of_fault?_factorialAt (Option.mem_toList.mp hf)
        exact ⟨operand, span, x, List.mem_cons_self, hx, hnone, rfl⟩
  | call name function args span =>
    obtain ⟨⟨-, hlength⟩, hargs⟩ := List.forall_mem_cons.mp h
    rw [faults] at hf
    rcases List.mem_append.mp hf with hf | hf
    · have hmem := isFactorialFault_of_memAll args hargs hf
      exact hmem.mono fun d hd => List.mem_cons_of_mem _ hd
    · rcases hxs : valueAll args with g | xs
      · rw [hxs] at hf
        cases hf
      · have hnone := @fault?_callAt name function span xs ((length_of_valueAll hxs).trans hlength)
        rw [hxs] at hf
        simp only [hnone] at hf
        cases hf

theorem isFactorialFault_of_memAll (es : List Expr) (h : ∀ d ∈ subexpressionsAll es, d.Resolved)
    {f : Fault} (hf : f ∈ faultsAll es) : IsFactorialFault (subexpressionsAll es) f := by
  cases es with
  | nil => cases hf
  | cons e es =>
    rcases List.mem_append.mp hf with hf | hf
    · have hfirst := isFactorialFault_of_mem e (fun d hd => h d (List.mem_append_left _ hd)) hf
      exact hfirst.mono fun d hd => List.mem_append_left _ hd
    · have hrest := isFactorialFault_of_memAll es (fun d hd => h d (List.mem_append_right _ hd)) hf
      exact hrest.mono fun d hd => List.mem_append_right _ hd

end

theorem eval_ok_or_factorial {e : Expr} (h : ∀ d ∈ e.subexpressions, d.Resolved) :
    (∃ x, e.eval = .ok x) ∨ ∃ f, e.eval = .error f ∧ IsFactorialFault e.subexpressions f := by
  rw [eval_eq_value]
  rcases hv : e.value with f | x
  · have hhead : e.faults.head? = some f := by rw [head?_faults, hv, fault?]
    exact .inr ⟨f, rfl, isFactorialFault_of_mem e h (List.mem_of_head? hhead)⟩
  · exact .inl ⟨x, rfl⟩

end Expr

theorem factorial?_eq_none_iff {x : Float} :
    factorial? x = none ↔ ∀ n : ℕ, (Binary64.ofFloat x).toRat? ≠ some (n : ℚ) := by
  rw [factorial?, Option.map_eq_none_iff, Option.eq_none_iff_forall_ne_some]
  exact forall_congr' fun n => not_congr Binary64.toNat?_eq_some_iff

def Token.Unsigned (t : Token) : Prop := ∀ x, t.kind = .number x → Binary64.Unsigned x

theorem Lexeme.unsigned_of_scan {c : Char} {rest slice : List Char} {x : Float}
    (h : scan c rest = .token (.number x) slice) : Binary64.Unsigned x := by
  unfold scan at h
  split at h
  · unfold ofLiteral at h
    split at h
    · cases h
      exact Literal.unsigned_of_value ‹_›
    · cases h
  · split at h
    · cases h
    · split at h
      · cases h
      · split at h
        · cases h
        · cases h

theorem unsigned_of_tokenize {text : String} {t : Token} (h : .ok t ∈ tokenize text) : t.Unsigned := by
  intro x hx
  obtain ⟨us, c, rest, -, -, ht⟩ := (Item.scanFrom_cut 0 text.toList).exists_lexeme h
  rcases hscan : Lexeme.scan c rest with ⟨kind, slice⟩ | ⟨flaw, slice⟩ | d
  · rw [hscan] at ht
    cases ht
    cases hx
    exact Lexeme.unsigned_of_scan hscan
  · rw [hscan] at ht
    cases ht
  · rw [hscan] at ht
    cases ht

theorem Derives.resolved {l : Layer} {ts : List Token} {p : Phrase} (h : Derives l ts p) (hf : p.Fits)
    (hb : p.Bare) (hts : ∀ t ∈ ts, t.Unsigned) : p.expr.Resolved := by
  induction h with
  | number hk => exact hts _ List.mem_cons_self _ hk
  | constant hk hbinding => exact hbinding
  | @emptyCall name paren close f hk hbinding ho hc =>
    exact absurd hf.1 (Nat.ne_of_lt f.arity_pos)
  | @call name paren close f ts args hk hbinding ho ha hc ih =>
    refine ⟨hbinding, ?_⟩
    rw [Phrase.exprAll_eq_map, List.length_map]
    exact hf.1
  | bracketed ho hp hc ih => exact hb.elim
  | tighter hl hp ih => exact ih hf hb hts
  | _ => trivial

theorem Segment.resolved {ts : List Token} {levels : Nat} {d : Expr} (h : Segment ts levels d)
    (hts : ∀ t ∈ ts, t.Unsigned) : d.Resolved := by
  obtain ⟨us, seg, vs, l, q, rfl, hq, hf, -, rfl, hb⟩ := h
  refine hq.resolved hf hb fun t ht => ?_
  exact hts t (List.mem_append_right _ (List.mem_append_left _ ht))

theorem resolved_of_parse_eq {limits : Limits} {text : String} {e : Expr}
    (h : parse limits text = .ok e) : ∀ d ∈ e.subexpressions, d.Resolved := by
  obtain ⟨ts, p, ht, hp, rfl⟩ := derivation_of_parse_eq h
  intro d hd
  apply (hp.derives.segment hp.fits d hd).resolved
  intro t hmem
  have hitem : .ok t ∈ tokenize text := by
    rw [ht]
    exact List.mem_map_of_mem hmem
  exact unsigned_of_tokenize hitem

theorem parse_resolves {limits : Limits} {text : String} {e : Expr} (h : parse limits text = .ok e) :
    (∀ d ∈ e.subexpressions, d.Resolved) ∧
    ((∃ x, e.eval = .ok x) ∨
      ∃ operand span x, .factorial operand span ∈ e.subexpressions ∧ operand.eval = .ok x ∧
        (∀ n : ℕ, (Binary64.ofFloat x).toRat? ≠ some (n : ℚ)) ∧
        e.eval = .error (.domain (.factorial x span))) := by
  have hresolved := resolved_of_parse_eq h
  refine ⟨hresolved, ?_⟩
  rcases Expr.eval_ok_or_factorial hresolved with hok | ⟨f, he, operand, span, x, hmem, hx, hnone, rfl⟩
  · exact .inl hok
  · refine .inr ⟨operand, span, x, hmem, ?_, factorial?_eq_none_iff.mp hnone, he⟩
    rw [Expr.eval_eq_value, hx]

theorem parse_resolves_factorial_of_call :
    let call : Expr := .call "abs" (.unary Float.abs) [.constant "E" Binding.e] ⟨0, 6⟩
    let e : Expr := .factorial call ⟨6, 1⟩
    parse {} "abs(E)!" = .ok e ∧ (∀ d ∈ e.subexpressions, d.Resolved) ∧
      ((∃ x, e.eval = .ok x) ∨
        ∃ operand span x, .factorial operand span ∈ e.subexpressions ∧ operand.eval = .ok x ∧
          (∀ n : ℕ, (Binary64.ofFloat x).toRat? ≠ some (n : ℚ)) ∧
          e.eval = .error (.domain (.factorial x span))) := by
  intro call e
  let name : Token := ⟨.name, ['a', 'b', 's'], 0⟩
  let paren : Token := ⟨.symbol .leftParen, ['('], 3⟩
  let constant : Token := ⟨.name, ['E'], 4⟩
  let close : Token := ⟨.symbol .rightParen, [')'], 5⟩
  let bang : Token := ⟨.symbol .bang, ['!'], 6⟩
  let p : Phrase := .factorial (.call "abs" (.unary Float.abs) [.constant "E" Binding.e] ⟨0, 6⟩) ⟨6, 1⟩
  have hconstant : Derives .comparison [constant] (.constant "E" Binding.e) :=
    (@Derives.constant constant _ rfl rfl).loosen (by decide)
  have hcall := @Derives.call name paren close (.unary Float.abs) _ _ rfl rfl rfl (.last hconstant) rfl
  have hfactorial := @Derives.factorial bang _ _ (.tighter rfl hcall) rfl
  have hd : Derivation [name, paren, constant, close, bang] p :=
    ⟨hfactorial.loosen (by decide), rfl, trivial, trivial⟩
  have hl : Text.width "abs(E)!".toList ≤ 4096 := by decide
  have hok : parse {} "abs(E)!" = .ok e := hd.parse_eq hl rfl (show 2 ≤ 64 by decide)
  exact ⟨hok, parse_resolves hok⟩

end Formula
