import Formula.Expr.Counted
import Formula.Proofs.Parsing.Nesting

namespace Formula

namespace Expr

mutual

/-- How deep evaluations are nested in the evaluation of an expression. Left operands and the operands of
factorials belong to the evaluation of the expression itself. -/
def nesting : Expr → Nat
  | number _ => 0
  | constant _ _ => 0
  | prefixed _ operand => operand.nesting + 1
  | binary _ left right => max left.nesting (right.nesting + 1)
  | factorial operand _ => operand.nesting
  | call _ _ args _ => nestingAll args

def nestingAll : List Expr → Nat
  | [] => 0
  | e :: es => max (e.nesting + 1) (nestingAll es)

end

def Pending.nesting : Pending → Nat
  | binary _ right => right.nesting + 1
  | factorial _ => 0

def pendingNesting (work : List Pending) : Nat := work.foldr (fun p n => max p.nesting n) 0

@[simp] theorem pendingNesting_nil : pendingNesting [] = 0 := rfl

@[simp] theorem pendingNesting_cons (p : Pending) (work : List Pending) :
    pendingNesting (p :: work) = max p.nesting (pendingNesting work) := rfl

/-- In the last of `active` evaluations, the counted run has the given result and goes `depth` levels
further down; where it stops with a fault, it may have gone less far. -/
def Tracks {α : Type} (active depth : Nat) (result : Except Fault α) (run : Counted α) : Prop :=
  ∀ peak, active ≤ peak → (run peak).1 = result ∧ (run peak).2 ≤ max peak (active + depth) ∧
    ∀ x, result = .ok x → (run peak).2 = max peak (active + depth)

section

variable {α β : Type} {active depth more : Nat} {result : Except Fault α} {run : Counted α}
  {k : α → Except Fault β} {k' : α → Counted β}

theorem Counted.bind_of_ok {x : α} {peak peak' : Nat} (h : run peak = (.ok x, peak')) :
    (run >>= k') peak = k' x peak' := by
  change ExceptT.bindCont k' (run peak).1 (run peak).2 = _
  rw [h]
  rfl

theorem Counted.bind_of_error {f : Fault} {peak peak' : Nat} (h : run peak = (.error f, peak')) :
    (run >>= k') peak = (.error f, peak') := by
  change ExceptT.bindCont k' (run peak).1 (run peak).2 = _
  rw [h]
  rfl

theorem tracks_pure (x : α) : Tracks active 0 (.ok x) (pure x) :=
  fun _ h => ⟨rfl, Nat.le_max_left _ _, fun _ _ => (Nat.max_eq_left h).symm⟩

theorem tracks_lift (result : Except Fault α) : Tracks active 0 result (Counted.lift result) :=
  fun _ h => ⟨rfl, Nat.le_max_left _ _, fun _ _ => (Nat.max_eq_left h).symm⟩

theorem Tracks.entering (h : Tracks (active + 1) depth result run) :
    Tracks active (depth + 1) result (Counted.entering (active + 1) run) := by
  intro peak _
  obtain ⟨hresult, hle, heq⟩ := h (max peak (active + 1)) (Nat.le_max_right _ _)
  have hmax : max (max peak (active + 1)) (active + 1 + depth) = max peak (active + (depth + 1)) := by omega
  rw [hmax] at hle heq
  exact ⟨hresult, hle, heq⟩

theorem Tracks.bind (h : Tracks active depth result run)
    (hk : ∀ x, result = .ok x → Tracks active more (k x) (k' x)) :
    Tracks active (max depth more) (result >>= k) (run >>= k') := by
  intro peak hpeak
  obtain ⟨hresult, hle, heq⟩ := h peak hpeak
  rcases hrun : run peak with ⟨f | x, peak'⟩
  · rw [hrun] at hresult hle
    subst hresult
    rw [Counted.bind_of_error hrun]
    refine ⟨rfl, ?_, nofun⟩
    simp only at hle ⊢
    omega
  · rw [hrun] at hresult heq
    subst hresult
    rw [Counted.bind_of_ok hrun]
    have hpeak' : peak' = max peak (active + depth) := heq x rfl
    obtain ⟨hresult', hle', heq'⟩ := hk x rfl peak' (by omega)
    refine ⟨hresult', by omega, fun y hy => ?_⟩
    have hmax := heq' y hy
    omega

end

mutual

theorem descend_tracks (active : Nat) (work : List Pending) (e : Expr) :
    Tracks active (max e.nesting (pendingNesting work)) (descend work e)
      (descendCounted active work e) := by
  cases e with
  | number x =>
    rw [descend, descendCounted, nesting, Nat.zero_max]
    exact resume_tracks active x work
  | constant name x =>
    rw [descend, descendCounted, nesting, Nat.zero_max]
    exact resume_tracks active x work
  | prefixed op operand =>
    rw [descend, descendCounted, nesting]
    have hoperand := (descend_tracks (active + 1) [] operand).entering
    rw [pendingNesting_nil, Nat.max_zero] at hoperand
    exact hoperand.bind fun x _ => resume_tracks active (op.apply x) work
  | binary op left right =>
    rw [descend, descendCounted, nesting, Nat.max_assoc]
    exact descend_tracks active (.binary op right :: work) left
  | factorial operand span =>
    rw [descend, descendCounted, nesting]
    have hoperand := descend_tracks active (.factorial span :: work) operand
    rwa [pendingNesting_cons, Pending.nesting, Nat.zero_max] at hoperand
  | call name function args span =>
    rw [descend, descendCounted, nesting]
    refine (descendAll_tracks active args).bind fun xs _ => ?_
    have hcall := (tracks_lift (callAt name function span xs)).bind fun x _ => resume_tracks active x work
    rwa [Nat.zero_max] at hcall
termination_by e.size + pendingSize work
decreasing_by all_goals simp [size, Pending.size]; try omega

theorem resume_tracks (active : Nat) (x : Float) (work : List Pending) :
    Tracks active (pendingNesting work) (resume x work) (resumeCounted active x work) := by
  cases work with
  | nil =>
    rw [resume, resumeCounted]
    exact tracks_pure x
  | cons p work =>
    cases p with
    | binary op right =>
      rw [resume, resumeCounted]
      have hright := (descend_tracks (active + 1) [] right).entering
      rw [pendingNesting_nil, Nat.max_zero] at hright
      exact hright.bind fun y _ => resume_tracks active (op.apply x y) work
    | factorial span =>
      rw [resume, resumeCounted]
      exact (tracks_lift (factorialAt span x)).bind fun y _ => resume_tracks active y work
termination_by pendingSize work
decreasing_by all_goals simp [Pending.size]; try omega

theorem descendAll_tracks (active : Nat) (es : List Expr) :
    Tracks active (nestingAll es) (descendAll es) (descendAllCounted active es) := by
  cases es with
  | nil =>
    rw [descendAll, descendAllCounted]
    exact tracks_pure []
  | cons e es =>
    rw [descendAll, descendAllCounted, nestingAll]
    have hfirst := (descend_tracks (active + 1) [] e).entering
    rw [pendingNesting_nil, Nat.max_zero] at hfirst
    refine hfirst.bind fun x _ => ?_
    have hrest := (descendAll_tracks active es).bind fun xs _ => tracks_pure (x :: xs)
    rwa [Nat.max_zero] at hrest
termination_by sizeAll es
decreasing_by all_goals simp [sizeAll]; try omega

end

theorem eval_tracks (e : Expr) : Tracks 0 (e.nesting + 1) e.eval e.evalCounted := by
  have h := (descend_tracks 1 [] e).entering
  rwa [pendingNesting_nil, Nat.max_zero] at h

theorem peak_of_eval_ok {e : Expr} {x : Float} (h : e.eval = .ok x) : e.peak = e.nesting + 1 := by
  obtain ⟨-, -, hexact⟩ := e.eval_tracks 0 (Nat.le_refl 0)
  have hpeak := hexact x h
  rw [peak]
  omega

end Expr

mutual

theorem Phrase.nesting_lt_need : (p : Phrase) → p.expr.nesting < p.need
  | .number _ => Nat.one_pos
  | .constant _ _ => Nat.one_pos
  | .bracketed inner => by
    have hinner := inner.nesting_lt_need
    rw [expr, need]
    omega
  | .prefixed _ operand => by
    have hoperand := operand.nesting_lt_need
    rw [expr, need, Expr.nesting]
    omega
  | .binary _ left right => by
    have hleft := left.nesting_lt_need
    have hright := right.nesting_lt_need
    rw [expr, need, Expr.nesting]
    omega
  | .factorial operand _ => by
    rw [expr, need, Expr.nesting]
    exact operand.nesting_lt_need
  | .call _ _ args _ => by
    have hargs := nestingAll_le_needAll args
    rw [expr, need, Expr.nesting]
    omega

theorem Phrase.nestingAll_le_needAll : (ps : List Phrase) → Expr.nestingAll (exprAll ps) ≤ needAll ps
  | [] => Nat.le_refl _
  | p :: ps => by
    have hfirst := p.nesting_lt_need
    have hrest := nestingAll_le_needAll ps
    rw [exprAll, needAll, Expr.nestingAll]
    omega

end

theorem evalCounted_within {limits : Limits} {text : String} {e : Expr} (h : parse limits text = .ok e) :
    (e.evalCounted 0).1 = e.eval ∧ e.peak ≤ limits.maxDepth ∧
      ∀ x, e.eval = .ok x → e.peak = e.nesting + 1 := by
  obtain ⟨ts, p, -, -, rfl, -, hneed⟩ := derivation_within_of_parse_eq h
  obtain ⟨hvalue, hpeak, -⟩ := p.expr.eval_tracks 0 (Nat.le_refl 0)
  refine ⟨hvalue, ?_, fun x => Expr.peak_of_eval_ok⟩
  have hnesting := p.nesting_lt_need
  rw [Expr.peak]
  omega

theorem evalCounted_within_signed_power :
    let e : Expr := .binary .power (.prefixed .negate (.constant "π" Binding.pi))
      (.prefixed .negate (.constant "π" Binding.pi))
    parse { maxDepth := 3 } "-π^-π" = .ok e ∧ (e.evalCounted 0).1 = e.eval ∧ e.peak ≤ 3 ∧
      ∀ x, e.eval = .ok x → e.peak = 3 := by
  intro e
  let minus (offset : Nat) : Token := ⟨.symbol .minus, ['-'], offset⟩
  let constant (offset : Nat) : Token := ⟨.name, ['π'], offset⟩
  let caret : Token := ⟨.symbol .caret, ['^'], 3⟩
  have hconstant (offset : Nat) : Derives .signed [constant offset] (.constant "π" Binding.pi) :=
    (@Derives.constant (constant offset) _ rfl rfl).loosen (by decide)
  have hsigned (i j : Nat) : Derives .signed [minus i, constant j]
      (.prefixed .negate (.constant "π" Binding.pi)) :=
    .prefixed (by decide) rfl (hconstant j)
  have hpower := @Derives.power caret _ _ _ _ (hsigned 0 1) rfl ((hsigned 4 5).loosen (by decide))
  have hd : Derivation [minus 0, constant 1, caret, minus 4, constant 5] _ :=
    ⟨hpower.loosen (by decide), trivial, trivial⟩
  have hl : Text.width "-π^-π".toList ≤ 4096 := by decide
  have hok : parse { maxDepth := 3 } "-π^-π" = .ok e := hd.parse_eq hl rfl (show 3 ≤ 3 by decide)
  exact ⟨hok, evalCounted_within hok⟩

end Formula
