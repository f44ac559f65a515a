import RelPlan.Proofs.Expr.Soundness
import RelPlan.Proofs.Value.Integers

/-! # Failures of expressions

Where references have values of their types, a well-typed expression has a value of its type, or its
evaluation comes to an operator whose operands have just turned out to be integers on which it
fails, by an overflow or a zero divisor (`Expr.FailsOnInts`, `Expr.evalM_conforms`). Nothing else in
an expression fails, and wherever evaluation comes to such an operator, it does fail
(`Expr.FailsOnInts.run_eq`, `Expr.eval_eq_error_iff`). -/

namespace RelPlan

/-! ## Operators -/

/-- The operation on numbers that an operator stands for. -/
def BinaryOp.arithmetic? : BinaryOp → Option Arithmetic
  | add => some .add
  | sub => some .sub
  | mul => some .mul
  | div => some .div
  | rem => some .rem
  | _ => none

/-- The value of the left operand does not decide a logical operator, so that the right operand is
looked at. -/
def BinaryOp.NeedsRight (op : BinaryOp) (v : Value) : Prop :=
  ∀ c, op.absorbing? = some c → ∃ p, v.truth = .ok p ∧ p ≠ some c

theorem BinaryOp.apply_of_arithmetic {op : BinaryOp} (h : op.arithmetic? = some a) (v w : Value) :
    op.apply v w = (a.run v w).mapError fun e => .evaluation (.value e) := by
  cases op <;> cases h <;> rfl

theorem BinaryOp.absorbing_of_arithmetic {op : BinaryOp} (h : op.arithmetic? = some a) :
    op.absorbing? = none := by
  cases op <;> cases h <;> rfl

theorem BinaryOp.needsRight_of_absorbing {op : BinaryOp} (h : op.absorbing? = none) (v : Value) :
    op.NeedsRight v := by
  intro c hc
  rw [h] at hc
  cases hc

private theorem Value.ints_of_arithmetic {op : Arithmetic}
    {onInts : Int → Int → Except ValueError Value} {onFloats : Float → Float → Float} {a b : Value}
    (h : (Value.arithmetic op onInts onFloats a b).mapError
      (fun e => ProgramError.evaluation (.value e)) = .error err)
    (he : err.isArithmetic) : ∃ i j, a = .int i ∧ b = .int j := by
  cases a <;> cases b <;> simp [Value.arithmetic] at h <;>
    first | (subst h; cases he) | exact ⟨_, _, rfl, rfl⟩

/-- Only operations on numbers fail as arithmetic does, and only on two integers. -/
theorem BinaryOp.ints_of_apply {op : BinaryOp} {v w : Value} (h : op.apply v w = .error err)
    (he : err.isArithmetic) : ∃ a i j, op.arithmetic? = some a ∧ v = .int i ∧ w = .int j := by
  cases op
  case add | sub | mul | div | rem =>
    obtain ⟨i, j, hv, hw⟩ := Value.ints_of_arithmetic h he
    exact ⟨_, i, j, rfl, hv, hw⟩
  case eq | ne | lt | le | gt | ge => cases h
  case and | or => cases h; cases he
  case concat =>
    cases v <;> cases w <;> simp [apply, Value.concat] at h <;> subst h <;> cases he

theorem UnaryOp.int_of_apply {op : UnaryOp} {v : Value} (h : op.apply v = .error err)
    (he : err.isArithmetic) : ∃ i, op = .minus ∧ v = .int i := by
  cases op <;> cases v <;> simp [apply, Value.neg] at h <;>
    first | (subst h; cases he) | exact ⟨_, rfl, rfl⟩

private theorem Arithmetic.exists_fails_of_run {a : Arithmetic} {i j : Int64}
    (h : (a.run (.int i) (.int j)).mapError (fun e => ProgramError.evaluation (.value e)) =
      .error err) : ∃ cause, err = .evaluation (.value cause) ∧ a.Fails i j cause := by
  cases hrun : a.run (.int i) (.int j) with
  | ok => simp [hrun] at h
  | error cause =>
    rw [hrun] at h
    exact ⟨cause, (Except.error.inj h).symm, Arithmetic.run_eq_error_iff.mp hrun⟩

/-- On values of the types it accepts, an operator fails only as arithmetic on integers does. -/
theorem BinaryOp.exists_fails_of_apply {op : BinaryOp} {v w : Value}
    (h : op.resultType t u = .ok rt) (hop : op.absorbing? = none) (hv : v.conforms t)
    (hw : w.conforms u) (herr : op.apply v w = .error err) :
    ∃ a i j cause, op.arithmetic? = some a ∧ v = .int i ∧ w = .int j ∧
      err = .evaluation (.value cause) ∧ a.Fails i j cause := by
  have he := (op.apply_yields h hop hv hw).isArithmetic herr
  obtain ⟨a, i, j, ha, rfl, rfl⟩ := ints_of_apply herr he
  rw [apply_of_arithmetic ha] at herr
  obtain ⟨cause, hcause, hfails⟩ := Arithmetic.exists_fails_of_run herr
  exact ⟨a, i, j, cause, ha, rfl, rfl, hcause, hfails⟩

theorem UnaryOp.exists_fails_of_apply {op : UnaryOp} {v : Value} (h : op.resultType t = .ok u)
    (hv : v.conforms t) (herr : op.apply v = .error err) :
    ∃ i cause, op = .minus ∧ v = .int i ∧ err = .evaluation (.value cause) ∧
      Arithmetic.neg.Fails i 0 cause := by
  obtain ⟨i, rfl, rfl⟩ := int_of_apply herr ((op.apply_yields h hv).isArithmetic herr)
  obtain ⟨cause, hcause, hfails⟩ := Arithmetic.exists_fails_of_run (a := .neg) (j := 0) herr
  exact ⟨i, cause, rfl, rfl, hcause, hfails⟩

/-! ## Where expressions fail -/

namespace Expr

variable {σ : Type} {onInput onTemp : Nat → StateT σ (Except ProgramError) Value}
  {cause : ValueError} {err : ProgramError} {l r x e : Expr} {op : BinaryOp} {f : UnaryOp}
  {v : Value} {s s' : σ}

/-- Evaluated from a state, the expression comes to an operator whose operands have had integers as
values, and fails on them. All that is evaluated before has values. -/
inductive FailsOnInts (onInput onTemp : Nat → StateT σ (Except ProgramError) Value)
    (cause : ValueError) : Expr → σ → Prop where
  | binary {op : BinaryOp} {a : Arithmetic} {l r : Expr} {i j : Int64} {s s' s'' : σ} :
      op.arithmetic? = some a → (l.evalM onInput onTemp).run s = .ok (.int i, s') →
      (r.evalM onInput onTemp).run s' = .ok (.int j, s'') → a.Fails i j cause →
      FailsOnInts onInput onTemp cause (.binary l op r) s
  | minus {x : Expr} {i : Int64} {s s' : σ} :
      (x.evalM onInput onTemp).run s = .ok (.int i, s') → Arithmetic.neg.Fails i 0 cause →
      FailsOnInts onInput onTemp cause (.unary .minus x) s
  | left {op : BinaryOp} {l r : Expr} {s : σ} : FailsOnInts onInput onTemp cause l s →
      FailsOnInts onInput onTemp cause (.binary l op r) s
  | right {op : BinaryOp} {l r : Expr} {v : Value} {s s' : σ} :
      (l.evalM onInput onTemp).run s = .ok (v, s') → op.NeedsRight v →
      FailsOnInts onInput onTemp cause r s' → FailsOnInts onInput onTemp cause (.binary l op r) s
  | operand {op : UnaryOp} {x : Expr} {s : σ} : FailsOnInts onInput onTemp cause x s →
      FailsOnInts onInput onTemp cause (.unary op x) s

/-! ### Evaluating operators -/

/-- What an operator makes of the values of both operands. -/
def combine (op : BinaryOp) (v w : Value) : Except ProgramError Value :=
  match op.absorbing? with
  | some c => do return connect c (← v.truth) (← w.truth)
  | none => op.apply v w

theorem run_binary_of_left (h : (l.evalM onInput onTemp).run s = .error err) :
    ((binary l op r).evalM onInput onTemp).run s = .error err := by
  rw [evalM, StateT.run_bind, h]
  rfl

theorem run_liftM {α : Type} (y : Except ProgramError α) (s : σ) :
    (liftM y : StateT σ (Except ProgramError) α).run s = y.map (·, s) := by
  cases y <;> rfl

theorem run_binary_of_needsRight (h : (l.evalM onInput onTemp).run s = .ok (v, s'))
    (hv : op.NeedsRight v) : ((binary l op r).evalM onInput onTemp).run s =
      (r.evalM onInput onTemp).run s' >>= fun ws => (combine op v ws.1).map (·, ws.2) := by
  rw [evalM, StateT.run_bind, h, Except.ok_bind]
  cases hop : op.absorbing? with
  | none => simp only [StateT.run_bind, run_liftM, combine, hop]
  | some c =>
    obtain ⟨p, hp, hne⟩ := hv c hop
    simp only [StateT.run_bind, run_liftM, combine, hop, hp]
    change StateT.run (if p = some c then _ else _) s' = _
    rw [if_neg hne, StateT.run_bind]
    congr 1
    funext ws
    rw [StateT.run_bind, run_liftM]
    cases ws.1.truth <;> rfl

/-- A left operand that has no truth value, or the one that decides, is all that is looked at. -/
theorem run_binary_of_truth (h : (l.evalM onInput onTemp).run s = .ok (v, s'))
    (hop : op.absorbing? = some c) (hv : ∀ p, v.truth = .ok p → p = some c) :
    ((binary l op r).evalM onInput onTemp).run s = v.truth.map fun _ => (.bool c, s') := by
  rw [evalM, StateT.run_bind, h, Except.ok_bind]
  simp only [hop, StateT.run_bind, run_liftM]
  cases hp : v.truth with
  | error => rfl
  | ok p =>
    obtain rfl := hv p hp
    change StateT.run (if some c = some c then _ else _) s' = _
    rw [if_pos rfl]
    rfl

theorem run_unary_of_error (h : (x.evalM onInput onTemp).run s = .error err) :
    ((unary f x).evalM onInput onTemp).run s = .error err := by
  rw [evalM, StateT.run_bind, h]
  rfl

theorem run_unary (h : (x.evalM onInput onTemp).run s = .ok (v, s')) :
    ((unary f x).evalM onInput onTemp).run s = (f.apply v).map (·, s') := by
  rw [evalM, StateT.run_bind, h, Except.ok_bind, run_liftM]

/-- A binary operator fails with an operand, or on the values of its operands. -/
theorem error_of_run_binary (h : ((binary l op r).evalM onInput onTemp).run s = .error err) :
    (l.evalM onInput onTemp).run s = .error err ∨
      ∃ v s', (l.evalM onInput onTemp).run s = .ok (v, s') ∧
        (op.absorbing?.isSome ∧ v.truth = .error err ∨
          op.NeedsRight v ∧ ((r.evalM onInput onTemp).run s' = .error err ∨
            ∃ w s'', (r.evalM onInput onTemp).run s' = .ok (w, s'') ∧
              combine op v w = .error err)) := by
  cases hl : (l.evalM onInput onTemp).run s with
  | error err' => exact .inl ((run_binary_of_left hl).symm.trans h)
  | ok vs =>
    obtain ⟨v, s'⟩ := vs
    refine .inr ⟨v, s', rfl, ?_⟩
    by_cases hneeds : op.NeedsRight v
    case neg =>
      simp only [BinaryOp.NeedsRight, not_forall, not_exists, not_and, not_not] at hneeds
      obtain ⟨c, hop, hp⟩ := hneeds
      rw [run_binary_of_truth hl hop hp, Except.map_eq_error_iff] at h
      exact .inl ⟨by rw [hop]; rfl, h⟩
    case pos =>
      refine .inr ⟨hneeds, ?_⟩
      rw [run_binary_of_needsRight hl hneeds] at h
      cases hr : (r.evalM onInput onTemp).run s' with
      | error err' =>
        rw [hr] at h
        exact .inl h
      | ok ws =>
        rw [hr, Except.ok_bind, Except.map_eq_error_iff] at h
        exact .inr ⟨ws.1, ws.2, rfl, h⟩

theorem error_of_run_unary (h : ((unary f x).evalM onInput onTemp).run s = .error err) :
    (x.evalM onInput onTemp).run s = .error err ∨
      ∃ v s', (x.evalM onInput onTemp).run s = .ok (v, s') ∧ f.apply v = .error err := by
  cases hx : (x.evalM onInput onTemp).run s with
  | error err' => exact .inl ((run_unary_of_error hx).symm.trans h)
  | ok vs =>
    rw [run_unary hx, Except.map_eq_error_iff] at h
    exact .inr ⟨vs.1, vs.2, rfl, h⟩

/-! ### The failures -/

/-- Where evaluation comes to such an operator, it fails. -/
theorem FailsOnInts.run_eq (h : e.FailsOnInts onInput onTemp cause s) :
    (e.evalM onInput onTemp).run s = .error (.evaluation (.value cause)) := by
  induction h with
  | @binary op a l r i j s s' s'' hop hl hr hfails =>
    have hnone := op.absorbing_of_arithmetic hop
    rw [run_binary_of_needsRight hl (op.needsRight_of_absorbing hnone _), hr, Except.ok_bind]
    simp only [combine, hnone, op.apply_of_arithmetic hop, Arithmetic.run_eq_error_iff.mpr hfails]
    rfl
  | @minus x i s s' hx hfails =>
    have hneg : Value.neg (.int i) = .error cause := Arithmetic.run_eq_error_iff.mpr hfails
    rw [run_unary hx, UnaryOp.apply, hneg]
    rfl
  | left _ ih => exact run_binary_of_left ih
  | right hl hneeds _ ih => rw [run_binary_of_needsRight hl hneeds, ih, Except.error_bind]
  | operand _ ih => exact run_unary_of_error ih

/-- An operator with values of the types it accepts fails only as arithmetic on integers does. -/
theorem exists_fails_of_combine {t u rt : ScalarType} {w : Value} (h : op.resultType t u = .ok rt)
    (hv : v.conforms t) (hw : w.conforms u) (herr : combine op v w = .error err) :
    ∃ a i j cause, op.arithmetic? = some a ∧ v = .int i ∧ w = .int j ∧
      err = .evaluation (.value cause) ∧ a.Fails i j cause := by
  unfold combine at herr
  cases hop : op.absorbing? with
  | some c =>
    obtain ⟨-, ht, hu⟩ := op.types_of_absorbing hop h
    obtain ⟨p, hp, -⟩ := Value.exists_truth_of_conforms hv ht
    obtain ⟨q, hq, -⟩ := Value.exists_truth_of_conforms hw hu
    simp [hop, hp, hq] at herr
  | none =>
    rw [hop] at herr
    exact op.exists_fails_of_apply h hop hv hw herr

section
variable {rt : RowType} {ts : List ScalarType} {I : σ → Prop} {t : ScalarType}

/-- What a well-typed expression gives, if it gives anything. -/
theorem conforms_of_run (h : e.type rt ts = .ok t)
    (hc : Supplies rt ts I (fun _ => False) onInput onTemp) (hs : I s)
    (hrun : (e.evalM onInput onTemp).run s = .ok (v, s')) : v.conforms t ∧ I s' :=
  (evalM_ensures (F := fun _ => True) h (hc.mono fun _ => False.elim)
    fun _ _ => trivial).of_run_eq_ok hs hrun

/-- Nothing else fails in a well-typed expression whose references have values of their types. -/
theorem failsOnInts_of_error (h : e.type rt ts = .ok t)
    (hc : Supplies rt ts I (fun _ => False) onInput onTemp) (hs : I s)
    (herr : (e.evalM onInput onTemp).run s = .error err) :
    ∃ cause, err = .evaluation (.value cause) ∧ e.FailsOnInts onInput onTemp cause s := by
  induction e generalizing t s with
  | input i => exact ((hc.input i t (type_input_eq_ok_iff.mp h)).of_run_eq_error hs herr).elim
  | temp i => exact ((hc.temp i t (type_temp_eq_ok_iff.mp h)).of_run_eq_error hs herr).elim
  | literal v => cases herr
  | binary l op r ihl ihr =>
    obtain ⟨a, ha, h⟩ := Except.bind_eq_ok_iff.mp h
    obtain ⟨b, hb, h⟩ := Except.bind_eq_ok_iff.mp h
    obtain hl | ⟨v, s', hl, hrest⟩ := error_of_run_binary herr
    · obtain ⟨cause, hcause, hfails⟩ := ihl ha hs hl
      exact ⟨cause, hcause, .left hfails⟩
    obtain ⟨hv, hs'⟩ := conforms_of_run ha hc hs hl
    obtain ⟨hop, htruth⟩ | ⟨hneeds, hr | ⟨w, s'', hr, hw⟩⟩ := hrest
    · -- A condition has a truth value.
      obtain ⟨c, hop⟩ := Option.isSome_iff_exists.mp hop
      obtain ⟨p, hp, -⟩ := Value.exists_truth_of_conforms hv (op.types_of_absorbing hop h).2.1
      cases hp.symm.trans htruth
    · obtain ⟨cause, hcause, hfails⟩ := ihr hb hs' hr
      exact ⟨cause, hcause, .right hl hneeds hfails⟩
    · obtain ⟨_, _, _, cause, hop, rfl, rfl, hcause, hfails⟩ :=
        exists_fails_of_combine h hv (conforms_of_run hb hc hs' hr).1 hw
      exact ⟨cause, hcause, .binary hop hl hr hfails⟩
  | unary op x ih =>
    obtain ⟨a, ha, h⟩ := Except.bind_eq_ok_iff.mp h
    obtain hx | ⟨v, s', hx, happly⟩ := error_of_run_unary herr
    · obtain ⟨cause, hcause, hfails⟩ := ih ha hs hx
      exact ⟨cause, hcause, .operand hfails⟩
    · obtain ⟨_, cause, rfl, rfl, hcause, hfails⟩ :=
        op.exists_fails_of_apply h (conforms_of_run ha hc hs hx).1 happly
      exact ⟨cause, hcause, .minus hx hfails⟩

/-- Type soundness: where the references have values of their types, whatever state these come
from, a well-typed expression has a value of its type, unless evaluation comes to an operator with
two integers on which it fails, by an overflow or a zero divisor. -/
theorem evalM_conforms (h : e.type rt ts = .ok t)
    (hc : Supplies rt ts I (fun _ => False) onInput onTemp) (hs : I s) :
    (∃ v s', (e.evalM onInput onTemp).run s = .ok (v, s') ∧ v.conforms t ∧ I s') ∨
      ∃ cause, (e.evalM onInput onTemp).run s = .error (.evaluation (.value cause)) ∧
        e.FailsOnInts onInput onTemp cause s := by
  cases hr : (e.evalM onInput onTemp).run s with
  | ok vs => exact .inl ⟨vs.1, vs.2, rfl, conforms_of_run h hc hs hr⟩
  | error err =>
    obtain ⟨cause, rfl, hfails⟩ := failsOnInts_of_error h hc hs hr
    exact .inr ⟨cause, rfl, hfails⟩

/-- Gives an integer, another one each time. -/
def counter (_ : Nat) : StateT Int64 (Except ProgramError) Value := fun n => .ok (.int n, n + 1)

theorem counter_supplies : Supplies [⟨"a", .float⟩] [.int] (fun _ : Int64 => True)
    (fun _ => False) (fun _ => pure (.int 3)) counter where
  input
    | 0, _, rfl => .pure rfl
  temp
    | 0, _, rfl => fun _ _ => ⟨rfl, trivial⟩

/-- Divides an input field by an earlier entry. -/
def quotient : Expr := binary (input 0) .div (temp 0)

/-- An integer in a field of floats is divided as an integer, and fails as one. -/
theorem evalM_conforms_counter :
    (∃ v n, (quotient.evalM (fun _ => pure (.int 3)) counter).run 2 = .ok (v, n) ∧
      v.conforms .float) ∧
    ∃ cause, (quotient.evalM (fun _ => pure (.int 3)) counter).run 0 =
        .error (.evaluation (.value cause)) ∧
      quotient.FailsOnInts (fun _ => pure (.int 3)) counter cause 0 := by
  have h (n : Int64) := evalM_conforms (t := .float) (e := quotient) (s := n) rfl
    counter_supplies trivial
  refine ⟨?_, (h 0).resolve_left fun ⟨_, _, hv, _⟩ => nomatch hv⟩
  obtain ⟨v, n, hv, hc, -⟩ := (h 2).resolve_right fun ⟨_, hf, _⟩ => nomatch hf
  exact ⟨v, n, hv, hc⟩

end

/-! ## Rows -/

/-- Evaluated on a lone row, the expression comes to an operator that fails on integers. -/
def FailsOnRow (row : Row) (cause : ValueError) (e : Expr) : Prop :=
  e.FailsOnInts (fun i => (liftM (row.field i) : StateT Unit (Except ProgramError) Value))
    (fun i => liftM (Row.temp [] i)) cause ()

theorem run_evalM_row (row : Row) (e : Expr) :
    (e.evalM (fun i => (liftM (row.field i) : StateT Unit (Except ProgramError) Value))
      (fun i => liftM (Row.temp [] i))).run () = (e.eval row).map (·, ()) := by
  rw [evalM_lift, run_liftM]
  rfl

/-- Nothing else fails in an expression typed over the fields of the row. -/
theorem eval_eq_error_iff {rt : RowType} {row : Row} {t : ScalarType} (h : e.type rt [] = .ok t)
    (hrow : row.conforms rt.types) :
    e.eval row = .error err ↔
      ∃ cause, err = .evaluation (.value cause) ∧ e.FailsOnRow row cause := by
  rw [← Except.map_eq_error_iff, ← run_evalM_row]
  constructor
  · refine failsOnInts_of_error (I := fun _ => True) h ⟨?_, by simp⟩ trivial
    intro i u hi
    obtain ⟨v, hv, hconf⟩ := Row.exists_field hrow hi
    exact .lift (fun w hw => Except.ok.inj (hv.symm.trans hw) ▸ hconf) (by simp [hv])
  · rintro ⟨cause, rfl, hfails⟩
    exact hfails.run_eq

end Expr
end RelPlan
