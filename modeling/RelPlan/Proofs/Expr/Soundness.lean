import RelPlan.Proofs.Expr.Substitution

/-! # Type soundness of expressions

A well-typed expression, evaluated where references yield their types, yields its own type: a
conforming value, or one of the failures that types cannot exclude, an integer result out of range
and a zero divisor (`Expr.evalM_yields`). References may also get their values from a state that
changes whenever it is asked (`Expr.evalM_ensures`). -/

namespace RelPlan

/-- Whether the failure is an integer result out of range or a zero divisor. -/
def ProgramError.isArithmetic : ProgramError → Bool
  | .evaluation (.value (.overflow _)) | .evaluation (.value .divisionByZero) => true
  | _ => false

/-- The result has the property, or the failure is arithmetic. -/
def Ends (P : α → Prop) : Except ProgramError α → Prop
  | .ok a => P a
  | .error e => e.isArithmetic

/-- The result is a value that conforms to the type, or the failure is arithmetic. -/
abbrev Yields (t : ScalarType) : Except ProgramError Value → Prop := Ends fun v => v.conforms t

theorem Ends.elim {P : α → Prop} (h : Ends P r) (hr : r = .ok a) : P a := by
  subst hr; exact h

theorem Ends.isArithmetic {P : α → Prop} (h : Ends P r) (hr : r = .error e) : e.isArithmetic := by
  subst hr; exact h

theorem Ends.bind {P : α → Prop} {Q : β → Prop} {f : α → Except ProgramError β} (h : Ends P r)
    (hf : ∀ a, P a → Ends Q (f a)) : Ends Q (r >>= f) := by
  cases r with
  | ok a => exact hf a h
  | error e => exact h

namespace Value

@[simp] theorem conforms_null (t : ScalarType) : null.conforms t := rfl

@[simp] theorem conforms_bool : (bool b).conforms t = decide (t = .bool) := by
  simp [conforms, type, eq_comm]

@[simp] theorem conforms_int : (int i).conforms t = t.isNumeric := rfl

@[simp] theorem conforms_float : (float x).conforms t = decide (t = .float) := by
  simp [conforms, type, eq_comm]

@[simp] theorem conforms_string : (string s).conforms t = decide (t = .string) := by
  simp [conforms, type, eq_comm]

theorem conforms_type (v : Value) : v.conforms v.type := by
  cases v <;> simp [type, ScalarType.isNumeric]

/-- What conforms to the type of a condition is a truth value. -/
theorem exists_truth_of_conforms {v : Value} (h : v.conforms t) (ht : t.isCondition) :
    ∃ b, v.truth = .ok b ∧ (v = .null ∧ b = none ∨ ∃ c, v = .bool c ∧ b = some c) := by
  cases v with
  | null => exact ⟨none, rfl, .inl ⟨rfl, rfl⟩⟩
  | bool c => exact ⟨some c, rfl, .inr ⟨c, rfl, rfl⟩⟩
  | int | float | string => cases t <;> simp [ScalarType.isNumeric, ScalarType.isCondition] at h ht

end Value

/-! ## Operators -/

private theorem isArithmetic_of_exactInt (op : Arithmetic) (i : Int) :
    (∃ j, Value.exactInt op i = .ok (.int j)) ∨ Value.exactInt op i = .error (.overflow op) := by
  unfold Value.exactInt
  split
  · exact .inl ⟨_, rfl⟩
  · exact .inr rfl

/-- The types that arithmetic accepts. -/
private def ScalarType.isOperand (t : ScalarType) : Bool := t.isNumeric || t = .null

private theorem ScalarType.isNumeric_arithmeticResult {l : ScalarType} (h : l.isNumeric)
    (r : ScalarType) : (l.arithmeticResult r).isNumeric := by
  cases l <;> cases r <;> first | rfl | cases h

private theorem ScalarType.float_arithmeticResult (t : ScalarType) :
    ScalarType.float.arithmeticResult t = .float := by
  cases t <;> rfl

private theorem ScalarType.arithmeticResult_float (t : ScalarType) :
    t.arithmeticResult .float = .float := by
  cases t <;> rfl

private theorem Value.number_of_conforms {v : Value} (h : v.conforms t) (ht : t.isOperand) :
    v = .null ∨ (∃ i, v = .int i ∧ t.isNumeric) ∨ ∃ x, v = .float x ∧ t = .float := by
  cases v with
  | null => exact .inl rfl
  | int i => exact .inr (.inl ⟨i, rfl, h⟩)
  | float x => exact .inr (.inr ⟨x, rfl, by simpa using h⟩)
  | bool | string =>
    simp only [conforms_bool, conforms_string, decide_eq_true_eq] at h
    subst h
    cases ht

private theorem Value.text_of_conforms {v : Value} (h : v.conforms t)
    (ht : decide (t = .string) || decide (t = .null)) : v = .null ∨ ∃ s, v = .string s := by
  cases v with
  | null => exact .inl rfl
  | string s => exact .inr ⟨s, rfl⟩
  | _ => cases t <;> simp [ScalarType.isNumeric] at h ht

private theorem yields_arithmetic {op : Arithmetic} {onInts : Int → Int → Except ValueError Value}
    {onFloats : Float → Float → Float} {a b : Value}
    (hi : ∀ i j, (∃ k, onInts i j = .ok (.int k)) ∨ onInts i j = .error .divisionByZero ∨
      ∃ op, onInts i j = .error (.overflow op))
    (hl : l.isOperand) (hr : r.isOperand) (ha : a.conforms l) (hb : b.conforms r) :
    Yields (l.arithmeticResult r)
      ((Value.arithmetic op onInts onFloats a b).mapError fun e => .evaluation (.value e)) := by
  rcases Value.number_of_conforms ha hl with rfl | ⟨i, rfl, hl'⟩ | ⟨x, rfl, rfl⟩
  · exact Value.conforms_null _
  · rcases Value.number_of_conforms hb hr with rfl | ⟨j, rfl, -⟩ | ⟨y, rfl, rfl⟩
    · exact Value.conforms_null _
    · simp only [Value.arithmetic]
      rcases hi i.toInt j.toInt with ⟨k, h⟩ | h | ⟨op, h⟩ <;> rw [h]
      · exact ScalarType.isNumeric_arithmeticResult hl' _
      · rfl
      · rfl
    · rw [ScalarType.arithmeticResult_float]
      exact Value.conforms_type (.float _)
  · rw [ScalarType.float_arithmeticResult]
    rcases Value.number_of_conforms hb hr with rfl | ⟨j, rfl, -⟩ | ⟨y, rfl, -⟩
    · exact Value.conforms_null _
    · exact Value.conforms_type (.float _)
    · exact Value.conforms_type (.float _)

theorem BinaryOp.apply_yields {op : BinaryOp} (h : op.resultType l r = .ok t)
    (hop : op.absorbing? = none) (ha : a.conforms l) (hb : b.conforms r) :
    Yields t (op.apply a b) := by
  have exact' (op : Arithmetic) (i : Int) : (∃ k, Value.exactInt op i = .ok (.int k)) ∨
      Value.exactInt op i = .error .divisionByZero ∨
        ∃ op', Value.exactInt op i = .error (.overflow op') :=
    (isArithmetic_of_exactInt op i).imp_right fun h => .inr ⟨op, h⟩
  cases op
  case and | or => simp [absorbing?] at hop
  case eq | ne | lt | le | gt | ge =>
    have ht : t = .bool := by
      simp only [resultType, isArithmetic, isComparison, Bool.false_eq_true, if_false, if_true] at h
      split at h
      · exact (Except.ok.inj h).symm
      · cases h
    subst ht
    simp only [apply, comparison]
    split <;> simp [Yields, Ends]
  case concat =>
    simp only [resultType, isArithmetic, isComparison, isLogical, absorbing?, Bool.false_eq_true,
      Option.isSome_none, if_false] at h
    split at h
    case isFalse => cases h
    rename_i hlr
    obtain rfl := Except.ok.inj h
    obtain ⟨hl, hr⟩ := Bool.and_eq_true_iff.mp hlr
    rcases Value.text_of_conforms ha hl with rfl | ⟨s, rfl⟩
    · exact Value.conforms_null _
    · rcases Value.text_of_conforms hb hr with rfl | ⟨s', rfl⟩
      · exact Value.conforms_null _
      · exact Value.conforms_type (.string _)
  all_goals
    simp only [resultType, isArithmetic, if_true] at h
    split at h
    case isFalse => cases h
    rename_i hlr
    obtain rfl := Except.ok.inj h
    obtain ⟨hl, hr⟩ := Bool.and_eq_true_iff.mp hlr
    refine yields_arithmetic (fun i j => ?_) hl hr ha hb
  case add | sub | mul => exact exact' _ _
  case div =>
    split
    · exact .inr (.inl rfl)
    · exact exact' _ _
  case rem =>
    split
    · exact .inr (.inl rfl)
    · split
      · exact exact' _ _
      · exact .inr (.inr ⟨_, rfl⟩)

theorem UnaryOp.apply_yields {op : UnaryOp} (h : op.resultType t = .ok u) (hv : v.conforms t) :
    Yields u (op.apply v) := by
  cases op
  case minus =>
    simp only [resultType] at h
    split at h
    · obtain rfl := Except.ok.inj h
      cases v with
      | int i =>
        simp only [apply, Value.neg]
        rcases isArithmetic_of_exactInt .neg (-i.toInt) with ⟨k, h⟩ | h <;> rw [h]
        · simpa [Yields, Ends] using hv
        · rfl
      | _ => cases t <;> simp_all [Yields, Ends, apply, Value.neg, ScalarType.isNumeric]
    · cases h
  case isNull | isNotNull =>
    obtain rfl := Except.ok.inj h
    simp [Yields, Ends, apply]
  case not | isTrue =>
    simp only [resultType] at h
    split at h
    · obtain rfl := Except.ok.inj h
      cases v <;> cases t <;>
        simp_all [Yields, Ends, apply, ScalarType.isNumeric, ScalarType.isCondition]
    · cases h

theorem ScalarType.isCondition_iff {t : ScalarType} : t.isCondition ↔ t = .bool ∨ t = .null := by
  cases t <;> simp [isCondition]

theorem BinaryOp.types_of_absorbing {op : BinaryOp} (hop : op.absorbing? = some c)
    (h : op.resultType a b = .ok t) : t = .bool ∧ a.isCondition ∧ b.isCondition := by
  cases op <;> simp_all [resultType, absorbing?, isArithmetic, isComparison, isLogical] <;> grind

theorem UnaryOp.resultType_isTrue (h : t.isCondition) :
    UnaryOp.resultType .isTrue t = .ok .bool := by
  simp only [resultType, h, if_true]

theorem BinaryOp.resultType_and (hl : l.isCondition) (hr : r.isCondition) :
    BinaryOp.resultType .and l r = .ok .bool := by
  simp only [resultType, isArithmetic, isComparison, isLogical, absorbing?, hl, hr, Bool.and_self,
    Bool.false_eq_true, Option.isSome_some, if_true, if_false]

theorem connect_conforms (absorbing : Bool) (a b : Option Bool) :
    (connect absorbing a b).conforms .bool := by
  unfold connect
  split
  · simp
  · split <;> simp

/-! ## Computations with a state -/

/-- From every state with the invariant, the computation ends with a result that has the property,
in such a state again, or with an admitted failure. -/
def Ensures (I : σ → Prop) (F : ProgramError → Prop) (P : α → Prop)
    (x : StateT σ (Except ProgramError) α) : Prop :=
  ∀ s, I s → match x.run s with
    | .ok (a, s') => P a ∧ I s'
    | .error err => F err

namespace Ensures

variable {I : σ → Prop} {F : ProgramError → Prop} {P : α → Prop} {Q : β → Prop}

theorem pure (h : P a) : Ensures I F P (Pure.pure a) := fun _ hs => ⟨h, hs⟩

theorem lift {r : Except ProgramError α} (hP : ∀ a, r = .ok a → P a)
    (hF : ∀ err, r = .error err → F err) : Ensures I F P (liftM r) := by
  intro s hs
  cases r with
  | ok a => exact ⟨hP a rfl, hs⟩
  | error err => exact hF err rfl

theorem of_run_eq_ok {x : StateT σ (Except ProgramError) α} (h : Ensures I F P x) (hs : I s)
    (hx : x.run s = .ok (a, s')) : P a ∧ I s' := by
  have h := h s hs
  rwa [hx] at h

theorem of_run_eq_error {x : StateT σ (Except ProgramError) α} (h : Ensures I F P x) (hs : I s)
    (hx : x.run s = .error err) : F err := by
  have h := h s hs
  rwa [hx] at h

theorem mono {G : ProgramError → Prop} {x : StateT σ (Except ProgramError) α}
    (h : Ensures I F P x) (hFG : ∀ err, F err → G err) : Ensures I G P x := by
  intro s hs
  have h := h s hs
  cases hr : x.run s with
  | ok as => rwa [hr] at h
  | error err =>
    rw [hr] at h
    exact hFG err h

theorem bind {x : StateT σ (Except ProgramError) α} {f : α → StateT σ (Except ProgramError) β}
    (hx : Ensures I F P x) (hf : ∀ a, P a → Ensures I F Q (f a)) : Ensures I F Q (x >>= f) := by
  intro s hs
  have hx := hx s hs
  rw [StateT.run_bind]
  cases hr : x.run s with
  | ok as =>
    rw [hr] at hx
    exact hf as.1 hx.1 as.2 hx.2
  | error err =>
    rw [hr] at hx
    exact hx

/-- A condition has a truth value. -/
theorem truth {v : Value} (h : v.conforms t) (ht : t.isCondition) :
    Ensures I F (fun _ => True) (liftM v.truth) := by
  obtain ⟨b, hb, _⟩ := Value.exists_truth_of_conforms h ht
  exact lift (fun _ _ => trivial) (by simp [hb])

end Ensures

/-! ## Expressions -/

namespace Expr

/-- What gives the references their values, from a state that may change whenever it is asked, gives
each of them its type. -/
structure Supplies (rt : RowType) (ts : List ScalarType) (I : σ → Prop) (F : ProgramError → Prop)
    (onInput onTemp : Nat → StateT σ (Except ProgramError) Value) : Prop where
  input : ∀ i u, rt.type? i = some u → Ensures I F (fun v => v.conforms u) (onInput i)
  temp : ∀ (i : Nat) u, ts[i]? = some u → Ensures I F (fun v => v.conforms u) (onTemp i)

section
variable {rt : RowType} {ts : List ScalarType} {I : σ → Prop} {F : ProgramError → Prop}
  {onInput onTemp : Nat → StateT σ (Except ProgramError) Value}

theorem Supplies.mono {G : ProgramError → Prop} (h : Supplies rt ts I F onInput onTemp)
    (hFG : ∀ err, F err → G err) : Supplies rt ts I G onInput onTemp :=
  ⟨fun i u hu => (h.input i u hu).mono hFG, fun i u hu => (h.temp i u hu).mono hFG⟩

/-- A well-typed expression has a value of its type, unless a reference or arithmetic fails. -/
theorem evalM_ensures {e : Expr} (h : e.type rt ts = .ok t)
    (hc : Supplies rt ts I F onInput onTemp) (hF : ∀ err, err.isArithmetic → F err) :
    Ensures I F (fun v => v.conforms t) (e.evalM onInput onTemp) := by
  induction e generalizing t with
  | input i => exact hc.input i t (type_input_eq_ok_iff.mp h)
  | temp i => exact hc.temp i t (type_temp_eq_ok_iff.mp h)
  | literal v =>
    obtain rfl := Except.ok.inj h
    exact .pure v.conforms_type
  | binary l op r ihl ihr =>
    obtain ⟨a, ha, h⟩ := Except.bind_eq_ok_iff.mp h
    obtain ⟨b, hb, h⟩ := Except.bind_eq_ok_iff.mp h
    simp only [evalM]
    apply (ihl ha).bind
    intro v hv
    cases hop : op.absorbing? with
    | some c =>
      obtain ⟨rfl, hac, hbc⟩ := op.types_of_absorbing hop h
      apply (Ensures.truth hv hac).bind
      intro p _
      split
      · exact .pure (by simp)
      · apply (ihr hb).bind
        intro w hw
        exact (Ensures.truth hw hbc).bind fun q _ => .pure (connect_conforms c p q)
    | none =>
      apply (ihr hb).bind
      intro w hw
      have happly := op.apply_yields h hop hv hw
      exact .lift (fun _ => happly.elim) fun err herr => hF err (happly.isArithmetic herr)
  | unary op x ih =>
    obtain ⟨a, ha, h⟩ := Except.bind_eq_ok_iff.mp h
    apply (ih ha).bind
    intro v hv
    have happly := op.apply_yields h hv
    exact .lift (fun _ => happly.elim) fun err herr => hF err (happly.isArithmetic herr)

end

/-- Where references do not change the state, no expression does. -/
theorem evalM_lift (e : Expr) (onInput onTemp : Nat → Except ProgramError Value) :
    e.evalM (fun i => (liftM (onInput i) : StateT σ (Except ProgramError) Value))
      (fun i => liftM (onTemp i)) = liftM (e.evalM onInput onTemp) := by
  induction e with
  | input | temp | literal => rfl
  | binary l op r ihl ihr =>
    simp only [evalM, ihl, ihr, liftM_bind]
    congr 1
    funext a
    cases op.absorbing? with
    | none =>
      simp only [liftM_bind]
      rfl
    | some c =>
      simp only [liftM_bind]
      congr 1
      funext p
      split
      · rfl
      · simp only [liftM_bind]
        rfl
  | unary op x ih =>
    simp only [evalM, ih, liftM_bind]
    rfl

/-- A well-typed expression yields its type wherever references yield theirs. -/
theorem evalM_yields {e : Expr} {rt : RowType} {ts : List ScalarType}
    {onInput onTemp : Nat → Except ProgramError Value} (h : e.type rt ts = .ok t)
    (hi : ∀ i u, rt.type? i = some u → Yields u (onInput i))
    (ht : ∀ (i : Nat) u, ts[i]? = some u → Yields u (onTemp i)) :
    Yields t (e.evalM onInput onTemp) := by
  have hlift {u} {r : Except ProgramError Value} (hr : Yields u r) :
      Ensures (fun _ : Unit => True) (fun err => err.isArithmetic) (fun v => v.conforms u)
        (liftM r) :=
    .lift (fun _ => hr.elim) fun _ => hr.isArithmetic
  have h := evalM_ensures h ⟨fun i u hu => hlift (hi i u hu), fun i u hu => hlift (ht i u hu)⟩
    (fun _ => id) () trivial
  rw [evalM_lift] at h
  cases hr : e.evalM onInput onTemp with
  | ok v =>
    rw [hr] at h
    exact h.1
  | error err =>
    rw [hr] at h
    exact h

end Expr

/-! ## Rows -/

theorem Row.conforms_iff {row : Row} {types : List ScalarType} :
    row.conforms types ↔ List.Forall₂ (fun (v : Value) t => v.conforms t) row types := by
  induction row generalizing types with
  | nil => cases types <;> simp [Row.conforms]
  | cons v row ih => cases types <;> simp [Row.conforms, ih]

theorem Row.length_of_conforms {row : Row} (h : row.conforms types) :
    row.length = types.length := (Row.conforms_iff.mp h).length_eq

theorem Row.exists_field {row : Row} {rt : RowType} (h : row.conforms rt.types)
    (hi : rt.type? i = some t) : ∃ v, row.field i = .ok v ∧ v.conforms t := by
  have hf := Row.conforms_iff.mp h
  rw [← RowType.getElem?_types] at hi
  obtain ⟨hlt, rfl⟩ := List.getElem?_eq_some_iff.mp hi
  have hlt' : i < row.length := by rw [hf.length_eq]; exact hlt
  exact ⟨row[i], by simp [Row.field, List.getElem?_eq_getElem hlt'], hf.get hlt' hlt⟩

theorem Row.field_yields {row : Row} {rt : RowType} (h : row.conforms rt.types)
    (hi : rt.type? i = some t) : Yields t (row.field i) := by
  obtain ⟨v, hv, hconf⟩ := Row.exists_field h hi
  rw [hv]
  exact hconf

/-- A well-typed expression over a row type, on a row of that type. -/
theorem Expr.eval_yields {e : Expr} {rt : RowType} {row : Row} (h : e.type rt [] = .ok t)
    (hrow : row.conforms rt.types) : Yields t (e.eval row) :=
  evalM_yields h (fun _ _ hi => Row.field_yields hrow hi) fun i u hi => by simp at hi

end RelPlan
