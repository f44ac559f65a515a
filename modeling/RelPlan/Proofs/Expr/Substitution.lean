import RelPlan.Expr.Eval
import RelPlan.Expr.Typing
import RelPlan.Proofs.Result

/-! # Substitution

Expressions put in place of references. What the result evaluates to is what the expression
evaluates to when its references get the values of the substituted expressions (`evalM_subst`), and
types are kept when each reference is replaced by an expression of its type (`type_subst`). Where
the fields of one row are computed from another row, an expression over the first row is over the
other one, with the computations in place of the fields, of the same type and the same value, or
fails in the same way (`subst_faithful`). -/

namespace RelPlan

@[simp] theorem RowType.getElem?_types (rt : RowType) (i : Nat) : rt.types[i]? = rt.type? i := by
  simp [RowType.types, RowType.type?]

@[simp] theorem RowType.length_types (rt : RowType) : rt.types.length = rt.length := by
  simp [RowType.types]

theorem RowType.type?_congr {rt rt' : RowType} (h : rt.types = rt'.types) (i : Nat) :
    rt.type? i = rt'.type? i := by
  rw [← RowType.getElem?_types, h, RowType.getElem?_types]

theorem RowType.lt_of_type? {rt : RowType} (h : rt.type? i = some t) : i < rt.length := by
  rw [← RowType.getElem?_types] at h
  simpa using (List.getElem?_eq_some_iff.mp h).1

theorem RowType.exists_type? {rt : RowType} (h : i < rt.length) : ∃ t, rt.type? i = some t :=
  ⟨rt[i].type, by simp [RowType.type?, h]⟩

namespace Expr

/-- The references to input fields, from left to right, each as often as it occurs. -/
def inputs : Expr → List Nat
  | input i => [i]
  | binary l _ r => l.inputs ++ r.inputs
  | unary _ x => x.inputs
  | _ => []

/-! ## Laws -/

theorem subst_congr {e : Expr} {f f' g g' : Nat → Expr} (hf : ∀ i ∈ e.inputs, f i = f' i)
    (hg : ∀ i ∈ e.temps, g i = g' i) : e.subst f g = e.subst f' g' := by
  induction e with
  | input i => exact hf i (by simp [inputs])
  | temp i => exact hg i (by simp [temps])
  | literal v => rfl
  | binary l op r ihl ihr =>
    simp only [inputs, temps, List.mem_append] at hf hg
    simp only [subst, ihl (fun i h => hf i (.inl h)) fun i h => hg i (.inl h),
      ihr (fun i h => hf i (.inr h)) fun i h => hg i (.inr h)]
  | unary op x ih => simp only [subst, ih hf hg]

@[simp] theorem subst_input_temp (e : Expr) : e.subst input temp = e := by
  induction e with
  | binary _ _ _ ihl ihr => rw [subst, ihl, ihr]
  | unary _ _ ih => rw [subst, ih]
  | _ => rfl

theorem subst_subst (e : Expr) (f g f' g' : Nat → Expr) :
    (e.subst f g).subst f' g' =
      e.subst (fun i => (f i).subst f' g') (fun i => (g i).subst f' g') := by
  induction e with
  | binary _ _ _ ihl ihr => simp only [subst, ihl, ihr]
  | unary _ _ ih => simp only [subst, ih]
  | _ => rfl

/-- Moving references moves the references. -/
theorem temps_subst_temp (e : Expr) (place : Nat → Nat) :
    (e.subst input fun i => temp (place i)).temps = e.temps.map place := by
  induction e with
  | input | temp | literal => rfl
  | binary l op r ihl ihr => simp [subst, temps, ihl, ihr]
  | unary op x ih => exact ih

/-! ## Failing substitution -/

variable {onTemp : Nat → Except ε Expr}

theorem substM_eq_ok {e : Expr} {g : Nat → Expr} (h : ∀ i ∈ e.temps, onTemp i = .ok (g i)) :
    e.substM (fun i => .ok (input i)) onTemp = .ok (e.subst input g) := by
  induction e with
  | input i => rfl
  | temp i => exact h i (by simp [temps])
  | literal v => rfl
  | binary l op r ihl ihr =>
    simp only [temps, List.mem_append] at h
    simp [substM, subst, ihl fun i hi => h i (.inl hi), ihr fun i hi => h i (.inr hi)]
  | unary op x ih => simp [substM, subst, ih h]

theorem exists_substM_eq_ok {e : Expr} (h : ∀ i ∈ e.temps, ∃ x, onTemp i = .ok x) :
    ∃ t, e.substM (fun i => .ok (input i)) onTemp = .ok t := by
  induction e with
  | input i => exact ⟨input i, rfl⟩
  | temp i => exact h i List.mem_cons_self
  | literal v => exact ⟨literal v, rfl⟩
  | binary l op r ihl ihr =>
    simp only [temps, List.mem_append] at h
    obtain ⟨l', hl⟩ := ihl fun i hi => h i (.inl hi)
    obtain ⟨r', hr⟩ := ihr fun i hi => h i (.inr hi)
    exact ⟨binary l' op r', by simp [substM, hl, hr]⟩
  | unary op x ih =>
    obtain ⟨x', hx⟩ := ih h
    exact ⟨unary op x', by simp [substM, hx]⟩

theorem exists_of_substM_eq_ok {e t : Expr}
    (h : e.substM (fun i => .ok (input i)) onTemp = .ok t) :
    ∀ i ∈ e.temps, ∃ x, onTemp i = .ok x := by
  induction e generalizing t with
  | input i | literal v => simp [temps]
  | temp i =>
    intro j hj
    obtain rfl : j = i := by simpa [temps] using hj
    exact ⟨t, h⟩
  | binary l op r ihl ihr =>
    obtain ⟨x, hx, h⟩ := Except.bind_eq_ok_iff.mp h
    obtain ⟨y, hy, _⟩ := Except.bind_eq_ok_iff.mp h
    intro i hi
    exact (List.mem_append.mp hi).elim (ihl hx i) (ihr hy i)
  | unary op x ih =>
    obtain ⟨y, hy, _⟩ := Except.bind_eq_ok_iff.mp h
    exact ih hy

theorem substM_eq_ok_iff {e t : Expr} :
    e.substM (fun i => .ok (input i)) onTemp = .ok t ↔
      ∃ g, (∀ i ∈ e.temps, onTemp i = .ok (g i)) ∧ t = e.subst input g := by
  constructor
  · intro h
    let g i := (onTemp i).toOption.getD (temp i)
    have hg : ∀ i ∈ e.temps, onTemp i = .ok (g i) := by
      intro i hi
      obtain ⟨x, hx⟩ := exists_of_substM_eq_ok h i hi
      simp [g, hx, Except.toOption]
    rw [substM_eq_ok hg] at h
    exact ⟨g, hg, (Except.ok.inj h).symm⟩
  · rintro ⟨g, hg, rfl⟩
    exact substM_eq_ok hg

/-! ## Evaluation -/

section
variable {m : Type → Type} [Monad m] [MonadLiftT (Except ProgramError) m]

theorem evalM_subst (e : Expr) (f g : Nat → Expr) (onInput onTemp : Nat → m Value) :
    (e.subst f g).evalM onInput onTemp =
      e.evalM (fun i => (f i).evalM onInput onTemp) (fun i => (g i).evalM onInput onTemp) := by
  induction e with
  | binary _ _ _ ihl ihr => simp only [subst, evalM, ihl, ihr]
  | unary _ _ ih => simp only [subst, evalM, ih]
  | _ => rfl

theorem evalM_congr {e : Expr} {onInput onInput' onTemp onTemp' : Nat → m Value}
    (hi : ∀ i ∈ e.inputs, onInput i = onInput' i) (ht : ∀ i ∈ e.temps, onTemp i = onTemp' i) :
    e.evalM onInput onTemp = e.evalM onInput' onTemp' := by
  induction e with
  | input i => exact hi i (by simp [inputs])
  | temp i => exact ht i (by simp [temps])
  | literal v => rfl
  | binary l op r ihl ihr =>
    simp only [inputs, temps, List.mem_append] at hi ht
    simp only [evalM, ihl (fun i h => hi i (.inl h)) fun i h => ht i (.inl h),
      ihr (fun i h => hi i (.inr h)) fun i h => ht i (.inr h)]
  | unary op x ih => simp only [evalM, ih hi ht]

/-- Where the replacements have the values of what they replace, or fail as it does, so does the
result. -/
theorem evalM_subst_eq {e : Expr} {f g : Nat → Expr}
    {onInput onInput' onTemp onTemp' : Nat → m Value}
    (hf : ∀ i ∈ e.inputs, (f i).evalM onInput' onTemp' = onInput i)
    (hg : ∀ i ∈ e.temps, (g i).evalM onInput' onTemp' = onTemp i) :
    (e.subst f g).evalM onInput' onTemp' = e.evalM onInput onTemp :=
  (evalM_subst e f g onInput' onTemp').trans (evalM_congr hf hg)

end

/-- An expression that reads no earlier entries has one value, whatever values stand beside the
row. -/
theorem evalWith_of_temps {e : Expr} (he : e.temps = []) (row vs : Row) :
    e.evalWith row vs = e.eval row :=
  evalM_congr (fun _ _ => rfl) (by simp [he])

/-! ## Types -/

variable {rt rt' : RowType} {ts ts' : List ScalarType}

theorem type_input_eq_ok_iff : (input i).type rt ts = .ok t ↔ rt.type? i = some t := by
  cases h : rt.type? i <;> simp [type, h]

theorem type_temp_eq_ok_iff : (temp i).type rt ts = .ok t ↔ ts[i]? = some t := by
  cases h : ts[i]? <;> simp [type, h]

theorem type_subst {e : Expr} {f g : Nat → Expr} (h : e.type rt ts = .ok t)
    (hf : ∀ i ∈ e.inputs, ∀ u, rt.type? i = some u → (f i).type rt' ts' = .ok u)
    (hg : ∀ i ∈ e.temps, ∀ u, ts[i]? = some u → (g i).type rt' ts' = .ok u) :
    (e.subst f g).type rt' ts' = .ok t := by
  induction e generalizing t with
  | input i => exact hf i List.mem_cons_self t (type_input_eq_ok_iff.mp h)
  | temp i => exact hg i List.mem_cons_self t (type_temp_eq_ok_iff.mp h)
  | literal v => exact h
  | binary l op r ihl ihr =>
    simp only [inputs, temps, List.mem_append] at hf hg
    obtain ⟨a, ha, h⟩ := Except.bind_eq_ok_iff.mp h
    obtain ⟨b, hb, h⟩ := Except.bind_eq_ok_iff.mp h
    simpa [subst, type, ihl ha (fun i hi => hf i (.inl hi)) fun i hi => hg i (.inl hi),
      ihr hb (fun i hi => hf i (.inr hi)) fun i hi => hg i (.inr hi)] using h
  | unary op x ih =>
    obtain ⟨a, ha, h⟩ := Except.bind_eq_ok_iff.mp h
    simpa [subst, type, ih ha hf hg] using h

/-- Where the replacements have the types of what they replace, or fail as it does, so does the
result. -/
theorem type_subst_eq {e : Expr} {f g : Nat → Expr}
    (hf : ∀ i ∈ e.inputs, (f i).type rt' ts' = (input i).type rt ts)
    (hg : ∀ i ∈ e.temps, (g i).type rt' ts' = (temp i).type rt ts) :
    (e.subst f g).type rt' ts' = e.type rt ts := by
  induction e with
  | input i => exact hf i List.mem_cons_self
  | temp i => exact hg i List.mem_cons_self
  | literal v => rfl
  | binary l op r ihl ihr =>
    simp only [inputs, temps, List.mem_append] at hf hg
    simp only [subst, type, ihl (fun i hi => hf i (.inl hi)) fun i hi => hg i (.inl hi),
      ihr (fun i hi => hf i (.inr hi)) fun i hi => hg i (.inr hi)]
  | unary op x ih => simp only [subst, type, ih hf hg]

/-- An expression that reads no earlier entries has one type, whatever their types are. -/
theorem type_of_temps {e : Expr} (he : e.temps = []) (ts ts' : List ScalarType) :
    e.type rt ts = e.type rt ts' := by
  have h : (e.subst input temp).type rt ts = e.type rt ts' :=
    type_subst_eq (fun _ _ => rfl) (by simp [he])
  rwa [subst_input_temp] at h

/-- The expressions that replace input fields have the fields' types. -/
def Fits (rt rt' : RowType) (σ : Nat → Expr) : Prop :=
  ∀ i u, rt.type? i = some u → (σ i).type rt' [] = .ok u

theorem Fits.type {e : Expr} {σ : Nat → Expr} (hσ : Fits rt rt' σ) (h : e.type rt [] = .ok t) :
    (e.subst σ temp).type rt' [] = .ok t :=
  type_subst h (fun i _ u hi => hσ i u hi) fun i _ u hi => by simp at hi

theorem type_mono {e : Expr} (h : e.type rt ts = .ok t)
    (hrt : ∀ i u, rt.type? i = some u → rt'.type? i = some u)
    (hts : ∀ (i : Nat) u, ts[i]? = some u → ts'[i]? = some u) : e.type rt' ts' = .ok t := by
  rw [← subst_input_temp e]
  exact type_subst h (fun i _ u hi => type_input_eq_ok_iff.mpr (hrt i u hi)) fun i _ u hi =>
    type_temp_eq_ok_iff.mpr (hts i u hi)

/-- Field names play no part in types. -/
theorem type_of_types_eq {e : Expr} (h : e.type rt ts = .ok t) (hrt : rt.types = rt'.types) :
    e.type rt' ts = .ok t :=
  type_mono h (fun i _ hi => (RowType.type?_congr hrt i).symm.trans hi) fun _ _ => id

theorem type?_of_mem_inputs {e : Expr} (h : e.type rt ts = .ok t) (hi : i ∈ e.inputs) :
    ∃ u, rt.type? i = some u := by
  induction e generalizing t with
  | input j =>
    obtain rfl : i = j := by simpa [inputs] using hi
    exact ⟨t, type_input_eq_ok_iff.mp h⟩
  | temp | literal => simp [inputs] at hi
  | binary l op r ihl ihr =>
    obtain ⟨a, ha, h⟩ := Except.bind_eq_ok_iff.mp h
    obtain ⟨b, hb, _⟩ := Except.bind_eq_ok_iff.mp h
    exact (List.mem_append.mp hi).elim (ihl ha) (ihr hb)
  | unary op x ih =>
    obtain ⟨a, ha, _⟩ := Except.bind_eq_ok_iff.mp h
    exact ih ha hi

/-- A typed expression reads only fields that there are. -/
theorem lt_of_mem_inputs {e : Expr} (h : e.type rt ts = .ok t) (hi : i ∈ e.inputs) :
    i < rt.length := by
  obtain ⟨u, hu⟩ := type?_of_mem_inputs h hi
  exact RowType.lt_of_type? hu

theorem getElem?_of_mem_temps {e : Expr} (h : e.type rt ts = .ok t) (hi : i ∈ e.temps) :
    ∃ u, ts[i]? = some u := by
  induction e generalizing t with
  | temp j =>
    obtain rfl : i = j := by simpa [temps] using hi
    exact ⟨t, type_temp_eq_ok_iff.mp h⟩
  | input | literal => simp [temps] at hi
  | binary l op r ihl ihr =>
    obtain ⟨a, ha, h⟩ := Except.bind_eq_ok_iff.mp h
    obtain ⟨b, hb, _⟩ := Except.bind_eq_ok_iff.mp h
    exact (List.mem_append.mp hi).elim (ihl ha) (ihr hb)
  | unary op x ih =>
    obtain ⟨a, ha, _⟩ := Except.bind_eq_ok_iff.mp h
    exact ih ha hi

/-- An expression that has a type without earlier entries reads none. -/
theorem temps_eq_nil {e : Expr} (h : e.type rt [] = .ok t) : e.temps = [] := by
  apply List.eq_nil_iff_forall_not_mem.mpr
  intro i hi
  obtain ⟨u, hu⟩ := getElem?_of_mem_temps h hi
  simp at hu

/-! ## Fields computed from another row -/

/-- Substitution lemma: with expressions over another row type in place of the fields, an expression
has the type that it has over its own row type, or no type for the same reason, if each replacement
has its field's type. On a row of which each field that is read holds what its replacement gives on
the other row, it has the same value, or the same failure. -/
theorem subst_faithful {e : Expr} {σ τ : Nat → Expr} (he : e.temps = [])
    (hin : ∀ i ∈ e.inputs, i < rt.length) (hσ : ∀ i < rt.length, (σ i).temps = []) :
    (∀ rt', Fits rt rt' σ → ∀ ts ts', (e.subst σ τ).type rt' ts' = e.type rt ts) ∧
      ∀ row row' : Row, (∀ i ∈ e.inputs, ∃ v, row[i]? = some v ∧ (σ i).eval row' = .ok v) →
        ∀ vs vs', (e.subst σ τ).evalWith row' vs' = e.evalWith row vs := by
  constructor
  · intro rt' hfit ts ts'
    refine type_subst_eq (fun i hi => ?_) (by simp [he])
    obtain ⟨u, hu⟩ := RowType.exists_type? (hin i hi)
    calc (σ i).type rt' ts'
      _ = (σ i).type rt' [] := type_of_temps (hσ i (hin i hi)) ts' []
      _ = .ok u := hfit i u hu
      _ = (input i).type rt ts := (type_input_eq_ok_iff.mpr hu).symm
  · intro row row' hval vs vs'
    refine evalM_subst_eq (fun i hi => ?_) (by simp [he])
    obtain ⟨v, hv, hs⟩ := hval i hi
    calc (σ i).evalWith row' vs'
      _ = (σ i).eval row' := evalWith_of_temps (hσ i (hin i hi)) row' vs'
      _ = .ok v := hs
      _ = row.field i := by simp [Row.field, hv]

/-- A price and its rebate. -/
def rebates : RowType := [⟨"price", .int⟩, ⟨"rebate", .int⟩]

/-- A price before a change, and the change. -/
def changes : RowType := [⟨"before", .int⟩, ⟨"change", .int⟩]

/-- A price and its rebate, computed from the price before and the change. -/
def rebated : Nat → Expr
  | 0 => binary (input 0) .add (input 1)
  | _ => unary .minus (input 1)

theorem rebated_fits : Fits rebates changes rebated
  | 0, _, rfl => rfl
  | 1, _, rfl => rfl

/-- The price divided by what the rebate leaves of it. -/
def markup : Expr := binary (input 0) .div (binary (input 0) .sub (input 1))

/-- A type, with a value and with a zero divisor, and an operand of the wrong type. -/
theorem subst_faithful_rebated :
    (∀ ts, (markup.subst rebated temp).type changes ts = .ok .int ∧
      ((unary .not markup).subst rebated temp).type changes ts =
        .error (.invalid (.operandType .not .int))) ∧
    ∀ vs, (markup.subst rebated temp).evalWith [.int 10, .int (-4)] vs = .ok (.int 3) ∧
      (markup.subst rebated temp).evalWith [.int 8, .int (-4)] vs =
        .error (.evaluation (.value .divisionByZero)) := by
  have hσ : ∀ i < rebates.length, (rebated i).temps = [] := by decide
  have htype {e : Expr} (he : e.temps = []) (hin : ∀ i ∈ e.inputs, i < rebates.length) ts :
      (e.subst rebated temp).type changes ts = e.type rebates [] :=
    (subst_faithful he hin hσ).1 changes rebated_fits [] ts
  have heval (v w : Value) (row' : Row) (hv : (rebated 0).eval row' = .ok v)
      (hw : (rebated 1).eval row' = .ok w) vs :
      (markup.subst rebated temp).evalWith row' vs = markup.eval [v, w] := by
    refine (subst_faithful rfl (by decide) hσ).2 [v, w] row' (fun i hi => ?_) [] vs
    obtain rfl | rfl : i = 0 ∨ i = 1 := by simpa [markup, inputs] using hi
    · exact ⟨v, rfl, hv⟩
    · exact ⟨w, rfl, hw⟩
  exact ⟨fun ts => ⟨htype rfl (by decide) ts, htype rfl (by decide) ts⟩,
    fun vs => ⟨heval (.int 6) (.int 4) _ rfl rfl vs, heval (.int 4) (.int 4) _ rfl rfl vs⟩⟩

end Expr
end RelPlan
