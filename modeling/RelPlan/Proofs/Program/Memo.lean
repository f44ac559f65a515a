import RelPlan.Program.Eval
import RelPlan.Proofs.Program.Expansion

/-! # Running a program is evaluating its expansions

A run evaluates entries on demand and remembers them. What it remembers is always the value of an
expansion, so the memory never shows: a run gives what the expanded condition and columns give, in
this order, failures included (`Program.Means.run_eq`). -/

namespace RelPlan

theorem Expr.mem_inputs_subst {e : Expr} {f g : Nat → Expr} (hj : j ∈ e.temps)
    (hi : i ∈ (g j).inputs) : i ∈ (e.subst f g).inputs := by
  induction e with
  | input | literal => simp [temps] at hj
  | temp k =>
    obtain rfl : j = k := by simpa [temps] using hj
    exact hi
  | binary l op r ihl ihr =>
    exact List.mem_append.mpr ((List.mem_append.mp hj).imp ihl ihr)
  | unary op x ih => exact ih hj

theorem Expr.mem_inputs_subst_input {e : Expr} {g : Nat → Expr} (hi : i ∈ e.inputs) :
    i ∈ (e.subst .input g).inputs := by
  induction e with
  | input | literal => exact hi
  | temp => simp [inputs] at hi
  | binary l op r ihl ihr =>
    exact List.mem_append.mpr ((List.mem_append.mp hi).imp ihl ihr)
  | unary op x ih => exact ih hi

/-- Whether a condition, if there is one, is true where the input fields have these values. -/
def Expr.passes (fields : Nat → Except ProgramError Value) : Option Expr → Except ProgramError Bool
  | none => .ok true
  | some c => return (← c.evalM fields (Row.temp [])).isTrue

/-- What a condition and columns give on a row: the condition is evaluated first, and the columns
only where it is true. -/
def Expr.runAll (row : Row) (condition : Option Expr) (columns : List Expr) :
    Except ProgramError (Option Row) := do
  if ← passes row.field condition then
    return some (← evalAll row columns)
  else
    return none

theorem Expr.runAll_eq_some_iff {row : Row} {vs : List Value} :
    runAll row c cs = .ok (some vs) ↔ passes row.field c = .ok true ∧ evalAll row cs = .ok vs := by
  rw [runAll]
  cases passes row.field c with
  | error => simp
  | ok b => cases b <;> cases evalAll row cs <;> simp

theorem Expr.runAll_eq_none_iff {row : Row} :
    runAll row c cs = .ok none ↔ passes row.field c = .ok false := by
  rw [runAll]
  cases passes row.field c with
  | error => simp
  | ok b => cases b <;> cases evalAll row cs <;> simp

namespace Program

variable {es : List Expr} {row : Row} {memo : Memo} {i : Nat}

/-- Each remembered value is the value of the entry's expansion. -/
def Memo.Sound (es : List Expr) (row : Row) (memo : Memo) : Prop :=
  ∀ (i : Nat) v, memo[i]? = some (some v) → ∃ t, Expands es i t ∧ t.eval row = .ok v

theorem Memo.sound_empty (n : Nat) : Memo.Sound es row (List.replicate n none) := by
  intro i v h
  simp [List.getElem?_replicate] at h

theorem Memo.Sound.set (h : Memo.Sound es row memo) (ht : Expands es i t)
    (hv : t.eval row = .ok v) : Memo.Sound es row (memo.set i (some v)) := by
  intro j w hj
  rw [List.getElem?_set] at hj
  split at hj
  · rename_i hij
    split at hj
    · simp only [Option.some.injEq] at hj
      exact ⟨t, hij ▸ ht, hj ▸ hv⟩
    · cases hj
  · exact h j w hj

/-- The computation has this result whatever is remembered, as long as what is remembered is sound,
and leaves a sound memory. -/
def Gives (es : List Expr) (row : Row) (x : RowM α) (r : Except ProgramError α) : Prop :=
  ∀ memo, Memo.Sound es row memo →
    ∃ memo', Memo.Sound es row memo' ∧ x.run memo = r >>= fun a => .ok (a, memo')

theorem Gives.pure (a : α) : Gives es row (Pure.pure a) (.ok a) := fun memo h => ⟨memo, h, rfl⟩

theorem Gives.lift (r : Except ProgramError α) : Gives es row (liftM r : RowM α) r := by
  intro memo h
  exact ⟨memo, h, by cases r <;> rfl⟩

theorem Gives.bind {x : RowM α} {r : Except ProgramError α} {f : α → RowM β}
    {g : α → Except ProgramError β} (hx : Gives es row x r)
    (hf : ∀ a, r = .ok a → Gives es row (f a) (g a)) : Gives es row (x >>= f) (r >>= g) := by
  intro memo h
  obtain ⟨memo', h', hrun⟩ := hx memo h
  rw [StateT.run_bind, hrun]
  cases r with
  | error e => exact ⟨memo', h', rfl⟩
  | ok a => exact hf a rfl memo' h'

theorem Gives.mapM {f : α → RowM β} {g : α → Except ProgramError β} {as : List α}
    (h : ∀ a ∈ as, Gives es row (f a) (g a)) : Gives es row (as.mapM f) (as.mapM g) := by
  induction as with
  | nil => exact .pure []
  | cons a as ih =>
    rw [List.mapM_cons, List.mapM_cons]
    refine (h a List.mem_cons_self).bind ?_
    intro b _
    refine (ih fun x hx => h x (List.mem_cons_of_mem _ hx)).bind fun bs _ => .pure _

theorem Gives.evalM {e : Expr} {onInput onTemp : Nat → RowM Value}
    {onInput' onTemp' : Nat → Except ProgramError Value}
    (hi : ∀ i ∈ e.inputs, Gives es row (onInput i) (onInput' i))
    (ht : ∀ i ∈ e.temps, Gives es row (onTemp i) (onTemp' i)) :
    Gives es row (e.evalM onInput onTemp) (e.evalM onInput' onTemp') := by
  induction e with
  | input i => exact hi i List.mem_cons_self
  | temp i => exact ht i List.mem_cons_self
  | literal v => exact .pure v
  | binary l op r ihl ihr =>
    simp only [Expr.inputs, Expr.temps, List.mem_append] at hi ht
    have hl := ihl (fun i h => hi i (.inl h)) fun i h => ht i (.inl h)
    have hr := ihr (fun i h => hi i (.inr h)) fun i h => ht i (.inr h)
    simp only [Expr.evalM]
    apply hl.bind
    intro a _
    cases op.absorbing? with
    | none => exact hr.bind fun b _ => .lift _
    | some c =>
      refine (Gives.lift a.truth).bind ?_
      intro p _
      split
      · exact .pure _
      · exact hr.bind fun b _ => (Gives.lift b.truth).bind fun q _ => .pure _
  | unary op x ih => exact (ih hi ht).bind fun a _ => .lift _

theorem Gives.field (hi : i < row.length) : Gives es row (field row i) (row.field i) := by
  simp only [Program.field, Row.field, List.getElem?_eq_getElem hi]
  exact .pure _

/-- The value of an entry is the value of its expansion. -/
theorem Gives.entryWithin (h : expandWithin es d i = .ok t) (ht : ∀ j ∈ t.inputs, j < row.length) :
    Gives es row (entryWithin es row d i) (t.eval row) := by
  induction d generalizing i t with
  | zero => cases h
  | succ d ih =>
    intro memo hm
    have hexp : Expands es i t := ⟨_, h⟩
    simp only [Program.entryWithin, StateT.run_bind, StateT.run_get, Except.pure_eq_ok,
      Except.ok_bind]
    split
    · rename_i v hv
      obtain ⟨t', ht', hv'⟩ := hm i v hv
      rw [hexp.unique ht', hv']
      exact ⟨memo, hm, rfl⟩
    · simp only [Program.expandWithin] at h
      cases he : es[i]? with
      | none => simp [he] at h
      | some e =>
        simp only [he] at h ⊢
        obtain ⟨g, hg, rfl⟩ := Expr.substM_eq_ok_iff.mp h
        have heval : (e.subst .input g).eval row = e.evalM row.field fun j => (g j).eval row :=
          Expr.evalM_subst e .input g row.field (Row.temp [])
        have hrun : Gives es row (e.evalM (Program.field row) (Program.entryWithin es row d))
            (e.evalM row.field fun j => (g j).eval row) :=
          .evalM (fun j hj => .field (ht j (Expr.mem_inputs_subst_input hj))) fun j hj =>
            ih (hg j hj) fun k hk => ht k (Expr.mem_inputs_subst hj hk)
        obtain ⟨memo', hm', hrun⟩ := hrun memo hm
        rw [← heval] at hrun
        rw [StateT.run_bind, hrun]
        cases hr : (e.subst .input g).eval row with
        | error err => exact ⟨memo, hm, rfl⟩
        | ok v => exact ⟨memo'.set i (some v), hm'.set hexp hr, rfl⟩

theorem Gives.entry {p : Program} (hp : p.Valid) (h : Expands p.entries i t)
    (hrow : row.length = p.inputType.length) : Gives p.entries row (p.entry row i) (t.eval row) := by
  obtain ⟨ts, hts, _⟩ := valid_iff.mp hp
  obtain ⟨u, _, htu⟩ := hts.type_of_expands h
  exact .entryWithin (hts.expand_eq_ok_iff.mpr h) fun j hj =>
    hrow ▸ Expr.lt_of_mem_inputs htu hj

/-- A run gives what the expansions give on the row. -/
theorem Means.run_eq {p : Program} {c : Option Expr} {cs : List Expr} (hp : p.Valid)
    (h : p.Means c cs) (hrow : row.length = p.inputType.length) :
    p.run row = Expr.runAll row c cs := by
  have hpass : Gives p.entries row (p.passes row) (Expr.passes row.field c) := by
    have hc := h.condition
    simp only [Program.passes]
    cases hp' : p.condition <;> rw [hp'] at hc <;> cases hc
    · exact .pure true
    · rename_i hx
      exact (Gives.entry hp hx hrow).bind fun v _ => .pure _
  have hcols : Gives p.entries row (p.columns.mapM fun c => p.entry row c.entry)
      (Expr.evalAll row cs) := by
    have hes := h.columns
    rw [Expr.evalAll]
    clear h
    generalize p.columns = columns at hes ⊢
    induction hes with
    | nil => exact .pure []
    | cons hx _ ih =>
      rw [List.mapM_cons, List.mapM_cons]
      exact (Gives.entry hp hx hrow).bind fun v _ => ih.bind fun vs _ => .pure _
  have hout : Gives p.entries row (p.outputM row) (Expr.runAll row c cs) := by
    apply hpass.bind
    intro b _
    cases b
    · exact .pure none
    · exact hcols.bind fun vs _ => .pure _
  obtain ⟨memo', _, hrun⟩ := hout _ (Memo.sound_empty p.entries.length)
  rw [StateT.run] at hrun
  rw [run, if_pos hrow, StateT.run', hrun]
  cases Expr.runAll row c cs <;> rfl

end Program
end RelPlan
