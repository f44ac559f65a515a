import RelPlan.Program.Basic
import RelPlan.Proofs.Expr.Soundness

/-! # Valid programs

`Program.check` read as rules. An entry is flat when its operands are references to earlier
entries; `Program.Typed` types entries one after the other; a program is valid when `check` gives it
back from its own parts (`Program.valid_iff`). -/

namespace RelPlan

/-! ## Flat entries -/

/-- The expression may be the entry at a position. -/
inductive Expr.Flat (position : Nat) : Expr → Prop where
  | input : Flat position (.input i)
  | literal : Flat position (.literal v)
  | binary : i < position → j < position → Flat position (.binary (.temp i) op (.temp j))
  | unary : i < position → Flat position (.unary op (.temp i))

namespace Expr

theorem exists_of_temp?_isSome {e : Expr} (h : ¬ e.temp?.isNone) : ∃ i, e = temp i := by
  cases e <;> simp [temp?] at h ⊢

theorem checkEntry_eq_ok_iff {e : Expr} : e.checkEntry position = .ok () ↔ e.Flat position := by
  constructor
  · intro h
    cases e with
    | temp i => cases h
    | input i => exact .input
    | literal v => exact .literal
    | binary l op r =>
      simp only [checkEntry] at h
      split at h
      · cases h
      · rename_i hc
        simp only [children, List.any_cons, List.any_nil, Bool.or_false, Bool.or_eq_true, not_or]
          at hc
        obtain ⟨i, rfl⟩ := exists_of_temp?_isSome hc.1
        obtain ⟨j, rfl⟩ := exists_of_temp?_isSome hc.2
        split at h
        · cases h
        · rename_i hn
          simp [temps] at hn
          exact .binary hn.1 hn.2
    | unary op x =>
      simp only [checkEntry] at h
      split at h
      · cases h
      · rename_i hc
        simp only [children, List.any_cons, List.any_nil, Bool.or_false] at hc
        obtain ⟨i, rfl⟩ := exists_of_temp?_isSome hc
        split at h
        · cases h
        · rename_i hn
          simp [temps] at hn
          exact .unary hn
  · intro h
    cases h with
    | input | literal => rfl
    | binary hi hj =>
      simp [checkEntry, children, temp?, temps, Nat.not_le_of_lt hi, Nat.not_le_of_lt hj]
    | unary hi => simp [checkEntry, children, temp?, temps, Nat.not_le_of_lt hi]

theorem Flat.lt {e : Expr} (h : e.Flat position) (hi : i ∈ e.temps) : i < position := by
  cases h with
  | input | literal => simp [temps] at hi
  | binary h h' =>
    simp only [temps, List.cons_append, List.nil_append, List.mem_cons, List.not_mem_nil,
      or_false] at hi
    rcases hi with rfl | rfl
    · exact h
    · exact h'
  | unary h =>
    obtain rfl := List.mem_singleton.mp hi
    exact h

theorem Flat.mono {e : Expr} (h : e.Flat position) (hp : position ≤ position') :
    e.Flat position' := by
  cases h with
  | input => exact .input
  | literal => exact .literal
  | binary hi hj => exact .binary (Nat.lt_of_lt_of_le hi hp) (Nat.lt_of_lt_of_le hj hp)
  | unary hi => exact .unary (Nat.lt_of_lt_of_le hi hp)

/-- Moving references of a flat entry leaves it flat. -/
theorem Flat.subst_temp {e : Expr} {g : Nat → Nat} (h : e.Flat position)
    (hg : ∀ i ∈ e.temps, g i < position') :
    (e.subst Expr.input fun i => temp (g i)).Flat position' := by
  cases h with
  | input => exact .input
  | literal => exact .literal
  | binary => exact .binary (hg _ (by simp [temps])) (hg _ (by simp [temps]))
  | unary => exact .unary (hg _ (by simp [temps]))

end Expr

namespace Program

/-- Each entry is flat at its position. -/
def FlatEntries (es : List Expr) : Prop := ∀ (i : Nat) e, es[i]? = some e → e.Flat i

theorem FlatEntries.nil : FlatEntries [] := by simp [FlatEntries]

theorem FlatEntries.snoc {es : List Expr} {e : Expr} (h : FlatEntries es) (hf : e.Flat es.length) :
    FlatEntries (es ++ [e]) := by
  intro i e' hi
  rcases List.getElem?_snoc hi with hi | ⟨rfl, rfl⟩
  · exact h i e' hi
  · exact hf

theorem FlatEntries.of_initial {es es' : List Expr} (h : FlatEntries es') (hp : es <+: es') :
    FlatEntries es := fun i e hi => h i e (List.getElem?_of_initial hp hi)

/-! ## Typed entries -/

/-- The entries have these types, each over the types of those before it. -/
inductive Typed (rt : RowType) : List Expr → List ScalarType → Prop where
  | nil : Typed rt [] []
  | snoc {es : List Expr} {e : Expr} {ts : List ScalarType} {t : ScalarType} : Typed rt es ts →
      e.Flat es.length → e.type rt ts = .ok t → Typed rt (es ++ [e]) (ts ++ [t])

variable {rt : RowType} {es es' : List Expr} {ts ts' known : List ScalarType} {i : Nat}

theorem entryTypesFrom_append :
    entryTypesFrom rt known (es ++ es') =
      entryTypesFrom rt known es >>= fun ts => entryTypesFrom rt ts es' := by
  induction es generalizing known with
  | nil => rfl
  | cons e es ih =>
    simp only [List.cons_append, entryTypesFrom, ih]
    cases e.checkEntry known.length with
    | error => rfl
    | ok =>
      cases h : e.type rt known with
      | error => simp
      | ok => simp

theorem Typed.length_eq (h : Typed rt es ts) : ts.length = es.length := by
  induction h with
  | nil => rfl
  | snoc _ _ _ ih => simp [ih]

theorem Typed.lt_of_type (h : Typed rt es ts) (hi : ts[i]? = some t) : i < es.length := by
  rw [← h.length_eq]
  exact (List.getElem?_eq_some_iff.mp hi).1

theorem Typed.of_entryTypesFrom (h : entryTypesFrom rt known es' = .ok ts)
    (hk : Typed rt es known) : Typed rt (es ++ es') ts := by
  induction es' generalizing es known with
  | nil =>
    obtain rfl := Except.ok.inj h
    simpa using hk
  | cons e es' ih =>
    obtain ⟨_, hf, h⟩ := Except.bind_eq_ok_iff.mp h
    obtain ⟨t, ht, h⟩ := Except.bind_eq_ok_iff.mp h
    rw [hk.length_eq, Expr.checkEntry_eq_ok_iff] at hf
    simpa using ih h (hk.snoc hf ht)

theorem entryTypes_eq_ok_iff : entryTypes rt es = .ok ts ↔ Typed rt es ts := by
  constructor
  · exact fun h => Typed.of_entryTypesFrom h .nil
  · intro h
    induction h with
    | nil => rfl
    | @snoc es e ts t h hf ht ih =>
      rw [entryTypes] at ih ⊢
      rw [entryTypesFrom_append, ih, Except.ok_bind, entryTypesFrom, h.length_eq,
        Expr.checkEntry_eq_ok_iff.mpr hf, Except.ok_bind, ht]
      rfl

theorem Typed.unique (h : Typed rt es ts) (h' : Typed rt es ts') : ts = ts' := by
  rw [← entryTypes_eq_ok_iff] at h h'
  exact Except.ok.inj (h.symm.trans h')

/-- What is known of each entry: it is flat, and its type is found from the types before it. -/
theorem Typed.entry {e : Expr} (h : Typed rt es ts) (hi : es[i]? = some e) :
    ∃ t, ts[i]? = some t ∧ e.Flat i ∧ e.type rt (ts.take i) = .ok t := by
  induction h with
  | nil => simp at hi
  | @snoc es e' ts t h hf ht ih =>
    rcases List.getElem?_snoc hi with hi | ⟨rfl, rfl⟩
    · obtain ⟨u, hu, hf', hu'⟩ := ih hi
      have hlt : i < ts.length := (List.getElem?_eq_some_iff.mp hu).1
      refine ⟨u, ?_, hf', ?_⟩
      · rw [List.getElem?_append_left hlt]; exact hu
      · rw [List.take_append_of_le_length (Nat.le_of_lt hlt)]; exact hu'
    · exact ⟨t, by simp [← h.length_eq], hf, by simpa [← h.length_eq] using ht⟩

theorem Typed.flat {e : Expr} (h : Typed rt es ts) (hi : es[i]? = some e) : e.Flat i :=
  (h.entry hi).choose_spec.2.1

theorem Typed.flatEntries (h : Typed rt es ts) : FlatEntries es := fun _ _ => h.flat

theorem Typed.type {e : Expr} (h : Typed rt es ts) (hi : es[i]? = some e) :
    ∃ t, ts[i]? = some t ∧ e.type rt ts = .ok t := by
  obtain ⟨t, ht, _, hte⟩ := h.entry hi
  exact ⟨t, ht, Expr.type_mono hte (fun _ _ => id) fun _ _ hj =>
    List.getElem?_of_initial (List.take_prefix i ts) hj⟩

theorem Typed.getElem?_of_type (h : Typed rt es ts) (hi : ts[i]? = some t) :
    ∃ e, es[i]? = some e := by
  obtain ⟨hlt, _⟩ := List.getElem?_eq_some_iff.mp hi
  exact ⟨_, List.getElem?_eq_getElem (by rwa [← h.length_eq])⟩

/-! ## Checks -/

theorem columnField_eq_ok_iff {c : Column} {f : Field} :
    columnField ts c = .ok f ↔ ts[c.entry]? = some f.type ∧ f.name = c.name := by
  unfold columnField
  split <;> rename_i h <;> rw [h]
  · cases f; simp [and_comm, eq_comm]
  · simp

theorem checkCondition_eq_ok_iff {c : Option Nat} :
    checkCondition ts c = .ok () ↔
      ∀ i ∈ c, ∃ t, ts[i]? = some t ∧ t.isCondition := by
  cases c with
  | none => simp [checkCondition]
  | some i =>
    simp only [checkCondition, Option.mem_def, Option.some.injEq, forall_eq']
    cases h : ts[i]? with
    | none => simp
    | some t => cases ht : t.isCondition <;> simp [ht]

/-- The program has passed its check. -/
def Valid (p : Program) : Prop := check p.inputType p.entries p.columns p.condition = .ok p

/-- The columns and the condition are in order over entries of these types. -/
structure Framed (p : Program) (ts : List ScalarType) : Prop where
  columns : List.Forall₂ (fun (c : Column) (f : Field) =>
    ts[c.entry]? = some f.type ∧ f.name = c.name) p.columns p.outputType
  condition : ∀ i ∈ p.condition, ∃ t, ts[i]? = some t ∧ t.isCondition

theorem Framed.names_eq {p : Program} (h : p.Framed ts) :
    p.columns.map Column.name = p.outputType.names := by
  rw [RowType.names]
  have hcolumns := h.columns
  generalize p.columns = columns, p.outputType = out at hcolumns
  induction hcolumns with
  | nil => rfl
  | cons hx _ ih => simp [hx.2, ih]

theorem check_eq_ok_iff {columns : List Column} {condition : Option Nat} {p : Program} :
    check rt es columns condition = .ok p ↔
      p.inputType = rt ∧ p.entries = es ∧ p.columns = columns ∧ p.condition = condition ∧
        ∃ ts, Typed rt es ts ∧ p.Framed ts := by
  constructor
  · intro h
    obtain ⟨ts, hts, h⟩ := Except.bind_eq_ok_iff.mp h
    obtain ⟨out, hout, h⟩ := Except.bind_eq_ok_iff.mp h
    obtain ⟨_, hc, h⟩ := Except.bind_eq_ok_iff.mp h
    obtain rfl := Except.ok.inj h
    refine ⟨rfl, rfl, rfl, rfl, ts, entryTypes_eq_ok_iff.mp hts, ?_,
      checkCondition_eq_ok_iff.mp hc⟩
    exact (List.mapM_eq_ok_iff.mp hout).imp fun _ _ => columnField_eq_ok_iff.mp
  · rintro ⟨rfl, rfl, rfl, rfl, ts, hts, hf⟩
    have hout : p.columns.mapM (columnField ts) = .ok p.outputType :=
      List.mapM_eq_ok_iff.mpr (hf.columns.imp fun _ _ => columnField_eq_ok_iff.mpr)
    rw [check, entryTypes_eq_ok_iff.mpr hts, Except.ok_bind, hout, Except.ok_bind,
      checkCondition_eq_ok_iff.mpr hf.condition]
    rfl

theorem valid_iff {p : Program} :
    p.Valid ↔ ∃ ts, Typed p.inputType p.entries ts ∧ p.Framed ts := by
  simp [Valid, check_eq_ok_iff]

theorem Valid.of_check {p : Program} {columns : List Column} {condition : Option Nat}
    (h : check rt es columns condition = .ok p) : p.Valid := by
  obtain ⟨rfl, rfl, rfl, rfl, hp⟩ := check_eq_ok_iff.mp h
  exact valid_iff.mpr hp

end Program
end RelPlan
