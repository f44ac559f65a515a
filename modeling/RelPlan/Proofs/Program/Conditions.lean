import RelPlan.Proofs.Program.BuilderHistory
import RelPlan.Proofs.Program.FromNode

/-! # Adding conditions

A condition is typed as it comes, over the types of the entries, and only then taken apart into new
entries. So a condition that is refused leaves nothing behind, even where the builder is changed in
place (`Builder.run_addConditionInPlace`), and one that is accepted can be typed entry by entry, so
that a builder with a program still has one (`Builder.addCondition_atomic`). The builder may have
been given references to entries and columns that are not there: its table of texts is in step with
the entries all the same (`Builder.Operated.listed`). -/

namespace RelPlan

open Program (Typed)

namespace Builder

/-! ## Any operations -/

/-- The builder comes from a new one or from that of a program by operations, whatever their
expressions and columns refer to. -/
inductive Operated : Builder → Prop where
  | new : Operated { inputType := rt }
  | ofProgram : Program.Accepted p → Operated (ofProgram p)
  | apply (op : Operation) : Operated b → Operated (op.apply b)

variable {b b' : Builder} {e : Expr} {p : Program} {ts : List ScalarType}

/-- The table leads from each text to the first entry that has it. -/
abbrev Listed (b : Builder) : Prop := b.digests.Lists b.entries

theorem register_listed (h : b.Listed) (e : Expr) : (b.register e).2.Listed := by
  rcases b.register_cases e with ⟨i, -, hr⟩ | ⟨hnew, hr⟩ <;> rw [hr]
  · exact h
  · exact Digests.Lists.snoc h hnew

theorem addExpr_listed (h : b.Listed) (e : Expr) : (b.addExpr e).2.Listed := by
  induction e generalizing b with
  | temp => exact h
  | input | literal => exact register_listed h _
  | binary l op r ihl ihr => exact register_listed (ihr (ihl h)) _
  | unary op x ih => exact register_listed (ih h) _

theorem addColumnExprs_listed (h : b.Listed) (cols : List (Expr × String)) :
    (b.addColumnExprs cols).Listed := by
  induction cols generalizing b with
  | nil => exact h
  | cons c cols ih => exact ih (b := b.addColumnExpr c.1 c.2) (addExpr_listed h c.1)

theorem addCondition_listed (h : b.Listed) (hb : b.addCondition e = .ok b') : b'.Listed := by
  obtain ⟨-, rfl⟩ | ⟨_, -, rfl⟩ := of_addCondition hb
  · exact addExpr_listed h e
  · exact register_listed (addExpr_listed h _) _

theorem Operation.apply_listed (op : Operation) (h : b.Listed) : (op.apply b).Listed := by
  cases op with
  | keepFields => exact addColumnExprs_listed (b := b.clearColumns) h _
  | addExpr e | addColumnExpr e => exact addExpr_listed h e
  | addCondition e =>
    rw [apply]
    cases hb : b.addCondition e with
    | ok b' => exact addCondition_listed h hb
    | error => exact h
  | addColumn | setColumns | clearColumns | clearCondition => exact h

theorem Operated.foldl (h : b.Operated) (ops : List Operation) :
    (ops.foldl Operation.apply b).Operated := by
  induction ops generalizing b with
  | nil => exact h
  | cons op ops ih => exact ih (h.apply op)

theorem Operated.listed (h : b.Operated) : b.Listed := by
  induction h with
  | new => exact fun _ => rfl
  | ofProgram => exact Digests.lists_of _
  | apply op _ ih => exact op.apply_listed ih

/-- The entries of a builder that has a program are flat, so its table indexes them. -/
theorem Operated.indexed (h : b.Operated) (hts : Typed b.inputType b.entries ts) : b.Indexed :=
  ⟨hts.flatEntries, h.listed⟩

/-! ## Changes in place -/

/-- Adds a condition to a builder that is changed in place: what is done before a failure is not
taken back. -/
def addConditionInPlace (e : Expr) : EStateM ProgramError Builder Unit := do
  let b ← get
  let t ← ofExcept (e.type b.inputType (← ofExcept b.types))
  if t.isCondition then
    let i ← modifyGet (addExpr · e)
    let i ← match (← get).condition with
      | some earlier => modifyGet (conjunction · earlier i)
      | none => pure i
    modify ({ · with condition := some i })
  else
    throw (.invalid (.conditionExprType t e))

/-- All that can fail comes before the first change. -/
theorem run_addConditionInPlace (b : Builder) (e : Expr) :
    (addConditionInPlace e).run b =
      match b.addCondition e with
      | .ok b' => .ok () b'
      | .error err => .error err b := by
  unfold addConditionInPlace addCondition
  simp only [EStateM.run_bind, EStateM.run_get, EStateM.run_ofExcept]
  cases b.types with
  | error => rfl
  | ok ts =>
    simp only [Except.ok_bind]
    cases e.type b.inputType ts with
    | error => rfl
    | ok t =>
      simp only [Except.ok_bind]
      split
      case isFalse => rfl
      case isTrue =>
        simp only [EStateM.run_bind, EStateM.run_modifyGet, EStateM.run_get]
        cases (b.addExpr e).2.condition <;> rfl

/-! ## Accepted conditions -/

theorem addCondition_ok_iff (h : b.types = .ok ts) :
    (∃ b', b.addCondition e = .ok b') ↔ ∃ t, e.type b.inputType ts = .ok t ∧ t.isCondition := by
  rw [addCondition, h, Except.ok_bind]
  cases e.type b.inputType ts with
  | error => simp
  | ok t => cases ht : t.isCondition <;> simp [ht]

/-- An accepted condition adds entries that have types, and one of them, or an old one, is the
condition. -/
theorem addCondition_typed (h : b.Indexed) (hts : Typed b.inputType b.entries ts)
    (hc : ∀ i ∈ b.condition, ∃ t, ts[i]? = some t ∧ t.isCondition)
    (he : e.type b.inputType ts = .ok t) (ht : t.isCondition) (hb : b.addCondition e = .ok b') :
    b'.inputType = b.inputType ∧ b'.columns = b.columns ∧
      ∃ ts', Typed b.inputType b'.entries ts' ∧ ts <+: ts' ∧
        ∀ i ∈ b'.condition, ∃ t, ts'[i]? = some t ∧ t.isCondition := by
  have hg := b.addExpr_grows e
  obtain ⟨ts₁, h₁, hp₁, hi⟩ := addExpr_typed h hts he
  obtain ⟨-, rfl⟩ | ⟨earlier, hearlier, rfl⟩ := of_addCondition hb
  · refine ⟨hg.inputType, hg.columns, ts₁, hg.inputType ▸ h₁, hp₁, ?_⟩
    rintro _ ⟨⟩
    exact ⟨t, hi, ht⟩
  · obtain ⟨u, hu, hcu⟩ := hc earlier hearlier
    have hu := List.getElem?_of_initial hp₁ hu
    obtain ⟨hindexed, -⟩ := addExpr_indexed (e := e) h fun j hj =>
      let ⟨_, hj⟩ := Expr.getElem?_of_mem_temps he hj
      hts.lt_of_type hj
    have hf : (Expr.binary (.temp earlier) .and (.temp (b.addExpr e).1)).Flat
        (b.addExpr e).2.entries.length := .binary (h₁.lt_of_type hu) (h₁.lt_of_type hi)
    obtain ⟨ts₂, h₂, hp₂, hk⟩ := register_typed (t := .bool) hindexed h₁ hf (by
      simp only [Expr.type, hu, hi, Except.ok_bind, BinaryOp.resultType_and hcu ht])
    have hjoin := hg.trans (register_grows (b.addExpr e).2
      (.binary (.temp earlier) .and (.temp (b.addExpr e).1)))
    refine ⟨hjoin.inputType, hjoin.columns, ts₂, hjoin.inputType ▸ h₂, hp₁.trans hp₂, ?_⟩
    rintro _ ⟨⟩
    exact ⟨.bool, hk, rfl⟩

/-- A builder that has a program takes exactly the conditions that are typed as such over its
entries, and has a program with the same output thereafter. -/
theorem addCondition_program (h : b.Operated) (hp : b.program = .ok p) :
    ∃ ts, Program.entryTypes b.inputType b.entries = .ok ts ∧
      ((∃ b', b.addCondition e = .ok b') ↔
        ∃ t, e.type b.inputType ts = .ok t ∧ t.isCondition) ∧
      ∀ b', b.addCondition e = .ok b' →
        ∃ p', b'.program = .ok p' ∧ p'.outputType = p.outputType := by
  obtain ⟨-, -, hcolumns, hcondition, ts, hts, hf⟩ := Program.check_eq_ok_iff.mp hp
  have hentries := Program.entryTypes_eq_ok_iff.mpr hts
  have hiff := addCondition_ok_iff (e := e) (typesFrom_of_entryTypesFrom hentries)
  refine ⟨ts, hentries, hiff, fun b' hb => ?_⟩
  obtain ⟨t, he, ht⟩ := hiff.mp ⟨b', hb⟩
  obtain ⟨hrt, hcols, ts', hts', hprefix, hc⟩ :=
    addCondition_typed (h.indexed hts) hts (hcondition ▸ hf.condition) he ht hb
  let p' : Program := ⟨b'.inputType, b'.entries, b'.columns, b'.condition, p.outputType⟩
  refine ⟨p', Program.check_eq_ok_iff.mpr ⟨rfl, rfl, rfl, rfl, ts', hrt ▸ hts', ?_, hc⟩, rfl⟩
  show List.Forall₂ _ b'.columns p.outputType
  rw [hcols, ← hcolumns]
  exact hf.columns.imp fun _ _ hcol => ⟨List.getElem?_of_initial hprefix hcol.1, hcol.2⟩

/-- Adding a condition is all or nothing, and keeps programs in order. Whatever a builder has been
asked for, a condition that it refuses leaves it as it was, table of texts included, although it is
changed in place. If it has a program, it takes exactly the conditions whose type over the input
fields and the entries is that of a condition, and then has a program again, with the same output
fields. -/
theorem addCondition_atomic (h : b.Operated) (e : Expr) :
    (∀ err b', (addConditionInPlace e).run b = .error err b' → b' = b) ∧
      (∀ b', (addConditionInPlace e).run b = .ok () b' ↔ b.addCondition e = .ok b') ∧
      ∀ p, b.program = .ok p → ∃ ts, Program.entryTypes b.inputType b.entries = .ok ts ∧
        ((∃ b', b.addCondition e = .ok b') ↔
          ∃ t, e.type b.inputType ts = .ok t ∧ (t = .bool ∨ t = .null)) ∧
        ∀ b', b.addCondition e = .ok b' →
          ∃ p', b'.program = .ok p' ∧ p'.outputType = p.outputType := by
  refine ⟨fun err b' hrun => ?_, fun b' => ?_, fun p hp => ?_⟩
  · rw [run_addConditionInPlace] at hrun
    cases hb : b.addCondition e with
    | ok => rw [hb] at hrun; cases hrun
    | error => rw [hb] at hrun; cases hrun; rfl
  · rw [run_addConditionInPlace]
    cases b.addCondition e <;> simp
  · simp only [← ScalarType.isCondition_iff]
    exact addCondition_program h hp

/-- Has been given a column and a condition that are no entries before it got its only column. -/
def revised : Builder :=
  [.addColumn 12 "late", .addCondition (.temp 12), .clearColumns,
    .addColumnExpr (.unary .isNull (.input 0)) "missing"].foldl
    Operation.apply (ofProgram Program.ratios)

theorem revised_operated : revised.Operated :=
  (Operated.ofProgram Program.ratios_accepted).foldl _

/-- Reads an entry and fields. -/
def absent : Expr := .binary (.temp 9) .or (.binary (.input 1) .gt (.input 0))

/-- A condition over an entry and fields is joined to the earlier one; the quotient is none. -/
theorem addCondition_atomic_revised :
    revised.Operated ∧ (∃ p, revised.program = .ok p ∧ p.outputType = [⟨"missing", .bool⟩]) ∧
      (∃ b' p', (addConditionInPlace absent).run revised = .ok () b' ∧
        b'.program = .ok p' ∧ p'.outputType = [⟨"missing", .bool⟩]) ∧
      ∃ err, (addConditionInPlace (.temp 4)).run revised = .error err revised := by
  obtain ⟨p, hp, hout⟩ : ∃ p, revised.program = .ok p ∧ p.outputType = [⟨"missing", .bool⟩] :=
    ⟨_, rfl, rfl⟩
  have htypes : Program.entryTypes revised.inputType revised.entries =
      .ok [.int, .int, .bool, .int, .int, .int, .bool, .bool, .int, .bool] := rfl
  obtain ⟨-, hrun, hprogram⟩ := addCondition_atomic revised_operated absent
  obtain ⟨ts, hts, hiff, hsame⟩ := hprogram p hp
  obtain rfl := Except.ok.inj (htypes.symm.trans hts)
  obtain ⟨b', hb⟩ := hiff.mpr ⟨.bool, rfl, .inl rfl⟩
  obtain ⟨p', hp', hout'⟩ := hsame b' hb
  obtain ⟨herror, hrun₄, hprogram₄⟩ := addCondition_atomic revised_operated (.temp 4)
  obtain ⟨ts, hts, hiff₄, -⟩ := hprogram₄ p hp
  obtain rfl := Except.ok.inj (htypes.symm.trans hts)
  refine ⟨revised_operated, ⟨p, hp, hout⟩, ⟨b', p', (hrun b').mpr hb, hp', hout'.trans hout⟩, ?_⟩
  cases h : (addConditionInPlace (.temp 4)).run revised with
  | ok _ b'' =>
    obtain ⟨t, ht, hbool⟩ := hiff₄.mp ⟨b'', (hrun₄ b'').mp h⟩
    obtain rfl : .int = t := Except.ok.inj ht
    cases hbool <;> contradiction
  | error err b'' => exact ⟨err, by rw [herror err b'' h]⟩

end Builder
end RelPlan
