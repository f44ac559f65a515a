import RelPlan.Proofs.Program.Accepted
import RelPlan.Proofs.Program.Sharing

/-! # Builders in use

Whatever is asked of a builder comes down to three kinds of steps: a flat entry is registered, the
columns are changed, or the condition becomes one of the entries (`Builder.Operation.apply_steps`).
All of them keep the table of texts in step with the entries (`Builder.Sound`), and none repeats an
entry (`Builder.Distinct`). So flattening loses nothing and shares soundly in every builder that can
be reached (`Builder.addExpr_faithful`). -/

namespace RelPlan
namespace Builder

/-! ## Operations -/

/-- What a builder can be asked for. -/
inductive Operation where
  | keepFields
  | addExpr (e : Expr)
  | addCondition (e : Expr)
  | addColumn (entry : Nat) (name : String)
  | addColumnExpr (e : Expr) (name : String)
  | setColumns (entries : List Nat)
  | clearColumns
  | clearCondition

/-- The expression that comes with an operation. -/
def Operation.expr? : Operation → Option Expr
  | addExpr e | addCondition e | addColumnExpr e _ => some e
  | _ => none

/-- The builder after an operation; a condition that is refused leaves it as it is. -/
def Operation.apply (b : Builder) : Operation → Builder
  | keepFields => b.keepFields
  | addExpr e => (b.addExpr e).2
  | addCondition e =>
    match b.addCondition e with
    | .ok b' => b'
    | .error _ => b
  | addColumn entry name => b.addColumn entry name
  | addColumnExpr e name => b.addColumnExpr e name
  | setColumns entries => b.setColumns entries
  | clearColumns => b.clearColumns
  | clearCondition => b.clearCondition

/-- The references of the expression are to entries that have been registered. -/
def Admits (b : Builder) (e : Expr) : Prop := ∀ i ∈ e.temps, i < b.entries.length

/-- The builder comes from another one by operations whose expressions refer to entries. -/
inductive Reached (start : Builder) : Builder → Prop where
  | start : Reached start start
  | apply (op : Operation) : Reached start b → (∀ e ∈ op.expr?, b.Admits e) →
      Reached start (op.apply b)

/-- The builder comes from a new one or from that of a program. -/
inductive InUse (b : Builder) : Prop where
  | new : Reached { inputType := rt } b → InUse b
  | ofProgram : Program.Accepted p → Reached (ofProgram p) b → InUse b

/-! ## Steps -/

/-- What operations are made of. -/
inductive Step : Builder → Builder → Prop where
  | register {b : Builder} : e.Flat b.entries.length → Step b (b.register e).2
  | columns {b : Builder} (cs : List Column) : Step b { b with columns := cs }
  | condition {b : Builder} {c : Option Nat} : (∀ i ∈ c, i < b.entries.length) →
      Step b { b with condition := c }

abbrev Steps : Builder → Builder → Prop := Relation.ReflTransGen Step

/-- The table is in step with the entries, and the condition is one of them. -/
structure Sound (b : Builder) : Prop where
  indexed : b.Indexed
  condition : ∀ i ∈ b.condition, i < b.entries.length

/-- Each entry is the one that its text leads to. -/
def Distinct (b : Builder) : Prop :=
  ∀ i e, b.entries[i]? = some e → b.digests.lookup e.text = some i

variable {b b' start : Builder} {e : Expr} {p : Program}

theorem Step.sound (h : Step b b') (hb : b.Sound) : b'.Sound := by
  cases h with
  | register hf =>
    refine ⟨register_indexed hb.indexed hf, fun i hi => (b.register_grows _).lt ?_⟩
    rw [(b.register_grows _).condition] at hi
    exact hb.condition i hi
  | columns => exact ⟨hb.indexed, hb.condition⟩
  | condition hc => exact ⟨hb.indexed, hc⟩

theorem Step.distinct (h : Step b b') (hb : b.Distinct) : b'.Distinct := by
  cases h with
  | columns | condition => exact hb
  | @register e hf =>
    have hg := b.register_grows e
    rcases b.register_cases e with ⟨i, -, hr⟩ | ⟨hnew, hr⟩ <;> rw [hr] at hg ⊢
    · exact hb
    · intro i e' hi
      rcases List.getElem?_snoc hi with hi | ⟨rfl, rfl⟩
      · exact hg.lookup _ _ (hb i e' hi)
      · simp

theorem Steps.sound (h : Steps b b') (hb : b.Sound) : b'.Sound := by
  induction h with
  | refl => exact hb
  | tail _ hs ih => exact hs.sound ih

theorem Steps.distinct (h : Steps b b') (hb : b.Distinct) : b'.Distinct := by
  induction h with
  | refl => exact hb
  | tail _ hs ih => exact hs.distinct ih

theorem Distinct.nodup (h : b.Distinct) : b.entries.Nodup := by
  rw [List.nodup_iff_getElem?_ne_getElem?]
  intro i j hij hj heq
  rw [List.getElem?_eq_getElem hj] at heq
  have hi := h i _ heq
  rw [h j _ (List.getElem?_eq_getElem hj)] at hi
  exact hij.ne' (Option.some.inj hi)

/-! ## Operations as steps -/

theorem addExpr_steps (h : b.Indexed) (he : b.Admits e) : Steps b (b.addExpr e).2 := by
  induction e generalizing b with
  | temp i => exact .refl
  | input i => exact .single (.register .input)
  | literal v => exact .single (.register .literal)
  | binary l op r ihl ihr =>
    have hel : b.Admits l := fun j hj => he j (List.mem_append_left _ hj)
    obtain ⟨hl, hlt⟩ := addExpr_indexed h hel
    have her : (b.addExpr l).2.Admits r := fun j hj =>
      (b.addExpr_grows l).lt (he j (List.mem_append_right _ hj))
    obtain ⟨-, hrt⟩ := addExpr_indexed hl her
    exact ((ihl h hel).trans (ihr hl her)).tail
      (.register (.binary ((addExpr_grows _ r).lt hlt) hrt))
  | unary op x ih =>
    obtain ⟨-, hlt⟩ := addExpr_indexed (e := x) h he
    exact (ih h he).tail (.register (.unary hlt))

theorem addColumnExprs_steps {cols : List (Expr × String)} (h : b.Sound)
    (hcols : ∀ c ∈ cols, c.1.temps = []) : Steps b (b.addColumnExprs cols) := by
  induction cols generalizing b with
  | nil => exact .refl
  | cons c cols ih =>
    obtain ⟨hc, hcols⟩ := List.forall_mem_cons.mp hcols
    have hstep : Steps b (b.addColumnExpr c.1 c.2) :=
      (addExpr_steps (e := c.1) h.indexed (by simp [Admits, hc])).tail (.columns _)
    exact hstep.trans (ih (hstep.sound h) hcols)

/-- A condition that is accepted has been flattened, and is joined with an earlier one. -/
theorem addCondition_steps (h : b.Sound) (he : b.Admits e) (hb : b.addCondition e = .ok b') :
    Steps b b' := by
  have hsteps := addExpr_steps h.indexed he
  obtain ⟨hi, hlt⟩ := addExpr_indexed h.indexed he
  obtain ⟨-, rfl⟩ | ⟨earlier, hc, rfl⟩ := of_addCondition hb
  · exact hsteps.tail (.condition (by simpa using hlt))
  · have hf : (Expr.binary (.temp earlier) .and (.temp (b.addExpr e).1)).Flat
        (b.addExpr e).2.entries.length :=
      .binary ((b.addExpr_grows e).lt (h.condition earlier hc)) hlt
    exact (hsteps.tail (.register hf)).tail (.condition (by simpa using register_lt hi hf))

/-- Operations are made of steps. -/
theorem Operation.apply_steps (op : Operation) (h : b.Sound) (he : ∀ e ∈ op.expr?, b.Admits e) :
    Steps b (op.apply b) := by
  cases op with
  | keepFields =>
    have hclear : Steps b b.clearColumns := .single (.columns _)
    refine hclear.trans (addColumnExprs_steps (hclear.sound h) fun c hc => ?_)
    obtain ⟨_, -, rfl⟩ := List.mem_map.mp hc
    rfl
  | addExpr e => exact addExpr_steps h.indexed (he e rfl)
  | addCondition e =>
    rw [apply]
    cases hb : b.addCondition e with
    | ok b' => exact addCondition_steps h (he e rfl) hb
    | error => exact .refl
  | addColumn | setColumns | clearColumns => exact .single (.columns _)
  | addColumnExpr e name => exact (addExpr_steps h.indexed (he e rfl)).tail (.columns _)
  | clearCondition => exact .single (.condition (by simp))

theorem Reached.steps (h : Reached start b) (hs : start.Sound) : Steps start b := by
  induction h with
  | start => exact .refl
  | apply op _ he ih => exact ih.trans (op.apply_steps (ih.sound hs) he)

/-! ## Reached builders -/

theorem sound_new (rt : RowType) : Sound { inputType := rt } := ⟨indexed_new rt, by simp⟩

theorem distinct_new (rt : RowType) : Distinct { inputType := rt } := by simp [Distinct]

/-- The builder of a program starts from what the program has. -/
theorem sound_ofProgram (h : p.Valid) : (ofProgram p).Sound := by
  obtain ⟨ts, hts, hframed⟩ := Program.valid_iff.mp h
  refine ⟨Digests.indexes_of hts.flatEntries, fun i hi => ?_⟩
  obtain ⟨t, ht, -⟩ := hframed.condition i hi
  exact hts.lt_of_type ht

theorem InUse.sound (h : b.InUse) : b.Sound := by
  cases h with
  | new h => exact (h.steps (sound_new _)).sound (sound_new _)
  | ofProgram hp h =>
    have hs := sound_ofProgram hp.valid
    exact (h.steps hs).sound hs

/-- Flattening an expression gives an entry that fully expands to the expression with its references
expanded. -/
theorem addExpr_expandWithin (h : b.Indexed) (he : b.Admits e) :
    ∃ t, e.substM (fun k => .ok (.input k)) (Program.expandWithin b.entries b.entries.length) =
        .ok t ∧
      Program.expandWithin (b.addExpr e).2.entries (b.addExpr e).2.entries.length
        (b.addExpr e).1 = .ok t := by
  obtain ⟨t, ht⟩ := Expr.exists_substM_eq_ok fun j hj =>
    let ⟨t, ht⟩ := h.flat.exists_expandWithin (he j hj)
    ⟨t, Program.expandWithin_mono ht (he j hj)⟩
  obtain ⟨g, hg, rfl⟩ := Expr.substM_eq_ok_iff.mp ht
  exact ⟨_, ht, (addExpr_expands h fun j hj => ⟨_, hg j hj⟩).expandWithin_length
    (addExpr_indexed h he).1.flat⟩

/-- Flattening loses nothing and shares soundly. In a builder in use, an expression whose references
are to entries gets an entry that fully expands to it, all entries keep their places, and
flattening it again finds that entry and changes nothing. No entry of a builder that was new is
there twice, where literals are one if their floats have the same bits or are both `NaN`. And the
builder of a program gives the program back. -/
theorem addExpr_faithful :
    (∀ (b : Builder) e, b.InUse → b.Admits e → ∃ i b' t, b.addExpr e = (i, b') ∧
      e.substM (fun k => .ok (.input k)) (Program.expandWithin b.entries b.entries.length) =
        .ok t ∧
      Program.expandWithin b'.entries b'.entries.length i = .ok t ∧
      b.entries <+: b'.entries ∧ b'.addExpr e = (i, b')) ∧
    (∀ rt b, Reached { inputType := rt } b → b.entries.Nodup) ∧
    ∀ p, Program.Accepted p → (ofProgram p).program = .ok p := by
  refine ⟨fun b e hb he => ?_, fun rt b hb => ?_, fun p hp => hp.valid⟩
  · obtain ⟨t, ht, hexpand⟩ := addExpr_expandWithin hb.sound.indexed he
    exact ⟨_, _, t, rfl, ht, hexpand, (b.addExpr_grows e).entries, addExpr_again (.refl _)⟩
  · exact ((hb.steps (sound_new rt)).distinct (distinct_new rt)).nodup

/-- Has a string that is spelt like an operation. -/
def lookalikes : Builder :=
  [.addExpr (.literal (.float 1.0)), .addExpr (.literal (.string "+($t0, $t2)"))].foldl
    Operation.apply { inputType := [] }

theorem lookalikes_reached : Reached { inputType := [] } lookalikes := by
  refine .apply (.addExpr (.literal (.string "+($t0, $t2)"))) (.apply (.addExpr _) .start ?_) ?_
  all_goals
    rintro _ ⟨⟩
    exact fun _ h => nomatch h

/-- The sum of the float and the integer is no entry yet, and the integer is not the float. -/
def lookalike : Expr := .binary (.temp 0) .add (.literal (.int 1))

theorem addExpr_faithful_lookalikes :
    (∃ b', lookalikes.addExpr lookalike = (3, b') ∧
      Program.expandWithin b'.entries b'.entries.length 3 =
        .ok (.binary (.literal (.float 1.0)) .add (.literal (.int 1))) ∧
      lookalikes.entries <+: b'.entries ∧ b'.addExpr lookalike = (3, b')) ∧
    lookalikes.entries.Nodup ∧ (ofProgram Program.ratios).program = .ok Program.ratios := by
  obtain ⟨hadd, hnew, hprogram⟩ := addExpr_faithful
  refine ⟨?_, hnew _ _ lookalikes_reached, hprogram _ Program.ratios_accepted⟩
  have hadmits : lookalikes.Admits lookalike := by
    unfold Admits
    decide +kernel
  obtain ⟨i, b', t, heq, ht, hexpand, hprefix, hagain⟩ :=
    hadd _ lookalike (.new lookalikes_reached) hadmits
  have hi : (lookalikes.addExpr lookalike).1 = 3 := by decide +kernel
  obtain rfl : i = 3 := by rw [← hi, heq]
  obtain rfl := Except.ok.inj ht
  exact ⟨b', heq, hexpand, hprefix, hagain⟩

end Builder
end RelPlan
