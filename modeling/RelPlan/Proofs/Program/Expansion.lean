import RelPlan.Proofs.Program.Validity

/-! # Expansion

An entry stands for one expression over the input fields, its expansion. `Expands` says which,
without a bound on the depth of references; it is kept when entries are appended. In a valid program
every entry expands, to an expression of its type (`Program.Typed.expands`), and
`Program.Means` collects the expansions of the condition and the columns. -/

namespace RelPlan
namespace Program

variable {rt : RowType} {es es' : List Expr} {ts : List ScalarType} {i : Nat}

theorem expandWithin_mono (h : expandWithin es d i = .ok t) (hd : d ≤ d') :
    expandWithin es d' i = .ok t := by
  induction d generalizing d' i t with
  | zero => cases h
  | succ d ih =>
    obtain ⟨d', rfl⟩ : ∃ n, d' = n + 1 := ⟨d' - 1, by omega⟩
    simp only [expandWithin] at h ⊢
    cases he : es[i]? with
    | none => simp [he] at h
    | some e =>
      simp only [he] at h ⊢
      obtain ⟨g, hg, rfl⟩ := Expr.substM_eq_ok_iff.mp h
      exact Expr.substM_eq_ok fun j hj => ih (hg j hj) (by omega)

/-- The entry `i` expands to `t`. -/
def Expands (entries : List Expr) (i : Nat) (t : Expr) : Prop :=
  ∃ depth, expandWithin entries depth i = .ok t

theorem Expands.unique (h : Expands es i t) (h' : Expands es i t') : t = t' := by
  obtain ⟨d, h⟩ := h
  obtain ⟨d', h'⟩ := h'
  have := (expandWithin_mono h (Nat.le_max_left d d')).symm.trans
    (expandWithin_mono h' (Nat.le_max_right d d'))
  exact Except.ok.inj this

theorem Expands.intro {e : Expr} {g : Nat → Expr} (hi : es[i]? = some e)
    (hg : ∀ j ∈ e.temps, Expands es j (g j)) : Expands es i (e.subst .input g) := by
  have ⟨d, hd⟩ : ∃ d, ∀ j ∈ e.temps, expandWithin es d j = .ok (g j) := by
    generalize e.temps = js at hg
    induction js with
    | nil => exact ⟨0, by simp⟩
    | cons j js ih =>
      obtain ⟨d, hd⟩ := ih fun k hk => hg k (List.mem_cons_of_mem _ hk)
      obtain ⟨d', hd'⟩ := hg j List.mem_cons_self
      refine ⟨max d d', ?_⟩
      intro k hk
      rcases List.mem_cons.mp hk with rfl | hk
      · exact expandWithin_mono hd' (Nat.le_max_right ..)
      · exact expandWithin_mono (hd k hk) (Nat.le_max_left ..)
  refine ⟨d + 1, ?_⟩
  simp only [expandWithin, hi]
  exact Expr.substM_eq_ok hd

theorem Expands.leaf {e : Expr} (hi : es[i]? = some e) (he : e.temps = []) : Expands es i e := by
  have := Expands.intro (g := .temp) hi (by simp [he])
  rwa [Expr.subst_input_temp] at this

theorem Expands.elim (h : Expands es i t) :
    ∃ e g, es[i]? = some e ∧ (∀ j ∈ e.temps, Expands es j (g j)) ∧ t = e.subst .input g := by
  obtain ⟨d, h⟩ := h
  cases d with
  | zero => cases h
  | succ d =>
    simp only [expandWithin] at h
    cases he : es[i]? with
    | none => simp [he] at h
    | some e =>
      simp only [he] at h
      obtain ⟨g, hg, rfl⟩ := Expr.substM_eq_ok_iff.mp h
      exact ⟨e, g, rfl, fun j hj => ⟨d, hg j hj⟩, rfl⟩

theorem Expands.of_initial (hp : es <+: es') (h : Expands es i t) : Expands es' i t := by
  obtain ⟨d, h⟩ := h
  induction d generalizing i t with
  | zero => cases h
  | succ d ih =>
    obtain ⟨e, g, he, hg, rfl⟩ := Expands.elim ⟨d + 1, h⟩
    refine .intro (List.getElem?_of_initial hp he) fun j hj => ih ?_
    simp only [expandWithin, he] at h
    obtain ⟨g', hg', h⟩ := Expr.substM_eq_ok_iff.mp h
    rw [hg' j hj, (hg j hj).unique ⟨d, hg' j hj⟩]

/-- An entry whose references have been moved expands like the original one. Several references may
have moved to one place, where their expansions are the same. -/
theorem Expands.moved (e : Expr) (place : Nat → Nat) (g : Nat → Expr)
    (hi : es[i]? = some (e.subst .input fun j => .temp (place j)))
    (hg : ∀ j ∈ e.temps, Expands es (place j) (g j)) : Expands es i (e.subst .input g) := by
  classical
  let f n := if h : ∃ t, Expands es n t then h.choose else .temp n
  have hf {n t} (h : Expands es n t) : f n = t := by
    have hex : ∃ t, Expands es n t := ⟨t, h⟩
    simp only [f, dif_pos hex]
    exact hex.choose_spec.unique h
  have := Expands.intro (g := f) hi fun n hn => by
    rw [Expr.temps_subst_temp] at hn
    obtain ⟨j, hj, rfl⟩ := List.mem_map.mp hn
    rw [hf (hg j hj)]
    exact hg j hj
  rw [Expr.subst_subst] at this
  rwa [Expr.subst_congr (fun _ _ => rfl) fun j hj => (hf (hg j hj)).symm]

theorem Expands.binary {j k : Nat} (hk : es[k]? = some (.binary (.temp i) op (.temp j)))
    (hl : Expands es i l) (hr : Expands es j r) : Expands es k (.binary l op r) :=
  Expands.moved (.binary (.temp 0) op (.temp 1)) (fun n => if n = 0 then i else j)
    (fun n => if n = 0 then l else r) hk (by simp [Expr.temps, hl, hr])

theorem Expands.unary {k : Nat} (hk : es[k]? = some (.unary op (.temp i))) (hx : Expands es i x) :
    Expands es k (.unary op x) :=
  Expands.moved (.unary op (.temp 0)) (fun _ => i) (fun _ => x) hk (by simp [hx])

theorem Expands.getElem? (h : Expands es i t) : ∃ e, es[i]? = some e :=
  let ⟨e, _, he, _⟩ := h.elim
  ⟨e, he⟩

theorem Expands.lt (h : Expands es i t) : i < es.length :=
  let ⟨_, he⟩ := h.getElem?
  (List.getElem?_eq_some_iff.mp he).1

/-- Every flat entry expands within its position. -/
theorem FlatEntries.exists_expandWithin (h : FlatEntries es) (hi : i < es.length) :
    ∃ t, expandWithin es (i + 1) i = .ok t := by
  induction i using Nat.strongRecOn with
  | ind i ih =>
    have he := List.getElem?_eq_getElem hi
    simp only [expandWithin, he]
    refine Expr.exists_substM_eq_ok fun j hj => ?_
    have hlt : j < i := (h i _ he).lt hj
    obtain ⟨t, ht⟩ := ih j hlt (Nat.lt_trans hlt hi)
    exact ⟨t, expandWithin_mono ht hlt⟩

/-- The references in flat entries are no deeper than there are entries. -/
theorem Expands.expandWithin_length (h : Expands es i t) (hflat : FlatEntries es) :
    Program.expandWithin es es.length i = .ok t := by
  obtain ⟨t', ht'⟩ := hflat.exists_expandWithin h.lt
  rw [h.unique ⟨_, ht'⟩]
  exact expandWithin_mono ht' h.lt

/-- Every typed entry expands within its position, to an expression of its type. -/
theorem Typed.expandWithin (h : Typed rt es ts) (hi : ts[i]? = some u) :
    ∃ t, expandWithin es (i + 1) i = .ok t ∧ t.type rt [] = .ok u := by
  induction i using Nat.strongRecOn generalizing u with
  | ind i ih =>
    obtain ⟨e, he⟩ := h.getElem?_of_type hi
    obtain ⟨u', hu', hf, hu⟩ := h.entry he
    obtain rfl : u' = u := by simpa [hi] using hu'.symm
    have hex : ∀ j ∈ e.temps, ∃ t, Program.expandWithin es i j = .ok t := by
      intro j hj
      have hlt := Nat.lt_trans (hf.lt hj) (List.getElem?_eq_some_iff.mp he).1
      obtain ⟨t, ht⟩ := h.flatEntries.exists_expandWithin hlt
      exact ⟨t, expandWithin_mono ht (hf.lt hj)⟩
    obtain ⟨t, ht⟩ := Expr.exists_substM_eq_ok hex
    obtain ⟨g, hg, rfl⟩ := Expr.substM_eq_ok_iff.mp ht
    refine ⟨e.subst .input g, ?_, ?_⟩
    · simp only [Program.expandWithin, he]
      exact ht
    · apply Expr.type_subst hu (fun j _ v hj => Expr.type_input_eq_ok_iff.mpr hj)
      intro j hmem v hj
      have hlt := hf.lt hmem
      obtain ⟨t, ht, htv⟩ := ih j hlt (List.getElem?_of_initial (List.take_prefix i ts) hj)
      rwa [Except.ok.inj ((hg j hmem).symm.trans (expandWithin_mono ht hlt))]

theorem Typed.expands (h : Typed rt es ts) (hi : ts[i]? = some u) :
    ∃ t, Expands es i t ∧ t.type rt [] = .ok u := by
  obtain ⟨t, ht, hu⟩ := h.expandWithin hi
  exact ⟨t, ⟨_, ht⟩, hu⟩

theorem Typed.type_of_expands (h : Typed rt es ts) (he : Expands es i t) :
    ∃ u, ts[i]? = some u ∧ t.type rt [] = .ok u := by
  obtain ⟨e, hei⟩ := he.getElem?
  obtain ⟨u, hu, _⟩ := h.type hei
  obtain ⟨t', ht', htu⟩ := h.expands hu
  exact ⟨u, hu, he.unique ht' ▸ htu⟩

theorem Typed.expand_eq_ok_iff {p : Program} (h : Typed p.inputType p.entries ts) :
    p.expand i = .ok t ↔ Expands p.entries i t :=
  ⟨fun he => ⟨_, he⟩, fun he => he.expandWithin_length h.flatEntries⟩

/-! ## The meaning of a program -/

/-- The expansions of the condition and of the columns of a program. -/
structure Means (p : Program) (condition : Option Expr) (columns : List Expr) : Prop where
  condition : Option.Rel (Expands p.entries) p.condition condition
  columns : List.Forall₂ (fun (c : Column) t => Expands p.entries c.entry t) p.columns columns

/-- The condition, if there is one, is typed as conditions are. -/
def ConditionTyped (rt : RowType) (c : Option Expr) : Prop :=
  ∀ e ∈ c, ∃ t, e.type rt [] = .ok t ∧ t.isCondition

/-- The columns have these types over the row type. -/
abbrev ColumnsTyped (rt : RowType) (es : List Expr) (ts : List ScalarType) : Prop :=
  List.Forall₂ (fun (e : Expr) t => e.type rt [] = .ok t) es ts

theorem conditionTyped_none {rt : RowType} : ConditionTyped rt none := fun _ h => nomatch h

theorem conditionTyped_some {rt : RowType} {c : Expr} (h : c.type rt [] = .ok t)
    (ht : t.isCondition) : ConditionTyped rt (some c) := by
  rintro e ⟨⟩
  exact ⟨t, h, ht⟩

theorem ConditionTyped.lt {rt : RowType} {c : Option Expr} (h : ConditionTyped rt c) :
    ∀ e ∈ c, ∀ i ∈ e.inputs, i < rt.length := by
  intro e he i hi
  obtain ⟨t, ht, _⟩ := h e he
  exact Expr.lt_of_mem_inputs ht hi

theorem ColumnsTyped.lt {rt : RowType} (h : ColumnsTyped rt es ts) :
    ∀ e ∈ es, ∀ i ∈ e.inputs, i < rt.length := by
  intro e he i hi
  obtain ⟨t, _, ht⟩ := List.Forall₂.exists_of_mem_left h he
  exact Expr.lt_of_mem_inputs ht hi

theorem ConditionTyped.subst {rt rt' : RowType} {c : Option Expr} {σ : Nat → Expr}
    (h : ConditionTyped rt c) (hσ : Expr.Fits rt rt' σ) :
    ConditionTyped rt' (c.map (·.subst σ .temp)) := by
  intro e he
  obtain ⟨x, hx, rfl⟩ := Option.map_eq_some_iff.mp he
  obtain ⟨t, ht, hcond⟩ := h x hx
  exact ⟨t, hσ.type ht, hcond⟩

theorem ColumnsTyped.subst {rt rt' : RowType} {σ : Nat → Expr} (h : ColumnsTyped rt es ts)
    (hσ : Expr.Fits rt rt' σ) : ColumnsTyped rt' (es.map (·.subst σ .temp)) ts := by
  rw [ColumnsTyped, List.forall₂_map_left_iff]
  exact h.imp fun _ _ => hσ.type

/-- The types of a program's meaning over its input fields. -/
structure MeaningTyped (p : Program) (condition : Option Expr) (columns : List Expr) : Prop where
  condition : ConditionTyped p.inputType condition
  columns : ColumnsTyped p.inputType columns p.outputType.types

theorem Valid.exists_means {p : Program} (h : p.Valid) :
    ∃ c es, p.Means c es ∧ p.MeaningTyped c es := by
  obtain ⟨ts, hts, hf⟩ := valid_iff.mp h
  have ⟨c, hc, hct⟩ : ∃ c, Option.Rel (Expands p.entries) p.condition c ∧
      ∀ e ∈ c, ∃ t, e.type p.inputType [] = .ok t ∧ t.isCondition := by
    cases hp : p.condition with
    | none => exact ⟨none, .none, by simp⟩
    | some i =>
      obtain ⟨u, hu, hcond⟩ := hf.condition i hp
      obtain ⟨t, ht, htu⟩ := hts.expands hu
      exact ⟨some t, .some ht, by simpa using ⟨u, htu, hcond⟩⟩
  have ⟨es, hes, het⟩ : ∃ es, List.Forall₂ (fun (c : Column) t => Expands p.entries c.entry t)
      p.columns es ∧ List.Forall₂ (fun (e : Expr) t => e.type p.inputType [] = .ok t) es
        p.outputType.types := by
    have hcols := hf.columns
    generalize p.columns = columns, p.outputType = out at hcols ⊢
    induction hcols with
    | nil => exact ⟨[], .nil, .nil⟩
    | cons hcf _ ih =>
      obtain ⟨es, hes, het⟩ := ih
      obtain ⟨t, ht, htu⟩ := hts.expands hcf.1
      exact ⟨t :: es, .cons ht hes, .cons htu het⟩
  exact ⟨c, es, ⟨hc, hes⟩, ⟨hct, het⟩⟩

theorem Means.unique {p : Program} {c c' : Option Expr} {es es' : List Expr} (h : p.Means c es)
    (h' : p.Means c' es') : c = c' ∧ es = es' := by
  constructor
  · have hc := h.condition
    have hc' := h'.condition
    cases hp : p.condition <;> rw [hp] at hc hc' <;> cases hc <;> cases hc'
    · rfl
    · rename_i hx _ hy
      rw [hx.unique hy]
  · exact List.right_unique_forall₂' (fun _ _ _ hx hy => hx.unique hy) h.columns h'.columns

theorem Valid.means_typed {p : Program} {c : Option Expr} {es : List Expr} (h : p.Valid)
    (hm : p.Means c es) : p.MeaningTyped c es := by
  obtain ⟨c', es', hm', ht⟩ := h.exists_means
  obtain ⟨rfl, rfl⟩ := hm.unique hm'
  exact ht

theorem Means.expandedCondition {p : Program} {c : Option Expr} {es : List Expr} (hp : p.Valid)
    (h : p.Means c es) : p.expandedCondition = .ok c := by
  obtain ⟨ts, hts, _⟩ := valid_iff.mp hp
  have hc := h.condition
  rw [Program.expandedCondition]
  cases hp : p.condition <;> rw [hp] at hc <;> cases hc
  · rfl
  · rename_i hx
    simp [hts.expand_eq_ok_iff.mpr hx]

theorem Means.expandedColumns {p : Program} {c : Option Expr} {es : List Expr} (hp : p.Valid)
    (h : p.Means c es) : p.expandedColumns = .ok (es.zip (p.columns.map Column.name)) := by
  obtain ⟨ts, hts, _⟩ := valid_iff.mp hp
  have hcols := h.columns
  rw [Program.expandedColumns, List.mapM_eq_ok_iff]
  clear h
  generalize p.columns = columns at hcols ⊢
  induction hcols with
  | nil => exact .nil
  | cons hx _ ih => exact .cons (by simp [hts.expand_eq_ok_iff.mpr hx]) ih

end Program
end RelPlan
