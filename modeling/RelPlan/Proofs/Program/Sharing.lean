import RelPlan.Proofs.Program.Digest
import RelPlan.Proofs.Program.Expansion

/-! # Sharing entries

A builder only ever appends entries, so what has been registered keeps its place, its expansion and
its type, and is found again (`Builder.Grows`). As long as the table of texts indexes the entries,
flattening an expression gives an entry that expands to it (`Builder.addExpr_expands`), and a
builder whose columns and condition expand to well-typed expressions gives a program that means them
(`Builder.exists_program`). -/

namespace RelPlan

open Program (Typed Expands)

namespace Builder

variable {b b' b'' : Builder} {e : Expr} {ts : List ScalarType}

/-- The entries can be found, each by its text. -/
abbrev Indexed (b : Builder) : Prop := b.digests.Indexes b.entries

/-- The builder has well-typed entries. -/
def WellTyped (b : Builder) : Prop := b.Indexed ∧ ∃ ts, Typed b.inputType b.entries ts

theorem indexed_new (rt : RowType) : Indexed { inputType := rt } := .nil

theorem wellTyped_new (rt : RowType) : WellTyped { inputType := rt } := ⟨.nil, [], .nil⟩

/-- One builder comes from the other by appending entries. -/
structure Grows (b b' : Builder) : Prop where
  inputType : b'.inputType = b.inputType
  columns : b'.columns = b.columns
  condition : b'.condition = b.condition
  entries : b.entries <+: b'.entries
  lookup : ∀ text, ∀ i ∈ b.digests.lookup text, b'.digests.lookup text = some i

theorem Grows.refl (b : Builder) : b.Grows b :=
  ⟨rfl, rfl, rfl, List.prefix_refl _, fun _ _ => id⟩

theorem Grows.trans (h : b.Grows b') (h' : b'.Grows b'') : b.Grows b'' :=
  ⟨h'.inputType.trans h.inputType, h'.columns.trans h.columns, h'.condition.trans h.condition,
    h.entries.trans h'.entries, fun text i hi => h'.lookup text i (h.lookup text i hi)⟩

theorem Grows.expands (h : b.Grows b') (he : Expands b.entries i t) : Expands b'.entries i t :=
  he.of_initial h.entries

theorem Grows.expands_condition {c : Option Expr} (h : b.Grows b')
    (hc : Option.Rel (Expands b.entries) b.condition c) :
    Option.Rel (Expands b'.entries) b'.condition c := by
  rw [h.condition]
  generalize b.condition = i at hc ⊢
  cases hc with
  | none => exact .none
  | some hx => exact .some (h.expands hx)

theorem Grows.lt (h : b.Grows b') (hi : i < b.entries.length) : i < b'.entries.length :=
  Nat.lt_of_lt_of_le hi h.entries.length_le

/-! ## Registering -/

theorem register_cases (b : Builder) (e : Expr) :
    (∃ i, b.digests.lookup e.text = some i ∧ b.register e = (i, b)) ∨
      b.digests.lookup e.text = none ∧ b.register e =
        (b.entries.length, { b with
          entries := b.entries ++ [e], digests := (e.text, b.entries.length) :: b.digests }) := by
  unfold register
  cases b.digests.lookup e.text with
  | some i => exact .inl ⟨i, rfl, rfl⟩
  | none => exact .inr ⟨rfl, rfl⟩

theorem register_grows (b : Builder) (e : Expr) : b.Grows (b.register e).2 := by
  rcases b.register_cases e with ⟨i, -, h⟩ | ⟨hnew, h⟩ <;> rw [h]
  · exact .refl b
  · refine ⟨rfl, rfl, rfl, List.prefix_append .., fun text i hi => ?_⟩
    rw [List.lookup_cons]
    split
    case h_1 heq =>
      rw [eq_of_beq heq, hnew] at hi
      cases hi
    case h_2 => exact hi

/-- The text of a registered entry leads to its position. -/
theorem lookup_register (b : Builder) (e : Expr) :
    (b.register e).2.digests.lookup e.text = some (b.register e).1 := by
  rcases b.register_cases e with ⟨i, hi, h⟩ | ⟨-, h⟩ <;> rw [h]
  · exact hi
  · simp

theorem register_indexed (h : b.Indexed) (hf : e.Flat b.entries.length) :
    (b.register e).2.Indexed := by
  rcases b.register_cases e with ⟨i, -, hr⟩ | ⟨hnew, hr⟩ <;> rw [hr]
  · exact h
  · exact h.snoc hf hnew

theorem register_getElem? (h : b.Indexed) (hf : e.Flat b.entries.length) :
    (b.register e).2.entries[(b.register e).1]? = some e :=
  (register_indexed h hf).getElem?_of_lookup hf (b.lookup_register e)

theorem register_lt (h : b.Indexed) (hf : e.Flat b.entries.length) :
    (b.register e).1 < (b.register e).2.entries.length :=
  (List.getElem?_eq_some_iff.mp (register_getElem? h hf)).1

theorem lt_of_register (h : i < (b.register e).2.entries.length) :
    i < b.entries.length ∨ i = (b.register e).1 := by
  rcases b.register_cases e with ⟨j, -, hr⟩ | ⟨-, hr⟩ <;> rw [hr] at h ⊢
  · exact .inl h
  · rw [List.length_append] at h
    exact Nat.lt_succ_iff_lt_or_eq.mp h

theorem register_typed (h : b.Indexed) (hts : Typed b.inputType b.entries ts)
    (hf : e.Flat b.entries.length) (he : e.type b.inputType ts = .ok t) :
    ∃ ts', Typed (b.register e).2.inputType (b.register e).2.entries ts' ∧ ts <+: ts' ∧
      ts'[(b.register e).1]? = some t := by
  rcases b.register_cases e with ⟨i, hi, hr⟩ | ⟨-, hr⟩ <;> rw [hr]
  · obtain ⟨u, hu, heu⟩ := hts.type (h.getElem?_of_lookup hf hi)
    obtain rfl : u = t := Except.ok.inj (heu.symm.trans he)
    exact ⟨ts, hts, List.prefix_refl _, hu⟩
  · exact ⟨ts ++ [t], hts.snoc hf he, List.prefix_append .., by simp [← hts.length_eq]⟩

/-! ## Flattening -/

theorem addExpr_grows (b : Builder) (e : Expr) : b.Grows (b.addExpr e).2 := by
  induction e generalizing b with
  | temp i => exact .refl b
  | input | literal => exact b.register_grows _
  | binary l op r ihl ihr =>
    exact (ihl b).trans ((ihr _).trans (register_grows _ _))
  | unary op x ih => exact (ih b).trans (register_grows _ _)

/-- An expression whose references are to entries is flattened into entries. -/
theorem addExpr_indexed (h : b.Indexed) (he : ∀ j ∈ e.temps, j < b.entries.length) :
    (b.addExpr e).2.Indexed ∧ (b.addExpr e).1 < (b.addExpr e).2.entries.length := by
  induction e generalizing b with
  | temp i => exact ⟨h, he i List.mem_cons_self⟩
  | input i => exact ⟨register_indexed h .input, register_lt h .input⟩
  | literal v => exact ⟨register_indexed h .literal, register_lt h .literal⟩
  | binary l op r ihl ihr =>
    simp only [Expr.temps, List.mem_append] at he
    obtain ⟨hl, hlt⟩ := ihl h fun j hj => he j (.inl hj)
    obtain ⟨hr, hrt⟩ := ihr hl fun j hj => (b.addExpr_grows l).lt (he j (.inr hj))
    have hf : (Expr.binary (.temp _) op (.temp _)).Flat _ :=
      .binary ((addExpr_grows _ r).lt hlt) hrt
    exact ⟨register_indexed hr hf, register_lt hr hf⟩
  | unary op x ih =>
    obtain ⟨hx, hlt⟩ := ih h he
    exact ⟨register_indexed hx (.unary hlt), register_lt hx (.unary hlt)⟩

theorem register_again (h : (b.register e).2.Grows b') :
    b'.register e = ((b.register e).1, b') := by
  have hi := h.lookup e.text _ (b.lookup_register e)
  simp only [register, hi]

/-- An expression that has been flattened is found entry by entry, whatever came after it. -/
theorem addExpr_again (h : (b.addExpr e).2.Grows b') :
    b'.addExpr e = ((b.addExpr e).1, b') := by
  induction e generalizing b b' with
  | temp i => rfl
  | input | literal => exact register_again h
  | binary l op r ihl ihr =>
    have hr := (register_grows _ _).trans h
    simp only [addExpr, ihl ((addExpr_grows _ r).trans hr), ihr hr]
    exact register_again h
  | unary op x ih =>
    simp only [addExpr, ih ((register_grows _ _).trans h)]
    exact register_again h

/-- The entry of a flattened expression expands to the expression. -/
theorem addExpr_expands {g : Nat → Expr} (h : b.Indexed)
    (hg : ∀ j ∈ e.temps, Expands b.entries j (g j)) :
    Expands (b.addExpr e).2.entries (b.addExpr e).1 (e.subst .input g) := by
  induction e generalizing b with
  | temp i => exact hg i List.mem_cons_self
  | input i => exact .leaf (register_getElem? h .input) rfl
  | literal v => exact .leaf (register_getElem? h .literal) rfl
  | binary l op r ihl ihr =>
    simp only [Expr.temps, List.mem_append] at hg
    have hl := ihl h fun j hj => hg j (.inl hj)
    have hgr j hj := (b.addExpr_grows l).expands (hg j (.inr hj))
    obtain ⟨hbl, -⟩ := addExpr_indexed h fun j hj => (hg j (.inl hj)).lt
    obtain ⟨hbr, -⟩ := addExpr_indexed hbl fun j hj => (hgr j hj).lt
    have hr := ihr hbl hgr
    have hl := (addExpr_grows (b.addExpr l).2 r).expands hl
    have hgrow := register_grows ((b.addExpr l).2.addExpr r).2
      (.binary (.temp (b.addExpr l).1) op (.temp ((b.addExpr l).2.addExpr r).1))
    exact .binary (register_getElem? hbr (.binary hl.lt hr.lt)) (hgrow.expands hl)
      (hgrow.expands hr)
  | unary op x ih =>
    obtain ⟨hbx, hlt⟩ := addExpr_indexed (e := x) h fun j hj => (hg j hj).lt
    have hgrow := register_grows (b.addExpr x).2 (.unary op (.temp (b.addExpr x).1))
    exact .unary (register_getElem? hbx (.unary hlt)) (hgrow.expands (ih h hg))

theorem addExpr_typed (h : b.Indexed) (hts : Typed b.inputType b.entries ts)
    (he : e.type b.inputType ts = .ok t) :
    ∃ ts', Typed (b.addExpr e).2.inputType (b.addExpr e).2.entries ts' ∧ ts <+: ts' ∧
      ts'[(b.addExpr e).1]? = some t := by
  have hlt {b : Builder} {e : Expr} {ts : List ScalarType} {t : ScalarType}
      (hts : Typed b.inputType b.entries ts) (he : e.type b.inputType ts = .ok t) :
      ∀ j ∈ e.temps, j < b.entries.length := fun j hj =>
    let ⟨_, hj⟩ := Expr.getElem?_of_mem_temps he hj
    hts.lt_of_type hj
  induction e generalizing b ts t with
  | temp i => exact ⟨ts, hts, List.prefix_refl _, Expr.type_temp_eq_ok_iff.mp he⟩
  | input i => exact register_typed h hts .input he
  | literal v => exact register_typed h hts .literal he
  | binary l op r ihl ihr =>
    obtain ⟨tl, hl, he⟩ := Except.bind_eq_ok_iff.mp he
    obtain ⟨tr, hr, he⟩ := Except.bind_eq_ok_iff.mp he
    obtain ⟨ts₁, h₁, hp₁, hi⟩ := ihl h hts hl
    obtain ⟨hb₁, -⟩ := addExpr_indexed h (hlt hts hl)
    have hr₁ : r.type (b.addExpr l).2.inputType ts₁ = .ok tr := by
      rw [(b.addExpr_grows l).inputType]
      exact Expr.type_mono hr (fun _ _ => id) fun _ _ => List.getElem?_of_initial hp₁
    obtain ⟨ts₂, h₂, hp₂, hj⟩ := ihr hb₁ h₁ hr₁
    obtain ⟨hb₂, -⟩ := addExpr_indexed hb₁ (hlt h₁ hr₁)
    have hi := List.getElem?_of_initial hp₂ hi
    obtain ⟨ts₃, h₃, hp₃, hk⟩ := register_typed (t := t)
      (e := .binary (.temp _) op (.temp _)) hb₂ h₂
      (.binary (h₂.lt_of_type hi) (h₂.lt_of_type hj))
      (by simpa [Expr.type, hi, hj] using he)
    exact ⟨ts₃, h₃, hp₁.trans (hp₂.trans hp₃), hk⟩
  | unary op x ih =>
    obtain ⟨tx, hx, he⟩ := Except.bind_eq_ok_iff.mp he
    obtain ⟨ts₁, h₁, hp₁, hi⟩ := ih h hts hx
    obtain ⟨hb₁, -⟩ := addExpr_indexed h (hlt hts hx)
    obtain ⟨ts₂, h₂, hp₂, hk⟩ := register_typed (t := t)
      (e := .unary op (.temp _)) hb₁ h₁ (.unary (h₁.lt_of_type hi))
      (by simpa [Expr.type, hi] using he)
    exact ⟨ts₂, h₂, hp₁.trans hp₂, hk⟩

/-- Flattening an expression that reads no entries gives an entry that expands to it. -/
theorem addExpr_expands_self (h : b.Indexed) (he : e.temps = []) :
    (b.addExpr e).2.Indexed ∧ Expands (b.addExpr e).2.entries (b.addExpr e).1 e := by
  refine ⟨(addExpr_indexed h (by simp [he])).1, ?_⟩
  have := addExpr_expands (e := e) (g := .temp) h (by simp [he])
  rwa [Expr.subst_input_temp] at this

/-- Flattening a well-typed expression that reads no entries. -/
theorem addExpr_closed (h : b.WellTyped) (he : e.type b.inputType [] = .ok t) :
    (b.addExpr e).2.WellTyped ∧ Expands (b.addExpr e).2.entries (b.addExpr e).1 e := by
  obtain ⟨hb, ts, hts⟩ := h
  have he' : e.type b.inputType ts = .ok t := Expr.type_mono he (fun _ _ => id) (by simp)
  obtain ⟨ts', hts', _⟩ := addExpr_typed hb hts he'
  obtain ⟨hindexed, hexp⟩ := addExpr_expands_self hb (Expr.temps_eq_nil he)
  exact ⟨⟨hindexed, ts', hts'⟩, hexp⟩

/-- A condition that is accepted is flattened, and becomes the condition, or is joined to an earlier
one that is another entry. -/
theorem of_addCondition (h : b.addCondition e = .ok b') :
    (∀ earlier ∈ b.condition, earlier = (b.addExpr e).1) ∧
        b' = { (b.addExpr e).2 with condition := some (b.addExpr e).1 } ∨
      ∃ earlier, b.condition = some earlier ∧
        let joined := (b.addExpr e).2.register (.binary (.temp earlier) .and (.temp (b.addExpr e).1))
        b' = { joined.2 with condition := some joined.1 } := by
  obtain ⟨_, -, h⟩ := Except.bind_eq_ok_iff.mp h
  obtain ⟨_, -, h⟩ := Except.bind_eq_ok_iff.mp h
  split at h
  case isFalse => cases h
  case isTrue =>
    obtain rfl := Except.ok.inj h
    rw [(b.addExpr_grows e).condition]
    cases b.condition with
    | none => exact .inl ⟨by simp, rfl⟩
    | some earlier =>
      simp only [conjunction]
      split
      case isTrue heq => exact .inl ⟨by simpa using heq, rfl⟩
      case isFalse => exact .inr ⟨earlier, rfl, rfl⟩

/-! ## Programs -/

/-- A builder with well-typed columns and condition gives a program that means them. -/
theorem exists_program (out : RowType) {c : Option Expr} {es : List Expr} (h : b.WellTyped)
    (hc : Option.Rel (Expands b.entries) b.condition c)
    (hct : Program.ConditionTyped b.inputType c)
    (hes : List.Forall₂ (fun (c : Column) t => Expands b.entries c.entry t) b.columns es)
    (hest : Program.ColumnsTyped b.inputType es out.types)
    (hnames : b.columns.map Column.name = out.names) :
    ∃ p, b.program = .ok p ∧ p.Valid ∧ p.inputType = b.inputType ∧ p.outputType = out ∧
      p.Means c es := by
  obtain ⟨-, ts, hts⟩ := h
  let p : Program := ⟨b.inputType, b.entries, b.columns, b.condition, out⟩
  have hf : p.Framed ts := by
    constructor
    · show List.Forall₂ _ b.columns out
      generalize b.columns = columns at hes hnames
      rw [RowType.types] at hest
      rw [RowType.names] at hnames
      induction hes generalizing out with
      | nil => cases out <;> simp_all
      | cons hx _ ih =>
        cases out with
        | nil => cases hest
        | cons f out =>
          cases hest with
          | cons ht hest =>
            obtain ⟨u, hu, htu⟩ := hts.type_of_expands hx
            obtain rfl : u = f.type := Except.ok.inj (htu.symm.trans ht)
            simp only [List.map_cons, List.cons.injEq] at hnames
            exact .cons ⟨hu, hnames.1.symm⟩ (ih out hest hnames.2)
    · intro i hi
      have hi : b.condition = some i := hi
      rw [hi] at hc
      cases hc with
      | some hx =>
        obtain ⟨t, ht, hcond⟩ := hct _ rfl
        obtain ⟨u, hu, htu⟩ := hts.type_of_expands hx
        exact ⟨u, hu, Except.ok.inj (htu.symm.trans ht) ▸ hcond⟩
  have hp : b.program = .ok p := Program.check_eq_ok_iff.mpr ⟨rfl, rfl, rfl, rfl, ts, hts, hf⟩
  exact ⟨p, hp, Program.valid_iff.mpr ⟨ts, hts, hf⟩, rfl, rfl, hc, hes⟩

end Builder
end RelPlan
