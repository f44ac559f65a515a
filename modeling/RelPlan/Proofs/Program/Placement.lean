import RelPlan.Program.Merge
import RelPlan.Proofs.Program.Sharing

/-! # Moving entries

Copying entries into another builder keeps a table of where each of them has gone. The invariant of
the two loops that do so, `Placed`, says that an entry's place expands to what the entry expands to,
with the input fields replaced by the expressions `σ` that stand for them. -/

namespace RelPlan
namespace Program

open Builder (Grows)

variable {rt : RowType} {es todo : List Expr} {ts : List ScalarType} {b : Builder} {e e' : Expr}
  {places : Placement} {σ : Nat → Expr} {want : Nat → Prop} {i j : Nat}

/-! ## Places -/

theorem Placement.find_eq_ok_iff : places.find i = .ok j ↔ places[i]? = some (some j) := by
  unfold Placement.find
  split
  · rename_i h; simp [h]
  · rename_i h; simpa using fun hj => h _ hj

theorem Placement.find_append_left (h : places.find i = .ok j) (more : Placement) :
    Placement.find (places ++ more) i = .ok j := by
  rw [find_eq_ok_iff] at h ⊢
  exact List.getElem?_of_initial (List.prefix_append ..) h

theorem Placement.lt_of_find (h : places.find i = .ok j) : i < places.length :=
  (List.getElem?_eq_some_iff.mp (find_eq_ok_iff.mp h)).1

theorem Placement.find_snoc_iff {x : Option Nat} :
    Placement.find (places ++ [x]) i = .ok j ↔
      places.find i = .ok j ∨ i = places.length ∧ x = some j := by
  simp only [find_eq_ok_iff]
  constructor
  · exact List.getElem?_snoc
  · rintro (h | ⟨rfl, rfl⟩)
    · exact List.getElem?_of_initial (List.prefix_append ..) h
    · exact List.getElem?_concat_length

theorem Placement.move_eq_ok_iff :
    places.move e = .ok e' ↔
      ∃ g : Nat → Nat, (∀ k ∈ e.temps, places.find k = .ok (g k)) ∧
        e' = e.subst .input fun k => .temp (g k) := by
  rw [move, Expr.substM_eq_ok_iff]
  constructor
  · rintro ⟨f, hf, rfl⟩
    let g k := (places.find k).toOption.getD k
    have hg : ∀ k ∈ e.temps, places.find k = .ok (g k) ∧ f k = .temp (g k) := by
      intro k hk
      obtain ⟨j, hj, htemp⟩ := Except.bind_eq_ok_iff.mp (hf k hk)
      have hgk : g k = j := by simp [g, hj, Except.toOption]
      exact ⟨hgk ▸ hj, hgk ▸ (Except.ok.inj htemp).symm⟩
    exact ⟨g, fun k hk => (hg k hk).1, Expr.subst_congr (fun _ _ => rfl) fun k hk => (hg k hk).2⟩
  · rintro ⟨g, hg, rfl⟩
    exact ⟨_, fun k hk => by rw [hg k hk]; rfl, rfl⟩

theorem Placement.move_append_left (h : places.move e = .ok e') (more : Placement) :
    Placement.move (places ++ more) e = .ok e' := by
  obtain ⟨g, hg, rfl⟩ := move_eq_ok_iff.mp h
  exact move_eq_ok_iff.mpr ⟨g, fun k hk => find_append_left (hg k hk) more, rfl⟩

/-- Each wanted entry so far has a place, which expands to what the entry expands to. -/
def Placed (σ : Nat → Expr) (es : List Expr) (want : Nat → Prop) (b : Builder)
    (places : Placement) : Prop :=
  ∀ i < places.length, want i →
    ∃ j, places.find i = .ok j ∧ ∀ t, Expands es i t → Expands b.entries j (t.subst σ .temp)

theorem Placed.grow {b' : Builder} (h : Placed σ es want b places) (hg : Grows b b') :
    Placed σ es want b' places := by
  intro i hi hw
  obtain ⟨j, hj, he⟩ := h i hi hw
  exact ⟨j, hj, fun t ht => hg.expands (he t ht)⟩

theorem Placed.skip (h : Placed σ es want b places) (hw : ¬ want places.length) :
    Placed σ es want b (places ++ [none]) := by
  intro i hi hwi
  have hlt : i < places.length := by
    have : i ≠ places.length := fun heq => hw (heq ▸ hwi)
    rw [List.length_append, List.length_singleton] at hi
    omega
  obtain ⟨j, hj, he⟩ := h i hlt hwi
  exact ⟨j, Placement.find_append_left hj _, he⟩

theorem Placed.push (h : Placed σ es want b places)
    (he : ∀ t, Expands es places.length t → Expands b.entries j (t.subst σ .temp)) :
    Placed σ es want b (places ++ [some j]) := by
  intro i hi hwi
  rw [List.length_append, List.length_singleton] at hi
  rcases Nat.lt_succ_iff_lt_or_eq.mp hi with hlt | rfl
  · obtain ⟨k, hk, hek⟩ := h i hlt hwi
    exact ⟨k, Placement.find_append_left hk _, hek⟩
  · exact ⟨j, Placement.find_snoc_iff.mpr (.inr ⟨rfl, rfl⟩), he⟩

/-- The next entry, whose references have places, is moved and registered. -/
theorem Placed.step (hes : Typed rt es ts) (hi : es[places.length]? = some e)
    (hw : ∀ k ∈ e.temps, want k) (hb : b.WellTyped) (hf : Expr.Fits rt b.inputType σ)
    (h : Placed σ es want b places) (hin : ∀ k ∈ e.inputs, σ k = .input k) :
    ∃ e', places.move e = .ok e' ∧ (b.register e').2.WellTyped ∧
      Placed σ es want (b.register e').2 (places ++ [some (b.register e').1]) := by
  obtain ⟨hbi, tsb, htb⟩ := hb
  have hflat := hes.flat hi
  have hplace : ∀ k ∈ e.temps, ∃ j, places.find k = .ok j ∧
      ∀ t, Expands es k t → Expands b.entries j (t.subst σ .temp) :=
    fun k hk => h k (hflat.lt hk) (hw k hk)
  obtain ⟨e', hmove⟩ : ∃ e', places.move e = .ok e' := by
    refine Expr.exists_substM_eq_ok fun k hk => ?_
    obtain ⟨j, hj, -⟩ := hplace k hk
    exact ⟨.temp j, by rw [hj]; rfl⟩
  obtain ⟨place, hfind, rfl⟩ := Placement.move_eq_ok_iff.mp hmove
  have hexp : ∀ k ∈ e.temps, ∀ t, Expands es k t →
      Expands b.entries (place k) (t.subst σ .temp) := by
    intro k hk
    obtain ⟨j, hj, hej⟩ := hplace k hk
    rwa [Except.ok.inj ((hfind k hk).symm.trans hj)]
  obtain ⟨u, hu, heu⟩ := hes.type hi
  -- Places have the types of what is moved there, since types are those of expansions.
  have htype : ∀ k ∈ e.temps, ∀ v, ts[k]? = some v → tsb[place k]? = some v := by
    intro k hk v hv
    obtain ⟨t, ht, htv⟩ := hes.expands hv
    obtain ⟨v', hv', htv'⟩ := htb.type_of_expands (hexp k hk t ht)
    rw [hf.type htv] at htv'
    rwa [Except.ok.inj htv']
  have hlt : ∀ k ∈ e.temps, place k < b.entries.length := by
    intro k hk
    obtain ⟨v, hv⟩ := Expr.getElem?_of_mem_temps heu hk
    rw [← htb.length_eq]
    exact (List.getElem?_eq_some_iff.mp (htype k hk v hv)).1
  have hty : (e.subst .input fun k => .temp (place k)).type b.inputType tsb = .ok u := by
    refine Expr.type_subst heu (fun k hk v hv => ?_) fun k hk v hv =>
      Expr.type_temp_eq_ok_iff.mpr (htype k hk v hv)
    have := hf k v hv
    rw [hin k hk, Expr.type_input_eq_ok_iff] at this
    exact Expr.type_input_eq_ok_iff.mpr this
  have hflat' := hflat.subst_temp hlt
  obtain ⟨ts', ht', _⟩ := Builder.register_typed hbi htb hflat' hty
  refine ⟨_, hmove, ⟨Builder.register_indexed hbi hflat', ts', ht'⟩,
    (h.grow (Builder.register_grows ..)).push ?_⟩
  intro t ht
  obtain ⟨e₀, g, he₀, hg, rfl⟩ := ht.elim
  obtain rfl : e₀ = e := Option.some.inj (he₀.symm.trans hi)
  rw [Expr.subst_subst]
  have := Expands.moved e₀ place (fun k => (g k).subst σ .temp)
    (Builder.register_getElem? hbi hflat') fun k hk =>
      (Builder.register_grows b _).expands (hexp k hk _ (hg k hk))
  have hsubst : e₀.subst σ (fun k => (g k).subst σ .temp) =
      e₀.subst .input fun k => (g k).subst σ .temp := Expr.subst_congr hin fun _ _ => rfl
  exact hsubst ▸ this

/-! ## Copying all entries -/

private theorem copyFrom_todo {column : Nat → Option Nat} (hes : Typed rt es ts)
    (htodo : es.drop places.length = todo) (hlen : places.length ≤ es.length)
    (hb : b.WellTyped) (hf : Expr.Fits rt b.inputType σ) (h : Placed σ es (fun _ => True) b places)
    (hsome : ∀ k j, column k = some j → Expands b.entries j (σ k))
    (hnone : ∀ k u, rt.type? k = some u → column k = none → σ k = .input k) :
    ∃ b' places', copyFrom column b places todo = .ok (b', places') ∧ b.Grows b' ∧
      b'.WellTyped ∧ places'.length = es.length ∧ Placed σ es (fun _ => True) b' places' := by
  induction todo generalizing b places with
  | nil =>
    have : es.length ≤ places.length := List.drop_eq_nil_iff.mp htodo
    exact ⟨b, places, rfl, .refl b, hb, by omega, h⟩
  | cons e todo ih =>
    obtain ⟨hi, hnext⟩ := List.of_drop_eq_cons htodo
    have hlt : places.length < es.length := (List.getElem?_eq_some_iff.mp hi).1
    have hdrop {x} : es.drop (places ++ [some x]).length = todo := by
      rwa [List.length_append, List.length_singleton]
    simp only [copyFrom]
    cases hc : e.input?.bind column with
    | some j =>
      obtain ⟨k, hk, hj⟩ := Option.bind_eq_some_iff.mp hc
      obtain rfl : e = .input k := by cases e <;> simp_all [Expr.input?]
      refine ih hdrop (by simpa using Nat.succ_le_of_lt hlt) hb hf (h.push fun t ht => ?_) hsome
      rw [ht.unique (.leaf hi rfl)]
      exact hsome k j hj
    | none =>
      have hin : ∀ k ∈ e.inputs, σ k = .input k := by
        intro k hk
        obtain ⟨u, _, heu⟩ := hes.type hi
        obtain ⟨v, hv⟩ := Expr.type?_of_mem_inputs heu hk
        apply hnone k v hv
        cases hes.flat hi with
        | input => obtain rfl := List.mem_singleton.mp hk; simpa [Expr.input?] using hc
        | literal | unary => simp [Expr.inputs] at hk
        | binary => simp [Expr.inputs] at hk
      obtain ⟨e', he', hb', h'⟩ := h.step hes hi (fun _ _ => trivial) hb hf hin
      have hg := b.register_grows e'
      obtain ⟨b'', places'', hrun, hg', hb'', hlen'', h''⟩ :=
        ih hdrop (by simpa using Nat.succ_le_of_lt hlt) hb'
          (fun k u hu => by rw [hg.inputType]; exact hf k u hu) h'
          fun k j hj => hg.expands (hsome k j hj)
      refine ⟨b'', places'', ?_, hg.trans hg', hb'', hlen'', h''⟩
      rw [he', Except.ok_bind]
      exact hrun

theorem exists_copyFrom (column : Nat → Option Nat) (hes : Typed rt es ts) (hb : b.WellTyped)
    (hf : Expr.Fits rt b.inputType σ) (hsome : ∀ k j, column k = some j → Expands b.entries j (σ k))
    (hnone : ∀ k u, rt.type? k = some u → column k = none → σ k = .input k) :
    ∃ b' places, copyFrom column b [] es = .ok (b', places) ∧ b.Grows b' ∧ b'.WellTyped ∧
      places.length = es.length ∧ Placed σ es (fun _ => True) b' places :=
  copyFrom_todo hes rfl (Nat.zero_le _) hb hf (fun _ hi => absurd hi (Nat.not_lt_zero _)) hsome hnone

/-! ## Keeping needed entries -/

private theorem needed_spec {roots : List Nat} (offset : Nat)
    (hflat : ∀ (i : Nat) e, es[i]? = some e → e.Flat (offset + i)) :
    let need := (es.zipIdx offset).foldr
      (fun (e, i) need => if i ∈ need then e.temps ++ need else need) roots
    roots ⊆ need ∧ ∀ (i : Nat) e, es[i]? = some e → offset + i ∈ need → e.temps ⊆ need := by
  induction es generalizing offset with
  | nil => simp
  | cons e es ih =>
    have hflat' : ∀ (i : Nat) e, es[i]? = some e → e.Flat (offset + 1 + i) := fun i e' he' => by
      have := hflat (i + 1) e' (by simpa using he')
      rwa [Nat.add_comm i 1, ← Nat.add_assoc] at this
    obtain ⟨hroots, hclosed⟩ := ih (offset + 1) hflat'
    simp only [List.zipIdx_cons, List.foldr_cons]
    generalize (es.zipIdx (offset + 1)).foldr _ roots = need at hroots hclosed
    have hsub : need ⊆ if offset ∈ need then e.temps ++ need else need := by
      split
      · exact List.subset_append_right ..
      · exact List.Subset.refl _
    refine ⟨List.Subset.trans hroots hsub, ?_⟩
    intro i e' he' hmem
    -- References of the first entry are smaller than any position from here on.
    have hmem : offset + i ∈ need := by
      split at hmem
      · rcases List.mem_append.mp hmem with htemp | hmem
        · have := (hflat 0 e rfl).lt htemp
          omega
        · exact hmem
      · exact hmem
    cases i with
    | zero =>
      obtain rfl : e = e' := by simpa using he'
      rw [if_pos (by simpa using hmem)]
      exact List.subset_append_left ..
    | succ i =>
      have := hclosed i e' (by simpa using he') (by rwa [Nat.add_right_comm, Nat.add_assoc])
      exact List.Subset.trans this hsub

theorem subset_needed (hes : Typed rt es ts) (roots : List Nat) : roots ⊆ needed es roots :=
  (needed_spec 0 fun i e he => by simpa using hes.flat he).1

theorem temps_subset_needed {e : Expr} (roots : List Nat) (hes : Typed rt es ts)
    (hi : es[i]? = some e) (h : i ∈ needed es roots) : e.temps ⊆ needed es roots :=
  (needed_spec 0 fun i e he => by simpa using hes.flat he).2 i e hi ((Nat.zero_add i).symm ▸ h)

private theorem keepFrom_todo (places : List (Option Nat)) {need : List Nat} (hes : Typed rt es ts)
    (hneed : ∀ (i : Nat) e, es[i]? = some e → i ∈ need → e.temps ⊆ need)
    (htodo : es.drop places.length = todo) (hlen : places.length ≤ es.length)
    (hb : b.WellTyped) (hrt : b.inputType = rt) (h : Placed .input es (· ∈ need) b places) :
    ∃ b' places', keepFrom need b places todo = .ok (b', places') ∧ b.Grows b' ∧
      b'.WellTyped ∧ places'.length = es.length ∧ Placed .input es (· ∈ need) b' places' := by
  induction todo generalizing b places with
  | nil =>
    have : es.length ≤ places.length := List.drop_eq_nil_iff.mp htodo
    exact ⟨b, places, rfl, .refl b, hb, by omega, h⟩
  | cons e todo ih =>
    obtain ⟨hi, hnext⟩ := List.of_drop_eq_cons htodo
    have hlt : places.length < es.length := (List.getElem?_eq_some_iff.mp hi).1
    have hdrop {x} : es.drop (places ++ [x]).length = todo := by
      rwa [List.length_append, List.length_singleton]
    simp only [keepFrom]
    split
    · rename_i hmem
      have hf : Expr.Fits rt b.inputType .input := fun k u hu =>
        Expr.type_input_eq_ok_iff.mpr (by rw [hrt]; exact hu)
      obtain ⟨e', he', hb', h'⟩ := h.step hes hi (hneed _ e hi hmem) hb hf fun _ _ => rfl
      have hg := b.register_grows e'
      obtain ⟨b'', places'', hrun, hg', hb'', hlen'', h''⟩ :=
        ih _ hdrop (by simpa using Nat.succ_le_of_lt hlt) hb' (hg.inputType.trans hrt) h'
      refine ⟨b'', places'', ?_, hg.trans hg', hb'', hlen'', h''⟩
      rw [he', Except.ok_bind]
      exact hrun
    · rename_i hmem
      exact ih _ hdrop (by simpa using Nat.succ_le_of_lt hlt) hb hrt (h.skip hmem)

theorem exists_keepFrom (roots : List Nat) (hes : Typed rt es ts) :
    ∃ b places, keepFrom (needed es roots) { inputType := rt } [] es = .ok (b, places) ∧
      b.inputType = rt ∧ b.WellTyped ∧ places.length = es.length ∧
      Placed .input es (· ∈ needed es roots) b places := by
  obtain ⟨b, places, hrun, hg, h⟩ :=
    keepFrom_todo [] (b := { inputType := rt }) hes
      (fun _ _ he hi => temps_subset_needed roots hes he hi) rfl (Nat.zero_le _)
      (Builder.wellTyped_new rt) rfl fun _ hi => absurd hi (Nat.not_lt_zero _)
  exact ⟨b, places, hrun, hg.inputType, h⟩

/-! ## Columns and conditions -/

variable {columns : List Column} {trees : List Expr}

theorem Placed.moveCondition {c : Option Nat} {t : Option Expr} (h : Placed σ es want b places)
    (hlen : places.length = es.length) (hw : ∀ i ∈ c, want i) (hc : Option.Rel (Expands es) c t) :
    ∃ c', c.mapM places.find = .ok c' ∧
      Option.Rel (Expands b.entries) c' (t.map (·.subst σ .temp)) := by
  cases hc with
  | none => exact ⟨none, rfl, .none⟩
  | @some i t hx =>
    obtain ⟨e, he⟩ := hx.getElem?
    have hlt : i < places.length := hlen ▸ (List.getElem?_eq_some_iff.mp he).1
    obtain ⟨j, hj, hej⟩ := h i hlt (hw i rfl)
    exact ⟨some j, by simp [hj], .some (hej t hx)⟩

theorem Placed.moveColumns (h : Placed σ es want b places) (hlen : places.length = es.length)
    (hw : ∀ c ∈ columns, want c.entry)
    (hc : List.Forall₂ (fun (c : Column) t => Expands es c.entry t) columns trees) :
    ∃ columns', places.moveColumns columns = .ok columns' ∧
      columns'.map Column.name = columns.map Column.name ∧
      List.Forall₂ (fun (c : Column) t => Expands b.entries c.entry t) columns'
        (trees.map (·.subst σ .temp)) := by
  induction hc with
  | nil => exact ⟨[], rfl, rfl, .nil⟩
  | @cons c t columns trees hx _ ih =>
    obtain ⟨columns', hcols, hnames, hexp⟩ := ih fun c' hc' => hw c' (List.mem_cons_of_mem _ hc')
    obtain ⟨e, he⟩ := hx.getElem?
    have hlt : c.entry < places.length := hlen ▸ (List.getElem?_eq_some_iff.mp he).1
    obtain ⟨j, hj, hej⟩ := h c.entry hlt (hw c List.mem_cons_self)
    refine ⟨⟨j, c.name⟩ :: columns', ?_, by simp [hnames], .cons (hej t hx) hexp⟩
    rw [Placement.moveColumns] at hcols ⊢
    rw [List.mapM_cons_except, hcols, hj]
    rfl

end Program
end RelPlan
