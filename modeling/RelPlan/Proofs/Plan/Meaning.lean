import RelPlan.Proofs.Plan.Widths

/-! # What a node gives

`Plan.Gives` is evaluation by need, as a relation: a stage evaluates its condition and leaves its
columns to whoever reads them; joins, and the reader of the result, read everything. The strict
variant demands that all columns of a stage have values, and is what evaluation computes
(`Plan.Good.evaluate_eq_ok_iff`). -/

namespace RelPlan
namespace Plan

open Relation

/-- The node gives these rows; if `strict` holds, every stage has evaluated all its columns. -/
inductive Gives (strict : Prop) (p : Plan) (tables : Tables) : NodeId → List LazyRow → Prop where
  | scan : p.node a = .ok (.scan table rt) → scanRows tables table rt = .ok rows →
      Gives strict p tables a (rows.map .ofRow)
  | values : p.node a = .ok (.values rt rows) → Gives strict p tables a (rows.map .ofRow)
  | stage {n : Node} : p.node a = .ok n → n.Runs i c es → Gives strict p tables i rows →
      Kept c es rows out → (strict → ∃ read : List Row, out = read.map .ofRow) →
      Gives strict p tables a out
  | join : p.node a = .ok (.join l r kind c rt) → Gives strict p tables l (left.map .ofRow) →
      Gives strict p tables r (right.map .ofRow) → p.HasTypes r ts →
      joinRows kind c ts.length right left = .ok rows → Gives strict p tables a (rows.map .ofRow)

/-- Evaluated by need, the node gives these rows. -/
def GivesByNeed (p : Plan) (tables : Tables) (a : NodeId) (rows : List Row) : Prop :=
  p.Gives False tables a (rows.map .ofRow)

variable {strict : Prop} {p : Plan} {tables : Tables} {a i : NodeId} {n : Node} {c : Option Expr}
  {es : List Expr} {ts : List ScalarType} {rows : List Row} {out out' : List LazyRow}

theorem Gives.byNeed (h : p.Gives strict tables a out) : p.Gives False tables a out := by
  induction h with
  | scan hn hr => exact .scan hn hr
  | values hn => exact .values hn
  | stage hn hr _ hk _ ih => exact .stage hn hr ih hk False.elim
  | join hn _ _ ht hj ihl ihr => exact .join hn ihl ihr ht hj

theorem Gives.exists_read (h : p.Gives strict tables a out) (hs : strict) :
    ∃ read : List Row, out = read.map .ofRow := by
  cases h with
  | scan | values | join => exact ⟨_, rfl⟩
  | stage _ _ _ _ hread => exact hread hs

theorem Gives.lt_size (h : p.Gives strict tables a out) : a < p.size := by
  cases h with
  | scan hn | values hn | stage hn | join hn => exact lt_size_of_node hn

theorem Gives.congr (hab : p.node a = p.node b) (h : p.Gives strict tables a out) :
    p.Gives strict tables b out := by
  cases h with
  | scan hn hr => exact .scan (hab ▸ hn) hr
  | values hn => exact .values (hab ▸ hn)
  | stage hn hr hi hk hs => exact .stage (hab ▸ hn) hr hi hk hs
  | join hn hl hr ht hj => exact .join (hab ▸ hn) hl hr ht hj

theorem WF.gives_resolve (h : p.WF) :
    p.Gives strict tables (p.resolve a) out ↔ p.Gives strict tables a out :=
  ⟨.congr (h.node_resolve a), .congr (h.node_resolve a).symm⟩

theorem lazy_map_injective : Function.Injective (List.map LazyRow.ofRow) :=
  List.map_injective_iff.mpr LazyRow.ofRow_injective

/-- The rows of a stage are those left of the rows of its input. -/
theorem gives_stage_iff (hn : p.node a = .ok n) (hr : n.Runs i c es) :
    p.Gives strict tables a out ↔ (∃ rows, p.Gives strict tables i rows ∧ Kept c es rows out) ∧
      (strict → ∃ read : List Row, out = read.map .ofRow) := by
  constructor
  · intro h
    cases h with
    | stage hn' hr' hi hk hs =>
      obtain rfl := Except.ok.inj (hn.symm.trans hn')
      obtain ⟨rfl, rfl, rfl⟩ := hr.unique hr'
      exact ⟨⟨_, hi, hk⟩, hs⟩
    | scan hn' | values hn' | join hn' =>
      obtain rfl := Except.ok.inj (hn.symm.trans hn')
      cases hr
  · rintro ⟨⟨rows, hi, hk⟩, hs⟩
    exact .stage hn hr hi hk hs

theorem Gives.unique (h : p.Gives strict tables a out) (h' : p.Gives strict tables a out') :
    out = out' := by
  induction h generalizing out' with
  | scan hn hr =>
    cases h' with
    | scan hn' hr' =>
      cases hn.symm.trans hn'
      rw [Except.ok.inj (hr.symm.trans hr')]
    | values hn' | join hn' => cases hn.symm.trans hn'
    | stage hn' hr' =>
      cases hn.symm.trans hn'
      cases hr'
  | values hn =>
    cases h' with
    | values hn' =>
      cases hn.symm.trans hn'
      rfl
    | scan hn' | join hn' => cases hn.symm.trans hn'
    | stage hn' hr' =>
      cases hn.symm.trans hn'
      cases hr'
  | stage hn hr _ hk _ ih =>
    obtain ⟨⟨rows, hi, hk'⟩, -⟩ := (gives_stage_iff hn hr).mp h'
    exact hk.unique (ih hi ▸ hk')
  | join hn _ _ ht hj ihl ihr =>
    cases h' with
    | join hn' hl' hr' ht' hj' =>
      cases hn.symm.trans hn'
      obtain rfl := lazy_map_injective (ihl hl')
      obtain rfl := lazy_map_injective (ihr hr')
      obtain rfl := ht.unique ht'
      rw [Except.ok.inj (hj.symm.trans hj')]
    | scan hn' | values hn' => cases hn.symm.trans hn'
    | stage hn' hr' =>
      cases hn.symm.trans hn'
      cases hr'

theorem rowsConform_iff {rows : List Row} :
    RowsConform ts rows ↔ ∀ row ∈ rows.map LazyRow.ofRow, LazyRow.Conforms row ts := by
  simp [LazyRow.conforms_ofRow]

/-- Rows conform to the types of their node, as far as they are read. -/
theorem Good.gives_conform (h : p.Good) (ht : p.TablesConform tables) (ha : p.HasTypes a ts)
    (hg : p.Gives strict tables a out) : ∀ row ∈ out, LazyRow.Conforms row ts := by
  induction hg generalizing ts with
  | @scan a table rt rows hn hr =>
    obtain rfl := ha.unique ⟨_, hn, rfl⟩
    have := scanRows_delivers fun rows => ht a table rt hn rows
    rw [hr] at this
    exact rowsConform_iff.mp this
  | values hn =>
    obtain rfl := ha.unique ⟨_, hn, rfl⟩
    cases h.node_typed hn with
    | values hrows => exact rowsConform_iff.mp hrows
  | stage hn hr _ hk _ ih =>
    obtain rfl := ha.unique ⟨_, hn, rfl⟩
    obtain ⟨rt, hi, -, hes⟩ := (h.node_typed hn).runs hr
    exact hk.conforms hes (ih hi)
  | join hn _ _ hts hj ihl ihr =>
    obtain rfl := ha.unique ⟨_, hn, rfl⟩
    cases h.node_typed hn with
    | join hl hr hrt hc =>
      obtain rfl := hts.unique hr
      exact rowsConform_iff.mp ((joinRows_ends _ hc hrt (rowsConform_iff.mpr (ihl hl))
        (rowsConform_iff.mpr (ihr hr))).elim hj)

/-- Every typed node with an input that is no join is a stage. -/
theorem NodeTyped.cases (h : p.NodeTyped n) : (∃ table rt, n = .scan table rt) ∨
    (∃ rt rows, n = .values rt rows) ∨ (∃ i c es, n.Runs i c es) ∨
      ∃ l r kind c rt ts, n = .join l r kind c rt ∧ p.HasTypes r ts := by
  cases h with
  | scan => exact .inl ⟨_, _, rfl⟩
  | values => exact .inr (.inl ⟨_, _, rfl⟩)
  | filter => exact .inr (.inr (.inl ⟨_, _, _, .filter⟩))
  | project => exact .inr (.inr (.inl ⟨_, _, _, .project⟩))
  | compute _ hp =>
    obtain ⟨c, es, hm, _⟩ := hp.exists_means
    exact .inr (.inr (.inl ⟨_, _, _, .compute hm⟩))
  | join _ hr => exact .inr (.inr (.inr ⟨_, _, _, _, _, _, rfl, hr⟩))

theorem HasTypes.rowType (h : p.HasTypes a ts) :
    ∃ rt, p.rowType a = .ok rt ∧ rt.length = ts.length := by
  obtain ⟨n, hn, rfl⟩ := h
  exact ⟨_, rowType_eq_ok_iff.mpr ⟨n, hn, rfl⟩, by simp⟩

/-- Evaluation finds the rows that a node gives strictly. -/
theorem Good.evaluate_eq_ok_iff (h : p.Good) :
    p.evaluate tables a = .ok rows ↔ p.Gives True tables a (rows.map .ofRow) := by
  constructor
  · intro he
    induction hk : p.height a using Nat.strongRecOn generalizing a rows with
    | ind k ih =>
      obtain ⟨n, hn⟩ : ∃ n, p.node a = .ok n := by
        cases hn : p.node a with
        | ok n => exact ⟨n, rfl⟩
        | error e => simp [evaluate, depth, evaluateWithin, hn] at he
      have hinput {i rows} (hi : i ∈ n.inputs) (hrows : p.evaluate tables i = .ok rows) :
          p.Gives True tables i (rows.map .ofRow) :=
        ih _ (hk ▸ h.wf.height_input_lt hn hi) hrows rfl
      have hunroll : p.evaluate tables a = _ := h.wf.evaluate_eq hn
      obtain ⟨table, rt, rfl⟩ | ⟨rt, vs, rfl⟩ | ⟨i, c, es, hr⟩ |
        ⟨l, r, kind, c, rt, ts, rfl, hts⟩ := (h.node_typed hn).cases
      · exact .scan hn (hunroll.symm.trans he)
      · obtain rfl := Except.ok.inj (hunroll.symm.trans he)
        exact .values hn
      · rw [h.evaluate_stage hn hr] at he
        obtain ⟨mid, hmid, he⟩ := Except.bind_eq_ok_iff.mp he
        exact .stage hn hr (hinput hr.mem_inputs hmid)
          (runRows_eq_ok_iff.mp (Except.mapError_eq_ok_iff.mp he)) fun _ => ⟨rows, rfl⟩
      · rw [hunroll, evaluateNode] at he
        obtain ⟨left, hleft, he⟩ := Except.bind_eq_ok_iff.mp he
        obtain ⟨right, hright, he⟩ := Except.bind_eq_ok_iff.mp he
        obtain ⟨rrt, hrrt, hlen⟩ := hts.rowType
        rw [hrrt, Except.mapError_ok, Except.ok_bind, hlen] at he
        exact .join hn (hinput List.mem_cons_self hleft) (hinput (by simp [Node.inputs]) hright) hts
          (Except.mapError_eq_ok_iff.mp he)
  · intro hg
    generalize hout : rows.map LazyRow.ofRow = out at hg
    induction hg generalizing rows with
    | scan hn hr =>
      obtain rfl := lazy_map_injective hout
      rw [h.wf.evaluate_eq hn]
      exact hr
    | values hn =>
      obtain rfl := lazy_map_injective hout
      rw [h.wf.evaluate_eq hn]
      rfl
    | @stage _ _ c es mid out n hn hr hi hk hs ih =>
      subst hout
      obtain ⟨read, rfl⟩ := hi.exists_read trivial
      rw [h.evaluate_stage hn hr, ih rfl, Except.ok_bind, runRows_eq_ok_iff.mpr hk]
      rfl
    | join hn _ _ hts hj ihl ihr =>
      obtain rfl := lazy_map_injective hout
      obtain ⟨rrt, hrrt, hlen⟩ := hts.rowType
      rw [h.wf.evaluate_eq hn, evaluateNode, ihl rfl, ihr rfl, hrrt]
      simp [hlen, hj]

private theorem bind_ne_tableNotFound {r : Except ExecutionError α}
    {f : α → Except ExecutionError β} (hr : r ≠ .error (.tableNotFound table))
    (hf : ∀ x, f x ≠ .error (.tableNotFound table)) : r >>= f ≠ .error (.tableNotFound table) := by
  cases r with
  | ok x => exact hf x
  | error e => simpa using hr

private theorem mapError_program_ne_tableNotFound (r : Except ProgramError α) :
    r.mapError ExecutionError.program ≠ .error (.tableNotFound table) := by
  cases r <;> simp

/-- Where a node gives rows by need, all tables below it are there. -/
theorem Good.table_found (h : p.Good) (hg : p.Gives strict tables a out) (table : String) :
    p.evaluate tables a ≠ .error (.tableNotFound table) := by
  induction hg with
  | scan hn hr =>
    rw [h.wf.evaluate_eq hn, evaluateNode, hr]
    simp
  | values hn =>
    rw [h.wf.evaluate_eq hn, evaluateNode]
    simp
  | stage hn hr _ _ _ ih =>
    rw [h.evaluate_stage hn hr]
    exact bind_ne_tableNotFound ih fun _ => mapError_program_ne_tableNotFound _
  | join hn _ _ hts _ ihl ihr =>
    obtain ⟨rrt, hrrt, -⟩ := hts.rowType
    rw [h.wf.evaluate_eq hn, evaluateNode, hrrt]
    exact bind_ne_tableNotFound ihl fun _ => bind_ne_tableNotFound ihr fun _ =>
      mapError_program_ne_tableNotFound _

/-- Where a node gives rows by need, evaluation finds the same rows or an arithmetic failure. -/
theorem Good.evaluate_of_givesByNeed (h : p.Good) (ht : p.TablesConform tables)
    (ha : p.HasTypes a ts) (hg : p.GivesByNeed tables a rows) : p.evaluate tables a = .ok rows ∨
      ∃ e, p.evaluate tables a = .error (.program e) ∧ e.isArithmetic := by
  have hd := h.evaluate_delivers ht ha
  cases he : p.evaluate tables a with
  | ok found =>
    have hneed := (h.evaluate_eq_ok_iff.mp he).byNeed
    rw [lazy_map_injective (hneed.unique hg)]
    exact .inl rfl
  | error e =>
    rw [he] at hd
    cases e with
    | program e => exact .inr ⟨e, rfl, hd⟩
    | tableNotFound table => exact absurd he (h.table_found hg table)
    | plan => exact hd.elim

/-! ## Columns that nobody reads -/

/-- Every node that this one computes with has values for all columns of the rows it gives. -/
def ColumnsEvaluate (p : Plan) (tables : Tables) (a : NodeId) : Prop :=
  ∀ b, ReflTransGen p.Child (p.resolve a) b → ∀ out, p.Gives False tables b out →
    ∃ read : List Row, out = read.map .ofRow

theorem ColumnsEvaluate.input (h : p.ColumnsEvaluate tables a) (hp : p.WF) (hn : p.node a = .ok n)
    (hi : i ∈ n.inputs) : p.ColumnsEvaluate tables i :=
  fun b hb => h b (.head (.intro ((hp.node_resolve a).trans hn) hi) hb)

/-- Nodes below one that gives rows give rows too. -/
theorem Gives.exists_gives_below (h : p.Gives strict tables a out) (hp : p.WF)
    (hab : ReflTransGen p.Child (p.resolve a) b) : ∃ out', p.Gives strict tables b out' := by
  induction hab with
  | refl => exact ⟨out, hp.gives_resolve.mpr h⟩
  | tail _ hc ih =>
    obtain ⟨mid, hmid⟩ := ih
    obtain ⟨hn, hi⟩ := hc
    cases hmid with
    | scan hn' | values hn' =>
      obtain rfl := Except.ok.inj (hn.symm.trans hn')
      cases hi
    | stage hn' hr hin =>
      obtain rfl := Except.ok.inj (hn.symm.trans hn')
      obtain rfl := List.mem_singleton.mp (hr.inputs_eq ▸ hi)
      exact ⟨_, hp.gives_resolve.mpr hin⟩
    | join hn' hl hr =>
      obtain rfl := Except.ok.inj (hn.symm.trans hn')
      rcases List.mem_cons.mp hi with rfl | hi
      · exact ⟨_, hp.gives_resolve.mpr hl⟩
      · obtain rfl := List.mem_singleton.mp hi
        exact ⟨_, hp.gives_resolve.mpr hr⟩

/-- Rows given by need are given strictly if no column fails. -/
theorem Gives.strict_of_columnsEvaluate (h : p.Gives strict tables a out) (hp : p.WF)
    (hc : p.ColumnsEvaluate tables a) : p.Gives True tables a out := by
  induction h with
  | scan hn hr => exact .scan hn hr
  | values hn => exact .values hn
  | stage hn hr hi hk _ ih =>
    have hout := hc _ .refl _ (hp.gives_resolve.mpr (.stage hn hr hi.byNeed hk False.elim))
    exact .stage hn hr (ih (hc.input hp hn hr.mem_inputs)) hk fun _ => hout
  | join hn _ _ ht hj ihl ihr =>
    exact .join hn (ihl (hc.input hp hn List.mem_cons_self))
      (ihr (hc.input hp hn (List.mem_cons_of_mem _ List.mem_cons_self))) ht hj

/-- Evaluation finds the rows given by need exactly if no column fails, whether read or not. -/
theorem Good.evaluate_eq_ok_iff_columnsEvaluate (h : p.Good)
    (hg : p.GivesByNeed tables a rows) :
    p.evaluate tables a = .ok rows ↔ p.ColumnsEvaluate tables a := by
  rw [h.evaluate_eq_ok_iff]
  constructor
  · intro hs b hb out hout
    obtain ⟨out', hout'⟩ := hs.exists_gives_below h.wf hb
    obtain ⟨read, rfl⟩ := hout'.exists_read trivial
    exact ⟨read, hout.unique hout'.byNeed⟩
  · exact hg.strict_of_columnsEvaluate h.wf

end Plan
end RelPlan
