import Mathlib.Data.List.Induction
import RelPlan.Program.Merge
import RelPlan.Proofs.Program.Accepted

/-! # Checks and expansions

A check goes through the entries once and looks at references by their types only. That is as good
as typing what the entries stand for: the type that it finds for an entry is the type of the
entry's expansion, and entries in order have types as soon as their expansions have
(`Program.Typed.of_expansions`). So a program has expansions of the declared types, whichever way it
comes from, and parts make a program exactly if they are in order (`Program.expansions_typed`). -/

namespace RelPlan
namespace Program

variable {rt : RowType} {es : List Expr} {ts : List ScalarType} {p : Program}

/-! ## Programs -/

/-- The program has been given by a builder, read from a text, merged or normalized. -/
inductive Given (p : Program) : Prop where
  | built {b : Builder} : b.program = .ok p → Given p
  | loaded {saved : String} : load saved = .ok p → Given p
  | merged {upper lower : Program} : merge upper lower = .ok p → Given p
  | normalized {q : Program} : q.normalize = .ok p → Given p

/-- The last step of normalizing is the check of a builder. -/
theorem Valid.of_normalize {q : Program} (h : q.normalize = .ok p) : p.Valid := by
  obtain ⟨_, -, h⟩ := Except.bind_eq_ok_iff.mp h
  obtain ⟨_, -, h⟩ := Except.bind_eq_ok_iff.mp h
  obtain ⟨_, -, h⟩ := Except.bind_eq_ok_iff.mp h
  exact .of_check h

theorem Valid.of_merge {upper lower : Program} (h : merge upper lower = .ok p) : p.Valid := by
  rw [merge] at h
  split at h
  case isFalse => cases h
  case isTrue =>
    iterate 7 obtain ⟨_, -, h⟩ := Except.bind_eq_ok_iff.mp h
    exact .of_normalize h

theorem Given.valid (h : p.Given) : p.Valid := by
  cases h with
  | built h => exact .of_check h
  | loaded h => exact .of_load h
  | merged h => exact .of_merge h
  | normalized h => exact .of_normalize h

/-! ## Entries -/

/-- An entry whose expansion is typed is typed over the types of the expansions it refers to. -/
theorem Typed.type_of_expansion {e : Expr} {es' : List Expr} (hts : Typed rt es ts)
    (hes : es <+: es') (hf : e.Flat es.length) (hi : es'[es.length]? = some e)
    (ht : Expands es' es.length t) (hu : t.type rt [] = .ok u) : e.type rt ts = .ok u := by
  obtain ⟨e', g, he', hg, rfl⟩ := ht.elim
  obtain rfl : e' = e := Option.some.inj (he'.symm.trans hi)
  have hsame : (e'.subst .input g).type rt [] = e'.type rt ts := by
    refine Expr.type_subst_eq (fun _ _ => rfl) fun j hj => ?_
    obtain ⟨x, hx⟩ := hts.flatEntries.exists_expandWithin (hf.lt hj)
    have hx : Expands es j x := ⟨_, hx⟩
    obtain ⟨v, hv, hxv⟩ := hts.type_of_expands hx
    rw [(hg j hj).unique (hx.of_initial hes), hxv, Expr.type_temp_eq_ok_iff.mpr hv]
  exact hsame.symm.trans hu

/-- Entries in order have types if their expansions have. -/
theorem Typed.of_expansions (hflat : FlatEntries es)
    (h : ∀ i < es.length, ∃ t u, Expands es i t ∧ t.type rt [] = .ok u) : ∃ ts, Typed rt es ts := by
  induction es using List.reverseRecOn with
  | nil => exact ⟨[], .nil⟩
  | append_singleton es e ih =>
    have hinit : es <+: es ++ [e] := List.prefix_append ..
    have hf : e.Flat es.length := hflat _ e List.getElem?_concat_length
    have hes := hflat.of_initial hinit
    obtain ⟨ts, hts⟩ := ih hes fun i hi => by
      obtain ⟨t, u, ht, hu⟩ := h i (by rw [List.length_append]; omega)
      obtain ⟨t', ht'⟩ := hes.exists_expandWithin hi
      obtain rfl := ht.unique (Expands.of_initial hinit ⟨_, ht'⟩)
      exact ⟨t, u, ⟨_, ht'⟩, hu⟩
    obtain ⟨t, u, ht, hu⟩ := h es.length (by rw [List.length_append]; exact Nat.lt_succ_self _)
    exact ⟨ts ++ [u], hts.snoc hf
      (hts.type_of_expansion hinit hf List.getElem?_concat_length ht hu)⟩

/-! ## Parts -/

/-- The parts are in order, as far as one can tell from the shapes of the entries and from what they
expand to. -/
structure InOrder (rt : RowType) (es : List Expr) (projects : List Nat) (names : List String)
    (condition : Option Nat) : Prop where
  flat : FlatEntries es
  typed : ∀ i < es.length, ∃ t u, expandWithin es es.length i = .ok t ∧ t.type rt [] = .ok u
  named : projects.length = names.length
  columns : ∀ i ∈ projects, i < es.length
  condition : ∀ i ∈ condition, ∃ t u, expandWithin es es.length i = .ok t ∧
    t.type rt [] = .ok u ∧ u.isCondition

variable {projects : List Nat} {names : List String} {c : Option Nat}

theorem checkLists_eq_ok_iff :
    checkLists rt es projects names c = .ok p ↔
      projects.length = names.length ∧
        check rt es (List.zipWith Column.mk projects names) c = .ok p := by
  by_cases hlen : projects.length = names.length
  · have hcheck : checkLists rt es projects names c =
        check rt es (List.zipWith Column.mk projects names) c := by
      simp only [checkLists, hlen, ne_eq, not_true_eq_false, if_false, check]
      cases entryTypes rt es <;> rfl
    rw [hcheck, and_iff_right hlen]
  · refine iff_of_false (fun h => ?_) fun h => hlen h.1
    obtain ⟨_, -, h⟩ := Except.bind_eq_ok_iff.mp h
    rw [if_pos hlen] at h
    cases h

theorem map_entry_zipWith (h : projects.length = names.length) :
    (List.zipWith Column.mk projects names).map Column.entry = projects := by
  rw [← List.map_uncurry_zip_eq_zipWith, List.map_map]
  exact List.map_fst_zip (Nat.le_of_eq h)

/-- A typed entry has an expansion of its type. -/
theorem Typed.exists_expansion (h : Typed rt es ts) (hi : ts[i]? = some u) :
    ∃ t, Program.expandWithin es es.length i = .ok t ∧ t.type rt [] = .ok u := by
  obtain ⟨t, ht, hu⟩ := h.expands hi
  exact ⟨t, ht.expandWithin_length h.flatEntries, hu⟩

/-- The type of an entry is that of its expansion. -/
theorem Typed.getElem?_of_expansion (h : Typed rt es ts)
    (ht : Program.expandWithin es es.length i = .ok t) (hu : t.type rt [] = .ok u) :
    ts[i]? = some u := by
  obtain ⟨v, hv, htv⟩ := h.type_of_expands ⟨_, ht⟩
  rw [hv, Except.ok.inj (htv.symm.trans hu)]

/-- Parts make a program exactly if they are in order. -/
theorem exists_checkLists_iff :
    (∃ p, checkLists rt es projects names c = .ok p) ↔ InOrder rt es projects names c := by
  constructor
  · rintro ⟨p, hp⟩
    obtain ⟨hlen, hp⟩ := checkLists_eq_ok_iff.mp hp
    obtain ⟨-, -, hcols, rfl, ts, hts, hf⟩ := check_eq_ok_iff.mp hp
    refine ⟨hts.flatEntries, fun i hi => ?_, hlen, fun i hi => ?_, fun i hi => ?_⟩
    · obtain ⟨u, hu, -⟩ := hts.type (List.getElem?_eq_getElem hi)
      obtain ⟨t, ht, htu⟩ := hts.exists_expansion hu
      exact ⟨t, u, ht, htu⟩
    · rw [← map_entry_zipWith hlen, ← hcols] at hi
      obtain ⟨col, hcol, rfl⟩ := List.mem_map.mp hi
      obtain ⟨f, -, hty, -⟩ := hf.columns.exists_of_mem_left hcol
      exact hts.lt_of_type hty
    · obtain ⟨u, hu, hcu⟩ := hf.condition i hi
      obtain ⟨t, ht, htu⟩ := hts.exists_expansion hu
      exact ⟨t, u, ht, htu, hcu⟩
  · intro h
    obtain ⟨ts, hts⟩ : ∃ ts, Typed rt es ts := Typed.of_expansions h.flat fun i hi =>
      let ⟨t, u, ht, hu⟩ := h.typed i hi
      ⟨t, u, ⟨_, ht⟩, hu⟩
    let columns := List.zipWith Column.mk projects names
    let out : RowType := columns.map fun col => ⟨col.name, ts[col.entry]?.getD .null⟩
    refine ⟨⟨rt, es, columns, c, out⟩, checkLists_eq_ok_iff.mpr ⟨h.named,
      check_eq_ok_iff.mpr ⟨rfl, rfl, rfl, rfl, ts, hts, ?_, fun i hi => ?_⟩⟩⟩
    · show List.Forall₂ _ columns (columns.map _)
      rw [List.forall₂_map_right_iff, List.forall₂_same]
      intro col hcol
      have hlt : col.entry < ts.length := by
        rw [hts.length_eq]
        apply h.columns
        rw [← map_entry_zipWith h.named]
        exact List.mem_map_of_mem hcol
      simp [List.getElem?_eq_getElem hlt]
    · obtain ⟨t, u, ht, htu, hcu⟩ := h.condition i hi
      exact ⟨u, hts.getElem?_of_expansion ht htu, hcu⟩

/-! ## Expansions of programs -/

theorem ColumnsTyped.zip_names {out : RowType} (h : ColumnsTyped rt trees out.types) :
    List.Forall₂ (fun (col : Expr × String) (f : Field) =>
      col.2 = f.name ∧ col.1.type rt [] = .ok f.type) (trees.zip out.names) out := by
  induction out generalizing trees with
  | nil =>
    cases h
    exact .nil
  | cons f out ih =>
    cases h with
    | cons ht h => exact .cons ⟨rfl, ht⟩ (ih h)

/-- A program, however it has been given, has an expansion of every entry, over the input fields
alone and of the type that the check has found for the entry; its columns have expansions of the
types of the output fields, and its condition has the type of a condition. Conversely parts are let
in exactly if operands are references to earlier entries, no entry is a bare reference, all
expansions have types, the columns are entries with a name each, and the condition is an entry whose
expansion has the type of a condition. -/
theorem expansions_typed :
    (∀ p : Program, p.Given → ∃ ts, entryTypes p.inputType p.entries = .ok ts ∧
      (∀ i < p.entries.length, ∃ t u, p.expand i = .ok t ∧ t.temps = [] ∧ ts[i]? = some u ∧
        t.type p.inputType [] = .ok u) ∧
      (∃ columns, p.expandedColumns = .ok columns ∧
        List.Forall₂ (fun (col : Expr × String) (f : Field) =>
          col.2 = f.name ∧ col.1.type p.inputType [] = .ok f.type) columns p.outputType) ∧
      ∃ c, p.expandedCondition = .ok c ∧
        ∀ e ∈ c, ∃ t, e.type p.inputType [] = .ok t ∧ (t = .bool ∨ t = .null)) ∧
    ∀ rt es projects names c,
      (∃ p, checkLists rt es projects names c = .ok p) ↔ InOrder rt es projects names c := by
  refine ⟨fun p hp => ?_, fun _ _ _ _ _ => exists_checkLists_iff⟩
  obtain ⟨ts, hts, hf⟩ := valid_iff.mp hp.valid
  obtain ⟨c, trees, hm, htyped⟩ := hp.valid.exists_means
  have hcolumns := hm.expandedColumns hp.valid
  rw [hf.names_eq] at hcolumns
  refine ⟨ts, entryTypes_eq_ok_iff.mpr hts, fun i hi => ?_, ⟨_, hcolumns, htyped.columns.zip_names⟩,
    c, hm.expandedCondition hp.valid, fun e he => ?_⟩
  · obtain ⟨u, hu, -⟩ := hts.type (List.getElem?_eq_getElem hi)
    obtain ⟨t, ht, htu⟩ := hts.exists_expansion hu
    exact ⟨t, u, ht, Expr.temps_eq_nil htu, hu, htu⟩
  · obtain ⟨t, ht, hcond⟩ := htyped.condition e he
    exact ⟨t, ht, ScalarType.isCondition_iff.mp hcond⟩

/-- Shows a field twofold and fourfold, where each sum is shared by the next entry. -/
def sums : Program where
  inputType := [⟨"a", .int⟩]
  entries := [.input 0, .binary (.temp 0) .add (.temp 0), .binary (.temp 1) .add (.temp 1),
    .binary (.temp 2) .gt (.temp 0)]
  columns := [⟨1, "twofold"⟩, ⟨2, "fourfold"⟩]
  condition := some 3
  outputType := [⟨"twofold", .int⟩, ⟨"fourfold", .int⟩]

theorem sums_inOrder :
    InOrder sums.inputType sums.entries [1, 2] ["twofold", "fourfold"] (some 3) where
  flat := fun i e he => by
    have hcheck : ∀ i (h : i < sums.entries.length), sums.entries[i].checkEntry i = .ok () := by
      decide
    obtain ⟨hlt, rfl⟩ := List.getElem?_eq_some_iff.mp he
    exact Expr.checkEntry_eq_ok_iff.mp (hcheck i hlt)
  typed := fun i hi =>
    match i, hi with
    | 0, _ | 1, _ | 2, _ | 3, _ => ⟨_, _, rfl, rfl⟩
  named := rfl
  columns := by decide
  condition := by
    rintro _ ⟨⟩
    exact ⟨_, _, rfl, rfl, rfl⟩

/-- The parts make a program, which normalizing gives again; its condition reads nothing but fields,
and the types of its columns are those of their expansions. -/
theorem expansions_typed_sums :
    sums.Given ∧ InOrder sums.inputType sums.entries [1, 2] ["twofold", "fourfold"] (some 3) ∧
      (∃ p, checkLists sums.inputType sums.entries [1, 2] ["twofold", "fourfold"] (some 3) =
        .ok p) ∧
      (∃ t, sums.expand 3 = .ok t ∧ t.temps = [] ∧ t.type sums.inputType [] = .ok .bool) ∧
      ∃ twofold fourfold, sums.expandedColumns =
          .ok [(twofold, "twofold"), (fourfold, "fourfold")] ∧
        twofold.type sums.inputType [] = .ok .int ∧ fourfold.type sums.inputType [] = .ok .int := by
  have hgiven : sums.Given := .normalized (q := sums) (by decide +kernel)
  obtain ⟨hprogram, hparts⟩ := expansions_typed
  obtain ⟨ts, hts, hentries, ⟨columns, hcolumns, htyped⟩, -⟩ := hprogram sums hgiven
  obtain rfl : [.int, .int, .int, .bool] = ts := Except.ok.inj hts
  obtain ⟨t, u, ht, htemps, hu, htype⟩ := hentries 3 (by decide)
  obtain rfl : .bool = u := Option.some.inj hu
  refine ⟨hgiven, sums_inOrder, (hparts ..).mpr sums_inOrder, ⟨t, ht, htemps, htype⟩, ?_⟩
  obtain ⟨⟨twofold, _⟩, _, ⟨rfl, h₁⟩, hrest, rfl⟩ := List.forall₂_cons_right_iff.mp htyped
  obtain ⟨⟨fourfold, _⟩, _, ⟨rfl, h₂⟩, hnil, rfl⟩ := List.forall₂_cons_right_iff.mp hrest
  obtain rfl := List.forall₂_nil_right_iff.mp hnil
  exact ⟨twofold, fourfold, hcolumns, h₁, h₂⟩

end Program
end RelPlan
