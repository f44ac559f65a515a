import RelPlan.Proofs.Program.BuilderHistory
import RelPlan.Proofs.Program.Composition

/-! # Canonical forms

Normalizing keeps the needed entries of a program, one in place of all that expand to the same. The
loop fills places one after the other (`Kept`), so that what is kept comes in the order of first
occurrences. The result means what the program means (`Program.normalize_meaning`), and normalizing
it again changes nothing (`Program.normalize_canonical`): a program is its own normal form as soon
as it has neither repeated nor unneeded entries (`Program.normalize_eq_self_iff`). -/

namespace RelPlan
namespace Program

/-! ## Need -/

/-- A column or the condition needs the entry, directly or through references. -/
inductive Needs (p : Program) : Nat → Prop where
  | column {c : Column} : c ∈ p.columns → p.Needs c.entry
  | condition : i ∈ p.condition → p.Needs i
  | operand {e : Expr} : p.Needs i → p.entries[i]? = some e → j ∈ e.temps → p.Needs j

/-- The entries of the columns and the condition. -/
abbrev roots (p : Program) : List Nat := p.columns.map Column.entry ++ p.condition.toList

variable {rt : RowType} {es kept : List Expr} {ts : List ScalarType} {p q : Program}
  {places : Placement} {need : List Nat} {b b' : Builder} {e e' : Expr} {i j : Nat}

/-- What holds of the roots, and with an entry of its references, holds of all needed entries. -/
theorem of_mem_needed {P : Nat → Prop} {roots : List Nat} (hroots : ∀ i ∈ roots, P i)
    (hstep : ∀ i e, es[i]? = some e → P i → ∀ j ∈ e.temps, P j) : ∀ i ∈ needed es roots, P i := by
  unfold needed
  refine List.foldrRecOn (motive := fun need => ∀ i ∈ need, P i) es.zipIdx _ hroots ?_
  intro need hneed ⟨e, i⟩ hi
  show ∀ k ∈ if i ∈ need then e.temps ++ need else need, P k
  split
  case isFalse => exact hneed
  case isTrue hmem =>
    intro j hj
    rcases List.mem_append.mp hj with hj | hj
    · exact hstep i e (List.mem_zipIdx_iff_getElem?.mp hi) (hneed i hmem) j hj
    · exact hneed j hj

/-- One sweep finds what is needed. -/
theorem Typed.mem_needed_iff (h : Typed rt p.entries ts) :
    i ∈ needed p.entries p.roots ↔ p.Needs i := by
  constructor
  · intro hi
    refine of_mem_needed (fun i hi => ?_) (fun i e he hi j hj => hi.operand he hj) i hi
    rcases List.mem_append.mp hi with hi | hi
    · obtain ⟨c, hc, rfl⟩ := List.mem_map.mp hi
      exact .column hc
    · exact .condition (Option.mem_toList.mp hi)
  · intro hi
    have hroots := subset_needed h p.roots
    induction hi with
    | column hc => exact hroots (List.mem_append_left _ (List.mem_map_of_mem hc))
    | condition hc => exact hroots (List.mem_append_right _ (Option.mem_toList.mpr hc))
    | operand _ he hj ih => exact temps_subset_needed p.roots h he ih hj

/-! ## Expansions without repetitions -/

/-- What the expansion of a flat entry says about the entry. -/
theorem Expands.flat_elim (hflat : FlatEntries es) (h : Expands es i t) :
    match t with
    | .binary l op r => ∃ a b, es[i]? = some (.binary (.temp a) op (.temp b)) ∧
        Expands es a l ∧ Expands es b r
    | .unary op x => ∃ a, es[i]? = some (.unary op (.temp a)) ∧ Expands es a x
    | leaf => es[i]? = some leaf := by
  obtain ⟨e, g, he, hg, rfl⟩ := h.elim
  cases hflat i e he with
  | input | literal => exact he
  | binary => exact ⟨_, _, he, hg _ (by simp [Expr.temps]), hg _ (by simp [Expr.temps])⟩
  | unary => exact ⟨_, he, hg _ (by simp [Expr.temps])⟩

/-- In flat entries without repetitions, entries that expand to one expression are one entry. -/
theorem Expands.index_unique (hflat : FlatEntries es) (hnodup : es.Nodup) (hi : Expands es i t)
    (hj : Expands es j t) : i = j := by
  have hsame {i j : Nat} {e : Expr} (hi : es[i]? = some e) (hj : es[j]? = some e) : i = j :=
    (List.getElem?_inj (List.getElem?_eq_some_iff.mp hi).1 hnodup).mp (hi.trans hj.symm)
  induction t generalizing i j with
  | input | temp | literal => exact hsame (hi.flat_elim hflat) (hj.flat_elim hflat)
  | binary l op r ihl ihr =>
    obtain ⟨a, b, hei, hl, hr⟩ := hi.flat_elim hflat
    obtain ⟨a', b', hej, hl', hr'⟩ := hj.flat_elim hflat
    obtain rfl := ihl hl hl'
    obtain rfl := ihr hr hr'
    exact hsame hei hej
  | unary op x ih =>
    obtain ⟨a, hei, hx⟩ := hi.flat_elim hflat
    obtain ⟨a', hej, hx'⟩ := hj.flat_elim hflat
    obtain rfl := ih hx hx'
    exact hsame hei hej

/-! ## Kept entries -/

/-- Exactly the needed ones of the entries so far have been kept, and each has been moved to its
place. Places are filled one after the other. -/
structure Kept (es : List Expr) (need : List Nat) (kept : List Expr) (places : Placement) :
    Prop where
  needed : ∀ i j, places.find i = .ok j → i ∈ need
  moved : ∀ i j, places.find i = .ok j →
    ∃ e e', es[i]? = some e ∧ places.move e = .ok e' ∧ kept[j]? = some e'
  placed : ∀ i < places.length, i ∈ need → ∃ j, places.find i = .ok j
  filled : ∀ j < kept.length, ∃ i, places.find i = .ok j
  ordered : ∀ i j, places.find i = .ok j → ∀ j' < j, ∃ i' < i, places.find i' = .ok j'

theorem Kept.nil : Kept es need [] [] where
  needed _ _ h := absurd (Placement.lt_of_find h) (Nat.not_lt_zero _)
  moved _ _ h := absurd (Placement.lt_of_find h) (Nat.not_lt_zero _)
  placed _ h := absurd h (Nat.not_lt_zero _)
  filled _ h := absurd h (Nat.not_lt_zero _)
  ordered _ _ h := absurd (Placement.lt_of_find h) (Nat.not_lt_zero _)

theorem Kept.skip (h : Kept es need kept places) (hn : places.length ∉ need) :
    Kept es need kept (places ++ [none]) := by
  have hfind {i j} : Placement.find (places ++ [none]) i = .ok j ↔ places.find i = .ok j := by
    simp [Placement.find_snoc_iff]
  constructor
  case needed => exact fun i j hi => h.needed i j (hfind.mp hi)
  case moved =>
    intro i j hi
    obtain ⟨e, e', he, hmove, hj⟩ := h.moved i j (hfind.mp hi)
    exact ⟨e, e', he, Placement.move_append_left hmove _, hj⟩
  case placed =>
    intro i hi hin
    have hne : i ≠ places.length := fun heq => hn (heq ▸ hin)
    rw [List.length_append, List.length_singleton] at hi
    obtain ⟨j, hj⟩ := h.placed i (by omega) hin
    exact ⟨j, hfind.mpr hj⟩
  case filled =>
    intro j hj
    obtain ⟨i, hi⟩ := h.filled j hj
    exact ⟨i, hfind.mpr hi⟩
  case ordered =>
    intro i j hi j' hj'
    obtain ⟨i', hlt, hi'⟩ := h.ordered i j (hfind.mp hi) j' hj'
    exact ⟨i', hlt, hfind.mpr hi'⟩

/-- Entries are moved to entries that are flat where they come to stand. -/
theorem Kept.flat_move (h : Kept es need kept places) (hf : e.Flat position)
    (he : places.move e = .ok e') : e'.Flat kept.length := by
  obtain ⟨g, hg, rfl⟩ := Placement.move_eq_ok_iff.mp he
  refine hf.subst_temp fun k hk => ?_
  obtain ⟨_, _, -, -, hkept⟩ := h.moved k _ (hg k hk)
  exact (List.getElem?_eq_some_iff.mp hkept).1

/-- The next entry is moved and registered, at a new place or at that of an equal one. -/
theorem Kept.push (h : Kept es need b.entries places) (hb : b.Indexed)
    (hf : e'.Flat b.entries.length) (hi : es[places.length]? = some e)
    (hn : places.length ∈ need) (he : places.move e = .ok e') :
    Kept es need (b.register e').2.entries (places ++ [some (b.register e').1]) := by
  have hg := b.register_grows e'
  have hfind {i j} : Placement.find (places ++ [some (b.register e').1]) i = .ok j ↔
      places.find i = .ok j ∨ i = places.length ∧ (b.register e').1 = j := by
    simp [Placement.find_snoc_iff]
  constructor
  case needed =>
    intro i j hij
    rcases hfind.mp hij with hij | ⟨rfl, -⟩
    · exact h.needed i j hij
    · exact hn
  case moved =>
    intro i j hij
    rcases hfind.mp hij with hij | ⟨rfl, rfl⟩
    · obtain ⟨x, x', hx, hmove, hj⟩ := h.moved i j hij
      exact ⟨x, x', hx, Placement.move_append_left hmove _, List.getElem?_of_initial hg.entries hj⟩
    · exact ⟨e, e', hi, Placement.move_append_left he _, Builder.register_getElem? hb hf⟩
  case placed =>
    intro i hlt hin
    rw [List.length_append, List.length_singleton] at hlt
    rcases Nat.lt_succ_iff_lt_or_eq.mp hlt with hlt | rfl
    · obtain ⟨j, hj⟩ := h.placed i hlt hin
      exact ⟨j, hfind.mpr (.inl hj)⟩
    · exact ⟨_, hfind.mpr (.inr ⟨rfl, rfl⟩)⟩
  case filled =>
    intro j hj
    rcases Builder.lt_of_register hj with hj | rfl
    · obtain ⟨i, hij⟩ := h.filled j hj
      exact ⟨i, hfind.mpr (.inl hij)⟩
    · exact ⟨_, hfind.mpr (.inr ⟨rfl, rfl⟩)⟩
  case ordered =>
    intro i j hij j' hj'
    rcases hfind.mp hij with hij | ⟨rfl, rfl⟩
    · obtain ⟨i', hlt, hi'⟩ := h.ordered i j hij j' hj'
      exact ⟨i', hlt, hfind.mpr (.inl hi')⟩
    -- All places before the one of the new entry have been filled.
    · have hlt := Nat.lt_trans hj' (Builder.register_lt hb hf)
      have hold := (Builder.lt_of_register hlt).resolve_right (Nat.ne_of_lt hj')
      obtain ⟨i', hi'⟩ := h.filled j' hold
      exact ⟨i', Placement.lt_of_find hi', hfind.mpr (.inl hi')⟩

theorem Kept.of_keepFrom (hflat : FlatEntries es) (hb : b.Indexed) (hd : b.Distinct)
    (h : Kept es need b.entries places) (htodo : es.drop places.length = todo)
    (hrun : keepFrom need b places todo = .ok (b', places')) :
    b'.Distinct ∧ Kept es need b'.entries places' ∧ es.length ≤ places'.length := by
  induction todo generalizing b places with
  | nil =>
    obtain ⟨rfl, rfl⟩ := Prod.mk.inj (Except.ok.inj hrun)
    exact ⟨hd, h, List.drop_eq_nil_iff.mp htodo⟩
  | cons e todo ih =>
    obtain ⟨hi, hnext⟩ := List.of_drop_eq_cons htodo
    have hdrop {x} : es.drop (places ++ [x]).length = todo := by
      rwa [List.length_append, List.length_singleton]
    simp only [Program.keepFrom] at hrun
    split at hrun
    case isFalse hn => exact ih hb hd (h.skip hn) hdrop hrun
    case isTrue hn =>
      obtain ⟨e', he, hrun⟩ := Except.bind_eq_ok_iff.mp hrun
      have hf := h.flat_move (hflat _ e hi) he
      exact ih (Builder.register_indexed hb hf) ((Builder.Step.register hf).distinct hd)
        (h.push hb hf hi hn he) hdrop hrun

/-- What is kept expands in its place as it did before. -/
theorem Kept.expands (h : Kept es need kept places) (hflat : FlatEntries es)
    (hi : places.find i = .ok j) (ht : Expands es i t) : Expands kept j t := by
  induction i using Nat.strongRecOn generalizing j t with
  | ind i ih =>
    obtain ⟨e, e', he, hmove, hj⟩ := h.moved i j hi
    obtain ⟨place, hplace, rfl⟩ := Placement.move_eq_ok_iff.mp hmove
    obtain ⟨e', g, he', hg, rfl⟩ := ht.elim
    obtain rfl : e' = e := Option.some.inj (he'.symm.trans he)
    refine Expands.moved e' place g hj fun k hk => ?_
    exact ih k ((hflat i _ he).lt hk) (hplace k hk) (hg k hk)

/-! ## Normal forms -/

/-- Normalizing keeps the needed entries, and moves the columns and the condition to them. -/
structure Normalizes (p q : Program) (places : Placement) : Prop where
  kept : Kept p.entries (needed p.entries p.roots) q.entries places
  complete : p.entries.length ≤ places.length
  nodup : q.entries.Nodup
  columns : places.moveColumns p.columns = .ok q.columns
  condition : p.condition.mapM places.find = .ok q.condition

theorem Normalizes.of_normalize (hts : Typed p.inputType p.entries ts) (h : p.normalize = .ok q) :
    ∃ places, Normalizes p q places := by
  obtain ⟨⟨b, places⟩, hkeep, h⟩ := Except.bind_eq_ok_iff.mp h
  obtain ⟨columns, hcolumns, h⟩ := Except.bind_eq_ok_iff.mp h
  obtain ⟨condition, hcondition, h⟩ := Except.bind_eq_ok_iff.mp h
  obtain ⟨-, hentries, rfl, rfl, -⟩ := check_eq_ok_iff.mp h
  obtain ⟨hd, hkept, hlen⟩ := Kept.of_keepFrom hts.flatEntries (Builder.indexed_new _)
    (Builder.distinct_new _) .nil rfl hkeep
  exact ⟨places, hentries ▸ hkept, hlen, hentries ▸ hd.nodup, hcolumns, hcondition⟩

variable {us : List ScalarType}

theorem Normalizes.column (h : Normalizes p q places) {c : Column} (hc : c ∈ p.columns) :
    ∃ c' ∈ q.columns, places.find c.entry = .ok c'.entry := by
  obtain ⟨c', hc', h⟩ := (List.mapM_eq_ok_iff.mp h.columns).exists_of_mem_left hc
  obtain ⟨j, hj, h⟩ := Except.bind_eq_ok_iff.mp h
  obtain rfl := Except.ok.inj h
  exact ⟨_, hc', hj⟩

theorem Normalizes.condition_mem (h : Normalizes p q places) (hi : i ∈ p.condition) :
    ∃ j ∈ q.condition, places.find i = .ok j := by
  have hcondition := h.condition
  rw [hi] at hcondition
  obtain ⟨j, hj, hcondition⟩ := Except.bind_eq_ok_iff.mp hcondition
  exact ⟨j, (Except.ok.inj hcondition).symm, hj⟩

/-- A needed entry has a place, which is needed there. -/
theorem Normalizes.needs (h : Normalizes p q places) (hi : p.Needs i) :
    ∃ j, places.find i = .ok j ∧ q.Needs j := by
  induction hi with
  | column hc =>
    obtain ⟨c', hc', hj⟩ := h.column hc
    exact ⟨_, hj, .column hc'⟩
  | condition hc =>
    obtain ⟨j, hjc, hj⟩ := h.condition_mem hc
    exact ⟨j, hj, .condition hjc⟩
  | operand _ he hk ih =>
    obtain ⟨j, hj, hneeds⟩ := ih
    obtain ⟨e, e', he', hmove, hje⟩ := h.kept.moved _ j hj
    obtain rfl := Option.some.inj (he'.symm.trans he)
    obtain ⟨g, hg, rfl⟩ := Placement.move_eq_ok_iff.mp hmove
    refine ⟨g _, hg _ hk, hneeds.operand hje ?_⟩
    rw [Expr.temps_subst_temp]
    exact List.mem_map_of_mem hk

/-- Nothing is kept that is not needed. -/
theorem Normalizes.all_needed (hts : Typed p.inputType p.entries ts) (h : Normalizes p q places)
    (hj : j < q.entries.length) : q.Needs j := by
  obtain ⟨i, hi⟩ := h.kept.filled j hj
  obtain ⟨j', hj', hneeds⟩ := h.needs (hts.mem_needed_iff.mp (h.kept.needed i j hi))
  rwa [Except.ok.inj (hi.symm.trans hj')]

/-- The place of a needed entry is the entry that expands to the same. -/
theorem Normalizes.find_eq_ok_iff (hp : Typed p.inputType p.entries ts)
    (hq : Typed q.inputType q.entries us) (h : Normalizes p q places) :
    places.find i = .ok j ↔ p.Needs i ∧ ∃ t, p.expand i = .ok t ∧ q.expand j = .ok t := by
  simp only [hp.expand_eq_ok_iff, hq.expand_eq_ok_iff]
  constructor
  · intro hi
    obtain ⟨e, -, he, -, -⟩ := h.kept.moved i j hi
    obtain ⟨u, hu, -⟩ := hp.type he
    obtain ⟨t, ht, -⟩ := hp.expands hu
    exact ⟨hp.mem_needed_iff.mp (h.kept.needed i j hi), t, ht, h.kept.expands hp.flatEntries hi ht⟩
  · rintro ⟨hi, t, ht, htj⟩
    obtain ⟨j', hj', -⟩ := h.needs hi
    have htj' := h.kept.expands hp.flatEntries hj' ht
    rwa [htj.index_unique hq.flatEntries h.nodup htj']

/-! ## Meaning -/

/-- A valid program has a normal form, of the same types and expansions, which gives the same result
on every row, failures included. -/
theorem normalize_meaning (hp : p.Valid) :
    ∃ q columns c, p.normalize = .ok q ∧
      q.inputType = p.inputType ∧ q.outputType = p.outputType ∧
      (p.expandedColumns = .ok columns ∧ q.expandedColumns = .ok columns) ∧
      (p.expandedCondition = .ok c ∧ q.expandedCondition = .ok c) ∧
      ∀ row, q.run row = p.run row := by
  obtain ⟨c, trees, hm, -⟩ := hp.exists_means
  obtain ⟨q, hq, hqv, hin, hout, hmq⟩ := exists_normalize hp hm
  obtain ⟨ts, -, hf⟩ := valid_iff.mp hp
  obtain ⟨us, -, hfq⟩ := valid_iff.mp hqv
  have hcolumns := hm.expandedColumns hp
  have hcolumnsq := hmq.expandedColumns hqv
  rw [hf.names_eq] at hcolumns
  rw [hfq.names_eq, hout] at hcolumnsq
  refine ⟨q, _, c, hq, hin, hout, ⟨hcolumns, hcolumnsq⟩,
    ⟨hm.expandedCondition hp, hmq.expandedCondition hqv⟩, fun row => ?_⟩
  by_cases hrow : row.length = p.inputType.length
  · rw [hm.run_eq hp hrow, hmq.run_eq hqv (hin ▸ hrow)]
  · rw [run, run, hin, if_neg hrow, if_neg hrow]

/-- The same sum twice over, each time from entries of its own, one of them shared with the
condition; the first entry is of no use. -/
def cluttered : Program where
  inputType := [⟨"a", .int⟩]
  entries := [
    .literal (.string "unused"), .input 0, .literal (.int 1), .binary (.temp 1) .add (.temp 2),
    .input 0, .literal (.int 1), .binary (.temp 4) .add (.temp 5),
    .binary (.temp 3) .mul (.temp 6), .binary (.temp 6) .gt (.temp 2)]
  columns := [⟨7, "square"⟩, ⟨3, "next"⟩]
  condition := some 8
  outputType := [⟨"square", .int⟩, ⟨"next", .int⟩]

theorem cluttered_valid : cluttered.Valid := rfl

/-- A row that passes, one that is dropped, one whose sum is out of range, and one that is no row of
the type. -/
theorem normalize_meaning_cluttered :
    cluttered.Valid ∧ ∃ q, cluttered.normalize = .ok q ∧
      q.run [.int 2] = .ok (some [.int 9, .int 3]) ∧ q.run [.int 0] = .ok none ∧
      q.run [.int Int64.maxValue] = .error (.evaluation (.value (.overflow .add))) ∧
      q.run [] = .error (.evaluation (.rowWidth 0 1)) := by
  obtain ⟨q, -, -, hq, -, -, -, -, hrun⟩ := normalize_meaning cluttered_valid
  refine ⟨cluttered_valid, q, hq, ?_⟩
  simp only [hrun]
  decide +kernel

/-! ## Order -/

/-- Among these entries of `p`, the entry `i` is the first one that expands to what the entry `j` of
`q` expands to. -/
structure FirstOccurrence (among : Nat → Prop) (p q : Program) (i j : Nat) : Prop where
  mem : among i
  same : ∃ t, p.expand i = .ok t ∧ q.expand j = .ok t
  first : ∀ k < i, among k → p.expand k ≠ q.expand j

/-- The entries of `q` occur among these entries of `p`, and are in the order of their first
occurrences. -/
structure KeepsOrder (among : Nat → Prop) (p q : Program) : Prop where
  occurs : ∀ j < q.entries.length, ∃ i, FirstOccurrence among p q i j
  ordered : ∀ i j i' j', FirstOccurrence among p q i j → FirstOccurrence among p q i' j' →
    j < j' → i < i'

theorem Normalizes.firstOccurrence_iff (hp : Typed p.inputType p.entries ts)
    (hq : Typed q.inputType q.entries us) (h : Normalizes p q places) :
    FirstOccurrence p.Needs p q i j ↔ places.find i = .ok j ∧ ∀ k < i, places.find k ≠ .ok j := by
  simp only [ne_eq, h.find_eq_ok_iff hp hq]
  constructor
  · rintro ⟨hi, hsame, hfirst⟩
    refine ⟨⟨hi, hsame⟩, fun k hlt ⟨hk, t, ht, htj⟩ => ?_⟩
    exact hfirst k hlt hk (ht.trans htj.symm)
  · rintro ⟨⟨hi, t, ht, htj⟩, hfirst⟩
    exact ⟨hi, ⟨t, ht, htj⟩, fun k hlt hk heq => hfirst k hlt ⟨hk, t, heq.trans htj, htj⟩⟩

theorem Normalizes.keepsOrder (hp : Typed p.inputType p.entries ts)
    (hq : Typed q.inputType q.entries us) (h : Normalizes p q places) :
    KeepsOrder p.Needs p q := by
  have hiff {i j} := h.firstOccurrence_iff (i := i) (j := j) hp hq
  constructor
  · intro j hj
    classical
    have hex := h.kept.filled j hj
    exact ⟨Nat.find hex, hiff.mpr ⟨Nat.find_spec hex, fun k hk => Nat.find_min hex hk⟩⟩
  · intro i j i' j' hi hi' hlt
    obtain ⟨-, hfirst⟩ := hiff.mp hi
    obtain ⟨hi', -⟩ := hiff.mp hi'
    -- The place `j` is filled before `j'` is, and not before `i`.
    obtain ⟨k, hk, hkj⟩ := h.kept.ordered i' j' hi' j hlt
    exact Nat.lt_of_le_of_lt (Nat.le_of_not_lt fun hki => hfirst k hki hkj) hk

/-! ## Programs in normal form -/

/-- Different entries are kept in different places. -/
theorem Kept.find_inj (h : Kept es need kept places) (hflat : FlatEntries es) (hnodup : es.Nodup)
    (hi : places.find i = .ok n) (hj : places.find j = .ok n) : i = j := by
  obtain ⟨_, -, hei, -, -⟩ := h.moved i n hi
  obtain ⟨_, -, hej, -, -⟩ := h.moved j n hj
  obtain ⟨t, ht⟩ := hflat.exists_expandWithin (List.getElem?_eq_some_iff.mp hei).1
  obtain ⟨u, hu⟩ := hflat.exists_expandWithin (List.getElem?_eq_some_iff.mp hej).1
  have ht : Expands es i t := ⟨_, ht⟩
  have hu : Expands es j u := ⟨_, hu⟩
  obtain rfl := (h.expands hflat hi ht).unique (h.expands hflat hj hu)
  exact ht.index_unique hflat hnodup hu

/-- Where all entries are needed and no two are equal, they stay where they are. -/
theorem Kept.find_self (h : Kept es need kept places) (hflat : FlatEntries es) (hnodup : es.Nodup)
    (hlen : es.length ≤ places.length) (hneed : ∀ i < es.length, i ∈ need) (hi : i < es.length) :
    places.find i = .ok i := by
  induction i using Nat.strongRecOn with
  | ind i ih =>
    obtain ⟨j, hj⟩ := h.placed i (Nat.lt_of_lt_of_le hi hlen) (hneed i hi)
    rcases Nat.lt_trichotomy j i with hlt | rfl | hlt
    · have hself := ih j hlt (Nat.lt_trans hlt hi)
      exact absurd (h.find_inj hflat hnodup hself hj) (Nat.ne_of_lt hlt)
    · exact hj
    -- The place `i` has been filled by an earlier entry, which has its own place.
    · obtain ⟨k, hk, hki⟩ := h.ordered i j hj i hlt
      have hself := ih k hk (Nat.lt_trans hk hi)
      exact absurd (Except.ok.inj (hself.symm.trans hki)) (Nat.ne_of_lt hk)

theorem Kept.entries_eq (h : Kept es need kept places) (hflat : FlatEntries es)
    (hself : ∀ i < es.length, places.find i = .ok i) : kept = es := by
  apply List.ext_getElem?
  intro i
  by_cases hi : i < es.length
  · obtain ⟨e, e', he, hmove, hkept⟩ := h.moved i i (hself i hi)
    have hstay : places.move e = .ok e := Placement.move_eq_ok_iff.mpr
      ⟨id, fun k hk => hself k (Nat.lt_trans ((hflat i e he).lt hk) hi),
        (Expr.subst_input_temp e).symm⟩
    rw [hkept, he, Except.ok.inj (hmove.symm.trans hstay)]
  · have hlen : ¬ i < kept.length := by
      intro hkept
      obtain ⟨k, hk⟩ := h.filled i hkept
      obtain ⟨e, -, he, -, -⟩ := h.moved k i hk
      have hlt := (List.getElem?_eq_some_iff.mp he).1
      exact hi (Except.ok.inj ((hself k hlt).symm.trans hk) ▸ hlt)
    rw [List.getElem?_eq_none (Nat.le_of_not_lt hi), List.getElem?_eq_none (Nat.le_of_not_lt hlen)]

/-- The programs in normal form are those without repeated and unneeded entries. -/
theorem normalize_eq_self_iff (hp : p.Valid) :
    p.normalize = .ok p ↔ p.entries.Nodup ∧ ∀ i < p.entries.length, p.Needs i := by
  obtain ⟨ts, hts, hf⟩ := valid_iff.mp hp
  constructor
  · intro h
    obtain ⟨places, h⟩ := Normalizes.of_normalize hts h
    exact ⟨h.nodup, fun i hi => h.all_needed hts hi⟩
  · rintro ⟨hnodup, hneeds⟩
    obtain ⟨c, trees, hm, -⟩ := hp.exists_means
    obtain ⟨q, hq, hqv, hin, -⟩ := exists_normalize hp hm
    obtain ⟨places, h⟩ := Normalizes.of_normalize hts hq
    have hself : ∀ i < p.entries.length, places.find i = .ok i := fun i hi =>
      h.kept.find_self hts.flatEntries hnodup h.complete
        (fun k hk => hts.mem_needed_iff.mpr (hneeds k hk)) hi
    have hentries := h.kept.entries_eq hts.flatEntries hself
    have hcolumns : places.moveColumns p.columns = .ok p.columns := by
      refine List.mapM_eq_ok_iff.mpr (List.forall₂_same.mpr fun col hcol => ?_)
      obtain ⟨f, -, hty, -⟩ := hf.columns.exists_of_mem_left hcol
      rw [hself _ (hts.lt_of_type hty)]
      rfl
    have hcondition : p.condition.mapM places.find = .ok p.condition := by
      cases hc : p.condition with
      | none => rfl
      | some i =>
        obtain ⟨u, hty, -⟩ := hf.condition i hc
        rw [Option.mapM_some, hself i (hts.lt_of_type hty)]
        rfl
    -- The parts are the same, and a program is what its parts make.
    have hparts : check q.inputType q.entries q.columns q.condition = .ok p := by
      rw [hin, hentries, Except.ok.inj (h.columns.symm.trans hcolumns),
        Except.ok.inj (h.condition.symm.trans hcondition)]
      exact hp
    rw [hq, ← hparts]
    exact hqv.symm

/-- Normalizing gives a program in normal form, where no two entries are equal and each is needed.
Entries are equal if they have the same structure, where literals are one if their floats have the
same bits or are both `NaN`, so `0.0` and `-0.0` may be two entries. The entries are in the order in
which they first occur among the needed entries of the program. -/
theorem normalize_canonical (hp : p.Valid) :
    ∃ q, p.normalize = .ok q ∧ q.entries.Nodup ∧ (∀ i < q.entries.length, q.Needs i) ∧
      KeepsOrder p.Needs p q ∧ q.normalize = .ok q := by
  obtain ⟨ts, hts, -⟩ := valid_iff.mp hp
  obtain ⟨c, trees, hm, -⟩ := hp.exists_means
  obtain ⟨q, hq, hqv, -⟩ := exists_normalize hp hm
  obtain ⟨us, hus, -⟩ := valid_iff.mp hqv
  obtain ⟨places, h⟩ := Normalizes.of_normalize hts hq
  have hneeds : ∀ i < q.entries.length, q.Needs i := fun i hi => h.all_needed hts hi
  exact ⟨q, hq, h.nodup, hneeds, h.keepsOrder hts hus,
    (normalize_eq_self_iff hqv).mpr ⟨h.nodup, hneeds⟩⟩

def decluttered : Program :=
  { cluttered with
    entries := [
      .input 0, .literal (.int 1), .binary (.temp 0) .add (.temp 1),
      .binary (.temp 2) .mul (.temp 2), .binary (.temp 2) .gt (.temp 1)]
    columns := [⟨3, "square"⟩, ⟨2, "next"⟩]
    condition := some 4 }

/-- The second sum falls together with the first one as soon as their operands have. -/
theorem normalize_canonical_cluttered :
    cluttered.Valid ∧ cluttered.normalize = .ok decluttered ∧ decluttered.entries.Nodup ∧
      (∀ i < decluttered.entries.length, decluttered.Needs i) ∧
      KeepsOrder cluttered.Needs cluttered decluttered ∧
      decluttered.normalize = .ok decluttered := by
  have hdecluttered : cluttered.normalize = .ok decluttered := by decide +kernel
  obtain ⟨q, hq, h⟩ := normalize_canonical cluttered_valid
  obtain rfl := Except.ok.inj (hq.symm.trans hdecluttered)
  exact ⟨cluttered_valid, hq, h⟩

/-- Shows a field that an unneeded entry holds as well. -/
def shadowed : Program where
  inputType := [⟨"a", .int⟩]
  entries := [.input 0, .literal (.int 1), .input 0]
  columns := [⟨1, "one"⟩, ⟨2, "a"⟩]
  condition := none
  outputType := [⟨"one", .int⟩, ⟨"a", .int⟩]

def unshadowed : Program :=
  { shadowed with entries := [.literal (.int 1), .input 0], columns := [⟨0, "one"⟩, ⟨1, "a"⟩] }

/-- Unneeded occurrences do not count: among all entries, the two that are kept occur first in the
other order. -/
theorem normalize_shadowed :
    shadowed.Valid ∧ shadowed.normalize = .ok unshadowed ∧
      FirstOccurrence (· < shadowed.entries.length) shadowed unshadowed 1 0 ∧
      FirstOccurrence (· < shadowed.entries.length) shadowed unshadowed 0 1 ∧
      ¬ KeepsOrder (· < shadowed.entries.length) shadowed unshadowed := by
  have hone : FirstOccurrence (· < shadowed.entries.length) shadowed unshadowed 1 0 :=
    ⟨by decide, ⟨_, rfl, rfl⟩, by decide +kernel⟩
  have hfield : FirstOccurrence (· < shadowed.entries.length) shadowed unshadowed 0 1 :=
    ⟨by decide, ⟨_, rfl, rfl⟩, nofun⟩
  refine ⟨rfl, rfl, hone, hfield, fun h => ?_⟩
  exact absurd (h.ordered 1 0 0 1 hone hfield (by decide)) (by decide)

end Program
end RelPlan
