import Mathlib.Data.Set.Card
import NameIndex.Proofs.HandleOrder
import NameIndex.Proofs.Handles
import NameIndex.Proofs.Records

/-!
# What the statistics count

The five numbers of the statistics are the sizes of five tables. Three of the tables follow what is
tracked at present: the segments, the labels that they declare and their disjointness constraints.
The other two follow the whole run: a record is made with the first declaration of its symbol and
stays when the last one goes, and a name that has been interned stays interned. So these two count
what any segment that was ever added has declared, also under ids that have been given to other
segments since.

Records stay because their handles are not zero, which holds as long as the words reach.

## Main definitions

* `Index.History` — a run of changes, with the revisions that it has added.

## Main results

* `Index.Exact.mem_records_step`, `Index.Exact.mem_names_step` — what one change makes of the two
  tables that only grow.
* `Index.stats_of_history` — what each of the five numbers counts.
-/

namespace NameIndex.Index

variable {ix ix' : Index} {change : Change} {added : Set Revision} {n : String}

/-! ## §1 Histories -/

/-- The revisions that a change brings into the index. -/
def brought (ix : Index) (change : Change) : Set Revision := {r | ∃ id, ix.Brings change id r}

/-- **A run of changes with what it has added**: the revisions that some change of the run brought
into the index, whether they are still tracked or not. -/
inductive History : Set Revision → Index → Prop where
  | new (order : Order) : History ∅ (Index.new order)
  | step {added : Set Revision} {ix ix' : Index} {change : Change} (hix : History added ix)
      (hstep : Step ix change ix') : History (added ∪ ix.brought change) ix'

/-- An update brings what its plan adds. -/
theorem Plans.exists_mem_fresh_iff {c : Collection} {p : UpdatePlan} (hplan : ix.Plans c p)
    (P : Revision → Prop) : (∃ q ∈ p.fresh, P q.2) ↔ ∃ r ∈ ix.brought (.update c), P r := by
  constructor
  · rintro ⟨⟨id, r⟩, hq, hr⟩
    exact ⟨r, ⟨id, hplan.mem_fresh_iff_brings.mp hq⟩, hr⟩
  · rintro ⟨r, ⟨id, hbrings⟩, hr⟩
    exact ⟨(id, r), hplan.mem_fresh_iff_brings.mpr hbrings, hr⟩

/-- An addition brings its segment, unless the id is in use. -/
theorem brought_add (ix : Index) (id : SegmentId) (r : Revision) :
    ix.brought (.add id r) = if ix.contains id then ∅ else {r} := by
  ext r'
  cases hcontains : ix.contains id <;> simp [brought, Brings, hcontains]

@[simp] theorem brought_remove (ix : Index) (id : SegmentId) : ix.brought (.remove id) = ∅ := by
  simp [brought, Brings]

theorem History.reachable (h : History added ix) : ix.Reachable := by
  induction h with
  | new order => exact .new order
  | step _ hstep ih => exact ih.step hstep

/-! ## §2 The tables that only grow -/

/-- Removing segments drops no record, as long as the words reach. -/
theorem Exact.mem_records_removeAll (h : ix.Exact) (hsize : ix.atoms.size < UInt32.size)
    (ids : List SegmentId) : n ∈ (ids.foldl Index.remove ix).records ↔ n ∈ ix.records := by
  induction ids generalizing ix with
  | nil => exact Iff.rfl
  | cons id ids ih =>
    have hsize' : (ix.remove id).atoms.size < UInt32.size := by rwa [(ix.remove_frame id).2.2]
    rw [List.foldl_cons, ih (h.remove id) hsize', h.mem_records_remove_iff hsize id]

/-- Adding new segments makes a record for each name that they declare. -/
theorem mem_records_addAll {fresh : List (SegmentId × Revision)}
    (hnodup : (fresh.map Prod.fst).Nodup) (hnew : ∀ q ∈ fresh, ix.tracked[q.1]? = none)
    (hadd : fresh.foldlM (fun ix (id, r) => ix.add id r) ix = .ok ix') :
    n ∈ ix'.records ↔ n ∈ ix.records ∨ ∃ q ∈ fresh, n ∈ q.2.content.recorded := by
  induction fresh generalizing ix with
  | nil =>
    obtain rfl := Except.ok.inj hadd
    simp
  | cons q fresh ih =>
    obtain ⟨id, r⟩ := q
    rw [List.foldlM_cons] at hadd
    obtain ⟨ix₁, hone, hrest⟩ := bind_eq_ok_iff.mp hadd
    have hfresh := hnew (id, r) List.mem_cons_self
    rw [List.map_cons, List.nodup_cons] at hnodup
    -- the segments that follow are still new when their turn comes
    have hnew₁ := (added_of_add hfresh hone).untracked hnodup.1
      fun q hq => hnew q (List.mem_cons_of_mem _ hq)
    rw [ih hnodup.2 hnew₁ hrest, mem_records_add hfresh hone, or_assoc]
    simp

/-- **One change and the records**: a symbol has a record if it had one or if a segment that the
change brings declares it. -/
theorem Exact.mem_records_step (hix : ix.Exact) (hstep : Step ix change ix')
    (hsize : ix'.atoms.size < UInt32.size) :
    n ∈ ix'.records ↔ n ∈ ix.records ∨ ∃ r ∈ ix.brought change, n ∈ r.content.recorded := by
  -- the words have reached before, since the table of names only grows
  have hsize₀ : ix.atoms.size < UInt32.size :=
    (AtomTable.size_le_of_subset (hix.names_grow_of_step hstep).subset).trans_lt
      (ix'.atoms.size_eq ▸ hsize)
  cases hstep with
  | @update c p _ hplan hrun =>
    -- the removals keep every record, and the additions make those of what they bring
    have hkept := (hix.setOrder c.order).mem_records_removeAll (n := n) hsize₀ p.stale
    rw [carryOut_eq] at hrun
    rw [mem_records_addAll hplan.nodup_fresh hplan.untracked_fresh hrun, hkept]
    exact or_congr_right (hplan.exists_mem_fresh_iff fun r => n ∈ r.content.recorded)
  | @add id r _ hadd =>
    rw [brought_add]
    cases hcontains : ix.contains id with
    | true =>
      -- an id in use brings nothing and changes nothing
      rw [add_of_contains hcontains] at hadd
      obtain rfl := Except.ok.inj hadd
      simp
    | false =>
      rw [mem_records_add (contains_eq_false_iff.mp hcontains) hadd]
      simp
  | remove id =>
    rw [hix.mem_records_remove_iff hsize₀ id]
    simp

/-- **One change and the names**: a name is interned if it was or if a segment that the change brings
mentions it. -/
theorem Exact.mem_names_step (hix : ix.Exact) (hstep : Step ix change ix') :
    n ∈ ix'.atoms.names ↔
      n ∈ ix.atoms.names ∨ ∃ r ∈ ix.brought change, n ∈ r.content.mentions := by
  cases hstep with
  | update hplan hrun =>
    rw [hix.atoms_carryOut hplan hrun, AtomTable.mem_names_internAll, List.mem_flatMap]
    simp only [Segment.names_eq_mentions]
    exact or_congr_right (hplan.exists_mem_fresh_iff fun r => n ∈ r.content.mentions)
  | @add id r _ hadd =>
    rw [brought_add]
    cases hcontains : ix.contains id with
    | true =>
      rw [add_of_contains hcontains] at hadd
      obtain rfl := Except.ok.inj hadd
      simp
    | false =>
      rw [(hix.tidy.add (contains_eq_false_iff.mp hcontains) hadd).2, AtomTable.mem_names_internAll,
        Segment.names_eq_mentions]
      simp
  | remove id =>
    rw [(ix.remove_frame id).2.2]
    simp

/-- What a table that grows with what is added has after one more change. -/
theorem mem_union_iff {P Q : Prop} {S T : Set Revision} {f : Revision → List String}
    (hP : P ↔ ∃ r ∈ S, n ∈ f r) (hQ : Q ↔ P ∨ ∃ r ∈ T, n ∈ f r) :
    Q ↔ ∃ r ∈ S ∪ T, n ∈ f r := by
  rw [hQ, hP]
  simp only [Set.mem_union, or_and_right, exists_or]

/-- **A run and the records**: the symbols with a record are those that a segment ever added has
declared or bound. -/
theorem History.mem_records_iff (h : History added ix) (hsize : ix.atoms.size < UInt32.size) :
    n ∈ ix.records ↔ ∃ r ∈ added, n ∈ r.content.recorded := by
  induction h with
  | new order => simp [Index.new]
  | step hix hstep ih =>
    have hexact := hix.reachable.exact
    have hsize₀ := (AtomTable.size_le_of_subset (hexact.names_grow_of_step hstep).subset).trans_lt
      (AtomTable.size_eq _ ▸ hsize)
    exact mem_union_iff (ih hsize₀) (hexact.mem_records_step hstep hsize)

/-- **A run and the names**: the interned names are those that a segment ever added has mentioned. -/
theorem History.mem_names_iff (h : History added ix) :
    n ∈ ix.atoms.names ↔ ∃ r ∈ added, n ∈ r.content.mentions := by
  induction h with
  | new order => exact iff_of_false List.not_mem_nil (by simp)
  | step hix hstep ih => exact mem_union_iff ih (hix.reachable.exact.mem_names_step hstep)

/-! ## §3 Counting -/

theorem encard_mem_list {α : Type} {l : List α} (h : l.Nodup) : {x | x ∈ l}.encard = l.length := by
  classical
  rw [← List.coe_toFinset, Set.encard_coe_eq_coe_finsetCard, List.toFinset_card_of_nodup h]

/-- The size of a map counts its keys. -/
theorem encard_mem_map {κ β : Type} [Ord κ] [Std.TransOrd κ] [Std.LawfulEqOrd κ]
    (m : Std.ExtTreeMap κ β) : {k | k ∈ m}.encard = m.size := by
  rw [← Std.ExtTreeMap.length_keys, ← encard_mem_list Std.ExtTreeMap.nodup_keys]
  simp only [Std.ExtTreeMap.mem_keys]

/-- There are as many constraints as the tracked segments declare. -/
theorem Exact.size_disjoints (h : ix.Exact) :
    ix.disjoints.size = (ix.tracked.toList.map fun q => q.2.content.disjoints.length).sum := by
  have hlength : ix.disjoints.size = (ix.declared .disjoints).length :=
    (h.content .disjoints).length_eq
  rw [hlength, declared, List.length_flatMap]
  simp [SlotKey.declared, SlotKey.sources]

/-! ## §4 The whole account -/

/-- **What the statistics count**, after any run of changes whose names the words can tell apart. The
segments are the tracked ids; the labels are those that tracked segments declare; the constraints are
those of tracked segments, all together; the symbols are those that any segment ever added has
declared or bound in a floating hypothesis; the names are those that any segment ever added has
mentioned. -/
theorem stats_of_history (h : History added ix) (hsize : ix.atoms.size < UInt32.size) :
    ix.stats.segments = {id | id ∈ ix.tracked}.encard ∧
    ix.stats.labels = {l | ∃ (id : SegmentId) (r : Revision), ix.tracked[id]? = some r ∧
      ∃ d ∈ r.content.labels, d.label = l}.encard ∧
    ix.stats.disjoints = (ix.tracked.toList.map fun q => q.2.content.disjoints.length).sum ∧
    ix.stats.symbols = {n | ∃ r ∈ added, (∃ d ∈ r.content.symbols, d.name = n) ∨
      ∃ d ∈ r.content.floats, d.name = n}.encard ∧
    ix.stats.atoms = {n | ∃ r ∈ added, n ∈ r.content.mentions}.encard := by
  have hexact := h.reachable.exact
  refine ⟨(encard_mem_map ix.tracked).symm, ?labels, hexact.size_disjoints, ?symbols, ?atoms⟩
  case labels =>
    -- a label has a slot while the slot holds something, that is while it is declared
    rw [stats, ← encard_mem_map ix.labels]
    simp only [hexact.mem_labels_iff, hexact.isSome_top?_iff]
    simp [SlotKey.sources]
  case symbols =>
    -- records follow the run, and each has its own key
    rw [stats, ← encard_mem_map ix.records]
    simp only [h.mem_records_iff hsize, Segment.recorded, List.mem_append, List.mem_map]
  case atoms =>
    -- no name is interned twice
    rw [stats, AtomTable.size_eq, ← encard_mem_list hexact.tidy.nodup]
    simp only [h.mem_names_iff]

/-- Only the upper segment of the sample declares `z`. When it has been removed, one segment with one
label and one constraint is left; the symbols are still `x` and `z`, and the names are still the five
that the two segments mention. -/
theorem stats_of_history_after_removal :
    ∃ added ix, History added ix ∧ Sample.upper ∈ added ∧ ix.tracked[(2 : SegmentId)]? = none ∧
      ix.stats = ⟨1, 1, 2, 1, 5⟩ ∧
      {n | ∃ r ∈ added, (∃ d ∈ r.content.symbols, d.name = n) ∨
        ∃ d ∈ r.content.floats, d.name = n}.encard = 2 ∧
      {n | ∃ r ∈ added, n ∈ r.content.mentions}.encard = 5 := by
  have hstats : ((new .empty).update Sample.both).toOption.map (fun ix => (ix.remove 2).stats) =
      some ⟨1, 1, 2, 1, 5⟩ := by decide +kernel
  obtain ⟨ix, hsome, hstats⟩ := Option.map_eq_some_iff.mp hstats
  have hstep := step_of_update (eq_ok_of_toOption hsome)
  have hhistory := ((History.new .empty).step hstep).step (.remove 2)
  have hupper : Sample.upper ∈ (new .empty).brought (.update Sample.both) :=
    ⟨2, by decide +kernel, by decide +kernel⟩
  have hsize : (ix.remove 2).atoms.size < UInt32.size := by
    rw [show (ix.remove 2).atoms.size = 5 from congrArg Stats.atoms hstats]
    decide
  obtain ⟨-, -, -, hsymbols, hatoms⟩ := stats_of_history hhistory hsize
  rw [hstats] at hsymbols hatoms
  refine ⟨_, _, hhistory, .inl (.inr hupper), ?_, hstats, hsymbols.symm, hatoms.symm⟩
  simp [(ix.remove_frame 2).2.1]

end NameIndex.Index
