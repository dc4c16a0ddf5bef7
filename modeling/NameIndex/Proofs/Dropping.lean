import Mathlib.Data.List.Induction
import NameIndex.Proofs.HandleOrder
import NameIndex.Proofs.Reports
import NameIndex.Proofs.SpecCollection
import NameIndex.Yaml.Fragment

/-!
# Dropping a segment is never having read it

A run that drops segments indexes everything first and then brings the index into step with what is
left. What it reports is what a run reports that has not read the dropped segments: the slots of both
indexes are the declarations of what is left, in document order. Only handles may differ, since the
names of the dropped segments took theirs, and these names are still known: they have no partners
where the other run does not know them.

## Architecture

1. A list of ids can be dropped iff all are there and none is given twice; otherwise the first that
   is not so is reported (`Collection.MadeOf.dropAll`, `Collection.MadeOf.dropAll_error`).
2. What is left stands in the order it stood in, so the second update finds every slot arranged
   (`Index.Reflects.update`).
3. Indexes of the same segments report alike (`Index.Reflects.reports`).
4. A run builds such an index or reports the id (`Tool.run_build`, `Tool.run_build_error`), and both
   runs are compared (`Tool.run_drop`).
-/

namespace NameIndex

/-! ## §1 Dropping from a collection -/

/-- The ids can be dropped one after the other: they are those of different segments. -/
def Collection.Droppable (c : Collection) (drops : List SegmentId) : Prop :=
  drops.Nodup ∧ ∀ id ∈ drops, id ∈ c.segments

/-- The first id from the left that cannot be dropped: it is not there, or it has been dropped. -/
def Collection.FirstUndroppable (c : Collection) (drops : List SegmentId) (id : SegmentId) : Prop :=
  ∃ done rest, drops = done ++ id :: rest ∧ c.Droppable done ∧ (id ∉ c.segments ∨ id ∈ done)

namespace Collection

variable {c c' : Collection} {parts : List (SegmentId × Segment)} {id : SegmentId}
  {drops : List SegmentId}

theorem droppable_append_singleton :
    c.Droppable (drops ++ [id]) ↔ c.Droppable drops ∧ id ∈ c.segments ∧ id ∉ drops := by
  unfold Droppable
  simp only [List.nodup_append, List.nodup_singleton, List.mem_append, List.mem_singleton]
  constructor
  · rintro ⟨⟨hnodup, -, hne⟩, hmem⟩
    refine ⟨⟨hnodup, fun i hi => hmem i (Or.inl hi)⟩, hmem id (Or.inr rfl), fun hid => ?_⟩
    exact hne id hid id rfl rfl
  · rintro ⟨⟨hnodup, hmem⟩, hid, hnew⟩
    refine ⟨⟨hnodup, trivial, ?_⟩, ?_⟩
    · rintro i hi _ rfl rfl
      exact hnew hi
    · rintro i (hi | rfl)
      · exact hmem i hi
      · exact hid

theorem exists_firstUndroppable (h : ¬ c.Droppable drops) : ∃ id, c.FirstUndroppable drops id := by
  -- the list grows at its end, so the first offending id stays the first
  induction drops using List.reverseRecOn with
  | nil => exact absurd ⟨List.nodup_nil, by simp⟩ h
  | append_singleton drops last ih =>
    by_cases hdrops : c.Droppable drops
    · rw [droppable_append_singleton, not_and_or, not_and_or, not_not] at h
      exact ⟨last, drops, [], rfl, hdrops, h.resolve_left (not_not.mpr hdrops)⟩
    · obtain ⟨id, done, rest, rfl, hdone, hid⟩ := ih hdrops
      exact ⟨id, done, rest ++ [last], by simp, hdone, hid⟩

namespace MadeOf

/-- **One drop** leaves the other segments, in the order they have. -/
theorem drop (h : c.MadeOf parts) (hid : id ∈ c.segments) :
    ∃ c', Tool.drop c id = .ok c' ∧ c'.MadeOf (parts.filter fun part => part.1 ≠ id) := by
  have hcontains : (ListOrder.ofDistinct (parts.map Prod.fst) h.nodup).contains id = true := by
    rw [ListOrder.contains_iff, ListOrder.ids_ofDistinct]
    exact h.mem_segments_iff.mp hid
  have hids : (parts.map Prod.fst).erase id =
      (parts.filter fun part => part.1 ≠ id).map Prod.fst := by
    rw [h.nodup.erase_eq_filter, List.filter_map]
    congr 1
    apply List.filter_congr
    intro part _
    by_cases heq : part.1 = id <;> simp [heq]
  refine ⟨⟨.listed ((ListOrder.ofDistinct (parts.map Prod.fst) h.nodup).remove id),
    c.segments.erase id⟩, ?_, hids ▸ h.nodup.erase id, ?_, fun id' s => ?_⟩
  · simp [Tool.drop, drop?, h.order_eq, hcontains, without]
  · refine congrArg Order.listed (ListOrder.eq_of_ids_eq ?_)
    rw [ListOrder.ids_remove_eq_erase, ListOrder.ids_ofDistinct, ListOrder.ids_ofDistinct, hids]
  · rw [Std.ExtTreeMap.getElem?_erase, List.mem_filter, ← h.content_iff]
    by_cases heq : id = id'
    · simp [heq]
    · simp [heq, Ne.symm heq]

theorem drop_error (h : c.MadeOf parts) (hid : id ∉ c.segments) :
    Tool.drop c id = .error (.unknownDrop id) := by
  have hcontains : (ListOrder.ofDistinct (parts.map Prod.fst) h.nodup).contains id = false := by
    rw [Bool.eq_false_iff, ne_eq, ListOrder.contains_iff, ListOrder.ids_ofDistinct]
    exact fun hmem => hid (h.mem_segments_iff.mpr hmem)
  simp [Tool.drop, drop?, h.order_eq, hcontains]

theorem mem_segments_filter_iff (h : c.MadeOf parts)
    (h' : c'.MadeOf (parts.filter fun part => part.1 ∉ drops)) :
    id ∈ c'.segments ↔ id ∈ c.segments ∧ id ∉ drops := by
  rw [h.mem_segments_iff, h'.mem_segments_iff]
  simp only [List.mem_map, List.mem_filter, decide_eq_true_eq]
  constructor
  · rintro ⟨part, ⟨hpart, hkept⟩, rfl⟩
    exact ⟨⟨part, hpart, rfl⟩, hkept⟩
  · rintro ⟨⟨part, hpart, rfl⟩, hkept⟩
    exact ⟨part, ⟨hpart, hkept⟩, rfl⟩

/-- **Many drops** leave the segments that are not dropped. -/
theorem dropAll (h : c.MadeOf parts) (hdrops : c.Droppable drops) :
    ∃ c', drops.foldlM Tool.drop c = .ok c' ∧
      c'.MadeOf (parts.filter fun part => part.1 ∉ drops) := by
  -- the list is taken from its end: what is dropped last is there after all the others
  induction drops using List.reverseRecOn with
  | nil => exact ⟨c, rfl, by simpa using h⟩
  | append_singleton drops last ih =>
    obtain ⟨hdrops, hlast, hnew⟩ := droppable_append_singleton.mp hdrops
    obtain ⟨c₁, hc₁, hmade₁⟩ := ih hdrops
    have hlast₁ := (h.mem_segments_filter_iff hmade₁).mpr ⟨hlast, hnew⟩
    obtain ⟨c₂, hc₂, hmade₂⟩ := hmade₁.drop hlast₁
    refine ⟨c₂, ?_, ?_⟩
    · rw [List.foldlM_append, hc₁]
      show List.foldlM Tool.drop c₁ [last] = _
      rw [List.foldlM_cons, hc₂]
      rfl
    · rw [List.filter_filter] at hmade₂
      have hkeep : (parts.filter fun part => decide (part.1 ≠ last) && decide (part.1 ∉ drops)) =
          parts.filter fun part => part.1 ∉ drops ++ [last] := by
        apply List.filter_congr
        intro part _
        simp [not_or, and_comm]
      rwa [hkeep] at hmade₂

/-- Drops stop at the first id that cannot be dropped. -/
theorem dropAll_error (h : c.MadeOf parts) (hfirst : c.FirstUndroppable drops id) :
    drops.foldlM Tool.drop c = .error (.unknownDrop id) := by
  obtain ⟨done, rest, rfl, hdone, hid⟩ := hfirst
  obtain ⟨c₁, hc₁, hmade₁⟩ := h.dropAll hdone
  have hgone : id ∉ c₁.segments := by
    rw [h.mem_segments_filter_iff hmade₁, not_and_or, not_not]
    exact hid
  rw [List.foldlM_append, hc₁]
  show List.foldlM Tool.drop c₁ (id :: rest) = _
  rw [List.foldlM_cons, hmade₁.drop_error hgone]
  rfl

end MadeOf

end Collection

/-! ## §2 Shorter lists rank alike -/

namespace Order

/-- A list with some segments left out ranks the others as the whole list does. -/
theorem ranksAlike_of_sublist {list list' : ListOrder} (h : list'.ids.Sublist list.ids) :
    (listed list).RanksAlike (listed list') {id | id ∈ list'.ids} := by
  intro a ha b hb _ c d hc hd
  have hsame : list.compare a b = list'.compare a b :=
    ListOrder.compare_eq_of_sublist h (fun _ => ha) fun _ => hb
  rw [Except.ok.inj (hc.symm.trans (hsame.trans hd))]

end Order

/-! ## §3 Indexes in document order -/

namespace Index

variable {ix ix' : Index} {c c' : Collection} {parts : List (SegmentId × Segment)}

/-- The index has the order and the segments of the collection, and its slots are in document
order. -/
structure Reflects (ix : Index) (c : Collection) : Prop where
  exact : ix.Exact
  order_eq : ix.order = c.order
  tracked_eq : ix.tracked = c.segments
  arranged : ix.ArrangedBy c.order

theorem reflects_new (order : Order) : (new order).Reflects (.empty order) :=
  ⟨exact_new order, rfl, rfl, arrangedBy_new order order⟩

/-- **An update** that ranks what it retains as before leaves the slots in document order. -/
theorem Reflects.update (h : ix.Reflects c) (hc : c.order.StrictOn {id | id ∈ c.segments})
    (hc' : c'.order.StrictOn {id | id ∈ c'.segments})
    (hranks : c.order.RanksAlike c'.order {id | id ∈ c.segments ∧ id ∈ c'.segments})
    (hstep : Step ix (.update c') ix') : ix'.Reflects c' := by
  obtain ⟨horder, htracked⟩ := h.exact.frame_of_update hstep
  refine ⟨h.exact.step hstep, horder, htracked, ?_⟩
  cases hstep with
  | update hplan hrun =>
    apply ArrangedBy.carryOut _ h.exact _ hc' _ hplan hrun
    · rw [h.order_eq]
      exact h.arranged
    · rwa [h.order_eq, h.tracked_eq]
    · -- what is tracked unchanged is in both collections
      rw [h.order_eq, h.tracked_eq]
      have hretained : ∀ id, id ∈ c.segments ∧ c.segments[id]? = c'.segments[id]? →
          id ∈ c.segments ∧ id ∈ c'.segments := by
        rintro id ⟨hmem, heq⟩
        refine ⟨hmem, ?_⟩
        rwa [Std.ExtTreeMap.mem_iff_isSome_getElem?, ← heq,
          ← Std.ExtTreeMap.mem_iff_isSome_getElem?]
      exact fun a ha b hb => hranks a (hretained a ha) b (hretained b hb)

/-- An update interns the names of the collection, and keeps those it finds. -/
theorem Exact.mem_names_update_iff (hix : ix.Exact) (hstep : Step ix (.update c) ix') {n : String} :
    n ∈ ix'.atoms.names ↔ n ∈ ix.atoms.names ∨
      ∃ (id : SegmentId) (r : Revision), c.segments[id]? = some r ∧ n ∈ r.content.names := by
  have hexact' := hix.step hstep
  obtain ⟨-, htracked⟩ := hix.frame_of_update hstep
  have hgrow := hix.names_grow_of_step hstep
  constructor
  · intro hn
    cases hstep with
    | update hplan hrun =>
      rw [hix.atoms_carryOut hplan hrun, AtomTable.mem_names_internAll] at hn
      apply hn.imp_right
      intro hfresh
      obtain ⟨⟨id, r⟩, hq, hn⟩ := List.mem_flatMap.mp hfresh
      exact ⟨id, r, (hplan.mem_fresh.mp hq).1, hn⟩
  · rintro (hn | ⟨id, r, hr, hn⟩)
    · exact hgrow.subset hn
    · rw [← htracked] at hr
      exact hexact'.interned id r hr n hn

end Index

/-! ## §4 Reports of indexes with the same segments -/

/-- **How a report stands to one from an index that knows fewer names.** The lines about labels,
floating hypotheses and constraints are the same; a symbol is reported alike except for its handle;
a variable whose name both know has the same partners, and one that only the first knows has none
where the second does not find it. -/
inductive Report.Alike (known kept : String → Prop) : Report → Report → Prop where
  | label (name : String) {a? a'? : Option LabelAnswer}
      (hline : (Report.label name a?).text = (Report.label name a'?).text) :
      Alike known kept (.label name a?) (.label name a'?)
  | symbolNotFound (name : String) : Alike known kept (.symbol name none) (.symbol name none)
  | symbol (name : String) (a : SymbolAnswer) (atom : Atom) :
      Alike known kept (.symbol name (some a)) (.symbol name (some { a with atom }))
  | float (name : String) {a? a'? : Option FloatAnswer}
      (hline : (Report.float name a?).text = (Report.float name a'?).text) :
      Alike known kept (.float name a?) (.float name a'?)
  | partners {name : String} (hkept : kept name) {partners partners' : List String}
      (hsame : partners.Perm partners') :
      Alike known kept (.disjoint name (some partners)) (.disjoint name (some partners'))
  | partnersGone {name : String} (hknown : known name) (hgone : ¬ kept name) :
      Alike known kept (.disjoint name (some [])) (.disjoint name none)
  | partnersNotFound {name : String} (hunknown : ¬ known name) :
      Alike known kept (.disjoint name none) (.disjoint name none)
  | constraint {a a' : DisjointAnswer} {vars vars' : List String}
      (hline : (Report.constraint a vars).text = (Report.constraint a' vars').text) :
      Alike known kept (.constraint a vars) (.constraint a' vars')

namespace Index

variable {ix ix' : Index} {c c' : Collection} {parts : List (SegmentId × Segment)}
  {ds : List (StatementAddress × List String)} {known kept : String → Prop}

theorem disjointReport_of_mem {name : String} {partners : List String}
    (hname : name ∈ ix.atoms.names)
    (h : ix.atomNames (ix.disjointFrom (ix.atoms.atomOf name)) = .ok partners) :
    ix.disjointReport name = .ok (.disjoint name (some partners)) := by
  unfold disjointReport atom?
  rw [AtomTable.lookup?_of_mem hname]
  simp [h, bind, Except.bind, pure, Except.pure]

theorem disjointReport_of_not_mem {name : String} (hname : name ∉ ix.atoms.names) :
    ix.disjointReport name = .ok (.disjoint name none) := by
  unfold disjointReport atom?
  rw [AtomTable.lookup?_eq_none_iff.mpr hname]

/-- Indexes that show the same constraints report the same partners of a name that both know. -/
theorem ShowsDisjoint.alike_disjoint (h : ix.ShowsDisjoint ds) (h' : ix'.ShowsDisjoint ds)
    (hix : ix.Exact) (hix' : ix'.Exact)
    (hnames : ix'.atoms.names ⊆ ix.atoms.names) (hsize : ix.atoms.size < UInt32.size)
    (hsize' : ix'.atoms.size < UInt32.size) (name : String) :
    ∃ r r', ix.disjointReport name = .ok r ∧ ix'.disjointReport name = .ok r' ∧
      Report.Alike (· ∈ ix.atoms.names) (· ∈ ix'.atoms.names) r r' := by
  by_cases hknown : name ∈ ix.atoms.names
  · obtain ⟨partners, hpartners, hnodup, hmem⟩ := h.exists_partners hix hsize hknown
    by_cases hkept : name ∈ ix'.atoms.names
    · obtain ⟨partners', hpartners', hnodup', hmem'⟩ := h'.exists_partners hix' hsize' hkept
      refine ⟨_, _, disjointReport_of_mem hknown hpartners, disjointReport_of_mem hkept hpartners',
        .partners hkept ?_⟩
      rw [List.perm_ext_iff_of_nodup hnodup hnodup']
      intro y
      rw [hmem, hmem']
    · -- the second index would know the name if some constraint had it
      have hnil : partners = [] := by
        rw [List.eq_nil_iff_forall_not_mem]
        intro y hy
        obtain ⟨-, q, hq, hname, -⟩ := (hmem y).mp hy
        exact hkept (h'.interned q hq name hname)
      subst hnil
      exact ⟨_, _, disjointReport_of_mem hknown hpartners, disjointReport_of_not_mem hkept,
        .partnersGone hknown hkept⟩
  · have hkept : name ∉ ix'.atoms.names := fun hname => hknown (hnames hname)
    exact ⟨_, _, disjointReport_of_not_mem hknown, disjointReport_of_not_mem hkept,
      .partnersNotFound hknown⟩

theorem constraintReport_map_atomOf (hsize : ix.atoms.size < UInt32.size) {names : List String}
    (hnames : ∀ n ∈ names, n ∈ ix.atoms.names) (address : StatementAddress) :
    ix.constraintReport ⟨address, names.map ix.atoms.atomOf⟩ =
      .ok (.constraint ⟨address, names.map ix.atoms.atomOf⟩ names) := by
  unfold constraintReport
  rw [atomNames_map_atomOf hsize hnames]
  rfl

theorem reports_of_mapM {q : Questions} {partners constraints : List Report}
    (hpartners : q.disjoint.mapM ix.disjointReport = .ok partners)
    (hconstraints : (if q.disjointList then ix.disjointList.mapM ix.constraintReport
      else pure []) = .ok constraints) :
    ix.reports q = .ok (q.labels.map (fun n => .label n (ix.label? n))
      ++ q.symbols.map (fun n => .symbol n (ix.symbol? n))
      ++ q.floats.map (fun n => .float n (ix.float? n)) ++ partners ++ constraints) := by
  unfold Index.reports
  rw [hpartners]
  cases hasked : q.disjointList with
  | true =>
    rw [hasked, if_pos rfl] at hconstraints
    simp [hconstraints, bind, Except.bind, pure, Except.pure]
  | false =>
    rw [hasked] at hconstraints
    obtain rfl := Except.ok.inj hconstraints
    rfl

section SameSegments

variable (h : ix.Reflects c) (h' : ix'.Reflects c') (hc : c.MadeOf parts) (hc' : c'.MadeOf parts)

include h h' hc hc'

theorem Reflects.exists_tops (k : SlotKey) : ∃ q? : Option (SegmentId × k.Source),
      ((ix.slot k).top? = q?.map fun q => k.entry ix.atoms q.1 q.2) ∧
        (ix'.slot k).top? = q?.map fun q => k.entry ix'.atoms q.1 q.2 := by
  obtain ⟨ds, hds, hds'⟩ := hc.exists_layout hc' k
  exact ⟨ds.head?, h.arranged.top?_eq h.tracked_eq hc.covered.strictOn.total hds,
    h'.arranged.top?_eq h'.tracked_eq hc'.covered.strictOn.total hds'⟩

theorem Reflects.exists_showsDisjoint :
    ∃ ds, ix.ShowsDisjoint ds ∧ ix'.ShowsDisjoint ds := by
  obtain ⟨ds, hds, hds'⟩ := hc.exists_layout hc' .disjoints
  exact ⟨_, showsDisjoint_of_layout h.exact h.arranged h.tracked_eq hc.covered.strictOn.total hds,
    showsDisjoint_of_layout h'.exact h'.arranged h'.tracked_eq hc'.covered.strictOn.total hds'⟩

theorem Reflects.alike_label (name : String) :
    Report.Alike known kept (.label name (ix.label? name)) (.label name (ix'.label? name)) := by
  obtain ⟨q?, htop, htop'⟩ := h.exists_tops h' hc hc' (.label name)
  have hsame : ix.label? name = ix'.label? name := by
    rw [label?_eq_top?, label?_eq_top?, htop, htop', Option.map_map, Option.map_map]
    rfl
  rw [hsame]
  exact .label name rfl

theorem Reflects.alike_symbol (name : String) :
    Report.Alike known kept (.symbol name (ix.symbol? name)) (.symbol name (ix'.symbol? name)) := by
  obtain ⟨q?, htop, htop'⟩ := h.exists_tops h' hc hc' (.all name)
  obtain ⟨r?, hconstant, hconstant'⟩ := h.exists_tops h' hc hc' (.constants name)
  rw [symbol?_eq_top?, symbol?_eq_top?, htop, htop', hconstant, hconstant']
  -- of both entries only the addresses and the type are kept, beside the handle of the name
  cases q? with
  | none => exact .symbolNotFound name
  | some q =>
    cases r? with
    | none => exact .symbol name _ _
    | some r => exact .symbol name _ _

theorem Reflects.alike_float (name : String) :
    Report.Alike known kept (.float name (ix.float? name)) (.float name (ix'.float? name)) := by
  obtain ⟨q?, htop, htop'⟩ := h.exists_tops h' hc hc' (.floats name)
  rw [float?_eq_top?, float?_eq_top?, htop, htop']
  apply Report.Alike.float
  cases q? with
  | none => rfl
  | some q =>
    -- the handle of the typecode is not printed
    simp only [Option.map_some, Report.text_float]
    rfl

/-- **Indexes of the same segments report alike**, where the first may know further names. -/
theorem Reflects.reports (hnames : ix'.atoms.names ⊆ ix.atoms.names) (q : Questions)
    (hsize : q.disjoint ≠ [] ∨ q.disjointList → ix.atoms.size < UInt32.size) :
    ∃ rs rs', ix.reports q = .ok rs ∧ ix'.reports q = .ok rs' ∧
      List.Forall₂ (Report.Alike (· ∈ ix.atoms.names) (· ∈ ix'.atoms.names)) rs rs' := by
  have hsize' : ix.atoms.size < UInt32.size → ix'.atoms.size < UInt32.size :=
    fun hsize => (AtomTable.size_le_of_subset hnames).trans_lt (ix.atoms.size_eq ▸ hsize)
  obtain ⟨ds, hshows, hshows'⟩ := h.exists_showsDisjoint h' hc hc'
  -- partners and constraints are turned back into names, and only these need the bound
  have hpartners : ∃ rs rs', q.disjoint.mapM ix.disjointReport = .ok rs ∧
      q.disjoint.mapM ix'.disjointReport = .ok rs' ∧
      List.Forall₂ (Report.Alike (· ∈ ix.atoms.names) (· ∈ ix'.atoms.names)) rs rs' := by
    apply exists_mapM_forall₂
    intro name hname
    have hroom := hsize (Or.inl (List.ne_nil_of_mem hname))
    exact hshows.alike_disjoint hshows' h.exact h'.exact hnames hroom (hsize' hroom) name
  have hconstraints : ∃ rs rs',
      (if q.disjointList then ix.disjointList.mapM ix.constraintReport else pure []) = .ok rs ∧
      (if q.disjointList then ix'.disjointList.mapM ix'.constraintReport else pure []) = .ok rs' ∧
      List.Forall₂ (Report.Alike (· ∈ ix.atoms.names) (· ∈ ix'.atoms.names)) rs rs' := by
    split_ifs with hasked
    · have hroom := hsize (Or.inr hasked)
      rw [hshows.listed, hshows'.listed, List.mapM_map, List.mapM_map]
      apply exists_mapM_forall₂
      intro d hd
      refine ⟨_, _, constraintReport_map_atomOf hroom (hshows.interned d hd) d.1,
        constraintReport_map_atomOf (hsize' hroom) (hshows'.interned d hd) d.1, .constraint ?_⟩
      rw [Report.text_constraint, Report.text_constraint]
    · exact ⟨[], [], rfl, rfl, .nil⟩
  obtain ⟨ps, ps', hps, hps', hpartners⟩ := hpartners
  obtain ⟨cs, cs', hcs, hcs', hconstraints⟩ := hconstraints
  refine ⟨_, _, reports_of_mapM hps hcs, reports_of_mapM hps' hcs', ?_⟩
  refine List.rel_append (List.rel_append (List.rel_append (List.rel_append ?_ ?_) ?_) hpartners)
    hconstraints
  · simp only [List.forall₂_map_left_iff, List.forall₂_map_right_iff, List.forall₂_same]
    exact fun name _ => h.alike_label h' hc hc' name
  · simp only [List.forall₂_map_left_iff, List.forall₂_map_right_iff, List.forall₂_same]
    exact fun name _ => h.alike_symbol h' hc hc' name
  · simp only [List.forall₂_map_left_iff, List.forall₂_map_right_iff, List.forall₂_same]
    exact fun name _ => h.alike_float h' hc hc' name

end SameSegments

end Index

/-! ## §5 Runs -/

/-- The segments of the collection mention fewer different names than there are words. -/
def Collection.Nameable (c : Collection) : Prop :=
  ∃ names : List String, names.length < UInt32.size ∧
    ∀ (id : SegmentId) (r : Revision), c.segments[id]? = some r → r.content.names ⊆ names

/-- Some segment of the collection, other than those to drop, mentions the name. -/
def Collection.MentionedBeside (c : Collection) (drops : List SegmentId) (name : String) : Prop :=
  ∃ (id : SegmentId) (r : Revision), c.segments[id]? = some r ∧ id ∉ drops ∧ name ∈ r.content.names

namespace Tool

variable {c : Collection} {parts : List (SegmentId × Segment)}
  {specs : List (Option SegmentSpec)} {drops : List SegmentId}

/-- The first update of a run. -/
theorem exists_first_update (hmade : c.MadeOf parts) : ∃ ix, (Index.new .empty).update c = .ok ix ∧
    ix.Reflects c ∧ ∀ n, n ∈ ix.atoms.names ↔ ∃ part ∈ parts, n ∈ part.2.names := by
  obtain ⟨ix, hix⟩ := Index.exists_update (Index.exact_new .empty) hmade.covered.strictOn.total
  have hstep := Index.step_of_update hix
  refine ⟨ix, hix, ?_, fun n => ?_⟩
  · apply (Index.reflects_new .empty).update (Index.strictOn_tracked_new _ .empty)
      hmade.covered.strictOn _ hstep
    exact fun a ha => absurd ha.1 Std.ExtTreeMap.not_mem_empty
  · have hmentioned := hmade.exists_content_iff (P := fun _ s => n ∈ s.names)
    have hnone : n ∉ (Index.new .empty).atoms.names := List.not_mem_nil
    rw [(Index.exact_new .empty).mem_names_update_iff hstep, or_iff_right hnone, hmentioned]

/-- A run indexes everything before it drops anything. -/
theorem run_build_eq {ix : Index} (hspecs : Collection.ofSpecs specs = .ok c)
    (hix : (Index.new .empty).update c = .ok ix) (display : Display) (drops : List SegmentId)
    (s : String) :
    ∃ s', (build display specs drops).run s =
      (if drops.isEmpty then return ix
        else do update display ix (← orFail id (drops.foldlM drop c)) true : Step Index).run s' := by
  obtain ⟨s', hs'⟩ := run_update hix display drops.isEmpty s
  refine ⟨s', ?_⟩
  unfold build
  rw [hspecs]
  exact run_bind_ok hs'

/-- **What a run builds**: an index of what is left, which knows the names of all that was read. -/
theorem run_build (hspecs : Collection.ofSpecs specs = .ok c) (hmade : c.MadeOf parts)
    (hdrops : c.Droppable drops) (display : Display) (s : String) :
    ∃ ix c' s', (build display specs drops).run s = (.ok ix, s') ∧
      c'.MadeOf (parts.filter fun part => part.1 ∉ drops) ∧ ix.Reflects c' ∧
      ∀ n, n ∈ ix.atoms.names ↔ ∃ part ∈ parts, n ∈ part.2.names := by
  obtain ⟨ix, hix, hreflects, hnames⟩ := exists_first_update hmade
  obtain ⟨s₁, hs₁⟩ := run_build_eq hspecs hix display drops s
  cases hempty : drops.isEmpty with
  | true =>
    obtain rfl := List.isEmpty_iff.mp hempty
    exact ⟨ix, c, s₁, hs₁, by simpa using hmade, hreflects, hnames⟩
  | false =>
    obtain ⟨c', hc', hmade'⟩ := hmade.dropAll hdrops
    obtain ⟨ix', hix'⟩ := Index.exists_update hreflects.exact hmade'.covered.strictOn.total
    have hstep := Index.step_of_update hix'
    obtain ⟨s₂, hs₂⟩ := run_update hix' display true s₁
    refine ⟨ix', c', s₂, ?_, hmade', ?_, fun n => ?_⟩
    · rw [hs₁, hempty, hc']
      exact hs₂
    · -- the list of what is left is part of the list of everything
      apply hreflects.update hmade.covered.strictOn hmade'.covered.strictOn _ hstep
      rw [hmade.order_eq, hmade'.order_eq]
      have hpart : (ListOrder.ofDistinct _ hmade'.nodup).ids.Sublist
          (ListOrder.ofDistinct _ hmade.nodup).ids := by
        rw [ListOrder.ids_ofDistinct, ListOrder.ids_ofDistinct]
        exact List.filter_sublist.map Prod.fst
      have hranks := Order.ranksAlike_of_sublist hpart
      rw [ListOrder.ids_ofDistinct] at hranks
      exact fun a ha b hb => hranks a (hmade'.mem_segments_iff.mp ha.2) b
        (hmade'.mem_segments_iff.mp hb.2)
    · -- what is left mentions no further names
      rw [hreflects.exact.mem_names_update_iff hstep, hnames]
      apply or_iff_left_of_imp
      intro hleft
      obtain ⟨part, hpart, hn⟩ := (hmade'.exists_content_iff (P := fun _ s => n ∈ s.names)).mp hleft
      exact ⟨part, (List.mem_filter.mp hpart).1, hn⟩

theorem run_build_error {id : SegmentId} (hspecs : Collection.ofSpecs specs = .ok c)
    (hmade : c.MadeOf parts) (hfirst : c.FirstUndroppable drops id) (display : Display)
    (s : String) : ∃ s', (build display specs drops).run s = (.error (.unknownDrop id), s') := by
  obtain ⟨ix, hix, -, -⟩ := exists_first_update hmade
  obtain ⟨s₁, hs₁⟩ := run_build_eq hspecs hix display drops s
  have hempty : drops.isEmpty = false := by
    obtain ⟨done, rest, rfl, -, -⟩ := hfirst
    simp
  refine ⟨s₁, ?_⟩
  rw [hs₁, hempty, hmade.dropAll_error hfirst]
  rfl

theorem answers_of_build {yaml : Yaml.Library} {tree : FileTree} {o : Options} {ix : Index}
    {rs : List Report} {console s : String} (hdump : o.dump = false)
    (hload : (load yaml tree o).run "" = (.ok specs, console))
    (hbuild : (build ⟨o.level, o.progress⟩ specs o.drop).run console = (.ok ix, s))
    (hreports : ix.reports o.questions = .ok rs) : Answers yaml tree o rs := by
  apply answers_of_inquire hdump
  unfold inquire
  rw [run_bind_ok hload, run_bind_ok hbuild, hreports]
  rfl

theorem mentionedBeside_iff (hmade : c.MadeOf parts) {name : String} :
    c.MentionedBeside drops name ↔
      ∃ part ∈ parts.filter fun part => part.1 ∉ drops, name ∈ part.2.names := by
  unfold Collection.MentionedBeside
  rw [hmade.exists_content_iff (P := fun id s => id ∉ drops ∧ name ∈ s.names)]
  simp [and_assoc]

/-- The names that an index knows are told apart if the collection mentions no more of them than
there are handles. -/
theorem size_lt_of_nameable (hmade : c.MadeOf parts) (hnameable : c.Nameable) {ix : Index}
    (hnames : ∀ n ∈ ix.atoms.names, ∃ part ∈ parts, n ∈ part.2.names) :
    ix.atoms.size < UInt32.size := by
  obtain ⟨names, hlength, hmentioned⟩ := hnameable
  have hsubset : ix.atoms.names ⊆ names := by
    intro n hn
    obtain ⟨id, r, hr, hn⟩ :=
      (hmade.exists_content_iff (P := fun _ s => n ∈ s.names)).mpr (hnames n hn)
    exact hmentioned id r hr hn
  exact (AtomTable.size_le_of_subset hsubset).trans_lt hlength

/-- **Dropping a segment is never having read it.** Let the descriptions that a run reads make up a
collection. If the ids to drop are those of different segments, the run reports to every question
what a run reports that drops nothing and reads the descriptions of the other segments only: the same
lines about labels, floating hypotheses and constraints, symbols alike except for handles, and the
same partners, except that a name which only dropped segments mention has no partners instead of not
being found. Where handles are turned back into names, there must be handles for all names. If some
id is not there or is given twice, the run prints nothing and fails with the first such id. -/
theorem run_drop {yaml : Yaml.Library} {tree : FileTree} {o : Options} {console : String}
    (hload : (load yaml tree o).run "" = (.ok specs, console))
    (hspecs : Collection.ofSpecs specs = .ok c) :
    (c.Droppable o.drop → o.dump = false →
      (o.disjoint ≠ [] ∨ o.disjointList → c.Nameable) →
      ∀ (tree' : FileTree) (o' : Options) (console' : String),
        o'.questions = o.questions → o'.drop = [] → o'.dump = false →
        (load yaml tree' o').run "" = (.ok (specs.filter fun spec? =>
          spec?.all fun spec => spec.id ∉ o.drop), console') →
        ∃ rs rs', Answers yaml tree o rs ∧ Answers yaml tree' o' rs' ∧
          List.Forall₂ (Report.Alike (c.MentionedBeside []) (c.MentionedBeside o.drop)) rs rs') ∧
    (¬ c.Droppable o.drop → ∃ id, c.FirstUndroppable o.drop id ∧
      ∀ room, (run yaml tree o room).output = "" ∧
        (run yaml tree o room).failure.map RunError.message =
          some ("-drop: unknown segment " ++ id.toNat.repr)) := by
  obtain ⟨parts, hdescribe, hmade⟩ := Collection.madeOf_of_ofSpecs hspecs
  refine ⟨fun hdrops hdump hnameable tree' o' console' hquestions hnone hdump' hload' => ?_,
    fun hdrops => ?_⟩
  · obtain ⟨ix, c₁, s₁, hbuild, hmade₁, hreflects, hknown⟩ :=
      run_build hspecs hmade hdrops ⟨o.level, o.progress⟩ console
    -- the other run reads descriptions of what is left, and drops nothing
    obtain ⟨c', hspecs', hmade'⟩ := Collection.exists_ofSpecs
      (hdescribe.filter fun id => id ∉ o.drop) hmade₁.nodup
    obtain ⟨ix', c₂, s₂, hbuild', hmade₂, hreflects', hkept⟩ :=
      run_build hspecs' hmade' ⟨List.nodup_nil, by simp⟩ ⟨o'.level, o'.progress⟩ console'
    have hmade₂ : c₂.MadeOf (parts.filter fun part => part.1 ∉ o.drop) := by simpa using hmade₂
    have hsubset : ix'.atoms.names ⊆ ix.atoms.names := by
      intro n hn
      obtain ⟨part, hpart, hn⟩ := (hkept n).mp hn
      exact (hknown n).mpr ⟨part, (List.mem_filter.mp hpart).1, hn⟩
    obtain ⟨rs, rs', hrs, hrs', halike⟩ := hreflects.reports hreflects' hmade₁ hmade₂ hsubset
      o.questions fun hasked => size_lt_of_nameable hmade (hnameable hasked)
        fun n hn => (hknown n).mp hn
    have hall : (fun n => n ∈ ix.atoms.names) = c.MentionedBeside [] := by
      funext n
      rw [hknown, mentionedBeside_iff hmade]
      simp
    have hleft : (fun n => n ∈ ix'.atoms.names) = c.MentionedBeside o.drop := by
      funext n
      rw [hkept, mentionedBeside_iff hmade]
    rw [hall, hleft] at halike
    rw [← hnone] at hbuild'
    rw [← hquestions] at hrs'
    exact ⟨rs, rs', answers_of_build hdump hload hbuild hrs,
      answers_of_build hdump' hload' hbuild' hrs', halike⟩
  · obtain ⟨id, hfirst⟩ := Collection.exists_firstUndroppable hdrops
    obtain ⟨s₁, hbuild⟩ := run_build_error hspecs hmade hfirst ⟨o.level, o.progress⟩ console
    refine ⟨id, hfirst, fun room => ?_⟩
    have hinquire : (inquire yaml tree o).run "" = (.error (.unknownDrop id), s₁) := by
      unfold inquire
      rw [run_bind_ok hload, run_bind_error hbuild]
    rw [run_of_inquire_error hinquire]
    exact ⟨rfl, rfl⟩

end Tool

/-- Two files with a segment each. -/
def Sample.files : FileTree :=
  (FileTree.empty.put "upper.yaml"
    (.file (.text "id: 2\nsymbols:\n- name: z\n  type: constant\n"))).put "lower.yaml"
    (.file (.text "id: 1\nsymbols:\n- name: x\n  type: variable\nglobalDvs:\n- vars: [x, y]\n"))

/-- What the two files describe. -/
def Sample.described : List (Option SegmentSpec) :=
  [some { SegmentSpec.blank with
      id := 2, source := "upper.yaml", symbols := [some ⟨"z", "constant", 0, 0⟩] },
    some { SegmentSpec.blank with
      id := 1, source := "lower.yaml", symbols := [some ⟨"x", "variable", 0, 0⟩]
      disjoints := [some ⟨some ["x", "y"], 0⟩] }]

/-- The segments that the two files describe. -/
def Sample.parts : List (SegmentId × Segment) :=
  [(2, { Segment.empty with symbols := [⟨"z", .constant, 0, 0⟩] }),
    (1, { Segment.empty with
      symbols := [⟨"x", .variable, 0, 0⟩], disjoints := [⟨some ["x", "y"], 0⟩] })]

/-- Questions to a run that reads some files and drops some segments. -/
def Sample.options (files : List String) (drop : List SegmentId) : Options where
  manifest := ""
  files := files
  labels := []
  symbols := ["x"]
  floats := []
  disjoint := ["x", "z"]
  disjointList := true
  drop := drop
  dump := false
  progress := false
  level := .info

/-- The sample read as a whole and with the upper segment dropped, against the lower file alone: `x`
has another handle, and `z` has no partners instead of not being found. Dropping twice fails. -/
theorem Tool.run_drop_upper :
    ∃ c rs rs', Collection.ofSpecs Sample.described = .ok c ∧
      Answers Yaml.fragment Sample.files (Sample.options ["upper.yaml", "lower.yaml"] [2]) rs ∧
      Answers Yaml.fragment Sample.files (Sample.options ["lower.yaml"] []) rs' ∧
      List.Forall₂ (Report.Alike (c.MentionedBeside []) (c.MentionedBeside [2])) rs rs' ∧
      String.join (rs.map Report.text) =
        "symbol x: variable #2 at 1:0.0 (constant at none)\n" ++
          "disjoint x: y\ndisjoint z:\ndv 1:0: x y\n" ∧
      String.join (rs'.map Report.text) =
        "symbol x: variable #1 at 1:0.0 (constant at none)\n" ++
          "disjoint x: y\ndisjoint z: not found\ndv 1:0: x y\n" ∧
      ∀ room,
        (run Yaml.fragment Sample.files (Sample.options ["upper.yaml", "lower.yaml"] [2, 2])
          room).output = "" ∧
        (run Yaml.fragment Sample.files (Sample.options ["upper.yaml", "lower.yaml"] [2, 2])
          room).failure.map RunError.message = some "-drop: unknown segment 2" := by
  -- what the files describe is computed
  have hok : ∀ {α : Type} {r : Except RunError α × String} {a : α},
      r.1.toOption = some a → r = (.ok a, r.2) := by
    rintro α ⟨x, s⟩ a h
    rw [← eq_ok_of_toOption h]
  have hload : ((load Yaml.fragment Sample.files
      (Sample.options ["upper.yaml", "lower.yaml"] [2])).run "").1.toOption =
        some Sample.described := by
    decide +kernel
  have hloadTwice : ((load Yaml.fragment Sample.files
      (Sample.options ["upper.yaml", "lower.yaml"] [2, 2])).run "").1.toOption =
        some Sample.described := hload
  have hloadLower : ((load Yaml.fragment Sample.files
      (Sample.options ["lower.yaml"] [])).run "").1.toOption =
        some (Sample.described.filter fun spec? => spec?.all fun spec =>
          spec.id ∉ (Sample.options ["upper.yaml", "lower.yaml"] [2]).drop) := by
    decide +kernel
  have hdescribe : SegmentSpec.Describe Sample.described Sample.parts :=
    .cons ⟨_, rfl, rfl, rfl⟩ (.cons ⟨_, rfl, rfl, rfl⟩ .nil)
  obtain ⟨c, hspecs, hmade⟩ := Collection.exists_ofSpecs hdescribe (by decide)
  have hdroppable : c.Droppable [2] := by
    refine ⟨by simp, fun id hid => ?_⟩
    rw [hmade.mem_segments_iff, List.mem_singleton.mp hid]
    decide
  have hnameable : c.Nameable := by
    refine ⟨["z", "x", "y"], by decide, fun id r hr n hn => ?_⟩
    obtain ⟨part, hpart, hn⟩ :=
      (hmade.exists_content_iff (P := fun _ s => n ∈ s.names)).mp ⟨id, r, hr, hn⟩
    have hall : ∀ part ∈ Sample.parts, ∀ n ∈ part.2.names, n ∈ ["z", "x", "y"] := by decide
    exact hall part hpart n hn
  obtain ⟨hdrop, -⟩ := run_drop (hok hload) hspecs
  obtain ⟨rs, rs', hanswers, hanswers', halike⟩ := hdrop hdroppable rfl (fun _ => hnameable)
    Sample.files (Sample.options ["lower.yaml"] []) _ rfl rfl rfl (hok hloadLower)
  obtain ⟨-, htwice⟩ := run_drop (hok hloadTwice) hspecs
  obtain ⟨id, ⟨done, rest, hsplit, -, -⟩, hfails⟩ := htwice fun h => by simpa [Sample.options] using h.1
  have hid : id ∈ (Sample.options ["upper.yaml", "lower.yaml"] [2, 2]).drop := by
    rw [hsplit]
    simp
  obtain rfl : id = 2 := by simpa [Sample.options] using hid
  refine ⟨c, rs, rs', hspecs, hanswers, hanswers', halike, ?_, ?_, fun room => ?_⟩
  · rw [← hanswers.output]
    decide +kernel
  · rw [← hanswers'.output]
    decide +kernel
  · exact ⟨(hfails room).1, (hfails room).2.trans (by decide)⟩

end NameIndex
