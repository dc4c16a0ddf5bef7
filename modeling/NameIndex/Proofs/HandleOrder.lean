import NameIndex.Proofs.Enumeration
import NameIndex.Proofs.UpdateFault

/-!
# New handles follow the document

Names are interned as declarations are entered, through records that may exist already and through
the table itself. However that goes for one declaration, a segment interns the names that it lists,
in the sequence in which it lists them (`Index.Tidy.enter`), and an update takes the new segments in
the order of the collection. So the names that an update adds to the table are those that the
document mentions first, in the order of the document.

Labels are not names: neither those of statements nor those of floating hypotheses get a handle.

## Main definitions

* `Segment.mentions` — the names of a segment, in the sequence in which it lists them.
* `Index.Additions` — what an update adds, in the order of the document.
* `Index.nameList` — what the handles 1, 2, … stand for.

## Main results

* `Index.nameList_of_update` — the names of the handles after an update.
-/

namespace NameIndex

open Sorting

/-! ## §1 The names of a segment -/

/-- The names that a segment mentions: its symbols, its local variables, for each floating hypothesis
the variable and the typecode, and the variables of its constraints. -/
def Segment.mentions (s : Segment) : List String :=
  s.symbols.map (·.name) ++ s.localVars.map (·.name)
    ++ s.floats.flatMap (fun d => [d.name, d.typecode]) ++ s.disjoints.flatMap (·.names)

theorem Segment.names_eq_mentions (s : Segment) : s.names = s.mentions := by
  have hlabels : s.labels.flatMap (fun _ => ([] : List String)) = [] := by simp
  simp only [names, mentions, declarations, List.flatMap_append, List.flatMap_map,
    Declaration.names, hlabels, List.append_nil, ← List.map_eq_flatMap]

namespace Index

variable {ix ix' : Index} {c : Collection} {p : UpdatePlan}
  {trackedIds collectionIds : List SegmentId}

/-! ## §2 The names of many segments -/

/-- Adding new segments interns their names, segment by segment. -/
theorem Exact.atoms_addAll {fresh : List (SegmentId × Revision)} (h : ix.Exact)
    (hnodup : (fresh.map Prod.fst).Nodup) (hnew : ∀ q ∈ fresh, ix.tracked[q.1]? = none)
    (hadd : fresh.foldlM (fun ix (id, r) => ix.add id r) ix = .ok ix') :
    ix'.atoms = (ix.atoms.internAll (fresh.flatMap fun q => q.2.content.names)).2 := by
  -- a segment interns all its names only if it is new when its turn comes
  induction fresh generalizing ix with
  | nil =>
    obtain rfl := Except.ok.inj hadd
    rfl
  | cons q fresh ih =>
    obtain ⟨id, r⟩ := q
    rw [List.foldlM_cons] at hadd
    obtain ⟨ix₁, hone, hrest⟩ := bind_eq_ok_iff.mp hadd
    have hfresh := hnew (id, r) List.mem_cons_self
    rw [List.map_cons, List.nodup_cons] at hnodup
    have hnew₁ := (added_of_add hfresh hone).untracked hnodup.1
      fun q hq => hnew q (List.mem_cons_of_mem _ hq)
    rw [ih (h.add hone) hnodup.2 hnew₁ hrest, (h.tidy.add hfresh hone).2, List.flatMap_cons,
      AtomTable.internAll_append]

/-- An update interns the names of what its plan adds, and removals intern nothing. -/
theorem Exact.atoms_carryOut (h : ix.Exact) (hplan : ix.Plans c p)
    (hrun : ix.carryOut c.order p = .ok ix') :
    ix'.atoms = (ix.atoms.internAll (p.fresh.flatMap fun q => q.2.content.names)).2 := by
  have hexact := (h.setOrder c.order).removeAll p.stale
  obtain ⟨-, hatoms, -⟩ := removeAll_frame { ix with order := c.order } p.stale
  rw [carryOut_eq] at hrun
  rw [hexact.atoms_addAll hplan.nodup_fresh hplan.untracked_fresh hrun, hatoms]

/-! ## §3 What an update adds, in the order of the document -/

/-- The segments that an update to the collection brings, each once and in the order of the
collection. -/
structure Additions (ix : Index) (c : Collection) (added : List (SegmentId × Revision)) : Prop where
  mem_iff : ∀ id r, (id, r) ∈ added ↔ ix.Brings (.update c) id r
  nodup : (added.map Prod.fst).Nodup
  ordered : (added.map Prod.fst).Pairwise fun a b => ∃ n, c.order.compare a b = .ok n ∧ n < 0

/-- Where the order is strict on what is new, a plan adds it in the order of the document. -/
theorem additions_of_planFrom (htracked : trackedIds.Perm ix.tracked.keys)
    (hcollection : collectionIds.Perm c.segments.keys)
    (horder : c.order.StrictOn {id | ∃ r, ix.Brings (.update c) id r})
    (hp : ix.planFrom c trackedIds collectionIds = .ok p) : ix.Additions c p.fresh := by
  have hplan := plans_of_planFrom htracked hcollection hp
  refine ⟨fun id r => hplan.mem_fresh_iff_brings, hplan.nodup_fresh, ?_⟩
  obtain ⟨hnodup, hmem⟩ := nodup_new ix hcollection
  have hbrings : ∀ id ∈ collectionIds.filter fun id => !ix.isCurrent c id,
      ∃ r, ix.Brings (.update c) id r := by
    intro id hid
    obtain ⟨r, hr⟩ := Option.isSome_iff_exists.mp
      (Std.ExtTreeMap.mem_iff_isSome_getElem?.mp (hmem id hid))
    exact ⟨r, hr, by simpa using (List.mem_filter.mp hid).2⟩
  obtain ⟨ids, hsort, hstable⟩ := horder.exists_sort hnodup hbrings
  obtain ⟨ids', hsort', hp⟩ := bind_eq_ok_iff.mp hp
  obtain rfl := Except.ok.inj (hsort.symm.trans hsort')
  obtain rfl := Except.ok.inj hp
  have hmem' : ∀ id ∈ ids, id ∈ collectionIds.filter fun id => !ix.isCurrent c id :=
    fun id hid => hstable.perm.mem_iff.mp hid
  rw [map_fst_filterMap fun id hid => hmem id (hmem' id hid)]
  -- the segments are sorted and different, and a strict order has no two of them level
  apply ((hstable.perm.nodup_iff.mpr hnodup).and hstable.sorted).imp_of_mem
  intro a b ha hb hab
  obtain ⟨hne, hprec⟩ := hab
  have ha := hbrings a (hmem' a ha)
  have hb := hbrings b (hmem' b hb)
  obtain ⟨n, hn⟩ := horder.total.answers a ha b hb
  have hcompare : c.order.compare a b = .ok n := by rwa [Order.compareDistinct, if_neg hne] at hn
  have hle : n ≤ 0 := by simpa [precedes, hn] using hprec
  have hzero : n ≠ 0 := by
    intro hzero
    exact horder.separates a ha b hb hne (hzero ▸ hcompare)
  exact ⟨n, hcompare, by omega⟩

/-! ## §4 The names of the handles -/

/-- What the handles 1, 2, … up to the last one stand for. -/
def nameList (ix : Index) : List (Except Fault String) :=
  (List.range ix.atoms.size).map fun i => ix.atomName (UInt32.ofNat (i + 1))

theorem nameList_eq (hsize : ix.atoms.size < UInt32.size) :
    ix.nameList = ix.atoms.names.map .ok := by
  apply List.ext_getElem
  · simp [nameList, AtomTable.size_eq]
  · intro i hi _
    have hplace : i < ix.atoms.names.length := by simpa [nameList, AtomTable.size_eq] using hi
    simp only [nameList, List.getElem_map, List.getElem_range]
    exact AtomTable.name_handle hsize hplace

/-- **New handles follow the document.** An update under an order that is strict on what is new, from
any listings of the maps, leaves the names of the handles as they were and appends those that were
not interned yet, each once and in the order in which the new segments mention them: segment by
segment in the order of the collection, and within a segment as it lists them. No other text gets a
handle, be it a label or not. -/
theorem nameList_of_update (hix : ix.Reachable) (htracked : trackedIds.Perm ix.tracked.keys)
    (hcollection : collectionIds.Perm c.segments.keys)
    (horder : c.order.StrictOn {id | ∃ r, ix.Brings (.update c) id r})
    (hrun : ix.planFrom c trackedIds collectionIds >>= ix.carryOut c.order = .ok ix')
    (hsize : ix'.atoms.size < UInt32.size) :
    ∃ added, ix.Additions c added ∧
      ∃ stream, stream = (added.flatMap fun q => q.2.content.mentions) ∧
        ix.nameList = ix.atoms.names.map .ok ∧
        ix'.nameList = (ix.atoms.names ++
          (stream.filter fun n => ix.atom? n = none).eraseDups).map .ok ∧
        ∀ text, text ∉ stream → ix'.atom? text = ix.atom? text := by
  obtain ⟨p, hp, hrun⟩ := bind_eq_ok_iff.mp hrun
  have hplan := plans_of_planFrom htracked hcollection hp
  have hatoms := hix.exact.atoms_carryOut hplan hrun
  simp only [Segment.names_eq_mentions] at hatoms
  refine ⟨p.fresh, additions_of_planFrom htracked hcollection horder hp, _, rfl, ?_, ?_, ?_⟩
  · -- the table was no larger before
    have hgrow := (updated_of_carryOut hix.exact hplan hrun).names_grow.length_le
    rw [← AtomTable.size_eq, ← AtomTable.size_eq] at hgrow
    exact nameList_eq (hgrow.trans_lt hsize)
  · rw [nameList_eq hsize, hatoms, AtomTable.names_internAll]
    simp only [atom?, AtomTable.lookup?_eq_none_iff]
  · intro text htext
    unfold atom?
    by_cases hknown : text ∈ ix.atoms.names
    · -- handles that have been given out stay
      rw [hatoms, AtomTable.lookup?_mono (AtomTable.prefix_internAll ..) hknown]
    · have hunknown : text ∉ ix'.atoms.names := by
        rw [hatoms, AtomTable.mem_names_internAll]
        exact not_or.mpr ⟨hknown, htext⟩
      rw [AtomTable.lookup?_eq_none_iff.mpr hknown, AtomTable.lookup?_eq_none_iff.mpr hunknown]

/-- The upper segment of the sample comes first in the document. Where it arrives after the lower
one, its symbols `z` and `x` find the handles of the lower segment in use: `z` gets the next handle,
`x` keeps the one it has, and the label `ax` has none. -/
theorem nameList_of_update_upper :
    ∃ ix ix' added, (new .empty).update (Sample.both.without 2) = .ok ix ∧
      ix.planFrom Sample.both [1] [1, 2] >>= ix.carryOut Sample.both.order = .ok ix' ∧
      ix.Additions Sample.both added ∧
      ix.nameList = ["x", "wff", "class", "y"].map .ok ∧
      ix'.nameList = (["x", "wff", "class", "y"] ++
        ((added.flatMap fun q => q.2.content.mentions).filter
          fun n => ix.atom? n = none).eraseDups).map .ok ∧
      ix'.atoms.names = ["x", "wff", "class", "y", "z"] := by
  let pair : Except Fault (Index × Index) := do
    let ix ← (new .empty).update (Sample.both.without 2)
    let ix' ← ix.planFrom Sample.both [1] [1, 2] >>= ix.carryOut Sample.both.order
    return (ix, ix')
  have hpair : pair.toOption.map (fun q => (q.1.atoms.names, q.2.atoms.names)) =
      some (["x", "wff", "class", "y"], ["x", "wff", "class", "y", "z"]) := by
    decide +kernel
  obtain ⟨⟨ix, ix'⟩, hsome, hnames⟩ := Option.map_eq_some_iff.mp hpair
  obtain ⟨hbefore, hafter⟩ := Prod.mk.inj hnames
  obtain ⟨ix₁, hix, hrest⟩ := bind_eq_ok_iff.mp (eq_ok_of_toOption hsome)
  obtain ⟨ix₂, hix', hrest⟩ := bind_eq_ok_iff.mp hrest
  obtain ⟨rfl, rfl⟩ := Prod.mk.inj (Except.ok.inj hrest)
  have hreach := (Reachable.new .empty).step (step_of_update hix)
  have htracked : ix₁.tracked = (Sample.both.without 2).segments :=
    ((exact_new .empty).frame_of_update (step_of_update hix)).2
  have horder : Sample.both.order.StrictOn {id | ∃ r, ix₁.Brings (.update Sample.both) id r} := by
    apply Sample.strictOn_both.mono
    rintro id ⟨r, hr⟩
    exact Brings.mem_segments hr
  have hsize : ix₂.atoms.size < UInt32.size := by
    rw [AtomTable.size_eq, hafter]
    decide
  obtain ⟨added, hadditions, stream, rfl, hold, hnew, -⟩ := nameList_of_update hreach
    (by rw [htracked]; decide +kernel) (by decide +kernel) horder hix' hsize
  rw [hbefore] at hold hnew
  exact ⟨ix₁, ix₂, added, hix, hix', hadditions, hold, hnew, hafter⟩

end Index

end NameIndex
