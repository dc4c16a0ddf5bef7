import Mathlib.Data.List.Perm.Subperm
import NameIndex.Proofs.Topmost
import NameIndex.Proofs.TrackedContent

/-!
# An index kept up to date answers like a new one

A run of changes is **coherent** when every order it uses is strict on the segments tracked under it,
and no update turns around segments that it retains. After a coherent run every slot is in document
order, which is a canonical form; so the index answers as an index does that has been loaded with the
same segments in one update. Only handles may differ: they tell in which sequence names were met.

## Main definitions

* `Index.Coherent` — the states that coherent runs lead to.
* `Index.ShowsDisjoint` — a list of constraints, written with names, is what the index shows with its
  own handles.

## Main results

* `Index.Coherent.arranged` — coherent runs keep every slot in document order.
* `Index.answers_of_coherent` — the index answers like a new one.
-/

namespace NameIndex.Index

open Sorting

variable {ix ix' : Index} {c : Collection}

/-! ## §1 Coherent runs -/

/-- **Coherent runs**: each adopted order is strict on the segments tracked under it, and an update
ranks the segments that it retains as the order before did. -/
inductive Coherent : Index → Prop where
  | new (order : Order) : Coherent (Index.new order)
  | update {ix ix' : Index} {c : Collection} (hix : Coherent ix) (hstep : Step ix (.update c) ix')
      (hstrict : c.order.StrictOn {id | id ∈ c.segments})
      (hranks : ix.order.RanksAlike c.order
        {id | id ∈ ix.tracked ∧ ix.tracked[id]? = c.segments[id]?}) : Coherent ix'
  | add {ix ix' : Index} {id : SegmentId} {r : Revision} (hix : Coherent ix)
      (hstep : Step ix (.add id r) ix') (hstrict : ix'.order.StrictOn {id | id ∈ ix'.tracked}) :
      Coherent ix'
  | remove {ix : Index} (hix : Coherent ix) (id : SegmentId) : Coherent (ix.remove id)

/-- **Coherent runs keep every slot in document order.** -/
theorem Coherent.arranged (h : ix.Coherent) :
    ix.Exact ∧ ix.order.StrictOn {id | id ∈ ix.tracked} ∧ ix.ArrangedBy ix.order := by
  induction h with
  | new order => exact ⟨exact_new order, strictOn_tracked_new order order, arrangedBy_new order order⟩
  | update hix hstep hstrict hranks ih =>
    obtain ⟨hexact, ho, harranged⟩ := ih
    cases hstep with
    | update hplan hrun =>
      have hupdated := updated_of_carryOut hexact hplan hrun
      rw [hupdated.order_eq, hupdated.tracked_eq]
      exact ⟨hexact.carryOut hrun, hstrict,
        harranged.carryOut hexact ho hstrict hranks hplan hrun⟩
  | add hix hstep hstrict ih =>
    obtain ⟨hexact, ho, harranged⟩ := ih
    cases hstep with
    | add hadd =>
      refine ⟨hexact.add hadd, hstrict, harranged.add hexact hadd ?_⟩
      rwa [(add_frame hadd).1] at hstrict
  | remove hix id ih =>
    obtain ⟨hexact, ho, harranged⟩ := ih
    refine ⟨hexact.remove id, ?_, ?_⟩
    · rw [(remove_frame _ id).1]
      exact ho.mono fun _ hid => mem_tracked_of_remove hid
    · rw [(remove_frame _ id).1]
      exact harranged.remove hexact ho id

/-- What the index tracks, under its order, as a collection. -/
def collection (ix : Index) : Collection := ⟨ix.order, ix.tracked⟩

/-! ## §2 Names that a new index has interned -/

theorem Exact.mem_names_of_add (h : ix.Exact) {id : SegmentId} {r : Revision}
    (hadd : ix.add id r = .ok ix') {n : String} (hn : n ∈ ix'.atoms.names) :
    n ∈ ix.atoms.names ∨ n ∈ r.content.names := by
  rcases add_cases hadd with rfl | hadded
  · exact Or.inl hn
  · rwa [(h.tidy.add hadded.fresh hadd).2, AtomTable.mem_names_internAll] at hn

theorem Exact.mem_names_of_addAll (h : ix.Exact) {fresh : List (SegmentId × Revision)}
    (hadd : fresh.foldlM (fun ix (id, r) => ix.add id r) ix = .ok ix') {n : String}
    (hn : n ∈ ix'.atoms.names) :
    n ∈ ix.atoms.names ∨ ∃ q ∈ fresh, n ∈ q.2.content.names := by
  induction fresh generalizing ix with
  | nil => exact Or.inl (Except.ok.inj hadd ▸ hn)
  | cons q fresh ih =>
    rw [List.foldlM_cons] at hadd
    obtain ⟨ix₁, hone, hrest⟩ := bind_eq_ok_iff.mp hadd
    rcases ih (h.add hone) hrest with hold | ⟨q', hq', hn'⟩
    · rcases h.mem_names_of_add hone hold with hold | hn'
      · exact Or.inl hold
      · exact Or.inr ⟨q, List.mem_cons_self, hn'⟩
    · exact Or.inr ⟨q', List.mem_cons_of_mem q hq', hn'⟩

/-- An index that was loaded in one update knows no name that another index of the same segments does
not know. -/
theorem names_subset_of_first_update {order : Order} {fresh : Index} (hix : ix.Exact)
    (hstep : Step (new order) (.update ix.collection) fresh) :
    fresh.atoms.names ⊆ ix.atoms.names := by
  intro n hn
  cases hstep with
  | @update _ p _ hplan hrun =>
    have hadopted := (exact_new order).setOrder ix.order
    rw [carryOut_eq] at hrun
    rcases (hadopted.removeAll p.stale).mem_names_of_addAll hrun hn with hold | ⟨q, hq, hn'⟩
    · rw [(removeAll_frame _ p.stale).2.1] at hold
      exact absurd hold List.not_mem_nil
    · exact hix.interned q.1 q.2 (hplan.mem_fresh.mp hq).1 n hn'

/-! ## §3 Constraints by name -/

/-- The constraints, written with the names of their variables, are what the index shows with its
own handles. -/
structure ShowsDisjoint (ix : Index) (ds : List (StatementAddress × List String)) : Prop where
  listed : ix.disjointList = ds.map fun q => ⟨q.1, q.2.map ix.atoms.atomOf⟩
  interned : ∀ q ∈ ds, ∀ n ∈ q.2, n ∈ ix.atoms.names

theorem showsDisjoint_of_layout {ds : List (SegmentId × DisjointDecl)} (hix : ix.Exact)
    (h : ix.ArrangedBy c.order) (htracked : ix.tracked = c.segments)
    (hc : c.order.TotalOn {id | id ∈ c.segments}) (hds : c.Layout .disjoints ds) :
    ix.ShowsDisjoint (ds.map fun q => (⟨q.1, q.2.index⟩, q.2.names)) where
  listed := by
    rw [h.disjointList_eq htracked hc hds, List.map_map]
    rfl
  interned q hq n hn := by
    obtain ⟨q', hq', rfl⟩ := List.mem_map.mp hq
    have hatom := hix.atom?_of_mem_layout htracked hds hq' hn
    exact AtomTable.isSome_lookup?_iff.mp (Option.isSome_iff_exists.mpr ⟨_, hatom⟩)

variable {ds : List (StatementAddress × List String)}

theorem map_atomName_atomOf {names : List String} (hsize : ix.atoms.size < UInt32.size)
    (hnames : ∀ n ∈ names, n ∈ ix.atoms.names) :
    (names.map ix.atoms.atomOf).map ix.atomName = names.map Except.ok := by
  rw [List.map_map]
  apply List.map_congr_left
  intro n hn
  exact AtomTable.name_atomOf hsize (hnames n hn)

/-- Each handle of the list leads back to the name that it stands for. -/
theorem ShowsDisjoint.map_atomName (h : ix.ShowsDisjoint ds) (hsize : ix.atoms.size < UInt32.size) :
    (ix.disjointList.map fun a => (a.address, a.vars.map ix.atomName)) =
      ds.map fun q => (q.1, q.2.map Except.ok) := by
  rw [h.listed, List.map_map]
  apply List.map_congr_left
  intro q hq
  rw [Function.comp_apply, map_atomName_atomOf hsize (h.interned q hq)]

/-- **Two variables are disjoint** iff they differ and some listed constraint has both: the sets that
are asked have the variables of the lists. -/
theorem Exact.isDisjoint_iff (h : ix.Exact) {a b : Atom} :
    ix.isDisjoint a b ↔ a ≠ b ∧ ∃ g ∈ ix.disjointList, a ∈ g.vars ∧ b ∈ g.vars := by
  simp only [isDisjoint, disjointList, Bool.and_eq_true, bne_iff_ne, List.any_eq_true,
    AtomSet.contains_iff, List.mem_map, exists_exists_and_eq_and]
  apply and_congr_right
  intro _
  apply exists_congr
  intro e
  apply and_congr_right
  intro he
  rw [h.mem_members_iff he, h.mem_members_iff he]

/-- Two names are disjoint iff they differ and some constraint names both. -/
theorem ShowsDisjoint.isDisjoint_iff (h : ix.ShowsDisjoint ds) (hix : ix.Exact)
    (hsize : ix.atoms.size < UInt32.size) {x y : String} (hx : x ∈ ix.atoms.names)
    (hy : y ∈ ix.atoms.names) :
    ix.isDisjoint (ix.atoms.atomOf x) (ix.atoms.atomOf y) ↔ x ≠ y ∧ ∃ q ∈ ds, x ∈ q.2 ∧ y ∈ q.2 := by
  -- handles tell names apart, so a name stands in a constraint iff its handle does
  have hmem : ∀ q ∈ ds, ∀ z ∈ ix.atoms.names,
      ix.atoms.atomOf z ∈ q.2.map ix.atoms.atomOf ↔ z ∈ q.2 := by
    intro q hq z hz
    rw [List.mem_map]
    constructor
    · rintro ⟨n, hn, heq⟩
      rwa [← (AtomTable.atomOf_inj hsize (h.interned q hq n hn) hz).mp heq]
    · intro hzq
      exact ⟨z, hzq, rfl⟩
  rw [hix.isDisjoint_iff, h.listed, ne_eq, AtomTable.atomOf_inj hsize hx hy]
  simp only [List.mem_map (l := ds), exists_exists_and_eq_and]
  refine and_congr_right fun _ => exists_congr fun q => and_congr_right fun hq => ?_
  rw [hmem q hq x hx, hmem q hq y hy]

/-! ## §4 The comparison with a new index -/

/-- An interned name is found under the handle that the table has for it. -/
theorem mem_names_of_atom? {n : String} {a : Atom} (h : ix.atom? n = some a) :
    n ∈ ix.atoms.names ∧ ix.atoms.atomOf n = a := by
  have hmem : n ∈ ix.atoms.names :=
    AtomTable.isSome_lookup?_iff.mp (Option.isSome_iff_exists.mpr ⟨a, h⟩)
  exact ⟨hmem, Option.some.inj ((AtomTable.lookup?_of_mem hmem).symm.trans h)⟩

/-- **An index kept up to date answers like a new one.** After a coherent run, the segments and the
order of the index can be loaded into a new index in one update. The two then agree on every label,
on type, address and constant address of every symbol, on address, label and typecode of every
floating hypothesis, and on the constraints, each showing them with its own handles. As long as
handles tell the names of the index apart, the constraints also agree with names put in place of
handles, and so do the answers about two names that both indexes know. -/
theorem answers_of_coherent (h : ix.Coherent) (order : Order) :
    (∃ fresh, (new order).update ix.collection = .ok fresh) ∧
    ∀ fresh, Step (new order) (.update ix.collection) fresh →
      (∀ name : String,
        ix.label? name = fresh.label? name ∧
        ((ix.symbol? name).map fun a => (a.type, a.address, a.constant)) =
          ((fresh.symbol? name).map fun a => (a.type, a.address, a.constant)) ∧
        ((ix.float? name).map fun a => (a.address, a.label, a.typecode)) =
          ((fresh.float? name).map fun a => (a.address, a.label, a.typecode))) ∧
      (∃ ds, ix.ShowsDisjoint ds ∧ fresh.ShowsDisjoint ds) ∧
      (ix.atoms.size < UInt32.size →
        ((ix.disjointList.map fun a => (a.address, a.vars.map ix.atomName)) =
          fresh.disjointList.map fun a => (a.address, a.vars.map fresh.atomName)) ∧
        ∀ x y a b a' b', ix.atom? x = some a → ix.atom? y = some b → fresh.atom? x = some a' →
          fresh.atom? y = some b' → ix.isDisjoint a b = fresh.isDisjoint a' b') := by
  obtain ⟨hexact, hstrict, harranged⟩ := h.arranged
  change ix.collection.order.StrictOn {id | id ∈ ix.collection.segments} at hstrict
  change ix.ArrangedBy ix.collection.order at harranged
  refine ⟨exists_update (exact_new order) hstrict.total, fun fresh hstep => ?_⟩
  obtain ⟨hexact', htracked', harranged'⟩ := arranged_of_first_update hstrict hstep
  -- both indexes show one list of declarations in each slot
  have htops : ∀ k : SlotKey, ∃ q? : Option (SegmentId × k.Source),
      ((ix.slot k).top? = q?.map fun q => k.entry ix.atoms q.1 q.2) ∧
        (fresh.slot k).top? = q?.map fun q => k.entry fresh.atoms q.1 q.2 := by
    intro k
    obtain ⟨ds, hds⟩ := Collection.exists_layout hstrict.total k
    exact ⟨ds.head?, harranged.top?_eq rfl hstrict.total hds,
      harranged'.top?_eq htracked' hstrict.total hds⟩
  obtain ⟨ds, hds⟩ := Collection.exists_layout hstrict.total .disjoints
  have hshows := showsDisjoint_of_layout hexact harranged rfl hstrict.total hds
  have hshows' := showsDisjoint_of_layout hexact' harranged' htracked' hstrict.total hds
  refine ⟨fun name => ⟨?label, ?symbol, ?float⟩, ⟨_, hshows, hshows'⟩, fun hsize => ?names⟩
  case label =>
    obtain ⟨q?, htop, htop'⟩ := htops (.label name)
    rw [label?_eq_top?, label?_eq_top?, htop, htop', Option.map_map, Option.map_map]
    rfl
  case symbol =>
    obtain ⟨q?, htop, htop'⟩ := htops (.all name)
    obtain ⟨r?, hconstant, hconstant'⟩ := htops (.constants name)
    rw [symbol?_eq_top?, symbol?_eq_top?, htop, htop', hconstant, hconstant']
    simp only [Option.map_map]
    rfl
  case float =>
    obtain ⟨q?, htop, htop'⟩ := htops (.floats name)
    rw [float?_eq_top?, float?_eq_top?, htop, htop']
    simp only [Option.map_map]
    rfl
  case names =>
    -- the new index knows no further names, so its handles tell names apart as well
    have hsubset := names_subset_of_first_update hexact hstep
    have hsize' : fresh.atoms.size < UInt32.size :=
      (AtomTable.size_le_of_subset hsubset).trans_lt (ix.atoms.size_eq ▸ hsize)
    refine ⟨by rw [hshows.map_atomName hsize, hshows'.map_atomName hsize'], ?_⟩
    intro x y a b a' b' ha hb ha' hb'
    obtain ⟨hx, rfl⟩ := mem_names_of_atom? ha
    obtain ⟨hy, rfl⟩ := mem_names_of_atom? hb
    obtain ⟨hx', rfl⟩ := mem_names_of_atom? ha'
    obtain ⟨hy', rfl⟩ := mem_names_of_atom? hb'
    rw [Bool.eq_iff_iff, hshows.isDisjoint_iff hexact hsize hx hy,
      hshows'.isDisjoint_iff hexact' hsize' hx' hy']

/-- In the sample the upper segment is met first, so `x` and `y` have other handles than in an index
that never saw it; without the upper segment the two answer alike. -/
theorem answers_of_coherent_after_removal :
    ∃ ix fresh, (new .empty).update Sample.both = .ok ix ∧
      (new .empty).update (ix.remove 2).collection = .ok fresh ∧
      (ix.remove 2).label? "ax" = fresh.label? "ax" ∧
      (ix.remove 2).atom? "x" = some 2 ∧ (ix.remove 2).atom? "y" = some 5 ∧
      fresh.atom? "x" = some 1 ∧ fresh.atom? "y" = some 4 ∧
      (ix.remove 2).isDisjoint 2 5 = fresh.isDisjoint 1 4 := by
  let pair : Except Fault (Index × Index) := do
    let ix ← (new .empty).update Sample.both
    let fresh ← (new .empty).update (ix.remove 2).collection
    return (ix, fresh)
  have hatoms : pair.toOption.map (fun q => ((q.1.remove 2).atoms.names, q.2.atoms.names)) =
      some (["z", "x", "wff", "class", "y"], ["x", "wff", "class", "y"]) := by decide +kernel
  obtain ⟨⟨ix, fresh⟩, hsome, hatoms⟩ := Option.map_eq_some_iff.mp hatoms
  obtain ⟨hold, hnew⟩ := Prod.mk.inj hatoms
  obtain ⟨ix₁, hix, hrest⟩ := bind_eq_ok_iff.mp (eq_ok_of_toOption hsome)
  obtain ⟨fresh₁, hfresh, hrest⟩ := bind_eq_ok_iff.mp hrest
  obtain ⟨rfl, rfl⟩ := Prod.mk.inj (Except.ok.inj hrest)
  have hx : (ix₁.remove 2).atom? "x" = some 2 := by
    rw [atom?, AtomTable.lookup?_eq, hold]; decide
  have hy : (ix₁.remove 2).atom? "y" = some 5 := by
    rw [atom?, AtomTable.lookup?_eq, hold]; decide
  have hx' : fresh₁.atom? "x" = some 1 := by
    rw [atom?, AtomTable.lookup?_eq, hnew]; decide
  have hy' : fresh₁.atom? "y" = some 4 := by
    rw [atom?, AtomTable.lookup?_eq, hnew]; decide
  have hsize : (ix₁.remove 2).atoms.size < UInt32.size := by
    rw [AtomTable.size_eq, hold]; decide
  have hcoherent : (ix₁.remove 2).Coherent := by
    apply Coherent.remove
    apply Coherent.update (.new .empty) (step_of_update hix) Sample.strictOn_both
    exact fun a ha => absurd ha.1 Std.ExtTreeMap.not_mem_empty
  obtain ⟨hnames, -, hdisjoint⟩ :=
    (answers_of_coherent hcoherent .empty).2 fresh₁ (step_of_update hfresh)
  exact ⟨ix₁, fresh₁, hix, hfresh, (hnames "ax").1, hx, hy, hx', hy',
    (hdisjoint hsize).2 "x" "y" 2 5 1 4 hx hy hx' hy'⟩

end NameIndex.Index
