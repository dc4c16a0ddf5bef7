import Mathlib.Data.List.Perm.Basic
import NameIndex.Proofs.Handles

/-!
# Three views of disjointness

Constraints are asked about in three ways: whether two variables are disjoint, which variables are
disjoint from one, and which constraints there are. The first searches the sets of handles pair by
pair, the second unites them, and the third lists the variables as they were declared. The three
agree on all handles, among them those that no table has given out. They do not read the same data: a
constraint is kept as a list and as a set, and the first two look at the sets while the third looks at
the lists. Nothing in an index says that a set is that of its list; what changes make of an index
keeps it so (`Index.Exact.members_eq`).

Sets of handles are ascending lists, and every operation on them keeps them ascending
(`AtomSet.pairwise_insertInto`, `AtomSet.pairwise_foldl_union`).

## Main results

* `Index.Exact.isDisjoint_iff` — two variables are disjoint iff they differ and some constraint has
  both.
* `Index.disjointness_of_reachable` — the three views agree, on handles and on names.
-/

namespace NameIndex

/-! ## §1 Ascending sets -/

namespace AtomSet

variable {a : Atom} {as : List Atom} {s : AtomSet}

theorem pairwise_insertInto (h : as.Pairwise (· < ·)) : (insertInto a as).Pairwise (· < ·) := by
  induction as with
  | nil => exact List.pairwise_singleton _ a
  | cons b as ih =>
    obtain ⟨hb, has⟩ := List.pairwise_cons.mp h
    rw [insertInto]
    split_ifs with hlt heq
    · -- the head is above `a`, and the rest is above the head
      apply List.pairwise_cons.mpr
      refine ⟨fun c hc => ?_, h⟩
      rcases List.mem_cons.mp hc with rfl | hc
      · exact hlt
      · exact UInt32.lt_trans hlt (hb c hc)
    · exact h
    · have hba : b < a := UInt32.lt_of_le_of_ne (UInt32.not_lt.mp hlt) (Ne.symm heq)
      apply List.pairwise_cons.mpr
      refine ⟨fun c hc => ?_, ih has⟩
      rcases mem_insertInto.mp hc with rfl | hc
      · exact hba
      · exact hb c hc

theorem pairwise_foldl_insert (h : s.members.Pairwise (· < ·)) :
    (as.foldl insert s).members.Pairwise (· < ·) := by
  induction as generalizing s with
  | nil => exact h
  | cons a as ih => exact ih (pairwise_insertInto h)

theorem pairwise_foldl_union {α : Type} {f : α → AtomSet} {xs : List α}
    (h : s.members.Pairwise (· < ·)) :
    (xs.foldl (fun s x => s.union (f x)) s).members.Pairwise (· < ·) := by
  induction xs generalizing s with
  | nil => exact h
  | cons x xs ih => exact ih (pairwise_foldl_insert h)

end AtomSet

namespace Index

variable {ix : Index}

/-! ## §2 Handles -/

theorem Exact.isDisjoint_iff_mem (h : ix.Exact) {a b : Atom} :
    ix.isDisjoint a b ↔ b ∈ ix.disjointFrom a := by
  rw [h.isDisjoint_iff, h.mem_disjointFrom_iff, ne_comm]

theorem isDisjoint_symm (ix : Index) (a b : Atom) : ix.isDisjoint a b = ix.isDisjoint b a := by
  unfold isDisjoint
  rw [bne_comm]
  simp only [Bool.and_comm]

/-- The variables beside another one are listed in strictly ascending order of their handles. -/
theorem pairwise_disjointFrom (ix : Index) (a : Atom) :
    (ix.disjointFrom a).Pairwise (· < ·) := by
  unfold disjointFrom
  apply List.Pairwise.filter
  apply AtomSet.pairwise_foldl_union
  exact List.Pairwise.nil

/-! ## §3 Names -/

/-- An exact index shows the constraints of its segments, in some sequence, with its own handles. -/
theorem Exact.exists_showsDisjoint (h : ix.Exact) :
    ∃ ds : List (SegmentId × DisjointDecl), ds.Perm (ix.collection.declarations .disjoints) ∧
      ix.ShowsDisjoint (ds.map fun q => (⟨q.1, q.2.index⟩, q.2.names)) := by
  -- a rearrangement of written constraints is a writing of rearranged ones
  obtain ⟨ds, hds, hperm⟩ : Relation.Comp (· = List.map _ ·) List.Perm ix.disjointList
      (ix.collection.declarations .disjoints) := by
    rw [List.eq_map_comp_perm]
    exact h.disjointList_perm
  refine ⟨ds, hperm, ?_, ?_⟩
  · rw [hds, List.map_map]
    rfl
  · intro q hq n hn
    obtain ⟨q', hq', rfl⟩ := List.mem_map.mp hq
    exact h.mem_names_of_disjoint (hperm.mem_iff.mp hq') n hn

/-- Names are disjoint iff they differ and some constraint of a tracked segment has both. -/
theorem Exact.isDisjoint_iff_of_atom? (h : ix.Exact) (hsize : ix.atoms.size < UInt32.size)
    {x y : String} {a b : Atom} (ha : ix.atom? x = some a) (hb : ix.atom? y = some b) :
    ix.isDisjoint a b ↔ x ≠ y ∧ ∃ (id : SegmentId) (r : Revision), ix.tracked[id]? = some r ∧
      ∃ d ∈ r.content.disjoints, x ∈ d.names ∧ y ∈ d.names := by
  obtain ⟨hx, rfl⟩ := mem_names_of_atom? ha
  obtain ⟨hy, rfl⟩ := mem_names_of_atom? hb
  obtain ⟨ds, hperm, hshows⟩ := h.exists_showsDisjoint
  rw [hshows.isDisjoint_iff h hsize hx hy]
  apply and_congr_right
  intro _
  constructor
  · rintro ⟨q, hq, hboth⟩
    obtain ⟨⟨id, d⟩, hd, rfl⟩ := List.mem_map.mp hq
    obtain ⟨r, hr, hd⟩ := Collection.mem_declarations.mp (hperm.mem_iff.mp hd)
    exact ⟨id, r, hr, d, hd, hboth⟩
  · rintro ⟨id, r, hr, d, hd, hboth⟩
    have hdecl : (id, d) ∈ ix.collection.declarations .disjoints :=
      Collection.mem_declarations.mpr ⟨r, hr, hd⟩
    exact ⟨_, List.mem_map.mpr ⟨(id, d), hperm.mem_iff.mpr hdecl, rfl⟩, hboth⟩

/-! ## §4 The three views -/

/-- **The three views of disjointness agree.** In every reachable index each constraint is kept alike
in both forms, as the set that questions look at and as the list that is shown. So for all handles,
whether or not they are handles of the index: two variables are disjoint iff the second is listed
beside the first iff they differ and some listed constraint has both; disjointness is symmetric; and
what is listed beside a variable is strictly ascending and never has the variable itself. As long as
handles tell names apart, two interned names are disjoint iff they differ and some constraint of a
tracked segment has both. -/
theorem disjointness_of_reachable (hix : ix.Reachable) :
    (∀ e ∈ ix.disjoints.entries, e.value.members = AtomSet.ofList e.value.vars) ∧
    (∀ a b, (ix.isDisjoint a b ↔ b ∈ ix.disjointFrom a) ∧
      (ix.isDisjoint a b ↔ a ≠ b ∧ ∃ g ∈ ix.disjointList, a ∈ g.vars ∧ b ∈ g.vars) ∧
      ix.isDisjoint a b = ix.isDisjoint b a) ∧
    (∀ a, (ix.disjointFrom a).Pairwise (· < ·) ∧ a ∉ ix.disjointFrom a) ∧
    (ix.atoms.size < UInt32.size → ∀ x y a b, ix.atom? x = some a → ix.atom? y = some b →
      (ix.isDisjoint a b ↔ x ≠ y ∧ ∃ (id : SegmentId) (r : Revision), ix.tracked[id]? = some r ∧
        ∃ d ∈ r.content.disjoints, x ∈ d.names ∧ y ∈ d.names)) := by
  have hexact := hix.exact
  refine ⟨hexact.members_eq,
    fun a b => ⟨hexact.isDisjoint_iff_mem, hexact.isDisjoint_iff, ix.isDisjoint_symm a b⟩,
    fun a => ⟨?_, ?_⟩, ?_⟩
  · exact ix.pairwise_disjointFrom a
  · intro hself
    exact (hexact.mem_disjointFrom_iff.mp hself).1 rfl
  · intro hsize x y a b ha hb
    exact hexact.isDisjoint_iff_of_atom? hsize ha hb

/-- The lower segment of the sample declares `y` and `x` disjoint, in this sequence. The two have the
handles 5 and 2, and the handle 7 is none of the index. -/
theorem disjointness_of_reachable_both :
    ∃ ix, (new .empty).update Sample.both = .ok ix ∧
      ix.atom? "x" = some 2 ∧ ix.atom? "y" = some 5 ∧ ix.disjointFrom 2 = [5] ∧
      ix.isDisjoint 2 5 ∧ ix.isDisjoint 5 2 ∧ ¬ ix.isDisjoint 2 7 ∧
      ∃ (id : SegmentId) (r : Revision), ix.tracked[id]? = some r ∧
        ∃ d ∈ r.content.disjoints, "x" ∈ d.names ∧ "y" ∈ d.names := by
  have hrun : ((new .empty).update Sample.both).toOption.map (fun ix => decide
      (ix.atoms.size < UInt32.size ∧ ix.atom? "x" = some 2 ∧ ix.atom? "y" = some 5 ∧
        ix.disjointFrom 2 = [5])) = some true := by
    decide +kernel
  obtain ⟨ix, hsome, hdecided⟩ := Option.map_eq_some_iff.mp hrun
  obtain ⟨hsize, hx, hy, hfrom⟩ := of_decide_eq_true hdecided
  have hix := eq_ok_of_toOption hsome
  obtain ⟨-, hviews, -, hnames⟩ :=
    disjointness_of_reachable ((Reachable.new .empty).step (step_of_update hix))
  have hyes : ix.isDisjoint 2 5 := (hviews 2 5).1.mpr (by simp [hfrom])
  have hno : ¬ ix.isDisjoint 2 7 := by
    rw [(hviews 2 7).1, hfrom]
    decide
  exact ⟨ix, hix, hx, hy, hfrom, hyes, (hviews 2 5).2.2 ▸ hyes, hno,
    ((hnames hsize "x" "y" 2 5 hx hy).mp hyes).2⟩

end Index

end NameIndex
