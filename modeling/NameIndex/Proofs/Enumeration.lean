import NameIndex.Proofs.Resorting

/-!
# The sequence in which maps are listed is not seen

An update looks through two maps, the tracked segments and those of the collection, and a map may be
listed in any sequence. The sequence of the first listing is that in which stale segments are
removed, and the second is sorted before anything is added.

## Architecture

1. Removals commute on the whole state, whatever the index (`Index.remove_comm`): they change the
   same maps, but each drops its own entries, and an emptied slot or record is gone in either
   sequence.
2. A strict order leaves one arrangement of the new segments (`Order.StrictOn.sort_eq`).
3. So all listings lead to one state (`Index.update_eq_of_listings`).
-/

namespace NameIndex

open Sorting

/-! ## §1 Changes of one map -/

theorem alter_comm {β : Type} (m : Std.ExtTreeMap String β) (a b : String)
    {f g : Option β → Option β} (h : ∀ x, f (g x) = g (f x)) :
    (m.alter a f).alter b g = (m.alter b g).alter a f := by
  apply Std.ExtTreeMap.ext_getElem?
  intro n
  simp only [Std.ExtTreeMap.getElem?_alter, Std.compare_eq_iff_eq]
  by_cases hab : a = b
  · subst hab
    by_cases han : a = n
    · simp [han, h]
    · simp [han]
  · by_cases han : a = n
    · subst han
      simp [Ne.symm hab]
    · simp [han, hab]

/-- Two changes that drop what they leave empty commute if the changes do: what one of them empties
stays empty under the other, so it is dropped in either sequence. -/
theorem dropEmpty_comm {β : Type} {empty : β → Bool} {f g : β → β}
    (hf : ∀ x, empty x → empty (f x)) (hg : ∀ x, empty x → empty (g x))
    (hfg : ∀ x, f (g x) = g (f x)) (x? : Option β) :
    ((x?.bind fun x => if empty (g x) then none else some (g x)).bind
        fun x => if empty (f x) then none else some (f x)) =
      ((x?.bind fun x => if empty (f x) then none else some (f x)).bind
        fun x => if empty (g x) then none else some (g x)) := by
  cases x? with
  | none => rfl
  | some x =>
    have hgone : empty (g x) = true → empty (g (f x)) = true := fun h => hfg x ▸ hf _ h
    have hgone' : empty (f x) = true → empty (g (f x)) = true := hg _
    by_cases hgx : empty (g x) = true
    · by_cases hfx : empty (f x) = true
      · simp [hgx, hfx]
      · simp [hgx, hfx, hgone hgx]
    · by_cases hfx : empty (f x) = true
      · simp [hgx, hfx, hfg, hgone' hfx]
      · simp [hgx, hfx, hfg]

/-! ## §2 Removals commute -/

namespace Slot

variable {A V : Type} [DecidableEq A]

theorem without_comm (s : Slot A V) (a b : A) :
    (s.without a).without b = (s.without b).without a :=
  congrArg Slot.mk (List.filter_comm ..)

theorem isEmpty_without {s : Slot A V} (a : A) (h : s.isEmpty) : (s.without a).isEmpty := by
  have hnil : s.entries = [] := List.isEmpty_iff.mp h
  simp [without, isEmpty, hnil]

end Slot

namespace Index

variable {ix : Index} {c : Collection}

theorem changeRecord_comm (ix : Index) (name other : String) {f g : SymbolRecord → SymbolRecord}
    (hf : f .blank = .blank) (hg : g .blank = .blank) (hfg : ∀ r, f (g r) = g (f r)) :
    (ix.changeRecord name f).changeRecord other g =
      (ix.changeRecord other g).changeRecord name f := by
  have hblank : ∀ {h : SymbolRecord → SymbolRecord}, h .blank = .blank →
      ∀ r : SymbolRecord, r.isBlank → (h r).isBlank := by
    intro h hh r hr
    rw [(isBlank_iff r).mp hr, hh]
    rfl
  unfold changeRecord
  congr 1
  apply alter_comm
  intro r?
  exact dropEmpty_comm (hblank hf) (hblank hg) hfg r?

/-- **Withdrawing declarations commutes**, whatever segments they are of. -/
theorem removeDeclaration_comm (ix : Index) (a b : SegmentId) (d e : Declaration) :
    (ix.removeDeclaration a d).removeDeclaration b e =
      (ix.removeDeclaration b e).removeDeclaration a d := by
  cases d <;> cases e
  -- declarations of different kinds change different parts of the index, except that symbols and
  -- floating hypotheses share a record
  case symbol.symbol d e =>
    apply changeRecord_comm ix d.name e.name rfl rfl
    intro r
    simp only [SymbolRecord.mk.injEq, true_and, and_true]
    exact ⟨Slot.without_comm .., Slot.without_comm ..⟩
  case symbol.float d e => exact changeRecord_comm ix d.name e.name rfl rfl fun _ => rfl
  case float.symbol d e => exact changeRecord_comm ix d.name e.name rfl rfl fun _ => rfl
  case float.float d e =>
    apply changeRecord_comm ix d.name e.name rfl rfl
    intro r
    simp only [SymbolRecord.mk.injEq, true_and]
    exact Slot.without_comm ..
  case label.label d e =>
    simp only [removeDeclaration, removeLabel]
    congr 1
    apply alter_comm
    exact dropEmpty_comm (fun _ hs => Slot.isEmpty_without _ hs)
      (fun _ hs => Slot.isEmpty_without _ hs) fun s => s.without_comm _ _
  case disjoint.disjoint d e =>
    simp only [removeDeclaration, removeDisjoint]
    congr 1
    exact Slot.without_comm ..
  all_goals rfl

theorem withdraw_comm (ix : Index) (a b : SegmentId) (s t : Segment) :
    (ix.withdraw a s).withdraw b t = (ix.withdraw b t).withdraw a s := by
  -- one declaration of `t` passes all of `s`, hence so do all of them
  have hone : ∀ (ix : Index) (e : Declaration),
      (ix.withdraw a s).removeDeclaration b e = (ix.removeDeclaration b e).withdraw a s := by
    intro ix e
    simp only [withdraw_eq_foldl]
    exact (List.foldl_hom (fun x : Index => x.removeDeclaration b e)
      fun x d => removeDeclaration_comm x b a e d).symm
  simp only [withdraw_eq_foldl _ b t]
  exact List.foldl_hom (fun x : Index => x.withdraw a s) hone

theorem withdraw_setTracked (ix : Index) (m : Std.ExtTreeMap SegmentId Revision) (id : SegmentId)
    (s : Segment) :
    ({ ix with tracked := m } : Index).withdraw id s = { ix.withdraw id s with tracked := m } := by
  simp only [withdraw_eq_foldl]
  induction s.declarations generalizing ix with
  | nil => rfl
  | cons d ds ih =>
    simp only [List.foldl_cons, ← ih]
    cases d <;> rfl

/-- **Removals commute** on the whole state: records, labels and constraints included. -/
theorem remove_comm (ix : Index) (a b : SegmentId) :
    (ix.remove a).remove b = (ix.remove b).remove a := by
  by_cases hab : a = b
  · rw [hab]
  · have hkeep : ∀ {a b : SegmentId}, a ≠ b → (ix.remove a).tracked[b]? = ix.tracked[b]? := by
      intro a b hne
      rw [(ix.remove_frame a).2.1, Std.ExtTreeMap.getElem?_erase]
      simp [hne]
    have hb := hkeep hab
    have ha := hkeep (Ne.symm hab)
    cases hra : ix.tracked[a]? with
    | none => rw [remove_of_untracked hra, remove_of_untracked (ha.trans hra)]
    | some r =>
      cases hrb : ix.tracked[b]? with
      | none => rw [remove_of_untracked hrb, remove_of_untracked (hb.trans hrb)]
      | some s =>
        -- both are tracked, and each is withdrawn from what the other leaves
        rw [remove_of_tracked (hb.trans hrb), remove_of_tracked (ha.trans hra),
          (ix.remove_frame a).2.1, (ix.remove_frame b).2.1, remove_of_tracked hra,
          remove_of_tracked hrb]
        simp only [withdraw_setTracked]
        have herase : (ix.tracked.erase a).erase b = (ix.tracked.erase b).erase a := by
          apply Std.ExtTreeMap.ext_getElem?
          intro id
          simp only [Std.ExtTreeMap.getElem?_erase]
          split <;> split <;> rfl
        rw [withdraw_comm ix a b, herase]

end Index

/-! ## §3 One arrangement of the new segments -/

namespace Sorting

variable {ε α : Type} {cmp cmp' : α → α → Except ε Int} {x : α} {done xs ys : List α}

theorem place_congr (h : ∀ y ∈ done, cmp x y = cmp' x y) :
    place cmp x done = place cmp' x done := by
  induction done with
  | nil => rfl
  | cons y done ih =>
    have hrest : ∀ z ∈ done, cmp x z = cmp' x z := fun z hz => h z (List.mem_cons_of_mem y hz)
    rw [place, place, h y List.mem_cons_self, ih hrest]

theorem placeAll_congr (hcross : ∀ x ∈ xs, ∀ y ∈ done, cmp x y = cmp' x y)
    (hxs : xs.Pairwise fun y x => cmp x y = cmp' x y) :
    placeAll cmp done xs = placeAll cmp' done xs := by
  induction xs generalizing done with
  | nil => rfl
  | cons x rest ih =>
    obtain ⟨hx, hrest⟩ := List.pairwise_cons.mp hxs
    rw [placeAll, placeAll, place_congr (hcross x List.mem_cons_self)]
    cases hplace : place cmp' x done with
    | error e => rfl
    | ok mid =>
      apply ih _ hrest
      intro z hz y hy
      -- what has been placed is `x` and what was there before
      rcases List.mem_cons.mp ((place_perm hplace).mem_iff.mp hy) with rfl | hy
      · exact hx z hz
      · exact hcross z (List.mem_cons_of_mem x hz) y hy

/-- Sorting depends only on the answers about an entry and one to its left. -/
theorem sort_congr (h : xs.Pairwise fun y x => cmp x y = cmp' x y) : sort cmp xs = sort cmp' xs := by
  unfold sort
  rw [placeAll_congr (by simp) h]

end Sorting

namespace Order.StrictOn

variable {o : Order} {ids : Set SegmentId} {xs ys : List SegmentId}

/-- A strict order arranges a list of different segments, although it need not know how a segment
stands to itself. -/
theorem exists_sort (h : o.StrictOn ids) (hnodup : xs.Nodup) (hmem : ∀ id ∈ xs, id ∈ ids) :
    ∃ ys, sort o.compare xs = .ok ys ∧ StableSort o.compareDistinct xs ys := by
  have hsame : sort o.compare xs = sort o.compareDistinct xs := by
    apply sort_congr
    apply hnodup.imp
    intro b a hne
    rw [compareDistinct, if_neg (Ne.symm hne)]
  rw [hsame]
  exact exists_stableSort (h.total.mono hmem)

/-- **One arrangement**: however the segments are listed, a strict order arranges them alike. -/
theorem sort_eq (h : o.StrictOn ids) (hnodup : xs.Nodup) (hmem : ∀ id ∈ xs, id ∈ ids)
    (hperm : xs.Perm ys) : sort o.compare xs = sort o.compare ys := by
  have hmem' : ∀ id ∈ ys, id ∈ ids := fun id hid => hmem id (hperm.mem_iff.mpr hid)
  obtain ⟨zs, hzs, hstable⟩ := h.exists_sort hnodup hmem
  obtain ⟨zs', hzs', hstable'⟩ := h.exists_sort (hperm.nodup_iff.mp hnodup) hmem'
  rw [hzs, hzs']
  congr 1
  apply List.Perm.eq_of_pairwise _ hstable.sorted hstable'.sorted
    ((hstable.perm.trans hperm).trans hstable'.perm.symm)
  intro a b ha hb hab hba
  -- segments that precede each other are level, and only a segment and itself are level
  have ha := hmem a (hstable.perm.mem_iff.mp ha)
  have hb := hmem' b (hstable'.perm.mem_iff.mp hb)
  exact h.eq_of_ties ha hb ((h.total.ties_iff ha hb).mpr ⟨hab, hba⟩)

end Order.StrictOn

/-! ## §4 All listings lead to one state -/

namespace Index

variable {ix : Index} {c : Collection} {trackedIds collectionIds : List SegmentId}

theorem carryOut_eq_of_perm {p q : UpdatePlan} (hstale : p.stale.Perm q.stale)
    (hfresh : p.fresh = q.fresh) (o : Order) : ix.carryOut o p = ix.carryOut o q := by
  rw [carryOut_eq, carryOut_eq, hfresh, hstale.foldl_eq' fun a _ b _ ix => remove_comm ix a b]

/-- What is new in a collection is listed without repetition, and belongs to the collection. -/
theorem nodup_new (ix : Index) (hcollection : collectionIds.Perm c.segments.keys) :
    (collectionIds.filter fun id => !ix.isCurrent c id).Nodup ∧
      ∀ id ∈ collectionIds.filter fun id => !ix.isCurrent c id, id ∈ c.segments := by
  constructor
  · exact (hcollection.nodup_iff.mpr Std.ExtTreeMap.nodup_keys).filter _
  · intro id hid
    have hlisted := (List.mem_filter.mp hid).1
    exact Std.ExtTreeMap.mem_keys.mp (hcollection.mem_iff.mp hlisted)

/-- **The listings are not seen.** Under a strict order of the segments of the collection, the update
of a reachable index leads to one and the same state from all listings of the tracked segments and
of the collection. -/
theorem update_eq_of_listings (hix : ix.Reachable)
    (hc : c.order.StrictOn {id | id ∈ c.segments}) :
    ∃ ix', ∀ trackedIds collectionIds : List SegmentId,
      trackedIds.Perm ix.tracked.keys → collectionIds.Perm c.segments.keys →
        ix.planFrom c trackedIds collectionIds >>= ix.carryOut c.order = .ok ix' := by
  obtain ⟨ix', hix'⟩ := exists_update hix.exact hc.total
  refine ⟨ix', fun trackedIds collectionIds htracked hcollection => ?_⟩
  rw [← hix', update, plan]
  obtain ⟨hnodup, hmem⟩ := nodup_new ix hcollection
  unfold planFrom
  rw [hc.sort_eq hnodup hmem (hcollection.filter _)]
  -- the two plans add the same segments in one sequence, and differ in that of the removals
  cases sort c.order.compare (c.segments.keys.filter fun id => !ix.isCurrent c id) with
  | error e => rfl
  | ok ids =>
    apply carryOut_eq_of_perm
    · exact htracked.filter _
    · rfl

end Index

/-- The sample with the contents of its segments exchanged. -/
def Sample.exchanged : Collection := ⟨both.order, (both.segments.insert 1 upper).insert 2 lower⟩

theorem Sample.covered_exchanged : exchanged.Covered := by
  refine ⟨.ofDistinct [2, 1] (by decide), rfl, ?_⟩
  intro id hid
  rcases Std.ExtTreeMap.mem_insert.mp hid with heq | hid
  · simp [← Std.compare_eq_iff_eq.mp heq]
  · rcases Std.ExtTreeMap.mem_insert.mp hid with heq | hid
    · simp [← Std.compare_eq_iff_eq.mp heq]
    · rcases mem_both hid with rfl | rfl <;> simp

/-- Exchanging the contents makes both segments stale and both new. Listed in either sequence, they
are removed in that sequence and added in the order of the collection, and the state is the same. -/
theorem Index.update_eq_of_listings_exchanged :
    ∃ ix ix', (new .empty).update Sample.both = .ok ix ∧
      ix.planFrom Sample.exchanged [1, 2] [2, 1] =
        .ok ⟨[1, 2], [(2, Sample.lower), (1, Sample.upper)]⟩ ∧
      ix.planFrom Sample.exchanged [2, 1] [1, 2] =
        .ok ⟨[2, 1], [(2, Sample.lower), (1, Sample.upper)]⟩ ∧
      ix.planFrom Sample.exchanged [1, 2] [2, 1] >>= ix.carryOut Sample.exchanged.order = .ok ix' ∧
      ix.planFrom Sample.exchanged [2, 1] [1, 2] >>= ix.carryOut Sample.exchanged.order = .ok ix' := by
  have hplans : ((new .empty).update Sample.both).toOption.map (fun ix =>
      ((ix.planFrom Sample.exchanged [1, 2] [2, 1]).toOption,
        (ix.planFrom Sample.exchanged [2, 1] [1, 2]).toOption)) =
      some (some ⟨[1, 2], [(2, Sample.lower), (1, Sample.upper)]⟩,
        some ⟨[2, 1], [(2, Sample.lower), (1, Sample.upper)]⟩) := by
    decide +kernel
  obtain ⟨ix, hsome, hpair⟩ := Option.map_eq_some_iff.mp hplans
  obtain ⟨hfirst, hsecond⟩ := Prod.mk.inj hpair
  have hix := eq_ok_of_toOption hsome
  have hreach := (Reachable.new .empty).step (step_of_update hix)
  have htracked : ix.tracked = Sample.both.segments :=
    ((exact_new .empty).frame_of_update (step_of_update hix)).2
  obtain ⟨ix', hall⟩ := update_eq_of_listings hreach Sample.covered_exchanged.strictOn
  refine ⟨ix, ix', hix, eq_ok_of_toOption hfirst, eq_ok_of_toOption hsecond, ?_, ?_⟩
  · exact hall [1, 2] [2, 1] (by rw [htracked]; decide +kernel) (by decide +kernel)
  · exact hall [2, 1] [1, 2] (by rw [htracked]; decide +kernel) (by decide +kernel)

end NameIndex
