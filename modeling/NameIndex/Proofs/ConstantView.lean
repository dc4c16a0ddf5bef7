import NameIndex.Proofs.Resorting
import NameIndex.Proofs.TrackedContent

/-!
# Symbols and their constants

A symbol has two slots that bear on one lookup: all its declarations, whose top gives type and
address, and its constant declarations, whose top gives the constant address. The two hold the same
constants at all times, but each is sorted on its own, when an entry arrives in it. They are **in
step** while they show the constants in the same sequence; then a symbol that is found as a constant
is found at its constant address.

An update that brings a constant declaration sorts both slots. An update that brings only variables
sorts one of them, and puts the two out of step if it turns the constants around. This is the one
way to get out of step (`Index.inStep_iff_of_update`).

## Main definitions

* `Index.InStep` — the two slots of a symbol show its constants in the same sequence.
* `Index.Splits` — an update sorts all declarations of a symbol and turns its constants around.
* `Index.Steady` — runs in which the two slots stay in step.

## Main results

* `Index.constant_address_of_constant` — what a symbol that is found as a constant has for constant
  address.
* `Index.constant_ne_address_of_split` — a symbol whose two addresses differ.
-/

namespace NameIndex

open Sorting

namespace Index

variable {ix ix' : Index} {c : Collection} {n : String}

/-! ## §1 Slots in step -/

/-- The slot of the constants of a symbol shows them in the sequence in which they stand among all
declarations of the symbol. -/
def InStep (ix : Index) (n : String) : Prop :=
  (ix.slot (.constants n)).entries.map Entry.address =
    ((ix.slot (.all n)).entries.filter fun e => e.value = .constant).map Entry.address

theorem ascending_iff_pairwise_address {k : SlotKey} {o : Order}
    {es : List (Entry k.Address k.Value)} :
    k.Ascending o es ↔ (es.map Entry.address).Pairwise fun a b => precedes (k.compare o) a b := by
  rw [List.pairwise_map]
  exact Iff.rfl

/-- An order that arranges all declarations of a symbol arranges its constants among them. -/
theorem pairwise_constants_of_ascending {o : Order}
    (h : (SlotKey.all n).Ascending o (ix.slot (.all n)).entries) :
    (((ix.slot (.all n)).entries.filter fun e => e.value = .constant).map Entry.address).Pairwise
      fun a b => precedes (TokenAddress.compare o) a b :=
  ascending_iff_pairwise_address.mp (h.filter _)

/-- Slots that stand in one strict order are in step: they hold the same constants, and these have
one arrangement. -/
theorem Exact.inStep_of_ascending (hix : ix.Exact) {o : Order}
    (ho : o.StrictOn {id | id ∈ ix.tracked})
    (hall : (SlotKey.all n).Ascending o (ix.slot (.all n)).entries)
    (hconstants : (SlotKey.constants n).Ascending o (ix.slot (.constants n)).entries) :
    ix.InStep n := by
  have htracked : ∀ a ∈ (ix.slot (.constants n)).entries.map Entry.address,
      a.statement.segment ∈ ix.tracked := by
    intro a ha
    obtain ⟨e, he, rfl⟩ := List.mem_map.mp ha
    exact tracked_of_mem_declared ((hix.content (.constants n)).mem_iff.mp he)
  have hperm := hix.constants_perm n
  refine hperm.eq_of_pairwise (fun a b ha hb hab hba => ?_)
    (ascending_iff_pairwise_address.mp hconstants) (pairwise_constants_of_ascending hall)
  -- addresses that precede each other are level, and a strict order has no two level ones
  have hsa := htracked a ha
  have hsb := htracked b (hperm.mem_iff.mpr hb)
  exact TokenAddress.eq_of_ties ho hsa hsb
    (((TokenAddress.totalOn ho.total).ties_iff hsa hsb).mpr ⟨hab, hba⟩)

/-! ## §2 Updates -/

/-- The update sorts all declarations of the symbol, leaves the slot of its constants alone, and
adopts an order in which the constants that stay do not stand as that slot shows them. -/
def Splits (ix : Index) (c : Collection) (n : String) : Prop :=
  ix.Inserts (.update c) (.all n) ∧ ¬ ix.Inserts (.update c) (.constants n) ∧
    ¬ (SlotKey.constants n).Ascending c.order (ix.kept c (.constants n))

/-- A constant declaration of a symbol is one of its declarations. -/
theorem inserts_all_of_constants {change : Change} (h : ix.Inserts change (.constants n)) :
    ix.Inserts change (.all n) := by
  obtain ⟨id, r, hbrings, hsources⟩ := h
  refine ⟨id, r, hbrings, fun hnone => hsources ?_⟩
  simp only [SlotKey.sources, List.filter_eq_nil_iff, decide_eq_true_eq] at hnone ⊢
  exact fun d hd h => hnone d hd h.1

/-- Dropping the entries of some segments keeps the slots in step. -/
theorem InStep.kept (h : ix.InStep n) (c : Collection) :
    (ix.kept c (.constants n)).map Entry.address =
      ((ix.kept c (.all n)).filter fun e => e.value = .constant).map Entry.address := by
  -- which entries stay is decided by their addresses, on which the two slots agree
  have hstay := congrArg (List.filter fun a => ix.isCurrent c a.statement.segment) h
  rw [List.filter_map, List.filter_map, List.filter_filter] at hstay
  rw [Index.kept, Index.kept, List.filter_filter]
  simp only [Bool.and_comm (decide _)]
  exact hstay

/-- An update that brings a constant declaration puts the slots in step, whatever had become of them
before: it sorts both by the order that it adopts. -/
theorem Exact.inStep_of_inserts (hix : ix.Exact) (hc : c.Covered) (hstep : Step ix (.update c) ix')
    (h : ix.Inserts (.update c) (.constants n)) : ix'.InStep n := by
  have hstrict := hix.strictOn_of_update hc hstep
  have hall := hix.ascending_of_inserts hstep hstrict.total (inserts_all_of_constants h)
  have hself := hix.ascending_of_inserts hstep hstrict.total h
  exact (hix.step hstep).inStep_of_ascending hstrict hall hself

/-- **One update.** Slots in step get out of step exactly by an update that splits them. -/
theorem inStep_iff_of_update (hix : ix.Exact) (hc : c.Covered)
    (hstep : Step ix (.update c) ix') (h : ix.InStep n) : ix'.InStep n ↔ ¬ ix.Splits c n := by
  have hstrict := hix.strictOn_of_update hc hstep
  have horder := (hix.frame_of_update hstep).1
  by_cases hconstants : ix.Inserts (.update c) (.constants n)
  · exact iff_of_true (hix.inStep_of_inserts hc hstep hconstants)
      fun hsplits => hsplits.2.1 hconstants
  · have hkept := hix.slot_of_not_inserts hstep hconstants
    rw [remaining_update] at hkept
    by_cases hinserts : ix.Inserts (.update c) (.all n)
    · -- only variables arrive: the constants have to stand in the adopted order already
      have hall := hix.ascending_of_inserts hstep hstrict.total hinserts
      have hsplits : ¬ ix.Splits c n ↔
          (SlotKey.constants n).Ascending ix'.order (ix'.slot (.constants n)).entries := by
        rw [hkept, horder]
        simp [Splits, hinserts, hconstants]
      rw [hsplits]
      constructor
      · intro hinstep
        rw [ascending_iff_pairwise_address, hinstep]
        exact pairwise_constants_of_ascending hall
      · exact (hix.step hstep).inStep_of_ascending hstrict hall
    · -- nothing arrives, and both slots keep what stays
      refine iff_of_true ?_ fun hsplits => hinserts hsplits.1
      have hkept' := hix.slot_of_not_inserts hstep hinserts
      rw [remaining_update] at hkept'
      rw [InStep, hkept, hkept']
      exact h.kept c

/-! ## §3 Runs of updates -/

/-- **Steady runs** for a symbol: every update has a list that covers its collection, and no update
since the last one that brought a constant declaration of the symbol has split its slots. -/
inductive Steady (n : String) : Index → Prop where
  | new (order : Order) : Steady n (Index.new order)
  | brings {ix ix' : Index} {c : Collection} (hix : Reachable ix) (hc : c.Covered)
      (hstep : Step ix (.update c) ix') (hinserts : ix.Inserts (.update c) (.constants n)) :
      Steady n ix'
  | keeps {ix ix' : Index} {c : Collection} (hix : Steady n ix) (hc : c.Covered)
      (hstep : Step ix (.update c) ix') (hsplits : ¬ ix.Splits c n) : Steady n ix'

theorem Steady.reachable (h : ix.Steady n) : ix.Reachable := by
  induction h with
  | new order => exact .new order
  | brings hix _ hstep _ => exact hix.step hstep
  | keeps _ _ hstep _ ih => exact ih.step hstep

/-- **Steady runs keep the slots in step.** -/
theorem Steady.inStep (h : ix.Steady n) : ix.InStep n := by
  induction h with
  | new order => simp [InStep, slot_new, EmptyCollection.emptyCollection, Slot.empty]
  | brings hix hc hstep hinserts => exact hix.exact.inStep_of_inserts hc hstep hinserts
  | keeps hix hc hstep hsplits ih =>
    exact (inStep_iff_of_update hix.reachable.exact hc hstep ih).mpr hsplits

/-- In step, a topmost declaration that is a constant is the topmost constant. -/
theorem InStep.top?_constants (h : ix.InStep n) {e : Entry TokenAddress SymbolType}
    (he : (ix.slot (.all n)).top? = some e) (hvalue : e.value = .constant) :
    (ix.slot (.constants n)).top?.map (·.address) = some e.address := by
  obtain ⟨rest, hentries⟩ := List.head?_eq_some_iff.mp he
  have hhead := congrArg List.head? h
  rw [hentries, List.filter_cons_of_pos (by simpa using hvalue), List.head?_map] at hhead
  exact hhead

/-- **The constant address of a constant.** A symbol that is found as a constant has a constant
address, in every reachable state. After a steady run this is the address at which the symbol is
found, so that the two differ only where a declaration of another type comes first. -/
theorem constant_address_of_constant (hix : ix.Reachable) {a : SymbolAnswer}
    (ha : ix.symbol? n = some a) (htype : a.type = .constant) :
    a.constant.isSome ∧ (ix.Steady n → a.constant = some a.address) := by
  rw [symbol?_eq_top?] at ha
  obtain ⟨e, he, rfl⟩ := Option.map_eq_some_iff.mp ha
  refine ⟨?_, fun hsteady => hsteady.inStep.top?_constants he htype⟩
  -- the declaration that is found is a constant, so the slot of constants holds its address
  have hmem : e.address ∈ ((ix.slot (.all n)).entries.filter fun e => e.value = .constant).map
      Entry.address := by
    refine List.mem_map_of_mem (List.mem_filter.mpr ⟨List.mem_of_mem_head? he, ?_⟩)
    simpa using htype
  obtain ⟨e', he', -⟩ := List.mem_map.mp ((hix.exact.constants_perm n).mem_iff.mpr hmem)
  rw [Option.isSome_map, Slot.top?, List.isSome_head?]
  exact List.ne_nil_of_mem he'

end Index

/-- The segments of the sample, the lower one first. -/
def Sample.upright : Collection := ⟨.listed (.ofDistinct [1, 2] (by decide)), both.segments⟩

/-- The sample in its own order, with a third segment at the end. -/
def Sample.extended : Collection := ⟨.listed (.ofDistinct [2, 1, 3] (by decide)), turned.segments⟩

theorem Sample.covered_upright : upright.Covered := by
  refine ⟨.ofDistinct [1, 2] (by decide), rfl, fun id hid => ?_⟩
  rcases mem_both hid with rfl | rfl <;> simp

theorem Sample.covered_extended : extended.Covered := by
  refine ⟨.ofDistinct [2, 1, 3] (by decide), rfl, fun id hid => ?_⟩
  rcases mem_turned hid with rfl | rfl | rfl <;> simp

namespace Index

/-- The third segment declares `x` as a variable, so its arrival sorts all declarations of `x` and
not the constants. The order of the sample is kept, and the two addresses of `x` agree. -/
theorem constant_address_of_constant_extended :
    ∃ ix ix' a, (new .empty).update Sample.both = .ok ix ∧ ix.update Sample.extended = .ok ix' ∧
      ix'.symbol? "x" = some a ∧ a.type = .constant ∧ a.constant = some a.address := by
  let pair : Except Fault (Index × Index) := do
    let ix ← (new .empty).update Sample.both
    let ix' ← ix.update Sample.extended
    return (ix, ix')
  have hpair : pair.toOption.map (fun q => (decide ((SlotKey.constants "x").Ascending
      Sample.extended.order (q.1.kept Sample.extended (.constants "x"))), q.2.symbol? "x")) =
      some (true, some ⟨.constant, 2, .of 2 5 0, some (.of 2 5 0)⟩) := by decide +kernel
  obtain ⟨⟨ix, ix'⟩, hsome, hvalues⟩ := Option.map_eq_some_iff.mp hpair
  obtain ⟨hascending, hsymbol⟩ := Prod.mk.inj hvalues
  obtain ⟨ix₁, hix, hrest⟩ := bind_eq_ok_iff.mp (eq_ok_of_toOption hsome)
  obtain ⟨ix₂, hix', hrest⟩ := bind_eq_ok_iff.mp hrest
  obtain ⟨rfl, rfl⟩ := Prod.mk.inj (Except.ok.inj hrest)
  have hbrings : (new .empty).Inserts (.update Sample.both) (.constants "x") :=
    ⟨2, Sample.upper, ⟨by decide +kernel, by decide +kernel⟩, by decide⟩
  have hsteady : ix₂.Steady "x" := by
    apply Steady.keeps _ Sample.covered_extended (step_of_update hix')
    · exact fun hsplits => hsplits.2.2 (of_decide_eq_true hascending)
    · exact .brings (.new .empty) Sample.covered_both (step_of_update hix) hbrings
  have hconstant := constant_address_of_constant hsteady.reachable hsymbol rfl
  exact ⟨ix₁, ix₂, _, hix, hix', hsymbol, rfl, hconstant.2 hsteady⟩

/-- **Two addresses of one constant.** Both orders list every segment of their collection. The
second update turns the segments around and brings a variable declaration of `x`: it sorts all
declarations of `x`, on top of which the constant of the upper segment then stands, but not its
constants, which go on to show the one of the lower segment first. -/
theorem constant_ne_address_of_split :
    Sample.upright.Covered ∧ Sample.extended.Covered ∧
      ∃ ix ix', (new .empty).update Sample.upright = .ok ix ∧ ix.update Sample.extended = .ok ix' ∧
        ix'.symbol? "x" = some ⟨.constant, 1, .of 2 5 0, some (.of 1 1 0)⟩ := by
  have hsymbol : ((new .empty).update Sample.upright >>= fun ix =>
      ix.update Sample.extended).toOption.map (·.symbol? "x") =
      some (some ⟨.constant, 1, .of 2 5 0, some (.of 1 1 0)⟩) := by decide +kernel
  obtain ⟨ix', hsome, hsymbol⟩ := Option.map_eq_some_iff.mp hsymbol
  obtain ⟨ix, hix, hix'⟩ := bind_eq_ok_iff.mp (eq_ok_of_toOption hsome)
  exact ⟨Sample.covered_upright, Sample.covered_extended, ix, ix', hix, hix', hsymbol⟩

end Index

end NameIndex
