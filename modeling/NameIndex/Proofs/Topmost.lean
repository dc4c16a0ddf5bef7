import Mathlib.Data.List.Find
import NameIndex.Proofs.DocumentOrder

/-!
# Lookups find the topmost declaration

An index that has been brought into step with a collection in one update answers as the collection
reads: a label, a symbol or a variable is resolved to the declaration with the least address, and the
disjointness constraints are listed in document order. Where several declarations share the least
address, the one declared first is shown, because sorting is stable.

## Main results

* `Index.ArrangedBy.top?_spec` — the top of a slot in document order.
* `Index.lookups_of_update` — every lookup after one update.
-/

namespace NameIndex

open Sorting

/-- **The topmost declaration** for a slot: no declaration has a lesser address, and of those at the
same address, which lie in one segment, it is declared first. -/
structure Collection.Topmost (c : Collection) (k : SlotKey) (q : SegmentId × k.Source) : Prop where
  least : ∀ q' ∈ c.declarations k,
    precedes (k.compare c.order) (k.address q.1 q.2) (k.address q'.1 q'.2)
  first : (c.declarations k).find? (fun q' => k.address q'.1 q'.2 = k.address q.1 q.2) = some q

namespace Collection

variable {c : Collection} {k : SlotKey} {ds : List (SegmentId × k.Source)}

/-- Under a strict order, declarations are level when they have the same address. -/
theorem ties_compareSources (hc : c.order.StrictOn {id | id ∈ c.segments})
    {q q' : SegmentId × k.Source} (hq : q ∈ c.declarations k) (hq' : q' ∈ c.declarations k) :
    ties (k.compareSources c.order) q q' = decide (k.address q'.1 q'.2 = k.address q.1 q.2) := by
  have htotal := SlotKey.totalOn hc.total k
  have hmem := segment_mem_of_mem_declarations hq
  have hmem' := segment_mem_of_mem_declarations hq'
  rw [Bool.eq_iff_iff, decide_eq_true_eq]
  constructor
  · -- a strict order never ranks two segments level
    intro htie
    exact (SlotKey.eq_of_ties hc k hmem hmem' htie).symm
  · intro heq
    show ties (k.compare c.order) (k.address q.1 q.2) (k.address q'.1 q'.2) = true
    rw [heq]
    exact htotal.ties_refl hmem

/-- The document order of a slot starts with its topmost declaration. -/
theorem Layout.topmost (hds : c.Layout k ds) (hc : c.order.StrictOn {id | id ∈ c.segments})
    {q : SegmentId × k.Source} (hq : ds.head? = some q) : c.Topmost k q := by
  obtain ⟨hmem, hleast, hfirst⟩ := hds.head_least (totalOn_declarations hc.total k) hq
  refine ⟨hleast, ?_⟩
  -- the class of level declarations is the class of one address
  rw [← hfirst]
  apply List.find?_congr
  intro q' hq'
  exact (ties_compareSources hc hmem hq').symm

end Collection

namespace Index

variable {ix : Index} {c : Collection}

theorem ArrangedBy.top?_eq {k : SlotKey} {ds : List (SegmentId × k.Source)}
    (h : ix.ArrangedBy c.order) (htracked : ix.tracked = c.segments)
    (hc : c.order.TotalOn {id | id ∈ c.segments}) (hds : c.Layout k ds) :
    (ix.slot k).top? = ds.head?.map fun q => k.entry ix.atoms q.1 q.2 := by
  rw [Slot.top?, h.entries_eq htracked hc hds, List.head?_map]

/-- The top of a slot in document order is the entry of the topmost declaration, and there is none
only if nothing is declared. -/
theorem ArrangedBy.top?_spec (h : ix.ArrangedBy c.order) (htracked : ix.tracked = c.segments)
    (hc : c.order.StrictOn {id | id ∈ c.segments}) (k : SlotKey) :
    ((ix.slot k).top? = none ↔ c.declarations k = []) ∧
      ∀ e, (ix.slot k).top? = some e → ∃ q, c.Topmost k q ∧ e = k.entry ix.atoms q.1 q.2 := by
  obtain ⟨ds, hds⟩ := Collection.exists_layout hc.total k
  rw [h.top?_eq htracked hc.total hds]
  refine ⟨?_, fun e he => ?_⟩
  · -- the layout rearranges the declarations, so it is empty with them
    rw [Option.map_eq_none_iff, List.head?_eq_none_iff]
    constructor
    · rintro rfl
      exact hds.perm.nil_eq.symm
    · intro hnil
      exact (hnil ▸ hds.perm).eq_nil
  · obtain ⟨q, hq, rfl⟩ := Option.map_eq_some_iff.mp he
    exact ⟨q, hds.topmost hc hq, rfl⟩

theorem ArrangedBy.disjointList_eq {ds : List (SegmentId × DisjointDecl)}
    (h : ix.ArrangedBy c.order) (htracked : ix.tracked = c.segments)
    (hc : c.order.TotalOn {id | id ∈ c.segments}) (hds : c.Layout .disjoints ds) :
    ix.disjointList =
      ds.map fun q => ⟨⟨q.1, q.2.index⟩, q.2.names.map ix.atoms.atomOf⟩ := by
  have hentries := h.entries_eq htracked hc hds
  unfold disjointList
  -- the constraints are the entries of their own slot
  show (ix.slot .disjoints).entries.map _ = _
  rw [hentries, List.map_map]
  rfl

/-- The variables of the listed constraints are interned. -/
theorem Exact.atom?_of_mem_layout {ds : List (SegmentId × DisjointDecl)} (h : ix.Exact)
    (htracked : ix.tracked = c.segments) (hds : c.Layout .disjoints ds)
    {q : SegmentId × DisjointDecl} (hq : q ∈ ds) {n : String} (hn : n ∈ q.2.names) :
    ix.atom? n = some (ix.atoms.atomOf n) := by
  obtain ⟨r, hr, hd⟩ := Collection.mem_declarations.mp (hds.perm.mem_iff.mp hq)
  rw [← htracked] at hr
  apply AtomTable.lookup?_of_mem
  exact h.interned q.1 r hr n (Segment.mem_names_of_disjoint hd hn)

/-- **Lookups after one update.** Under a strict order of its segments, a collection can be loaded
into an index without segments, and then every name is resolved to its topmost declaration: a label
and a floating hypothesis by statement, a symbol by token, with the topmost constant beside it. The
constraints are listed in document order, each with the handles of its variables in declared
order. -/
theorem lookups_of_update (order : Order) (hc : c.order.StrictOn {id | id ∈ c.segments}) :
    (∃ ix, (new order).update c = .ok ix) ∧
    ∀ ix, Step (new order) (.update c) ix →
      (∀ name : String,
        ((ix.label? name = none ↔ c.declarations (.label name) = []) ∧
          ∀ a, ix.label? name = some a →
            ∃ (id : SegmentId) (d : LabelDecl), c.Topmost (.label name) (id, d) ∧
              a.address = ⟨id, d.index⟩) ∧
        ((ix.symbol? name = none ↔ c.declarations (.all name) = []) ∧
          ∀ a, ix.symbol? name = some a →
            (∃ (id : SegmentId) (d : SymbolDecl), c.Topmost (.all name) (id, d) ∧
              a.address = .of id d.index d.ordinal ∧ a.type = d.type) ∧
            (a.constant = none ↔ c.declarations (.constants name) = []) ∧
            ∀ t, a.constant = some t →
              ∃ (id : SegmentId) (d : SymbolDecl), c.Topmost (.constants name) (id, d) ∧
                t = .of id d.index d.ordinal) ∧
        ((ix.float? name = none ↔ c.declarations (.floats name) = []) ∧
          ∀ a, ix.float? name = some a →
            ∃ (id : SegmentId) (d : FloatDecl), c.Topmost (.floats name) (id, d) ∧
              a.address = ⟨id, d.index⟩ ∧ a.label = d.label ∧ a.typecode = d.typecode)) ∧
      ∃ ds : List (SegmentId × DisjointDecl), c.Layout .disjoints ds ∧
        ix.disjointList = (ds.map fun q => ⟨⟨q.1, q.2.index⟩, q.2.names.map ix.atoms.atomOf⟩) ∧
        ∀ q ∈ ds, ∀ n ∈ q.2.names, ix.atom? n = some (ix.atoms.atomOf n) := by
  refine ⟨exists_update (exact_new order) hc.total, fun ix hstep => ?_⟩
  obtain ⟨hexact, htracked, harranged⟩ := arranged_of_first_update hc hstep
  refine ⟨fun name => ⟨?label, ?symbol, ?float⟩, ?disjoints⟩
  case label =>
    obtain ⟨hnone, hsome⟩ := harranged.top?_spec htracked hc (.label name)
    rw [label?_eq_top?]
    refine ⟨Option.map_eq_none_iff.trans hnone, fun a ha => ?_⟩
    obtain ⟨e, he, rfl⟩ := Option.map_eq_some_iff.mp ha
    obtain ⟨⟨id, d⟩, hq, rfl⟩ := hsome e he
    exact ⟨id, d, hq, rfl⟩
  case symbol =>
    obtain ⟨hnone, hsome⟩ := harranged.top?_spec htracked hc (.all name)
    obtain ⟨hnone', hsome'⟩ := harranged.top?_spec htracked hc (.constants name)
    rw [symbol?_eq_top?]
    refine ⟨Option.map_eq_none_iff.trans hnone, fun a ha => ?_⟩
    obtain ⟨e, he, rfl⟩ := Option.map_eq_some_iff.mp ha
    -- the constant address comes from a slot of its own, with its own topmost entry
    refine ⟨?_, Option.map_eq_none_iff.trans hnone', fun t ht => ?_⟩
    · obtain ⟨⟨id, d⟩, hq, rfl⟩ := hsome e he
      exact ⟨id, d, hq, rfl, rfl⟩
    · obtain ⟨e', he', rfl⟩ := Option.map_eq_some_iff.mp ht
      obtain ⟨⟨id, d⟩, hq, rfl⟩ := hsome' e' he'
      exact ⟨id, d, hq, rfl⟩
  case float =>
    obtain ⟨hnone, hsome⟩ := harranged.top?_spec htracked hc (.floats name)
    rw [float?_eq_top?]
    refine ⟨Option.map_eq_none_iff.trans hnone, fun a ha => ?_⟩
    obtain ⟨e, he, rfl⟩ := Option.map_eq_some_iff.mp ha
    obtain ⟨⟨id, d⟩, hq, rfl⟩ := hsome e he
    exact ⟨id, d, hq, rfl, rfl, rfl⟩
  case disjoints =>
    obtain ⟨ds, hds⟩ := Collection.exists_layout hc.total .disjoints
    refine ⟨ds, hds, harranged.disjointList_eq htracked hc.total hds, fun q hq n hn => ?_⟩
    exact hexact.atom?_of_mem_layout htracked hds hq hn

/-- In the sample two floating hypotheses of `x` share one address: the first one is found. The symbol
`x` is found in the upper segment. -/
theorem lookups_of_update_both :
    ∃ ix, (new .empty).update Sample.both = .ok ix ∧
      (∃ (id : SegmentId) (d : FloatDecl), Sample.both.Topmost (.floats "x") (id, d) ∧
        id = 1 ∧ d.label = "wx" ∧ d.typecode = "wff") ∧
      ∃ (id : SegmentId) (d : SymbolDecl), Sample.both.Topmost (.all "x") (id, d) ∧
        TokenAddress.of 2 5 0 = .of id d.index d.ordinal := by
  have hanswers : ((new .empty).update Sample.both).toOption.map
      (fun ix => (ix.float? "x", ix.symbol? "x")) =
      some (some ⟨⟨1, 2⟩, "wx", "wff", 3⟩, some ⟨.constant, 2, .of 2 5 0, some (.of 2 5 0)⟩) := by
    decide +kernel
  obtain ⟨ix, hsome, hanswers⟩ := Option.map_eq_some_iff.mp hanswers
  obtain ⟨hfloat, hsymbol⟩ := Prod.mk.inj hanswers
  have hix := eq_ok_of_toOption hsome
  have hlookups := (lookups_of_update .empty Sample.strictOn_both).2 ix (step_of_update hix)
  obtain ⟨-, ⟨-, hsymbols⟩, -, hfloats⟩ := hlookups.1 "x"
  obtain ⟨id, d, htop, haddress, hlabel, htypecode⟩ := hfloats _ hfloat
  obtain ⟨⟨id', d', htop', haddress', -⟩, -⟩ := hsymbols _ hsymbol
  refine ⟨ix, hix, ⟨id, d, htop, ?_, hlabel.symm, htypecode.symm⟩, id', d', htop', haddress'⟩
  exact (congrArg StatementAddress.segment haddress).symm

end Index

end NameIndex
