import NameIndex.Proofs.Reachability

/-!
# What is found depends on the tracked segments alone

Orders come and go during a run of changes, and a slot may be arranged by one that is long gone. What
the slots hold is another matter: after any run the entries are the declarations of the tracked
segments, each once. So whether a name is found at all is decided by the tracked segments, and no
order that was ever used has a say in it.

## Main results

* `Index.Exact.isSome_top?_iff` — a slot has a topmost entry iff a tracked segment declares one.
* `Index.Exact.constants_perm` — the constants of a symbol are the constant ones of all.
* `Index.content_of_reachable` — the whole account, for every reachable index.
-/

namespace NameIndex.Index

variable {ix : Index}

/-! ## §1 Empty and inhabited slots -/

theorem mem_declared {k : SlotKey} {e : Entry k.Address k.Value} :
    e ∈ ix.declared k ↔ ∃ (id : SegmentId) (r : Revision), ix.tracked[id]? = some r ∧
      ∃ d ∈ k.sources r.content, k.entry ix.atoms id d = e := by
  simp only [declared, SlotKey.declared, List.mem_flatMap, List.mem_map, Prod.exists,
    Std.ExtTreeMap.mem_toList_iff_getElem?_eq_some]

/-- **The two halves of a constraint agree**: in every index whose slots hold what the tracked
segments declare, the set of a constraint is that of its list. -/
theorem Exact.members_eq (h : ix.Exact) :
    ∀ e ∈ ix.disjoints.entries, e.value.members = AtomSet.ofList e.value.vars := by
  intro e he
  obtain ⟨id, r, -, d, -, rfl⟩ := mem_declared.mp ((h.content .disjoints).mem_iff.mp he)
  rfl

theorem Exact.mem_members_iff (h : ix.Exact) {e : Entry StatementAddress DisjointGroup}
    (he : e ∈ ix.disjoints.entries) {a : Atom} : a ∈ e.value.members.members ↔ a ∈ e.value.vars := by
  rw [h.members_eq e he, AtomSet.mem_ofList]

/-- A slot has a topmost entry iff some tracked segment declares something for it. -/
theorem Exact.isSome_top?_iff (h : ix.Exact) (k : SlotKey) :
    (ix.slot k).top?.isSome ↔
      ∃ (id : SegmentId) (r : Revision), ix.tracked[id]? = some r ∧
        ∃ d, d ∈ k.sources r.content := by
  rw [Slot.top?, List.isSome_head?]
  constructor
  · intro hne
    -- any entry of the slot leads back to its declaration
    obtain ⟨e, he⟩ := List.exists_mem_of_ne_nil _ hne
    obtain ⟨id, r, hr, d, hd, -⟩ := mem_declared.mp ((h.content k).mem_iff.mp he)
    exact ⟨id, r, hr, d, hd⟩
  · rintro ⟨id, r, hr, d, hd⟩ hnil
    -- a declaration has its entry in the slot
    have hmem := (h.content k).mem_iff.mpr (mem_declared.mpr ⟨id, r, hr, d, hd, rfl⟩)
    rw [hnil] at hmem
    exact List.not_mem_nil hmem

/-- A label has a slot only while the slot holds an entry. -/
theorem Exact.mem_labels_iff (h : ix.Exact) (l : String) :
    l ∈ ix.labels ↔ (ix.slot (.label l)).top?.isSome := by
  rw [Std.ExtTreeMap.mem_iff_isSome_getElem?, slot, Slot.top?, List.isSome_head?]
  cases hl : ix.labels[l]? with
  | none => simp [EmptyCollection.emptyCollection, Slot.empty]
  | some s => simpa using h.tidy.inhabited l s hl

/-! ## §2 Constants -/

/-- What the tracked segments declare for the constants of a symbol are the constant ones among all
its declarations. -/
theorem declared_constants (ix : Index) (n : String) :
    (ix.declared (.constants n)).map Entry.address =
      ((ix.declared (.all n)).filter fun e => e.value = .constant).map Entry.address := by
  -- both sides go through the same symbols, segment by segment
  have hsegment : ∀ (id : SegmentId) (s : Segment),
      ((SlotKey.constants n).declared ix.atoms id s).map Entry.address =
        (((SlotKey.all n).declared ix.atoms id s).filter fun e => e.value = .constant).map
          Entry.address := by
    intro id s
    simp only [SlotKey.declared, SlotKey.sources, List.map_map, List.filter_map, List.filter_filter]
    congr 1
    refine List.filter_congr fun (d : SymbolDecl) _ => ?_
    by_cases htype : d.type = .constant
    · simp [SlotKey.entry, SlotKey.value, htype]
    · simp [SlotKey.entry, SlotKey.value, htype]
  unfold declared
  induction ix.tracked.toList with
  | nil => rfl
  | cons p l ih =>
    simp only [List.flatMap_cons, List.map_append, List.filter_append]
    rw [ih, hsegment]

/-- The constants of a symbol are the constant ones of all its declarations. -/
theorem Exact.constants_perm (h : ix.Exact) (n : String) :
    ((ix.slot (.constants n)).entries.map Entry.address).Perm
      (((ix.slot (.all n)).entries.filter fun e => e.value = .constant).map Entry.address) := by
  have hconstants := (h.content (.constants n)).map Entry.address
  have hall := ((h.content (.all n)).filter fun e => e.value = .constant).map Entry.address
  rw [declared_constants] at hconstants
  exact hconstants.trans hall.symm

/-! ## §3 The whole account -/

/-- **Every reachable index is exact, whatever the orders.** Each slot holds, as a multiset, the
declarations of the tracked segments that belong there, with the handles of interned names; the
constants of a symbol are the constant ones of all; labels have a slot iff they are declared; and
what lookups find is decided by the tracked segments. -/
theorem content_of_reachable (hix : ix.Reachable) :
    (∀ k : SlotKey, (ix.slot k).entries.Perm (ix.declared k)) ∧
    (∀ (id : SegmentId) (r : Revision), ix.tracked[id]? = some r →
      ∀ n ∈ r.content.names, ix.atom? n = some (ix.atoms.atomOf n)) ∧
    ∀ name : String,
      ((ix.slot (.constants name)).entries.map Entry.address).Perm
        (((ix.slot (.all name)).entries.filter fun e => e.value = .constant).map Entry.address) ∧
      (name ∈ ix.labels ↔ ∃ (id : SegmentId) (r : Revision), ix.tracked[id]? = some r ∧
        ∃ d ∈ r.content.labels, d.label = name) ∧
      ((ix.label? name).isSome ↔ ∃ (id : SegmentId) (r : Revision), ix.tracked[id]? = some r ∧
        ∃ d ∈ r.content.labels, d.label = name) ∧
      ((ix.symbol? name).isSome ↔ ∃ (id : SegmentId) (r : Revision), ix.tracked[id]? = some r ∧
        ∃ d ∈ r.content.symbols, d.name = name) ∧
      ((ix.float? name).isSome ↔ ∃ (id : SegmentId) (r : Revision), ix.tracked[id]? = some r ∧
        ∃ d ∈ r.content.floats, d.name = name) ∧
      ∀ a, ix.symbol? name = some a → (a.constant.isSome ↔
        ∃ (id : SegmentId) (r : Revision), ix.tracked[id]? = some r ∧
          ∃ d ∈ r.content.symbols, d.name = name ∧ d.type = .constant) := by
  have hexact := hix.exact
  refine ⟨hexact.content, fun id r hr n hn => ?_, fun name => ⟨hexact.constants_perm name, ?_, ?_,
    ?_, ?_, fun a ha => ?_⟩⟩
  · exact AtomTable.lookup?_of_mem (hexact.interned id r hr n hn)
  · rw [hexact.mem_labels_iff, hexact.isSome_top?_iff]
    simp [SlotKey.sources]
  · rw [label?_eq_top?, Option.isSome_map, hexact.isSome_top?_iff]
    simp [SlotKey.sources]
  · rw [symbol?_eq_top?, Option.isSome_map, hexact.isSome_top?_iff]
    simp [SlotKey.sources]
  · rw [float?_eq_top?, Option.isSome_map, hexact.isSome_top?_iff]
    simp [SlotKey.sources]
  · -- the constant address of an answer is the top of the slot of constants
    rw [symbol?_eq_top?] at ha
    obtain ⟨e, -, rfl⟩ := Option.map_eq_some_iff.mp ha
    rw [Option.isSome_map, hexact.isSome_top?_iff]
    simp [SlotKey.sources]

/-- Both segments of the sample declare the label `ax`: it is still found when one has been removed,
and the symbol `x` keeps a constant declaration. -/
theorem content_of_reachable_after_removal :
    ∃ ix events, (Index.new .empty).run [.update Sample.both, .remove 2] = .ok (ix, events) ∧
      ix.tracked[(1 : SegmentId)]? = some Sample.lower ∧ (ix.label? "ax").isSome ∧
      ∀ a, ix.symbol? "x" = some a → a.constant.isSome := by
  have hlower : ((Index.new .empty).run [.update Sample.both, .remove 2]).toOption.bind
      (·.1.tracked[(1 : SegmentId)]?) = some Sample.lower := by decide +kernel
  obtain ⟨⟨ix, events⟩, hsome, htracked⟩ := Option.bind_eq_some_iff.mp hlower
  have hrun := eq_ok_of_toOption hsome
  have hcontent := content_of_reachable ((Reachable.new .empty).run hrun)
  obtain ⟨-, -, hlabel, -, -, -⟩ := hcontent.2.2 "ax"
  obtain ⟨-, -, -, -, -, hconstant⟩ := hcontent.2.2 "x"
  refine ⟨ix, events, hrun, htracked, ?_, fun a ha => ?_⟩
  · exact hlabel.mpr ⟨1, Sample.lower, htracked, ⟨"ax", 3⟩, by decide, rfl⟩
  · exact (hconstant a ha).mpr ⟨1, Sample.lower, htracked, ⟨"x", .constant, 1, 0⟩, by decide, rfl, rfl⟩

end NameIndex.Index
