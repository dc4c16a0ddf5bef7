import NameIndex.Proofs.SlotView

/-!
# What one segment does to the index

A segment is the sequence of its declarations. Entering it folds over that sequence, and so does
withdrawing it; this module says what one declaration does, and what the sequence does follows by
induction.

* Entering inserts into each slot the entries that the segment declares for it, one after the
  other, and lets the table of names grow (`Entered`, `Index.entered_of_enter`).
* Withdrawing drops from each slot the addresses of the segment's declarations, and leaves the
  names (`Index.withdraw_slot`, `Index.withdraw_frame`).

Handles are permanent, so the entries may be written down with the handles of any later table.
-/

namespace NameIndex

/-! ## §1 A segment as a sequence of declarations -/

/-- One declaration of a segment. -/
inductive Declaration where
  | symbol (d : SymbolDecl)
  | localVar (d : LocalVarDecl)
  | label (d : LabelDecl)
  | float (d : FloatDecl)
  | disjoint (d : DisjointDecl)

/-- The names that a declaration has interned, in the order of interning. -/
def Declaration.names : Declaration → List String
  | .symbol d => [d.name]
  | .localVar d => [d.name]
  | .label _ => []
  | .float d => [d.name, d.typecode]
  | .disjoint d => d.names

/-- The declarations of a segment in the sequence in which they are entered. -/
def Segment.declarations (s : Segment) : List Declaration :=
  s.symbols.map .symbol ++ s.localVars.map .localVar ++ s.labels.map .label
    ++ s.floats.map .float ++ s.disjoints.map .disjoint

/-- The names that a segment has interned. -/
def Segment.names (s : Segment) : List String := s.declarations.flatMap Declaration.names

namespace SlotKey

/-- The declaration as one that makes an entry of the slot. -/
def source? : (k : SlotKey) → Declaration → Option k.Source
  | .label l, .label d => if d.label = l then some d else none
  | .all n, .symbol d => if d.name = n then some d else none
  | .constants n, .symbol d => if d.name = n ∧ d.type = .constant then some d else none
  | .floats n, .float d => if d.name = n then some d else none
  | .disjoints, .disjoint d => some d
  | _, _ => none

/-- The address at which the declaration can have made an entry of the slot. A declaration of a
symbol counts for the constants also when it declares a variable. -/
def target? (id : SegmentId) : (k : SlotKey) → Declaration → Option k.Address
  | .label l, .label d => if d.label = l then some ⟨id, d.index⟩ else none
  | .all n, .symbol d => if d.name = n then some (.of id d.index d.ordinal) else none
  | .constants n, .symbol d => if d.name = n then some (.of id d.index d.ordinal) else none
  | .floats n, .float d => if d.name = n then some ⟨id, d.index⟩ else none
  | .disjoints, .disjoint d => some ⟨id, d.index⟩
  | _, _ => none

theorem sources_eq_filterMap (k : SlotKey) (s : Segment) :
    k.sources s = s.declarations.filterMap k.source? := by
  unfold Segment.declarations
  cases k <;>
    simp [sources, source?, List.filterMap_append, List.filterMap_map, Function.comp_def,
      ← List.filterMap_eq_filter, Option.guard]

/-- A declaration that makes an entry makes it at the address that withdrawing drops. -/
theorem target?_of_source? {k : SlotKey} {decl : Declaration} {d : k.Source} (id : SegmentId)
    (h : k.source? decl = some d) : k.target? id decl = some (k.address id d) := by
  cases k <;> cases decl <;> simp only [source?, reduceCtorEq, Option.ite_none_right_eq_some] at h
  case label.label | all.symbol | floats.float =>
    obtain ⟨hname, hd⟩ := h
    obtain rfl := Option.some.inj hd
    exact if_pos hname
  case constants.symbol =>
    obtain ⟨hname, hd⟩ := h
    obtain rfl := Option.some.inj hd
    exact if_pos hname.1
  case disjoints.disjoint =>
    obtain rfl := Option.some.inj h
    rfl

theorem segment_of_target? {k : SlotKey} {id : SegmentId} {decl : Declaration} {a : k.Address}
    (h : k.target? id decl = some a) : k.segment a = id := by
  cases k <;> cases decl <;> simp only [target?, reduceCtorEq, Option.ite_none_right_eq_some] at h
  case label.label | all.symbol | constants.symbol | floats.float =>
    obtain rfl := Option.some.inj h.2
    rfl
  case disjoints.disjoint =>
    obtain rfl := Option.some.inj h
    rfl

end SlotKey

namespace Index

variable {ix ix' ix₁ : Index} {id : SegmentId}

/-- Enters one declaration. -/
def addDeclaration (id : SegmentId) (ix : Index) : Declaration → Except Fault Index
  | .symbol d => addSymbol id ix d
  | .localVar d => .ok (addLocalVar ix d)
  | .label d => addLabel id ix d
  | .float d => addFloat id ix d
  | .disjoint d => addDisjoint id ix d

/-- Withdraws one declaration. -/
def removeDeclaration (id : SegmentId) (ix : Index) : Declaration → Index
  | .symbol d => removeSymbol id ix d
  | .localVar _ => ix
  | .label d => removeLabel id ix d
  | .float d => removeFloat id ix d
  | .disjoint d => removeDisjoint id ix d

theorem enter_eq_foldlM (ix : Index) (id : SegmentId) (s : Segment) :
    ix.enter id s = s.declarations.foldlM (addDeclaration id) ix := by
  have hlocal : ∀ (vars : List LocalVarDecl) (ix : Index),
      vars.foldlM (fun ix d => addDeclaration id ix (.localVar d)) ix =
        .ok (vars.foldl addLocalVar ix) := by
    intro vars ix
    exact List.foldlM_pure
  -- one fold over the sequence is the five folds one after the other
  simp only [enter, Segment.declarations, List.foldlM_append, List.foldlM_map, bind_assoc, hlocal]
  rfl

theorem withdraw_eq_foldl (ix : Index) (id : SegmentId) (s : Segment) :
    ix.withdraw id s = s.declarations.foldl (removeDeclaration id) ix := by
  have hlocal : ∀ (vars : List LocalVarDecl) (ix : Index),
      vars.foldl (fun ix d => removeDeclaration id ix (.localVar d)) ix = ix := by
    intro vars ix
    induction vars with
    | nil => rfl
    | cons d vars ih => exact ih
  simp only [withdraw, Segment.declarations, List.foldl_append, List.foldl_map, hlocal]
  rfl

/-! ## §2 Records -/

theorem openRecord_eq (ix : Index) (name : String) :
    ix.openRecord name =
      if (ix.record name).atom = Atom.none then
        ({ ix.record name with atom := (ix.atoms.intern name).1 },
          { ix with atoms := (ix.atoms.intern name).2 })
      else (ix.record name, ix) := rfl

-- Opening a record changes at most its handle and the table of names.
section OpenRecord

variable (ix : Index) (name : String)

@[simp] theorem openRecord_all : (ix.openRecord name).1.all = (ix.record name).all := by
  rw [openRecord_eq]; split <;> rfl

@[simp] theorem openRecord_constants :
    (ix.openRecord name).1.constants = (ix.record name).constants := by
  rw [openRecord_eq]; split <;> rfl

@[simp] theorem openRecord_floats : (ix.openRecord name).1.floats = (ix.record name).floats := by
  rw [openRecord_eq]; split <;> rfl

@[simp] theorem openRecord_order : (ix.openRecord name).2.order = ix.order := by
  rw [openRecord_eq]; split <;> rfl

@[simp] theorem openRecord_tracked : (ix.openRecord name).2.tracked = ix.tracked := by
  rw [openRecord_eq]; split <;> rfl

@[simp] theorem openRecord_slot (k : SlotKey) : (ix.openRecord name).2.slot k = ix.slot k := by
  rw [openRecord_eq]; split <;> cases k <;> rfl

theorem prefix_openRecord : ix.atoms.names <+: (ix.openRecord name).2.atoms.names := by
  rw [openRecord_eq]
  split
  · exact ix.atoms.prefix_intern name
  · exact List.prefix_refl _

end OpenRecord

theorem record_putRecord (ix : Index) (name other : String) (r : SymbolRecord) :
    (ix.putRecord name r).record other = if name = other then r else ix.record other := by
  simp only [record, putRecord, Std.ExtTreeMap.getElem?_insert, Std.compare_eq_iff_eq]
  split <;> rfl

/-! ## §3 Entering declarations -/

theorem addSymbol_eq_ok_iff {d : SymbolDecl} :
    addSymbol id ix d = .ok ix' ↔ ∃ all constants,
      (ix.record d.name).all.insert (TokenAddress.compare ix.order)
        (.of id d.index d.ordinal) d.type = .ok all ∧
      (if d.type = .constant then
        (ix.record d.name).constants.insert (TokenAddress.compare ix.order)
          (.of id d.index d.ordinal) ()
      else .ok (ix.record d.name).constants) = .ok constants ∧
      (ix.openRecord d.name).2.putRecord d.name
        { (ix.openRecord d.name).1 with all, constants } = ix' := by
  unfold addSymbol
  by_cases htype : d.type = .constant <;>
    simp [htype, bind_eq_ok_iff, pure, Except.pure]

theorem addLabel_eq_ok_iff {d : LabelDecl} :
    addLabel id ix d = .ok ix' ↔ ∃ s,
      (ix.slot (.label d.label)).insert (StatementAddress.compare ix.order) ⟨id, d.index⟩ () = .ok s ∧
      { ix with labels := ix.labels.insert d.label s } = ix' := by
  simp [addLabel, bind_eq_ok_iff, pure, Except.pure, slot]

theorem addFloat_eq_ok_iff {d : FloatDecl} :
    addFloat id ix d = .ok ix' ↔ ∃ floats,
      (ix.record d.name).floats.insert (StatementAddress.compare ix.order) ⟨id, d.index⟩
        ⟨d.label, d.typecode, ((ix.openRecord d.name).2.atoms.intern d.typecode).1⟩ = .ok floats ∧
      { (ix.openRecord d.name).2 with
          atoms := ((ix.openRecord d.name).2.atoms.intern d.typecode).2 }.putRecord d.name
        { (ix.openRecord d.name).1 with floats } = ix' := by
  simp [addFloat, bind_eq_ok_iff, pure, Except.pure]

theorem addDisjoint_eq_ok_iff {d : DisjointDecl} :
    addDisjoint id ix d = .ok ix' ↔ ∃ disjoints,
      ix.disjoints.insert (StatementAddress.compare ix.order) ⟨id, d.index⟩
        (.ofVars (ix.atoms.internAll d.names).1) = .ok disjoints ∧
      { ix with atoms := (ix.atoms.internAll d.names).2, disjoints } = ix' := by
  simp [addDisjoint, bind_eq_ok_iff, pure, Except.pure]

/-- **What entering declarations does**: the order and the tracked segments stay, the table of names
grows, and each slot takes in, one after the other, the entries that the declarations make for it.
The handles in the entries are those of any table that comes later. -/
structure Entered (ix : Index) (id : SegmentId) (ds : List Declaration) (ix' : Index) : Prop where
  order_eq : ix'.order = ix.order
  tracked_eq : ix'.tracked = ix.tracked
  names_grow : ix.atoms.names <+: ix'.atoms.names
  slots : ∀ t : AtomTable, ix'.atoms.names <+: t.names → ∀ k : SlotKey,
    Slot.insertAll (k.compare ix.order) (ix.slot k) ((ds.filterMap k.source?).map (k.entry t id)) =
      .ok (ix'.slot k)

theorem Entered.refl (ix : Index) (id : SegmentId) : Entered ix id [] ix :=
  ⟨rfl, rfl, List.prefix_refl _, fun _ _ _ => rfl⟩

theorem Entered.trans {ds ds' : List Declaration} (h : Entered ix id ds ix₁)
    (h' : Entered ix₁ id ds' ix') : Entered ix id (ds ++ ds') ix' where
  order_eq := h'.order_eq.trans h.order_eq
  tracked_eq := h'.tracked_eq.trans h.tracked_eq
  names_grow := h.names_grow.trans h'.names_grow
  slots t ht k := by
    rw [List.filterMap_append, List.map_append, Slot.insertAll_append_eq_ok_iff]
    refine ⟨ix₁.slot k, h.slots t (h'.names_grow.trans ht) k, ?_⟩
    rw [← h.order_eq]
    exact h'.slots t ht k

/-- One declaration enters the slots that it is a source of, and leaves all others. -/
theorem Entered.of_one {decl : Declaration} (horder : ix'.order = ix.order)
    (htracked : ix'.tracked = ix.tracked) (hnames : ix.atoms.names <+: ix'.atoms.names)
    (hother : ∀ k : SlotKey, k.source? decl = none → ix'.slot k = ix.slot k)
    (hslot : ∀ t : AtomTable, ix'.atoms.names <+: t.names → ∀ (k : SlotKey) (d : k.Source),
      k.source? decl = some d → (ix.slot k).insert (k.compare ix.order) (k.address id d)
        (k.value t d) = .ok (ix'.slot k)) : Entered ix id [decl] ix' := by
  refine ⟨horder, htracked, hnames, fun t ht k => ?_⟩
  cases hsource : k.source? decl with
  | none => simp [hsource, hother k hsource]
  | some d =>
    simp only [List.filterMap_cons, hsource, List.filterMap_nil, List.map_cons, List.map_nil,
      Slot.insertAll_singleton]
    exact hslot t ht k d hsource

theorem slot_putRecord (ix : Index) (name : String) (r : SymbolRecord) (k : SlotKey) :
    (ix.putRecord name r).slot k =
      match k with
      | .label l => ix.slot (.label l)
      | .all n => if name = n then r.all else ix.slot (.all n)
      | .constants n => if name = n then r.constants else ix.slot (.constants n)
      | .floats n => if name = n then r.floats else ix.slot (.floats n)
      | .disjoints => ix.slot .disjoints := by
  cases k with
  | label _ | disjoints => rfl
  | all n | constants n | floats n =>
    simp only [slot, record_putRecord]
    split <;> rfl

theorem entered_symbol {d : SymbolDecl} (h : addSymbol id ix d = .ok ix') :
    Entered ix id [.symbol d] ix' := by
  obtain ⟨all, constants, hall, hconstants, rfl⟩ := addSymbol_eq_ok_iff.mp h
  refine .of_one (openRecord_order ix d.name) (openRecord_tracked ix d.name)
    (ix.prefix_openRecord d.name) (fun k hk => ?_) (fun t _ k x hk => ?_)
  · -- slots that the declaration is no source of: those of other kinds, of other symbols, and the
    -- constants of a symbol that is declared as a variable
    rw [slot_putRecord]
    cases k with
    | label _ | disjoints => exact openRecord_slot ix d.name _
    | floats n =>
      simp only [openRecord_slot, openRecord_floats]
      split
      · next hn => rw [hn]; rfl
      · rfl
    | all n =>
      have hn : d.name ≠ n := by simpa [SlotKey.source?] using hk
      simp only [openRecord_slot, if_neg hn]
    | constants n =>
      simp only [openRecord_slot]
      split
      · next hn =>
        -- a variable of that name leaves the constants as they are
        have htype : d.type ≠ .constant := by simpa [SlotKey.source?, hn] using hk
        rw [if_neg htype, hn] at hconstants
        exact (Except.ok.inj hconstants).symm
      · rfl
  · -- the slots it enters: all declarations of its symbol, and the constants if it is one
    rw [slot_putRecord]
    cases k with
    | label _ | disjoints | floats _ => simp [SlotKey.source?] at hk
    | all n =>
      obtain ⟨rfl, rfl⟩ : d.name = n ∧ d = x := by simpa [SlotKey.source?] using hk
      simp only [↓reduceIte]
      exact hall
    | constants n =>
      obtain ⟨⟨rfl, htype⟩, rfl⟩ : (d.name = n ∧ d.type = .constant) ∧ d = x := by
        simpa [SlotKey.source?] using hk
      rw [if_pos htype] at hconstants
      simp only [↓reduceIte]
      exact hconstants

theorem entered_localVar (ix : Index) (id : SegmentId) (d : LocalVarDecl) :
    Entered ix id [.localVar d] (addLocalVar ix d) := by
  refine .of_one rfl rfl (ix.atoms.prefix_intern d.name) (fun k _ => ?_) (fun t _ k x hk => ?_)
  · cases k <;> rfl
  · cases k <;> simp [SlotKey.source?] at hk

theorem entered_label {d : LabelDecl} (h : addLabel id ix d = .ok ix') :
    Entered ix id [.label d] ix' := by
  obtain ⟨s, hs, rfl⟩ := addLabel_eq_ok_iff.mp h
  refine .of_one rfl rfl (List.prefix_refl _) (fun k hk => ?_) (fun t _ k x hk => ?_)
  · cases k with
    | all _ | constants _ | floats _ | disjoints => rfl
    | label l =>
      have hl : d.label ≠ l := by simpa [SlotKey.source?] using hk
      simp [slot, Std.ExtTreeMap.getElem?_insert, hl]
  · cases k with
    | all _ | constants _ | floats _ | disjoints => simp [SlotKey.source?] at hk
    | label l =>
      obtain ⟨rfl, rfl⟩ : d.label = l ∧ d = x := by simpa [SlotKey.source?] using hk
      have hslot : ({ ix with labels := ix.labels.insert d.label s } : Index).slot
          (.label d.label) = s := by simp [slot]
      rw [hslot]
      exact hs

theorem entered_float {d : FloatDecl} (h : addFloat id ix d = .ok ix') :
    Entered ix id [.float d] ix' := by
  obtain ⟨floats, hfloats, rfl⟩ := addFloat_eq_ok_iff.mp h
  have hframe : ∀ k : SlotKey, ({ (ix.openRecord d.name).2 with
      atoms := ((ix.openRecord d.name).2.atoms.intern d.typecode).2 } : Index).slot k =
        ix.slot k := by
    intro k
    rw [← openRecord_slot ix d.name k]
    cases k <;> rfl
  refine .of_one (openRecord_order ix d.name) (openRecord_tracked ix d.name)
    ((ix.prefix_openRecord d.name).trans (AtomTable.prefix_intern _ d.typecode))
    (fun k hk => ?_) (fun t ht k x hk => ?_)
  · rw [slot_putRecord]
    cases k with
    | label _ | disjoints => exact hframe _
    | all n | constants n =>
      simp only [hframe, openRecord_all, openRecord_constants]
      split
      · next hn => rw [hn]; rfl
      · rfl
    | floats n =>
      have hn : d.name ≠ n := by simpa [SlotKey.source?] using hk
      simp only [hframe, if_neg hn]
  · rw [slot_putRecord]
    cases k with
    | label _ | all _ | constants _ | disjoints => simp [SlotKey.source?] at hk
    | floats n =>
      obtain ⟨rfl, rfl⟩ : d.name = n ∧ d = x := by simpa [SlotKey.source?] using hk
      -- the handle of the typecode is the one that later tables give it
      have hatom : t.atomOf d.typecode =
          ((ix.openRecord d.name).2.atoms.intern d.typecode).1 := by
        rw [AtomTable.intern_fst]
        exact AtomTable.atomOf_mono ht (by simp)
      simp only [↓reduceIte, SlotKey.value, hatom]
      exact hfloats

theorem entered_disjoint {d : DisjointDecl} (h : addDisjoint id ix d = .ok ix') :
    Entered ix id [.disjoint d] ix' := by
  obtain ⟨disjoints, hdisjoints, rfl⟩ := addDisjoint_eq_ok_iff.mp h
  refine .of_one rfl rfl (ix.atoms.prefix_internAll d.names) (fun k hk => ?_)
    (fun t ht k x hk => ?_)
  · cases k with
    | label _ | all _ | constants _ | floats _ => rfl
    | disjoints => simp [SlotKey.source?] at hk
  · cases k with
    | label _ | all _ | constants _ | floats _ => simp [SlotKey.source?] at hk
    | disjoints =>
      obtain rfl : d = x := by simpa [SlotKey.source?] using hk
      -- likewise for the variables: what interning returned is what later tables give
      have hvars : d.names.map t.atomOf = (ix.atoms.internAll d.names).1 := by
        rw [AtomTable.internAll_fst]
        exact List.map_congr_left fun n hn => AtomTable.atomOf_mono ht (by simp [hn])
      simp only [SlotKey.value, hvars]
      exact hdisjoints

/-- **One declaration**: what entering it does. -/
theorem entered_of_addDeclaration {decl : Declaration}
    (h : ix.addDeclaration id decl = .ok ix') : Entered ix id [decl] ix' := by
  cases decl with
  | symbol d => exact entered_symbol h
  | localVar d =>
    obtain rfl := Except.ok.inj h
    exact entered_localVar ix id d
  | label d => exact entered_label h
  | float d => exact entered_float h
  | disjoint d => exact entered_disjoint h

theorem entered_of_foldlM {ds : List Declaration}
    (h : ds.foldlM (addDeclaration id) ix = .ok ix') : Entered ix id ds ix' := by
  induction ds generalizing ix with
  | nil =>
    obtain rfl := Except.ok.inj h
    exact Entered.refl ix id
  | cons decl ds ih =>
    rw [List.foldlM_cons] at h
    obtain ⟨ix₁, hone, hrest⟩ := bind_eq_ok_iff.mp h
    exact (entered_of_addDeclaration hone).trans (ih hrest)

/-- **A segment**: what entering it does. -/
theorem entered_of_enter {s : Segment} (h : ix.enter id s = .ok ix') :
    Entered ix id s.declarations ix' :=
  entered_of_foldlM (enter_eq_foldlM ix id s ▸ h)

/-- Entering a segment inserts into each slot what the segment declares for it. -/
theorem enter_slot {s : Segment} (h : ix.enter id s = .ok ix') (t : AtomTable)
    (ht : ix'.atoms.names <+: t.names) (k : SlotKey) :
    Slot.insertAll (k.compare ix.order) (ix.slot k) (k.declared t id s) = .ok (ix'.slot k) := by
  rw [SlotKey.declared, SlotKey.sources_eq_filterMap]
  exact (entered_of_enter h).slots t ht k

/-! ## §4 When declarations can be entered -/

/-- Every entry of a slot belongs to one of the segments that are named for the slot. -/
def Within (ix : Index) (ids : SlotKey → Set SegmentId) : Prop :=
  ∀ k : SlotKey, ∀ e ∈ (ix.slot k).entries, k.segment e.address ∈ ids k

theorem Entered.within {ids : SlotKey → Set SegmentId} {ds : List Declaration}
    (h : Entered ix id ds ix') (hix : ix.Within ids)
    (hid : ∀ decl ∈ ds, ∀ (k : SlotKey) (d : k.Source), k.source? decl = some d → id ∈ ids k) :
    ix'.Within ids := by
  intro k e he
  have hperm := Slot.insertAll_perm (h.slots ix'.atoms (List.prefix_refl _) k)
  rcases List.mem_append.mp (hperm.mem_iff.mp he) with hold | hnew
  · exact hix k e hold
  · obtain ⟨d, hd, rfl⟩ := List.mem_map.mp hnew
    obtain ⟨decl, hdecl, hsource⟩ := List.mem_filterMap.mp hd
    rw [SlotKey.entry, SlotKey.segment_address]
    exact hid decl hdecl k d hsource

/-- An entry can be inserted into a slot if the order can compare its segment and those of the slot
with each other. -/
theorem exists_insert {ids : SlotKey → Set SegmentId} (hix : ix.Within ids) {k : SlotKey}
    (hk : ix.order.AnswersOn (ids k)) (a : k.Address) (v : k.Value) (ha : k.segment a ∈ ids k) :
    ∃ s, (ix.slot k).insert (k.compare ix.order) a v = .ok s := by
  have hanswers : ∀ a ∈ {a | k.segment a ∈ ids k}, ∀ b ∈ {a | k.segment a ∈ ids k},
      ∃ n, k.compare ix.order a b = .ok n :=
    fun a ha b hb => (SlotKey.exists_compare_iff k).mpr (hk _ ha _ hb)
  have hone : ∀ e ∈ [(⟨a, v⟩ : Entry k.Address k.Value)],
      e.address ∈ {a | k.segment a ∈ ids k} := by
    intro e he
    obtain rfl := List.mem_singleton.mp he
    exact ha
  obtain ⟨s, hs⟩ := Slot.exists_insertAll_of_answers hanswers (hix k) hone
  exact ⟨s, by rwa [Slot.insertAll_singleton] at hs⟩

theorem exists_addDeclaration {ids : SlotKey → Set SegmentId} (hix : ix.Within ids)
    {decl : Declaration} (hdecl : ∀ (k : SlotKey) (d : k.Source), k.source? decl = some d →
      id ∈ ids k ∧ ix.order.AnswersOn (ids k)) : ∃ ix', ix.addDeclaration id decl = .ok ix' := by
  -- a declaration can be entered if it can be inserted into each slot that it is a source of
  have hinsert : ∀ (k : SlotKey) (d : k.Source) (v : k.Value), k.source? decl = some d →
      ∃ s, (ix.slot k).insert (k.compare ix.order) (k.address id d) v = .ok s := by
    intro k d v hd
    obtain ⟨hid, hk⟩ := hdecl k d hd
    exact exists_insert hix hk (k.address id d) v (by rwa [SlotKey.segment_address])
  cases decl with
  | symbol d =>
    obtain ⟨all, hall⟩ := hinsert (.all d.name) d d.type (if_pos rfl)
    -- a second slot is touched only by constants
    by_cases htype : d.type = .constant
    · obtain ⟨constants, hconstants⟩ := hinsert (.constants d.name) d () (if_pos ⟨rfl, htype⟩)
      exact ⟨_, addSymbol_eq_ok_iff.mpr
        ⟨all, constants, hall, (if_pos htype).trans hconstants, rfl⟩⟩
    · exact ⟨_, addSymbol_eq_ok_iff.mpr ⟨all, _, hall, if_neg htype, rfl⟩⟩
  | localVar d => exact ⟨_, rfl⟩
  | label d =>
    obtain ⟨s, hs⟩ := hinsert (.label d.label) d () (if_pos rfl)
    exact ⟨_, addLabel_eq_ok_iff.mpr ⟨s, hs, rfl⟩⟩
  | float d =>
    obtain ⟨s, hs⟩ := hinsert (.floats d.name) d _ (if_pos rfl)
    exact ⟨_, addFloat_eq_ok_iff.mpr ⟨s, hs, rfl⟩⟩
  | disjoint d =>
    obtain ⟨s, hs⟩ := hinsert .disjoints d _ rfl
    exact ⟨_, addDisjoint_eq_ok_iff.mpr ⟨s, hs, rfl⟩⟩

/-- **A segment can be entered** if, for each slot that it declares something for, the order can
compare its id and the segments of the slot with each other. -/
theorem exists_enter {ids : SlotKey → Set SegmentId} (hix : ix.Within ids) {s : Segment}
    (hs : ∀ k : SlotKey, k.sources s ≠ [] → id ∈ ids k ∧ ix.order.AnswersOn (ids k)) :
    ∃ ix', ix.enter id s = .ok ix' ∧ ix'.Within ids := by
  have hds : ∀ decl ∈ s.declarations, ∀ (k : SlotKey) (d : k.Source), k.source? decl = some d →
      id ∈ ids k ∧ ix.order.AnswersOn (ids k) := by
    intro decl hdecl k d hd
    apply hs k
    rw [SlotKey.sources_eq_filterMap]
    exact List.ne_nil_of_mem (List.mem_filterMap.mpr ⟨decl, hdecl, hd⟩)
  clear hs
  rw [enter_eq_foldlM]
  generalize s.declarations = ds at hds
  induction ds generalizing ix with
  | nil => exact ⟨ix, rfl, hix⟩
  | cons decl ds ih =>
    obtain ⟨ix₁, hone⟩ := exists_addDeclaration hix (hds decl List.mem_cons_self)
    have hentered := entered_of_addDeclaration hone
    have hix₁ : ix₁.Within ids := by
      apply hentered.within hix
      intro decl' hdecl' k d hd
      obtain rfl := List.mem_singleton.mp hdecl'
      exact (hds decl' List.mem_cons_self k d hd).1
    obtain ⟨ix', hrest, hix'⟩ := ih hix₁ fun decl' hdecl' =>
      hentered.order_eq ▸ hds decl' (List.mem_cons_of_mem decl hdecl')
    exact ⟨ix', by rw [List.foldlM_cons]; exact bind_eq_ok_iff.mpr ⟨ix₁, hone, hrest⟩, hix'⟩

/-! ## §5 Withdrawing declarations -/

theorem isBlank_iff (r : SymbolRecord) : r.isBlank ↔ r = .blank := by
  obtain ⟨atom, ⟨all⟩, ⟨constants⟩, ⟨floats⟩⟩ := r
  simp only [SymbolRecord.isBlank, SymbolRecord.blank, Slot.isEmpty, Bool.and_eq_true, beq_iff_eq,
    List.isEmpty_iff, SymbolRecord.mk.injEq, and_assoc]
  exact ⟨fun ⟨h₁, h₂, h₃, h₄⟩ => ⟨h₁, congrArg _ h₂, congrArg _ h₃, congrArg _ h₄⟩,
    fun ⟨h₁, h₂, h₃, h₄⟩ => ⟨h₁, congrArg Slot.entries h₂, congrArg Slot.entries h₃,
      congrArg Slot.entries h₄⟩⟩

/-- Dropping a blank record is not seen through the view of records. -/
theorem record_changeRecord (ix : Index) (name other : String)
    (change : SymbolRecord → SymbolRecord) (hblank : change .blank = .blank) :
    (ix.changeRecord name change).record other =
      if name = other then change (ix.record other) else ix.record other := by
  simp only [record, changeRecord, Std.ExtTreeMap.getElem?_alter, Std.compare_eq_iff_eq]
  split
  · next hn =>
    subst hn
    cases ix.records[name]? with
    | none => simp [hblank]
    | some r =>
      simp only [Option.bind_eq_bind, Option.bind_some, Option.getD_some]
      split
      · -- a dropped record reads as blank, which it was
        next h => simp [(isBlank_iff _).mp h]
      · rfl
  · rfl

theorem removeSymbol_record (ix : Index) (id : SegmentId) (d : SymbolDecl) (n : String) :
    (removeSymbol id ix d).record n =
      if d.name = n then
        { ix.record n with
          all := (ix.record n).all.without (.of id d.index d.ordinal)
          constants := (ix.record n).constants.without (.of id d.index d.ordinal) }
      else ix.record n :=
  record_changeRecord ix d.name n _ rfl

theorem removeFloat_record (ix : Index) (id : SegmentId) (d : FloatDecl) (n : String) :
    (removeFloat id ix d).record n =
      if d.name = n then
        { ix.record n with floats := (ix.record n).floats.without ⟨id, d.index⟩ }
      else ix.record n :=
  record_changeRecord ix d.name n _ rfl

/-- Dropping an empty slot is not seen through the view of slots. -/
theorem removeLabel_slot (ix : Index) (id : SegmentId) (d : LabelDecl) (l : String) :
    (removeLabel id ix d).slot (.label l) =
      if d.label = l then (ix.slot (.label l)).without ⟨id, d.index⟩ else ix.slot (.label l) := by
  simp only [slot, removeLabel, Std.ExtTreeMap.getElem?_alter, Std.compare_eq_iff_eq]
  split
  · next hl =>
    subst hl
    cases ix.labels[d.label]? with
    | none => rfl
    | some s =>
      simp only [Option.bind_eq_bind, Option.bind_some, Option.getD_some]
      split
      · next h =>
        have hempty : (s.without ⟨id, d.index⟩).entries = [] := List.isEmpty_iff.mp h
        exact congrArg Slot.mk hempty.symm
      · rfl
  · rfl

/-- **One declaration**: withdrawing it drops its address from the slots it can have entered. -/
theorem removeDeclaration_slot (ix : Index) (id : SegmentId) (decl : Declaration) (k : SlotKey) :
    (ix.removeDeclaration id decl).slot k =
      (k.target? id decl).toList.foldl Slot.without (ix.slot k) := by
  cases decl with
  | symbol d =>
    cases k with
    | label _ | disjoints => rfl
    | all n | constants n | floats n =>
      simp only [removeDeclaration, slot, removeSymbol_record, SlotKey.target?]
      split <;> rfl
  | localVar d => cases k <;> rfl
  | label d =>
    cases k with
    | label l =>
      simp only [removeDeclaration, removeLabel_slot, SlotKey.target?]
      split <;> rfl
    | all _ | constants _ | floats _ | disjoints => rfl
  | float d =>
    cases k with
    | label _ | disjoints => rfl
    | all n | constants n | floats n =>
      simp only [removeDeclaration, slot, removeFloat_record, SlotKey.target?]
      split <;> rfl
  | disjoint d => cases k <;> rfl

/-- **A segment**: withdrawing it drops the addresses of its declarations from every slot. -/
theorem withdraw_slot (ix : Index) (id : SegmentId) (s : Segment) (k : SlotKey) :
    ((ix.withdraw id s).slot k).entries =
      (ix.slot k).entries.filter fun e => e.address ∉ s.declarations.filterMap (k.target? id) := by
  rw [withdraw_eq_foldl, ← Slot.foldl_without_entries]
  congr 1
  generalize s.declarations = ds
  induction ds generalizing ix with
  | nil => rfl
  | cons decl ds ih =>
    rw [List.foldl_cons, ih, removeDeclaration_slot]
    cases htarget : k.target? id decl with
    | none => simp [htarget]
    | some a => simp [htarget]

theorem removeDeclaration_frame (ix : Index) (id : SegmentId) (decl : Declaration) :
    (ix.removeDeclaration id decl).order = ix.order ∧
      (ix.removeDeclaration id decl).tracked = ix.tracked ∧
      (ix.removeDeclaration id decl).atoms = ix.atoms := by
  cases decl <;> exact ⟨rfl, rfl, rfl⟩

/-- Withdrawing changes neither the order nor the tracked segments nor the names. -/
theorem withdraw_frame (ix : Index) (id : SegmentId) (s : Segment) :
    (ix.withdraw id s).order = ix.order ∧ (ix.withdraw id s).tracked = ix.tracked ∧
      (ix.withdraw id s).atoms = ix.atoms := by
  rw [withdraw_eq_foldl]
  generalize s.declarations = ds
  induction ds generalizing ix with
  | nil => exact ⟨rfl, rfl, rfl⟩
  | cons decl ds ih =>
    obtain ⟨horder, htracked, hatoms⟩ := ix.removeDeclaration_frame id decl
    rw [List.foldl_cons, ← horder, ← htracked, ← hatoms]
    exact ih (ix.removeDeclaration id decl)

end Index

end NameIndex
