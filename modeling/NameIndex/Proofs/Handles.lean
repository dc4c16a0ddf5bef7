import Mathlib.Logic.Relation
import NameIndex.Proofs.Incremental
import NameIndex.Proofs.TrackedContent

/-!
# Handles are right, and they are for good

Handles are kept in four places besides the table of names: in the records of symbols, with the
typecodes of floating hypotheses, with the variables of constraints, and in the sets that
constraints are searched by. None of these is looked at when a name is interned, and records stay
behind when all their declarations are gone. Still they agree with the table: what a slot holds is
what the tracked segments declare, written with the handles of the table at hand (`Index.Exact`),
and a record has the handle of its name as long as it exists (`Index.Tidy.named`).

The table only grows, and at its end. So a handle that has been given out stays the handle of its
name in every later state, whatever is removed and added in between.

## Main definitions

* `Index.Later` — the states that a run of changes goes on to.

## Main results

* `Index.mem_disjointFrom_iff` — the variables that constraints name beside another one.
* `Index.handles_of_reachable` — the handles in answers, and the handles in later states.
-/

namespace NameIndex.Index

variable {ix ix' : Index} {name : String}

/-! ## §1 Later states -/

/-- Some run of changes leads from one state to the other. -/
def Later (ix ix' : Index) : Prop :=
  Relation.ReflTransGen (fun ix ix' => ∃ change, Step ix change ix') ix ix'

/-- **One step** lets the table grow at its end. -/
theorem Exact.names_grow_of_step (hix : ix.Exact) {change : Change} (hstep : Step ix change ix') :
    ix.atoms.names <+: ix'.atoms.names := by
  cases hstep with
  | update hplan hrun => exact (updated_of_carryOut hix hplan hrun).names_grow
  | add hadd =>
    rcases add_cases hadd with rfl | hadded
    · exact List.prefix_refl _
    · exact hadded.names_grow
  | remove id =>
    have hatoms : (ix.remove id).atoms = ix.atoms := (remove_frame ix id).2.2
    exact hatoms ▸ List.prefix_refl _

/-- **A run** lets the table grow at its end. -/
theorem Exact.names_grow (hix : ix.Exact) (h : Later ix ix') :
    ix.atoms.names <+: ix'.atoms.names := by
  -- a step of the run needs an exact index to start from
  have hrun : ix'.Exact ∧ ix.atoms.names <+: ix'.atoms.names := by
    induction h with
    | refl => exact ⟨hix, List.prefix_refl _⟩
    | tail _ hstep ih =>
      obtain ⟨change, hstep⟩ := hstep
      exact ⟨ih.1.step hstep, ih.2.trans (ih.1.names_grow_of_step hstep)⟩
  exact hrun.2

/-- A handle that has been given out is the handle of its name in every later state. -/
theorem Exact.atom?_of_later (hix : ix.Exact) (h : Later ix ix') {a : Atom}
    (ha : ix.atom? name = some a) : ix'.atom? name = some a := by
  obtain ⟨hmem, -⟩ := mem_names_of_atom? ha
  unfold atom? at ha ⊢
  rw [AtomTable.lookup?_mono (hix.names_grow h) hmem, ha]

/-! ## §2 Handles in answers -/

theorem atomName_of_atom? {a : Atom} (hsize : ix.atoms.size < UInt32.size)
    (ha : ix.atom? name = some a) : ix.atomName a = .ok name := by
  obtain ⟨hmem, rfl⟩ := mem_names_of_atom? ha
  exact AtomTable.name_atomOf hsize hmem

theorem Exact.atom?_of_symbol? (h : ix.Exact) {a : SymbolAnswer}
    (ha : ix.symbol? name = some a) : ix.atom? name = some a.atom := by
  -- the answer repeats the handle that the record carries
  obtain ⟨record, hrecord, ha⟩ := Option.bind_eq_some_iff.mp ha
  obtain ⟨top, -, ha⟩ := Option.bind_eq_some_iff.mp ha
  obtain rfl := Option.some.inj ha
  exact h.tidy.named name record hrecord

theorem Exact.atom?_of_float? (h : ix.Exact) {a : FloatAnswer} (ha : ix.float? name = some a) :
    ix.atom? a.typecode = some a.typecodeAtom := by
  rw [float?_eq_top?] at ha
  obtain ⟨e, he, rfl⟩ := Option.map_eq_some_iff.mp ha
  -- the entry is a floating hypothesis of a tracked segment, whose names are interned
  have hmem : e ∈ (ix.slot (.floats name)).entries := List.mem_of_head? he
  obtain ⟨id, r, hr, d, hd, rfl⟩ := mem_declared.mp ((h.content _).mem_iff.mp hmem)
  have hfloat := Segment.mem_names_of_float (List.mem_filter.mp hd).1
  exact AtomTable.lookup?_of_mem (h.interned id r hr _ hfloat)

theorem Exact.mem_names_of_disjoint (h : ix.Exact) {q : SegmentId × DisjointDecl}
    (hq : q ∈ ix.collection.declarations .disjoints) : ∀ n ∈ q.2.names, n ∈ ix.atoms.names := by
  intro n hn
  obtain ⟨r, hr, hd⟩ := Collection.mem_declarations.mp hq
  exact h.interned q.1 r hr n (Segment.mem_names_of_disjoint hd hn)

/-- The listed constraints are those that the tracked segments declare. -/
theorem Exact.disjointList_perm (h : ix.Exact) :
    ix.disjointList.Perm ((ix.collection.declarations .disjoints).map fun q =>
      ⟨⟨q.1, DisjointDecl.index q.2⟩, (DisjointDecl.names q.2).map ix.atoms.atomOf⟩) := by
  have hcontent := h.content .disjoints
  rw [declared_eq_map (c := ix.collection) rfl] at hcontent
  have hlisted := hcontent.map fun e : Entry StatementAddress DisjointGroup =>
    (⟨e.address, e.value.vars⟩ : DisjointAnswer)
  rw [List.map_map] at hlisted
  exact hlisted

/-- **The variables beside another one**: a handle is listed iff it is a different one and some
constraint has both. -/
theorem Exact.mem_disjointFrom_iff (h : ix.Exact) {a b : Atom} :
    b ∈ ix.disjointFrom a ↔ b ≠ a ∧ ∃ g ∈ ix.disjointList, a ∈ g.vars ∧ b ∈ g.vars := by
  -- the sets that are united are those of the constraints that have `a`
  simp only [disjointFrom, AtomSet.toList, AtomSet.erase, List.mem_filter, AtomSet.mem_foldl_union,
    AtomSet.contains_iff, decide_eq_true_eq, disjointList, List.mem_map, exists_exists_and_eq_and,
    AtomSet.empty, List.not_mem_nil, false_or, and_assoc]
  rw [and_comm]
  apply and_congr_right
  intro _
  apply exists_congr
  intro e
  apply and_congr_right
  intro he
  rw [h.mem_members_iff he, h.mem_members_iff he]

/-! ## §3 The whole account -/

/-- **Handles are right, and they are for good.** In every reachable index whose names the words can
tell apart, the handle of a symbol is that of its name and leads back to it, the handle of a
typecode leads back to the typecode, the handles of the listed constraints lead back to the
variables of the declared ones in declared order, and every handle that is listed beside another one
has a name. In every later state the names of the index have the handles they have now. -/
theorem handles_of_reachable (hix : ix.Reachable) (hsize : ix.atoms.size < UInt32.size) :
    (∀ name a, ix.symbol? name = some a →
      ix.atom? name = some a.atom ∧ ix.atomName a.atom = .ok name) ∧
    (∀ name a, ix.float? name = some a → ix.atomName a.typecodeAtom = .ok a.typecode) ∧
    ((ix.disjointList.map fun g => (g.address, g.vars.map ix.atomName)).Perm
      ((ix.collection.declarations .disjoints).map fun q =>
        (⟨q.1, DisjointDecl.index q.2⟩, (DisjointDecl.names q.2).map Except.ok))) ∧
    (∀ a, ∀ b ∈ ix.disjointFrom a, ∃ name, ix.atomName b = .ok name) ∧
    ∀ ix', Later ix ix' → ∀ name a, ix.atom? name = some a → ix'.atom? name = some a := by
  have hexact := hix.exact
  refine ⟨fun name a ha => ?symbol, fun name a ha => ?float, ?listed, fun a b hb => ?beside,
    fun ix' hlater name a ha => hexact.atom?_of_later hlater ha⟩
  case symbol =>
    have hatom := hexact.atom?_of_symbol? ha
    exact ⟨hatom, atomName_of_atom? hsize hatom⟩
  case float => exact atomName_of_atom? hsize (hexact.atom?_of_float? ha)
  case listed =>
    -- the constraints are written with the handles of their names, which are all interned
    have hnames := hexact.disjointList_perm.map fun g => (g.address, g.vars.map ix.atomName)
    rw [List.map_map] at hnames
    refine hnames.trans (List.Perm.of_eq (List.map_congr_left fun q hq => ?_))
    rw [Function.comp_apply, map_atomName_atomOf hsize (hexact.mem_names_of_disjoint hq)]
  case beside =>
    obtain ⟨-, g, hg, -, hb⟩ := hexact.mem_disjointFrom_iff.mp hb
    -- the constraint is a declared one, so its variables are handles of names
    obtain ⟨q, hq, rfl⟩ := List.mem_map.mp (hexact.disjointList_perm.mem_iff.mp hg)
    obtain ⟨n, hn, rfl⟩ := List.mem_map.mp hb
    exact ⟨n, AtomTable.name_atomOf hsize (hexact.mem_names_of_disjoint hq n hn)⟩

/-- Only the upper segment of the sample declares `z`. Once it is removed `z` is not found; the
handle of `z` is kept, and it is found under it when the segment is back. -/
theorem handles_of_reachable_after_return :
    ∃ ix ix' a, (new .empty).update Sample.both = .ok ix ∧
      (ix.remove 2).add 2 Sample.upper = .ok ix' ∧ ix.symbol? "z" = some a ∧
      (ix.remove 2).symbol? "z" = none ∧ ix.atomName a.atom = .ok "z" ∧
      ix'.atom? "z" = some a.atom := by
  let run : Except Fault (Index × Index) := do
    let ix ← (new .empty).update Sample.both
    let ix' ← (ix.remove 2).add 2 Sample.upper
    return (ix, ix')
  have hrun : run.toOption.map (fun q => decide (q.1.atoms.size < UInt32.size ∧
      (q.1.symbol? "z").isSome ∧ (q.1.remove 2).symbol? "z" = none)) = some true := by
    decide +kernel
  obtain ⟨⟨ix₁, ix₂⟩, hsome, hdecided⟩ := Option.map_eq_some_iff.mp hrun
  obtain ⟨hsize, hz, hgone⟩ := of_decide_eq_true hdecided
  obtain ⟨ix, hix, hrest⟩ := bind_eq_ok_iff.mp (eq_ok_of_toOption hsome)
  obtain ⟨ix', hix', hrest⟩ := bind_eq_ok_iff.mp hrest
  obtain ⟨rfl, rfl⟩ := Prod.mk.inj (Except.ok.inj hrest)
  obtain ⟨a, ha⟩ := Option.isSome_iff_exists.mp hz
  have hreach := (Reachable.new .empty).step (step_of_update hix)
  obtain ⟨hsymbol, -, -, -, hlater⟩ := handles_of_reachable hreach hsize
  have hsteps : Later ix ix' :=
    .tail (.single ⟨.remove 2, .remove 2⟩) ⟨.add 2 Sample.upper, .add hix'⟩
  exact ⟨ix, ix', a, hix, hix', ha, hgone, (hsymbol "z" a ha).2,
    hlater ix' hsteps "z" a.atom (hsymbol "z" a ha).1⟩

end NameIndex.Index
