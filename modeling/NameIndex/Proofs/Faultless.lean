import Mathlib.Data.List.ReduceOption
import NameIndex.Proofs.Dropping
import NameIndex.Proofs.SpecConversion

/-!
# Runs without faults

A fault is a breach of contract, and inside a run every contract is kept by some other part: the ids
of an order are those of the collection that was read, and reading refuses an id that comes twice;
an index is brought into step with a collection whose order knows all its segments, before and after
the drops; and the handles that are turned back into names are those that the index has handed out.
So the only breach is left to the caller: an element that is missing from a description.

## Architecture

1. Reading descriptions in which nothing is missing fails for a stated reason only
   (`Collection.ofSpecs_faultless`).
2. What was read has the names that the descriptions mention (`SegmentSpec.mentions_toSegment`), so a
   bound on these bounds the handles.
3. An index that reflects a collection has a report for every question, and each way a run can end is
   one of three (`Tool.answer_ends`).
-/

namespace NameIndex

/-! ## §1 Descriptions in which nothing is missing -/

/-- No element of the description is missing. -/
@[mk_iff]
structure SegmentSpec.Complete (s : SegmentSpec) : Prop where
  symbols : none ∉ s.symbols
  localVars : none ∉ s.localVars
  labels : none ∉ s.labels
  floats : none ∉ s.floats
  disjoints : none ∉ s.disjoints

instance (s : SegmentSpec) : Decidable s.Complete := decidable_of_iff' _ (s.complete_iff)

/-- The names that the description mentions, other than labels. -/
def SegmentSpec.mentions (s : SegmentSpec) : List String :=
  s.symbols.reduceOption.map (·.name) ++ s.localVars.reduceOption.map (·.name)
    ++ s.floats.reduceOption.flatMap (fun d => [d.name, d.typecode])
    ++ s.disjoints.reduceOption.flatMap (·.vars.getD [])

/-- It may fail, but not by a fault. -/
def Faultless {α : Type} (x : Except SpecError α) : Prop := ∀ f, x ≠ .error (.fault f)

namespace Faultless

variable {α β : Type}

theorem ok (a : α) : Faultless (.ok a) := nofun

theorem bind {x : Except SpecError α} {f : α → Except SpecError β} (hx : Faultless x)
    (hf : ∀ a, x = .ok a → Faultless (f a)) : Faultless (x >>= f) := by
  cases x with
  | ok a => exact hf a rfl
  | error e => exact fun fault heq => hx fault (by rw [Except.error.inj heq])

theorem mapM {f : α → Except SpecError β} {xs : List α} (h : ∀ x ∈ xs, Faultless (f x)) :
    Faultless (xs.mapM f) := by
  induction xs with
  | nil => exact ok []
  | cons x xs ih =>
    rw [List.mapM_cons]
    apply (h x List.mem_cons_self).bind
    intro y _
    apply (ih fun x' hx' => h x' (List.mem_cons_of_mem x hx')).bind
    exact fun ys _ => ok (y :: ys)

theorem present {a? : Option α} (h : a? ≠ none) : Faultless (present a?) := by
  cases a? with
  | none => exact absurd rfl h
  | some a => exact ok a

theorem mapM_present {f : α → Except SpecError β} (hf : ∀ a, Faultless (f a))
    {xs : List (Option α)} (h : none ∉ xs) :
    Faultless (xs.mapM fun a? => NameIndex.present a? >>= f) := by
  apply mapM
  intro a? ha?
  apply bind
  · apply present
    rintro rfl
    exact h ha?
  · exact fun a _ => hf a

end Faultless

theorem SymbolSpec.toDecl_faultless (id : SegmentId) (s : SymbolSpec) : Faultless (s.toDecl id) := by
  unfold toDecl
  split
  · exact .ok _
  · nofun

/-- A complete description fails to be a segment for the word of a symbol type only. -/
theorem SegmentSpec.Complete.toSegment_faultless {s : SegmentSpec} (h : s.Complete) :
    Faultless s.toSegment := by
  apply (Faultless.mapM_present (SymbolSpec.toDecl_faultless s.id) h.symbols).bind
  intro _ _
  -- once they are there, only symbols can fail to be understood
  apply (Faultless.mapM_present (fun _ => .ok _) h.localVars).bind
  intro _ _
  apply (Faultless.mapM_present (fun _ => .ok _) h.labels).bind
  intro _ _
  apply (Faultless.mapM_present (fun _ => .ok _) h.floats).bind
  intro _ _
  apply (Faultless.mapM_present (fun _ => .ok _) h.disjoints).bind
  exact fun _ _ => .ok _

namespace Collection

variable {specs : List SegmentSpec} {ids : List SegmentId} {c : Collection}

theorem addSpecs_faultless (h : ∀ spec ∈ specs, spec.Complete) :
    Faultless (addSpecs ids c (specs.map some)) := by
  -- what earlier descriptions have left does not matter, so ids and collection vary
  induction specs generalizing ids c with
  | nil => exact .ok _
  | cons spec rest ih =>
    obtain ⟨hspec, hrest⟩ := List.forall_mem_cons.mp h
    rw [List.map_cons, addSpecs]
    apply (Faultless.ok spec).bind
    rintro _ ⟨⟩
    dsimp only
    split
    · rintro f ⟨⟩
    · exact hspec.toSegment_faultless.bind fun _ _ => ih hrest

/-- **Reading complete descriptions** fails for a stated reason only: the order is that of distinct
ids, since an id that comes twice has been refused before. -/
theorem ofSpecs_faultless (h : ∀ spec ∈ specs, spec.Complete) :
    Faultless (ofSpecs (specs.map some)) := by
  apply (addSpecs_faultless h).bind
  intro result hresult
  obtain ⟨parts, -, hnodup, -, rfl⟩ := addSpecs_eq_ok_iff.mp hresult
  simp only [List.nil_append, ListOrder.ofList_of_nodup hnodup]
  exact .ok _

end Collection

/-! ## §2 The names of what is read -/

/-- What is seen of elements is seen of what they are read as. -/
theorem reduceOption_of_mapM_present {α β γ : Type} {f : α → Except SpecError β} {view : α → γ}
    {view' : β → γ} (hf : ∀ a b, f a = .ok b → view a = view' b) {xs : List (Option α)}
    {ys : List β} (h : (xs.mapM fun a? => present a? >>= f) = .ok ys) :
    xs.reduceOption.map view = ys.map view' := by
  rw [mapM_eq_ok_iff] at h
  induction h with
  | nil => rfl
  | cons hhead _ ih =>
    obtain ⟨a, ha, hb⟩ := bind_eq_ok_iff.mp hhead
    obtain rfl := present_eq_ok_iff.mp ha
    rw [List.reduceOption_cons_of_some, List.map_cons, List.map_cons, hf _ _ hb, ih]

theorem SymbolSpec.name_toDecl {id : SegmentId} {s : SymbolSpec} {d : SymbolDecl}
    (h : s.toDecl id = .ok d) : s.name = d.name := by
  unfold toDecl at h
  split at h
  · rw [← Except.ok.inj h]
  · cases h

/-- A segment mentions the names that its description mentions. -/
theorem SegmentSpec.mentions_toSegment {spec : SegmentSpec} {s : Segment}
    (h : spec.toSegment = .ok s) : s.mentions = spec.mentions := by
  obtain ⟨symbols, hsymbols, h⟩ := bind_eq_ok_iff.mp h
  obtain ⟨localVars, hlocalVars, h⟩ := bind_eq_ok_iff.mp h
  obtain ⟨labels, -, h⟩ := bind_eq_ok_iff.mp h
  obtain ⟨floats, hfloats, h⟩ := bind_eq_ok_iff.mp h
  obtain ⟨disjoints, hdisjoints, h⟩ := bind_eq_ok_iff.mp h
  obtain rfl := Except.ok.inj h
  -- of each kind, the names that are mentioned are copied
  have hsymbol : ∀ (a : SymbolSpec) b, a.toDecl spec.id = .ok b → a.name = b.name :=
    fun _ _ => SymbolSpec.name_toDecl
  have hlocalVar : ∀ (a : LocalVarSpec) b, (pure a.toDecl : Except SpecError _) = .ok b →
      a.name = b.name := by
    rintro a _ ⟨⟩
    rfl
  have hfloat : ∀ (a : FloatSpec) b, (pure a.toDecl : Except SpecError _) = .ok b →
      [a.name, a.typecode] = [b.name, b.typecode] := by
    rintro a _ ⟨⟩
    rfl
  have hdisjoint : ∀ (a : DisjointSpec) b, (pure a.toDecl : Except SpecError _) = .ok b →
      a.vars.getD [] = b.names := by
    rintro a _ ⟨⟩
    rw [DisjointDecl.names, DisjointSpec.toDecl, cloned_eq]
  simp only [Segment.mentions, mentions, List.flatMap_def,
    reduceOption_of_mapM_present hsymbol hsymbols,
    reduceOption_of_mapM_present hlocalVar hlocalVars,
    reduceOption_of_mapM_present hfloat hfloats,
    reduceOption_of_mapM_present hdisjoint hdisjoints]

theorem Collection.nameable_of_mentions {specs : List (Option SegmentSpec)} {c : Collection}
    {parts : List (SegmentId × Segment)} (hdescribe : SegmentSpec.Describe specs parts)
    (hmade : c.MadeOf parts) {names : List String} (hlength : names.length < UInt32.size)
    (hnames : ∀ spec, some spec ∈ specs → spec.mentions ⊆ names) : c.Nameable := by
  have hparts : ∀ part ∈ parts, part.2.names ⊆ names := by
    clear hmade
    induction hdescribe with
    | nil => simp
    | cons hpart _ ih =>
      obtain ⟨spec, rfl, -, hsegment⟩ := hpart
      rw [List.forall_mem_cons, Segment.names_eq_mentions, SegmentSpec.mentions_toSegment hsegment]
      refine ⟨hnames spec List.mem_cons_self, ih fun other hother => ?_⟩
      exact hnames other (List.mem_cons_of_mem _ hother)
  refine ⟨names, hlength, fun id r hr n hn => ?_⟩
  obtain ⟨part, hpart, hn⟩ :=
    (hmade.exists_content_iff (P := fun _ s => n ∈ s.names)).mp ⟨id, r, hr, hn⟩
  exact hparts part hpart hn

/-! ## §3 How a run ends -/

namespace Tool

/-- A run after everything has been read: what is asked about the descriptions. -/
def answer (display : Display) (specs : List (Option SegmentSpec)) (drops : List SegmentId)
    (q : Questions) : Step (List Report) := do
  let ix ← build display specs drops
  orFail .fault (ix.reports q)

theorem inquire_eq (yaml : Yaml.Library) (tree : FileTree) (o : Options) :
    inquire yaml tree o = load yaml tree o >>= fun specs =>
      answer ⟨o.level, o.progress⟩ specs o.drop o.questions := rfl

/-- The failure is a breach of contract. -/
def RunError.IsFault : RunError → Prop
  | .fault _ => True
  | .spec (.fault _) => True
  | _ => False

/-- **How a run ends** that has read descriptions: with a reason why they make up no collection, with
reports on all questions, or with the first id that cannot be dropped. -/
inductive Ends (specs : List (Option SegmentSpec)) (drops : List SegmentId) :
    Except RunError (List Report) → Prop where
  | refused {e : SpecError} (hspecs : Collection.ofSpecs specs = .error e)
      (hfaultless : ∀ f, e ≠ .fault f) : Ends specs drops (.error (.spec e))
  | answered {c : Collection} (hspecs : Collection.ofSpecs specs = .ok c)
      (hdrops : c.Droppable drops) (rs : List Report) : Ends specs drops (.ok rs)
  | undroppable {c : Collection} {id : SegmentId} (hspecs : Collection.ofSpecs specs = .ok c)
      (hfirst : c.FirstUndroppable drops id) : Ends specs drops (.error (.unknownDrop id))

theorem Ends.not_isFault {specs : List (Option SegmentSpec)} {drops : List SegmentId} {e : RunError}
    (h : Ends specs drops (.error e)) : ¬ e.IsFault := by
  cases h with
  | undroppable => exact id
  | @refused cause _ hfaultless =>
    cases cause with
    | fault f => exact absurd rfl (hfaultless f)
    | unknownSymbolType => exact id
    | repeatedId => exact id

/-- An index in step with its collection has a report for every question. -/
theorem exists_reports {ix : Index} {c : Collection} {parts : List (SegmentId × Segment)}
    (h : ix.Reflects c) (hmade : c.MadeOf parts) (hsize : ix.atoms.size < UInt32.size)
    (q : Questions) : ∃ rs, ix.reports q = .ok rs := by
  -- the index is compared with itself
  obtain ⟨rs, -, hrs, -, -⟩ := h.reports h hmade hmade (List.Subset.refl _) q fun _ => hsize
  exact ⟨rs, hrs⟩

theorem answer_ends {specs : List SegmentSpec} (hcomplete : ∀ spec ∈ specs, spec.Complete)
    {names : List String} (hlength : names.length < UInt32.size)
    (hnames : ∀ spec ∈ specs, spec.mentions ⊆ names) (display : Display) (drops : List SegmentId)
    (q : Questions) (s : String) :
    Ends (specs.map some) drops ((answer display (specs.map some) drops q).run s).1 := by
  unfold answer
  cases hspecs : Collection.ofSpecs (specs.map some) with
  | error e =>
    have hbuild : (build display (specs.map some) drops).run s = (.error (.spec e), s) := by
      unfold build
      rw [hspecs]
      rfl
    rw [run_bind_error hbuild]
    refine .refused hspecs fun f hf => ?_
    exact Collection.ofSpecs_faultless hcomplete f (hf ▸ hspecs)
  | ok c =>
    obtain ⟨parts, hdescribe, hmade⟩ := Collection.madeOf_of_ofSpecs hspecs
    by_cases hdrops : c.Droppable drops
    · obtain ⟨ix, c', s', hbuild, hmade', hreflects, hknown⟩ :=
        run_build hspecs hmade hdrops display s
      have hnameable : c.Nameable :=
        Collection.nameable_of_mentions hdescribe hmade hlength (by simpa using hnames)
      have hsize := size_lt_of_nameable hmade hnameable fun n => (hknown n).mp
      obtain ⟨rs, hrs⟩ := exists_reports hreflects hmade' hsize q
      rw [run_bind_ok hbuild, hrs]
      exact .answered hspecs hdrops rs
    · obtain ⟨id, hfirst⟩ := Collection.exists_firstUndroppable hdrops
      obtain ⟨s', hbuild⟩ := run_build_error hspecs hmade hfirst display s
      rw [run_bind_error hbuild]
      exact .undroppable hspecs hfirst

/-- **Complete descriptions lead to no fault.** Let no element be missing from any of the
descriptions, and let them mention fewer names than there are handles. Whatever their ids, symbol
types and declarations, whatever is dropped and whatever is asked, a run that has read them ends with
a stated reason or with reports on all questions, and neither it nor its output meets a fault. -/
theorem run_faultless {specs : List SegmentSpec} (hcomplete : ∀ spec ∈ specs, spec.Complete)
    {names : List String} (hlength : names.length < UInt32.size)
    (hnames : ∀ spec ∈ specs, spec.mentions ⊆ names) :
    (∀ (display : Display) (drops : List SegmentId) (q : Questions) (s : String),
      Ends (specs.map some) drops ((answer display (specs.map some) drops q).run s).1) ∧
    ∀ (yaml : Yaml.Library) (tree : FileTree) (o : Options) (console : String),
      (load yaml tree o).run "" = (.ok (specs.map some), console) →
      ∀ (room : Option Nat) (e : RunError), (run yaml tree o room).failure = some e → ¬ e.IsFault := by
  have hends := answer_ends hcomplete hlength hnames
  refine ⟨hends, fun yaml tree o console hload room e hfailure => ?_⟩
  have hinquire : (inquire yaml tree o).run "" =
      (answer ⟨o.level, o.progress⟩ (specs.map some) o.drop o.questions).run console := by
    rw [inquire_eq, run_bind_ok hload]
  cases hanswer : (answer ⟨o.level, o.progress⟩ (specs.map some) o.drop o.questions).run console with
  | mk outcome console' =>
    rw [hanswer] at hinquire
    cases outcome with
    | error cause =>
      rw [run_of_inquire_error hinquire] at hfailure
      obtain rfl := Option.some.inj hfailure
      have hend := hends ⟨o.level, o.progress⟩ o.drop o.questions console
      rw [hanswer] at hend
      exact hend.not_isFault
    | ok rs =>
      -- all that is left to fail is the output
      simp only [run, hinquire] at hfailure
      split at hfailure
      · cases hfailure
      · obtain rfl := Option.some.inj hfailure
        exact id

/-- The two sample files, with a segment dropped twice and a name asked for that only this segment
mentions; and the same descriptions read twice, so that every id is repeated. -/
theorem run_faultless_described :
    (∀ spec ∈ Sample.described.reduceOption, spec.Complete ∧ spec.mentions ⊆ ["z", "x", "y"]) ∧
    (∀ s, Ends (Sample.described ++ Sample.described) [2]
      ((answer ⟨.info, true⟩ (Sample.described ++ Sample.described) [2]
        (Sample.options [] []).questions).run s).1) ∧
    ∀ room e, (run Yaml.fragment Sample.files (Sample.options ["upper.yaml", "lower.yaml"] [2, 2])
      room).failure = some e → ¬ e.IsFault := by
  have hspecs : ∀ spec ∈ Sample.described.reduceOption,
      spec.Complete ∧ spec.mentions ⊆ ["z", "x", "y"] := by decide
  have htwice : ∀ spec ∈ Sample.described.reduceOption ++ Sample.described.reduceOption,
      spec.Complete ∧ spec.mentions ⊆ ["z", "x", "y"] := fun spec hspec =>
    hspecs spec ((List.mem_append.mp hspec).elim id id)
  have hload : ((load Yaml.fragment Sample.files
      (Sample.options ["upper.yaml", "lower.yaml"] [2, 2])).run "").1.toOption =
        some (Sample.described.reduceOption.map some) := by
    decide +kernel
  refine ⟨hspecs, fun s => ?_, ?_⟩
  · exact (run_faultless (fun spec hspec => (htwice spec hspec).1) (by decide)
      fun spec hspec => (htwice spec hspec).2).1 ⟨.info, true⟩ [2] _ s
  · exact (run_faultless (fun spec hspec => (hspecs spec hspec).1) (by decide)
      fun spec hspec => (hspecs spec hspec).2).2 Yaml.fragment _ _ _
        (Prod.ext (eq_ok_of_toOption hload) rfl)

end Tool

end NameIndex
