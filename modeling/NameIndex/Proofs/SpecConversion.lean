import NameIndex.Proofs.FirstFailure
import NameIndex.Proofs.SpecCollection
import NameIndex.Proofs.Storage

/-!
# Conversion of descriptions, and how it fails

A segment and its description say the same, but for the words of the symbol types: a word is read as
one of the two kinds and every kind has its word, while the word of any other number is not read. So
describing and reading are inverse to each other exactly where all symbols are of the two kinds.

Reading goes through the elements of a description one after the other, and through the descriptions
of a collection one after the other, and stops at the first that it cannot use. What a scan stops at
is said here without the scan: as the first offence among the elements (`SegmentSpec.elements`), and
as the first description that has an id of an earlier one or cannot be read.

## Main definitions

* `SymbolType.IsKind` — the symbol types that have a word.
* `SpecElement.offence?`, `SegmentSpec.elements` — what can be wrong with an element, and the
  elements in the sequence in which they are read.

## Main results

* `SegmentSpec.toSegment_eq_ok_iff`, `SegmentSpec.toSegment_failsBy` — what is read, and why not.
* `SegmentSpec.conversions_inverse` — describing and reading, in both directions.
* `Collection.ofSpecs_outcome` — which descriptions make up a collection, and why the others do not.
-/

namespace NameIndex

/-! ## §1 Symbol types and their words -/

/-- The type is one of the two kinds. -/
def SymbolType.IsKind (t : SymbolType) : Prop := t = .variable ∨ t = .constant

instance (t : SymbolType) : Decidable t.IsKind := inferInstanceAs (Decidable (_ ∨ _))

/-- The words that are read are those of the two kinds. -/
theorem SymbolType.parse?_eq_some_iff {word : String} {t : SymbolType} :
    parse? word = some t ↔ t.IsKind ∧ word = t.text := by
  unfold parse? IsKind
  split_ifs with hvariable hconstant
  · cases t <;> simp [text, hvariable]
  · cases t <;> simp [text, hconstant]
  · cases t <;> simp [text, hvariable, hconstant]

theorem SymbolType.not_isKind_iff {t : SymbolType} : ¬ t.IsKind ↔ ∃ n, t = .other n := by
  cases t <;> simp [IsKind]

/-- A word of a kind comes from this kind only: the word of a number starts otherwise. -/
theorem SymbolType.isKind_iff_text {t : SymbolType} :
    t.IsKind ↔ t.text = "variable" ∨ t.text = "constant" := by
  constructor
  · rintro (rfl | rfl)
    · exact .inl rfl
    · exact .inr rfl
  · intro hword
    by_contra hkind
    obtain ⟨n, rfl⟩ := not_isKind_iff.mp hkind
    have hstart : (text (.other n)).toList.head? = some 'S' := by simp [text]
    rcases hword with hword | hword
    · exact absurd (hword ▸ hstart) (by decide)
    · exact absurd (hword ▸ hstart) (by decide)

theorem SymbolSpec.toDecl_eq_ok_iff {id : SegmentId} {s : SymbolSpec} {d : SymbolDecl} :
    s.toDecl id = .ok d ↔ d.type.IsKind ∧ s = d.toSpec := by
  have hread : s.toDecl id = .ok d ↔
      ∃ type, SymbolType.parse? s.type = some type ∧ ⟨s.name, type, s.index, s.ordinal⟩ = d := by
    unfold toDecl
    split
    · next type htype => simp [htype]
    · next htype => simp [htype]
  simp only [hread, SymbolType.parse?_eq_some_iff]
  constructor
  · rintro ⟨type, ⟨hkind, hword⟩, rfl⟩
    refine ⟨hkind, ?_⟩
    rw [SymbolDecl.toSpec, ← hword]
  · rintro ⟨hkind, rfl⟩
    exact ⟨d.type, ⟨hkind, rfl⟩, rfl⟩

/-! ## §2 One declaration and its description

Both have the same fields, so that copying there and back loses nothing. -/

@[simp]
theorem cloned_eq {α : Type} (xs? : Option (List α)) : cloned xs? = xs? := by
  cases xs? with
  | none => rfl
  | some xs => rfl

@[simp]
theorem LocalVarSpec.toSpec_toDecl (s : LocalVarSpec) : s.toDecl.toSpec = s := rfl

@[simp]
theorem LocalVarDecl.toDecl_toSpec (d : LocalVarDecl) : d.toSpec.toDecl = d := rfl

@[simp]
theorem LabelSpec.toSpec_toDecl (s : LabelSpec) : s.toDecl.toSpec = s := rfl

@[simp]
theorem LabelDecl.toDecl_toSpec (d : LabelDecl) : d.toSpec.toDecl = d := rfl

@[simp]
theorem FloatSpec.toSpec_toDecl (s : FloatSpec) : s.toDecl.toSpec = s := rfl

@[simp]
theorem FloatDecl.toDecl_toSpec (d : FloatDecl) : d.toSpec.toDecl = d := rfl

@[simp]
theorem DisjointSpec.toSpec_toDecl (s : DisjointSpec) : s.toDecl.toSpec = s := by
  simp [toDecl, DisjointDecl.toSpec]

@[simp]
theorem DisjointDecl.toDecl_toSpec (d : DisjointDecl) : d.toSpec.toDecl = d := by
  simp [toSpec, DisjointSpec.toDecl]

/-! ## §3 Elements of a description -/

/-- An element of one of the lists of a description; it may be missing. -/
inductive SpecElement where
  | symbol (d? : Option SymbolSpec)
  | localVar (d? : Option LocalVarSpec)
  | label (d? : Option LabelSpec)
  | float (d? : Option FloatSpec)
  | disjoint (d? : Option DisjointSpec)
  deriving Repr, DecidableEq

/-- What is wrong with an element of a description of the segment `id`: it is missing, or it is a
symbol with a word that stands for neither kind. -/
def SpecElement.offence? (id : SegmentId) : SpecElement → Option SpecError
  | .symbol none | .localVar none | .label none | .float none | .disjoint none =>
    some (.fault .absentElement)
  | .symbol (some d) =>
    if d.type = "variable" ∨ d.type = "constant" then none
    else some (.unknownSymbolType id d.name d.type)
  | .localVar (some _) | .label (some _) | .float (some _) | .disjoint (some _) => none

/-- The elements of a description in the sequence in which they are read. -/
def SegmentSpec.elements (s : SegmentSpec) : List SpecElement :=
  s.symbols.map .symbol ++ s.localVars.map .localVar ++ s.labels.map .label
    ++ s.floats.map .float ++ s.disjoints.map .disjoint

/-- Reading a list, where an element is read iff the result has a property and gives it back. -/
theorem mapM_eq_ok_iff_map {ε α β : Type} {f : α → Except ε β} {P : β → Prop} {back : β → α}
    (h : ∀ a b, f a = .ok b ↔ P b ∧ a = back b) {xs : List α} {ys : List β} :
    xs.mapM f = .ok ys ↔ (∀ b ∈ ys, P b) ∧ xs = ys.map back := by
  rw [mapM_eq_ok_iff]
  induction ys generalizing xs with
  | nil => simp
  | cons b ys ih =>
    rw [List.forall₂_cons_right_iff, List.forall_mem_cons, List.map_cons]
    constructor
    · rintro ⟨a, rest, hhead, htail, rfl⟩
      obtain ⟨hb, rfl⟩ := (h a b).mp hhead
      obtain ⟨hys, rfl⟩ := ih.mp htail
      exact ⟨⟨hb, hys⟩, rfl⟩
    · rintro ⟨⟨hb, hys⟩, rfl⟩
      exact ⟨_, _, (h _ b).mpr ⟨hb, rfl⟩, ih.mpr ⟨hys, rfl⟩, rfl⟩

theorem present_eq_ok_iff {α : Type} {a? : Option α} {a : α} : present a? = .ok a ↔ a? = some a := by
  cases a? with
  | none => simp [present]
  | some a => simp [present]

/-- Copying an element that must be there, where copying it back gives the element. -/
theorem present_bind_eq_ok_iff {α β : Type} {toDecl : α → β} {toSpec : β → α}
    (hspec : ∀ a, toSpec (toDecl a) = a) (hdecl : ∀ b, toDecl (toSpec b) = b) (a? : Option α) (b : β) :
    (do return toDecl (← present a?)) = Except.ok (ε := SpecError) b ↔ True ∧ a? = some (toSpec b) := by
  rw [bind_eq_ok_iff, true_and]
  simp only [present_eq_ok_iff, pure, Except.pure, Except.ok.injEq]
  constructor
  · rintro ⟨a, ha, rfl⟩
    rw [hspec, ha]
  · intro ha
    exact ⟨_, ha, hdecl b⟩

namespace SegmentSpec

variable {id : SegmentId} {s : SegmentSpec} {seg seg' : Segment} {e : SpecError}

/-- **What is read** from a description is a segment of the two kinds whose description it is, apart
from the note on where it came from. -/
theorem toSegment_eq_ok_iff :
    s.toSegment = .ok seg ↔
      (∀ d ∈ seg.symbols, d.type.IsKind) ∧ s = { ofSegment s.id seg with source := s.source } := by
  have hsymbol : ∀ (d? : Option SymbolSpec) (d : SymbolDecl),
      (do (← present d?).toDecl s.id) = .ok d ↔ d.type.IsKind ∧ d? = some d.toSpec := by
    intro d? d
    rw [bind_eq_ok_iff]
    simp [present_eq_ok_iff, SymbolSpec.toDecl_eq_ok_iff, and_comm]
  have hlocalVar := present_bind_eq_ok_iff LocalVarSpec.toSpec_toDecl LocalVarDecl.toDecl_toSpec
  have hlabel := present_bind_eq_ok_iff LabelSpec.toSpec_toDecl LabelDecl.toDecl_toSpec
  have hfloat := present_bind_eq_ok_iff FloatSpec.toSpec_toDecl FloatDecl.toDecl_toSpec
  have hdisjoint := present_bind_eq_ok_iff DisjointSpec.toSpec_toDecl DisjointDecl.toDecl_toSpec
  obtain ⟨symbols, localVars, labels, floats, disjoints⟩ := seg
  unfold toSegment
  simp only [bind_eq_ok_iff, mapM_eq_ok_iff_map hsymbol, mapM_eq_ok_iff_map hlocalVar,
    mapM_eq_ok_iff_map hlabel, mapM_eq_ok_iff_map hfloat, mapM_eq_ok_iff_map hdisjoint, implies_true,
    true_and]
  simp only [pure, Except.pure, Except.ok.injEq, Segment.mk.injEq]
  constructor
  · rintro ⟨_, ⟨hkinds, hsymbols⟩, _, hlocalVars, _, hlabels, _, hfloats, _, hdisjoints, rfl, rfl,
      rfl, rfl, rfl⟩
    refine ⟨hkinds, ?_⟩
    simp only [ofSegment, ← hsymbols, ← hlocalVars, ← hlabels, ← hfloats, ← hdisjoints]
  · rintro ⟨hkinds, hs⟩
    refine ⟨symbols, ⟨hkinds, ?_⟩, localVars, ?_, labels, ?_, floats, ?_, disjoints, ?_, rfl, rfl, rfl,
      rfl, rfl⟩
    all_goals rw [hs]; rfl

theorem failsBy_symbol (id : SegmentId) (d? : Option SymbolSpec) :
    FailsBy (do (← present d?).toDecl id) ((SpecElement.symbol d?).offence? id) := by
  cases d? with
  | none => exact FailsBy.error _
  | some d =>
    show FailsBy (d.toDecl id) _
    unfold SpecElement.offence? SymbolSpec.toDecl SymbolType.parse?
    by_cases hvariable : d.type = "variable"
    · simpa [hvariable] using FailsBy.ok _
    · by_cases hconstant : d.type = "constant"
      · simpa [hconstant] using FailsBy.ok _
      · simpa [hvariable, hconstant] using FailsBy.error _

theorem failsBy_present {α β : Type} {toDecl : α → β} {element : Option α → SpecElement}
    (hnone : (element none).offence? id = some (.fault .absentElement))
    (hsome : ∀ a, (element (some a)).offence? id = none) (a? : Option α) :
    FailsBy (do return toDecl (← present a?)) ((element a?).offence? id) := by
  cases a? with
  | none =>
    rw [hnone]
    exact FailsBy.error _
  | some a =>
    rw [hsome]
    exact FailsBy.ok (toDecl a)

/-- **Why nothing is read** from a description: its first offence. -/
theorem toSegment_failsBy (s : SegmentSpec) :
    FailsBy s.toSegment (s.elements.findSome? (·.offence? s.id)) := by
  simp only [elements, List.findSome?_append, List.findSome?_map, Option.or_assoc]
  rw [← Option.or_none (o := List.findSome? _ s.disjoints)]
  -- one list after the other, in the sequence of `elements`
  apply (FailsBy.mapM (failsBy_symbol s.id) s.symbols).bind
  intro symbols
  apply (FailsBy.mapM (failsBy_present rfl fun _ => rfl) s.localVars).bind
  intro localVars
  apply (FailsBy.mapM (failsBy_present rfl fun _ => rfl) s.labels).bind
  intro labels
  apply (FailsBy.mapM (failsBy_present rfl fun _ => rfl) s.floats).bind
  intro floats
  apply (FailsBy.mapM (failsBy_present rfl fun _ => rfl) s.disjoints).bind
  exact fun disjoints => FailsBy.ok _

/-- Reading a description asks no order. -/
theorem toSegment_ne_repeatedInOrder (s : SegmentSpec) (id : SegmentId) :
    s.toSegment ≠ .error (.fault (.repeatedInOrder id)) := by
  rw [Ne, toSegment_failsBy, List.findSome?_eq_some_iff]
  rintro ⟨-, x, -, -, hx, -⟩
  unfold SpecElement.offence? at hx
  split at hx
  any_goals cases hx
  split at hx
  · cases hx
  · cases hx

/-! ## §4 Describing and reading -/

theorem offence?_toSpec (id : SegmentId) (d : SymbolDecl) :
    (SpecElement.symbol (some d.toSpec)).offence? id =
      if d.type.IsKind then none else some (.unknownSymbolType id d.name d.type.text) := by
  simp only [SymbolType.isKind_iff_text]
  rfl

/-- The description of a segment is complete, so only the words of symbols can offend. -/
theorem findSome?_elements_ofSegment (id : SegmentId) (seg : Segment) :
    (ofSegment id seg).elements.findSome? (·.offence? id) =
      seg.symbols.findSome? fun d =>
        if d.type.IsKind then none else some (.unknownSymbolType id d.name d.type.text) := by
  have hnone : ∀ {α : Type} (xs : List α), xs.findSome? (fun _ => (none : Option SpecError)) = none :=
    fun xs => List.findSome?_eq_none_iff.mpr fun _ _ => rfl
  simp only [← offence?_toSpec id]
  simp only [elements, ofSegment, List.findSome?_append, List.findSome?_map, Function.comp_def,
    SpecElement.offence?, hnone, Option.or_none]

/-- **A segment that is described and read**: if its symbols are of the two kinds, it is what it
was. -/
theorem toSegment_ofSegment_eq_ok_iff :
    (ofSegment id seg).toSegment = .ok seg' ↔ seg' = seg ∧ ∀ d ∈ seg.symbols, d.type.IsKind := by
  constructor
  · intro hread
    have hnone := (toSegment_failsBy (ofSegment id seg)).exists_ok_iff.mp ⟨seg', hread⟩
    have hkinds : ∀ d ∈ seg.symbols, d.type.IsKind := by
      rw [show (ofSegment id seg).id = id from rfl, findSome?_elements_ofSegment,
        List.findSome?_eq_none_iff] at hnone
      intro d hd
      by_contra hkind
      simpa [hkind] using hnone d hd
    have hback : (ofSegment id seg).toSegment = .ok seg := toSegment_eq_ok_iff.mpr ⟨hkinds, rfl⟩
    exact ⟨Except.ok.inj (hread.symm.trans hback), hkinds⟩
  · rintro ⟨rfl, hkinds⟩
    exact toSegment_eq_ok_iff.mpr ⟨hkinds, rfl⟩

theorem toSegment_ofSegment_eq_error_iff :
    (ofSegment id seg).toSegment = .error e ↔
      ∃ pre d post, ∃ n : Int, seg.symbols = pre ++ d :: post ∧ (∀ d' ∈ pre, d'.type.IsKind) ∧
        d.type = .other n ∧
        e = .unknownSymbolType id d.name ("SymbolType(" ++ n.repr ++ ")") := by
  rw [toSegment_failsBy, show (ofSegment id seg).id = id from rfl, findSome?_elements_ofSegment,
    List.findSome?_eq_some_iff]
  constructor
  · rintro ⟨pre, d, post, hsplit, hd, hpre⟩
    have hkind : ¬ d.type.IsKind := by
      intro hkind
      simp [hkind] at hd
    obtain ⟨n, hn⟩ := SymbolType.not_isKind_iff.mp hkind
    rw [if_neg hkind, hn] at hd
    exact ⟨pre, d, post, n, hsplit, fun d' hd' => by simpa using hpre d' hd', hn,
      (Option.some.inj hd).symm⟩
  · rintro ⟨pre, d, post, n, hsplit, hpre, htype, rfl⟩
    refine ⟨pre, d, post, hsplit, ?_, fun d' hd' => by simpa using hpre d' hd'⟩
    simp [htype, SymbolType.IsKind, SymbolType.text]

/-- **A description that is read and described again**, when nothing in it offends, is what it was
apart from the note on where it came from. -/
theorem exists_toSegment_of_elements (h : ∀ x ∈ s.elements, x.offence? s.id = none) :
    ∃ seg, s.toSegment = .ok seg ∧ s = { ofSegment s.id seg with source := s.source } := by
  obtain ⟨seg, hread⟩ := s.toSegment_failsBy.exists_ok_iff.mpr (List.findSome?_eq_none_iff.mpr h)
  exact ⟨seg, hread, (toSegment_eq_ok_iff.mp hread).2⟩

/-- **Describing and reading are inverse**, and fail for the first reason. A segment that is described
and read again is what it was, if its symbols are of the two kinds; otherwise the first symbol of
another type is reported. A description without a note in which nothing offends is read, and what is
read has this description. Any other description fails by its first offence. -/
theorem conversions_inverse :
    (∀ (id : SegmentId) (seg : Segment),
      (∀ seg', (ofSegment id seg).toSegment = .ok seg' ↔
        seg' = seg ∧ ∀ d ∈ seg.symbols, d.type.IsKind) ∧
      ∀ e, (ofSegment id seg).toSegment = .error e ↔
        ∃ pre d post, ∃ n : Int, seg.symbols = pre ++ d :: post ∧ (∀ d' ∈ pre, d'.type.IsKind) ∧
          d.type = .other n ∧
          e = .unknownSymbolType id d.name ("SymbolType(" ++ n.repr ++ ")")) ∧
    (∀ spec : SegmentSpec, spec.source = "" → (∀ x ∈ spec.elements, x.offence? spec.id = none) →
      ∃ seg, spec.toSegment = .ok seg ∧ ofSegment spec.id seg = spec) ∧
    (∀ (spec : SegmentSpec) (e : SpecError), spec.toSegment = .error e ↔
      ∃ pre x post, spec.elements = pre ++ x :: post ∧
        (∀ y ∈ pre, y.offence? spec.id = none) ∧ x.offence? spec.id = some e) ∧
    ∀ (id : SegmentId) (symbol word : String),
      (SpecError.unknownSymbolType id symbol word).message =
        "segment " ++ id.toNat.repr ++ ": symbol " ++ Text.quoted symbol ++ ": "
          ++ ("unknown symbol type " ++ Text.quoted word) := by
  refine ⟨?segment, ?description, ?failure, fun _ _ _ => rfl⟩
  case segment =>
    exact fun id seg =>
      ⟨fun seg' => toSegment_ofSegment_eq_ok_iff, fun e => toSegment_ofSegment_eq_error_iff⟩
  case description =>
    intro spec hsource h
    obtain ⟨seg, hread, hspec⟩ := exists_toSegment_of_elements h
    refine ⟨seg, hread, ?_⟩
    rw [hsource] at hspec
    exact hspec.symm
  case failure =>
    intro spec e
    rw [toSegment_failsBy, List.findSome?_eq_some_iff]
    simp only [and_comm]

/-- A description of declarations of every kind, with both kinds of symbols, and with a constraint whose
list is absent beside one whose list is empty. -/
def Sample.bothKinds : SegmentSpec where
  id := 4
  source := ""
  symbols := [some ⟨"x", "variable", 0, 0⟩, some ⟨"wff", "constant", 0, 1⟩]
  localVars := [some ⟨"y", 3, 1⟩]
  labels := [some ⟨"ax-mp", 4⟩]
  floats := [some ⟨"x", "vx", "wff", 5⟩]
  disjoints := [some ⟨none, 1⟩, some ⟨some [], 2⟩]

/-- The description is read and described as it was. Where its second symbol has another word and the
third one is missing, the word is reported. -/
theorem conversions_inverse_both_kinds :
    (∃ seg, Sample.bothKinds.toSegment = .ok seg ∧ ofSegment 4 seg = Sample.bothKinds) ∧
    toSegment { Sample.bothKinds with
        symbols := [some ⟨"x", "variable", 0, 0⟩, some ⟨"y", "SymbolType(7)", 0, 1⟩, none] } =
      .error (.unknownSymbolType 4 "y" "SymbolType(7)") := by
  obtain ⟨-, hdescription, hfailure, -⟩ := conversions_inverse
  refine ⟨hdescription Sample.bothKinds rfl (by decide), (hfailure _ _).mpr ?_⟩
  exact ⟨[.symbol (some ⟨"x", "variable", 0, 0⟩)], .symbol (some ⟨"y", "SymbolType(7)", 0, 1⟩),
    _, rfl, by decide, by decide⟩

/-! ## §5 Descriptions of a collection -/

variable {specs : List SegmentSpec} {parts : List (SegmentId × Segment)}

theorem Describe.ids_eq (h : Describe (specs.map some) parts) :
    parts.map Prod.fst = specs.map (·.id) := by
  unfold Describe at h
  rw [List.forall₂_map_left_iff] at h
  induction h with
  | nil => rfl
  | cons hhead _ ih =>
    obtain ⟨spec, hspec, hid, -⟩ := hhead
    rw [List.map_cons, List.map_cons, ih, Option.some.inj hspec, hid]

theorem Describe.exists_mem {spec : SegmentSpec} (h : Describe (specs.map some) parts)
    (hspec : spec ∈ specs) : ∃ seg, (spec.id, seg) ∈ parts ∧ spec.toSegment = .ok seg := by
  unfold Describe at h
  rw [List.forall₂_map_left_iff] at h
  induction h with
  | nil => cases hspec
  | cons hhead _ ih =>
    rcases List.mem_cons.mp hspec with rfl | hspec
    · obtain ⟨_, ⟨⟩, hid, hread⟩ := hhead
      exact ⟨_, by rw [hid]; exact List.mem_cons_self, hread⟩
    · obtain ⟨seg, hpart, hread⟩ := ih hspec
      exact ⟨seg, List.mem_cons_of_mem _ hpart, hread⟩

/-- Descriptions describe something iff each of them can be read. -/
theorem exists_describe_iff :
    (∃ parts, Describe (specs.map some) parts) ↔ ∀ spec ∈ specs, ∃ seg, spec.toSegment = .ok seg := by
  induction specs with
  | nil => simp [Describe]
  | cons spec specs ih =>
    rw [List.forall_mem_cons, ← ih]
    constructor
    · rintro ⟨parts, h⟩
      obtain ⟨part, parts, ⟨_, ⟨⟩, -, hread⟩, hrest, rfl⟩ := List.forall₂_cons_left_iff.mp h
      exact ⟨⟨part.2, hread⟩, parts, hrest⟩
    · rintro ⟨⟨seg, hread⟩, parts, hrest⟩
      exact ⟨(spec.id, seg) :: parts, .cons ⟨spec, rfl, rfl, hread⟩ hrest⟩

end SegmentSpec

namespace Collection

variable {specs : List SegmentSpec} {ids : List SegmentId} {c : Collection} {e : SpecError}
  {parts : List (SegmentId × Segment)}

theorem mem_segments_putAll {n : Nat} {id : SegmentId} :
    id ∈ (c.putAll n parts).segments ↔ id ∈ parts.map Prod.fst ∨ id ∈ c.segments := by
  induction parts generalizing c n with
  | nil => simp [putAll]
  | cons part parts ih =>
    rw [putAll, ih, put, Std.ExtTreeMap.mem_insert, Std.compare_eq_iff_eq, List.map_cons,
      List.mem_cons, eq_comm, or_left_comm, or_assoc]

theorem addSpecs_some_cons {spec : SegmentSpec} {specs : List (Option SegmentSpec)} :
    addSpecs ids c (some spec :: specs) =
      if spec.id ∈ c.segments then .error (.repeatedId spec.id spec.source)
      else spec.toSegment >>= fun seg =>
        addSpecs (ids ++ [spec.id]) (c.put spec.id ⟨ids.length, seg⟩) specs := by
  by_cases hmem : spec.id ∈ c.segments
  · simp [addSpecs, present, hmem, bind, Except.bind, throw, throwThe, MonadExceptOf.throw]
  · simp [addSpecs, present, hmem, bind, Except.bind]

theorem addSpecs_cons {spec? : Option SegmentSpec} {specs : List (Option SegmentSpec)} :
    addSpecs ids c (spec? :: specs) =
      addSpecs ids c [spec?] >>= fun result => addSpecs result.1 result.2 specs := by
  cases spec? with
  | none => rfl
  | some spec =>
    rw [addSpecs_some_cons, addSpecs_some_cons]
    split
    · rfl
    · cases spec.toSegment with
      | ok seg => rfl
      | error e => rfl

/-- One description is refused if its id is there, and otherwise if it cannot be read. -/
theorem addSpecs_singleton_eq_error_iff {spec : SegmentSpec} :
    addSpecs ids c [some spec] = .error e ↔
      spec.id ∈ c.segments ∧ e = .repeatedId spec.id spec.source ∨
        spec.id ∉ c.segments ∧ spec.toSegment = .error e := by
  rw [addSpecs_some_cons]
  by_cases hmem : spec.id ∈ c.segments
  · simp [hmem, eq_comm]
  · rw [if_neg hmem]
    cases spec.toSegment with
    | ok seg => simp [hmem, addSpecs, bind, Except.bind]
    | error e' => simp [hmem, bind, Except.bind]

/-- **Reading descriptions** fails at the first that is refused beside those before it. -/
theorem addSpecs_eq_error_iff {specs : List (Option SegmentSpec)} :
    addSpecs ids c specs = .error e ↔
      ∃ pre spec? post ids' c', specs = pre ++ spec? :: post ∧ addSpecs ids c pre = .ok (ids', c') ∧
        addSpecs ids' c' [spec?] = .error e := by
  induction specs generalizing ids c with
  | nil => simp [addSpecs]
  | cons spec? rest ih =>
    -- the first is refused, or the failure is among the rest
    rw [addSpecs_cons]
    constructor
    · intro h
      cases hone : addSpecs ids c [spec?] with
      | error e' =>
        rw [hone] at h
        obtain rfl := Except.error.inj h
        exact ⟨[], spec?, rest, ids, c, rfl, rfl, hone⟩
      | ok result =>
        rw [hone] at h
        obtain ⟨pre, spec?', post, ids', c', rfl, hpre, hlast⟩ := ih.mp h
        refine ⟨spec? :: pre, spec?', post, ids', c', rfl, ?_, hlast⟩
        rw [addSpecs_cons, hone]
        exact hpre
    · rintro ⟨pre, spec?', post, ids', c', hsplit, hpre, hlast⟩
      cases pre with
      | nil =>
        obtain ⟨rfl, -⟩ := List.cons.inj hsplit
        obtain ⟨rfl, rfl⟩ := Prod.mk.inj (Except.ok.inj hpre)
        rw [hlast]
        rfl
      | cons first pre =>
        obtain ⟨rfl, rfl⟩ := List.cons.inj hsplit
        rw [addSpecs_cons] at hpre
        obtain ⟨result, hone, hpre⟩ := bind_eq_ok_iff.mp hpre
        rw [hone]
        exact ih.mpr ⟨pre, spec?', post, ids', c', rfl, hpre, hlast⟩

/-- The order is that of distinct ids, since an id that comes twice has been refused before. -/
theorem ofSpecs_eq_error_iff {specs : List (Option SegmentSpec)} :
    ofSpecs specs = .error e ↔ addSpecs [] (.empty .empty) specs = .error e := by
  unfold ofSpecs
  cases hadd : addSpecs [] (.empty .empty) specs with
  | error e' => simp [bind, Except.bind]
  | ok result =>
    obtain ⟨parts, -, hnodup, -, rfl⟩ := addSpecs_eq_ok_iff.mp hadd
    simp [bind, Except.bind, ListOrder.ofList_of_nodup hnodup, pure, Except.pure]

/-- What has been read without failure: distinct ids, each description understood. -/
theorem exists_addSpecs_iff :
    (∃ result, addSpecs [] (.empty .empty) (specs.map some) = .ok result) ↔
      (specs.map (·.id)).Nodup ∧ ∀ spec ∈ specs, ∃ seg, spec.toSegment = .ok seg := by
  rw [← SegmentSpec.exists_describe_iff]
  constructor
  · rintro ⟨result, hresult⟩
    obtain ⟨parts, hdescribe, hnodup, -, -⟩ := addSpecs_eq_ok_iff.mp hresult
    exact ⟨hdescribe.ids_eq ▸ hnodup, parts, hdescribe⟩
  · rintro ⟨hnodup, parts, hdescribe⟩
    refine ⟨_, addSpecs_eq_ok_iff.mpr ⟨parts, hdescribe, hdescribe.ids_eq ▸ hnodup, ?_, rfl⟩⟩
    exact fun _ _ => Std.ExtTreeMap.not_mem_empty

/-- **Why descriptions do not make up a collection**: the first that has an id of an earlier one, or
else cannot be read. -/
theorem ofSpecs_map_eq_error_iff :
    ofSpecs (specs.map some) = .error e ↔
      ∃ pre spec post, specs = pre ++ spec :: post ∧ (pre.map (·.id)).Nodup ∧
        (∀ earlier ∈ pre, ∃ seg, earlier.toSegment = .ok seg) ∧
        (spec.id ∈ pre.map (·.id) ∧ e = .repeatedId spec.id spec.source ∨
          spec.id ∉ pre.map (·.id) ∧ spec.toSegment = .error e) := by
  -- the ids that are there when a description is read are those of the earlier ones
  have hthere : ∀ {pre : List SegmentSpec} {ids' : List SegmentId} {c' : Collection} {id : SegmentId},
      addSpecs [] (.empty .empty) (pre.map some) = .ok (ids', c') →
        (id ∈ c'.segments ↔ id ∈ pre.map (·.id)) := by
    intro pre ids' c' id hpre
    obtain ⟨parts, hdescribe, -, -, hresult⟩ := addSpecs_eq_ok_iff.mp hpre
    obtain ⟨-, rfl⟩ := Prod.mk.inj hresult
    rw [mem_segments_putAll, hdescribe.ids_eq]
    exact or_iff_left Std.ExtTreeMap.not_mem_empty
  rw [ofSpecs_eq_error_iff, addSpecs_eq_error_iff]
  constructor
  · rintro ⟨_, _, _, ids', c', hsplit, hpre, hlast⟩
    obtain ⟨pre, rest, rfl, rfl, hrest⟩ := List.map_eq_append_iff.mp hsplit
    obtain ⟨spec, post, rfl, rfl, rfl⟩ := List.map_eq_cons_iff.mp hrest
    obtain ⟨hnodup, hread⟩ := exists_addSpecs_iff.mp ⟨_, hpre⟩
    rw [addSpecs_singleton_eq_error_iff, hthere hpre] at hlast
    exact ⟨pre, spec, post, rfl, hnodup, hread, hlast⟩
  · rintro ⟨pre, spec, post, rfl, hnodup, hread, hlast⟩
    obtain ⟨⟨ids', c'⟩, hpre⟩ := exists_addSpecs_iff.mpr ⟨hnodup, hread⟩
    refine ⟨pre.map some, some spec, post.map some, ids', c', by simp, hpre, ?_⟩
    rwa [addSpecs_singleton_eq_error_iff, hthere hpre]

/-- **The outcome of descriptions**, all of them there. They make up a collection iff their ids are
distinct and each can be read; it is ordered as they are listed, has their ids, and has under each id
what is read there. Otherwise the first description decides whose id is that of an earlier one or
that cannot be read, and where both hold the id is reported. That the ids repeat is never found out
by the order. -/
theorem ofSpecs_outcome (specs : List SegmentSpec) :
    ((∃ c, ofSpecs (specs.map some) = .ok c) ↔
      (specs.map (·.id)).Nodup ∧ ∀ spec ∈ specs, ∃ seg, spec.toSegment = .ok seg) ∧
    (∀ c, ofSpecs (specs.map some) = .ok c →
      (∃ list, c.order = .listed list ∧ list.ids = specs.map (·.id)) ∧
      (∀ id, id ∈ c.segments ↔ id ∈ specs.map (·.id)) ∧
      ∀ spec ∈ specs, ∃ r, c.segments[spec.id]? = some r ∧ spec.toSegment = .ok r.content) ∧
    (∀ e, ofSpecs (specs.map some) = .error e ↔
      ∃ pre spec post, specs = pre ++ spec :: post ∧ (pre.map (·.id)).Nodup ∧
        (∀ earlier ∈ pre, ∃ seg, earlier.toSegment = .ok seg) ∧
        (spec.id ∈ pre.map (·.id) ∧ e = .repeatedId spec.id spec.source ∨
          spec.id ∉ pre.map (·.id) ∧ spec.toSegment = .error e)) ∧
    (∀ id, ofSpecs (specs.map some) ≠ .error (.fault (.repeatedInOrder id))) ∧
    ∀ (id : SegmentId) (source : String), (SpecError.repeatedId id source).message =
      "duplicate segment id " ++ id.toNat.repr ++ " (" ++ source ++ ")" := by
  refine ⟨?success, ?content, fun e => ofSpecs_map_eq_error_iff, ?unreached, fun _ _ => rfl⟩
  case success =>
    rw [← exists_addSpecs_iff]
    constructor
    · rintro ⟨c, hc⟩
      obtain ⟨result, hresult, -⟩ := bind_eq_ok_iff.mp hc
      exact ⟨result, hresult⟩
    · rintro ⟨result, hresult⟩
      cases hc : ofSpecs (specs.map some) with
      | ok c => exact ⟨c, rfl⟩
      | error e => exact absurd (ofSpecs_eq_error_iff.mp hc) (by simp [hresult])
  case content =>
    intro c hc
    obtain ⟨parts, hdescribe, hmade⟩ := madeOf_of_ofSpecs hc
    refine ⟨⟨_, hmade.order_eq, (ListOrder.ids_ofDistinct _).trans hdescribe.ids_eq⟩,
      fun id => ?_, fun spec hspec => ?_⟩
    · rw [hmade.mem_segments_iff, hdescribe.ids_eq]
    · obtain ⟨seg, hpart, hread⟩ := hdescribe.exists_mem hspec
      obtain ⟨r, hr, rfl⟩ := Option.map_eq_some_iff.mp ((hmade.content_iff spec.id seg).mpr hpart)
      exact ⟨r, hr, hread⟩
  case unreached =>
    intro id h
    obtain ⟨_, spec, _, -, -, -, ⟨-, h⟩ | ⟨-, h⟩⟩ := ofSpecs_map_eq_error_iff.mp h
    · cases h
    · exact spec.toSegment_ne_repeatedInOrder id h

/-- Segment 1, which has a label, and the blank segment 0 make up a collection in this order. A
description that has the id of the blank one, and an unknown word besides, is refused for the id. -/
theorem ofSpecs_outcome_beside_blank :
    (∃ c list r, ofSpecs [some { SegmentSpec.blank with id := 1, labels := [some ⟨"ax-mp", 3⟩] },
        some .blank] = .ok c ∧
      c.order = .listed list ∧ list.ids = [1, 0] ∧ c.segments[(1 : SegmentId)]? = some r ∧
      r.content = { Segment.empty with labels := [⟨"ax-mp", 3⟩] }) ∧
    ofSpecs [some .blank, some { SegmentSpec.blank with
        source := "b.json", symbols := [some ⟨"x", "class", 0, 0⟩] }] =
      .error (.repeatedId 0 "b.json") := by
  constructor
  · obtain ⟨hsuccess, hcontent, -⟩ := ofSpecs_outcome
      [{ SegmentSpec.blank with id := 1, labels := [some ⟨"ax-mp", 3⟩] }, .blank]
    simp only [List.forall_mem_cons] at hsuccess hcontent
    obtain ⟨c, hc⟩ := hsuccess.mpr ⟨by decide, ⟨_, rfl⟩, ⟨_, rfl⟩, nofun⟩
    obtain ⟨⟨list, hlist, hids⟩, -, ⟨r, hr, hread⟩, -⟩ := hcontent c hc
    exact ⟨c, list, r, hc, hlist, hids, hr, (Except.ok.inj hread).symm⟩
  · obtain ⟨-, -, hfailure, -⟩ := ofSpecs_outcome [.blank,
      { SegmentSpec.blank with source := "b.json", symbols := [some ⟨"x", "class", 0, 0⟩] }]
    refine (hfailure _).mpr ⟨[_], _, [], rfl, by decide, ?_, .inl ⟨by decide, rfl⟩⟩
    exact List.forall_mem_singleton.mpr ⟨_, rfl⟩

end Collection

end NameIndex
