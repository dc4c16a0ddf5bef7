import NameIndex.Proofs.Storage
import NameIndex.Proofs.YamlLibrary

/-!
# What a file holds, and its two sides

A file holds a value of its format, and the same value is read in three ways: as a collection, which
looks at the key `segments` and at nothing else; as a segment, which looks at all other keys that it
knows; and as either layout, which looks at both. All three go through the keys at the top one after
the other, and each key changes one thing. So the reading of either layout is the reading as a
collection and the reading as a segment side by side (`FileValue.file?_eq`).

This holds of both formats for the same reason, which is said once: what a list of rules does with a
key is `change`, a rule for either layout is a rule of one side that leaves the other as it is, and
the sides do not share a key (`Joins.change_eq`, `foldlM_sides`).

Of the library that knows YAML it is only used how it decodes.

## Main definitions

* `FileValue` — what a file holds, or a value inside it.
* `FileValue.set?`, `FileValue.segment?`, `FileValue.file?` — the three readings.

## Main result

* `FileValue.file?_eq` — either layout is a collection and a segment side by side.
-/

namespace NameIndex

open NameIndex.Text

/-! ## §1 Values in files -/

/-- What a file holds, or a value inside it. -/
inductive FileValue (yaml : Yaml.Library) where
  | json (j : Json)
  | yaml (node : yaml.Node)

namespace FileValue

/-- What the content of a file of a given name holds. -/
def ofContent? (yaml : Yaml.Library) (name : String) (content : Content) :
    Option (FileValue yaml) :=
  match FileFormat.ofName name with
  | .json => (Json.parse? content.chars).map .json
  | .yaml => (yaml.parse content).map .yaml

/-- What a file of the tree holds. -/
def load (yaml : Yaml.Library) (tree : FileTree) (name : String) :
    Except SpecFileError (FileValue yaml) := do
  match ofContent? yaml name (← readContent tree name) with
  | none => .error (.malformed (FileFormat.ofName name) name)
  | some doc => .ok doc

variable {yaml : Yaml.Library}

theorem load_eq_ok_iff {tree : FileTree} {name : String} {doc : FileValue yaml} :
    load yaml tree name = .ok doc ↔
      ∃ content, tree.read name = .ok content ∧ ofContent? yaml name content = some doc := by
  unfold load readContent
  cases tree.read name with
  | error cause => simp [bind, Except.bind]
  | ok content => cases hdoc : ofContent? yaml name content <;> simp [bind, Except.bind, hdoc]

/-- The collection that a value describes. -/
def set? : FileValue yaml → Option SetSpec
  | .json j => SetSpec.ofJson? j
  | .yaml node => SetSpec.ofYaml? yaml node

/-- The segment that the fields at the top describe. -/
def segment? : FileValue yaml → Option SegmentSpec
  | .json j => (SegmentSpec.overlay .blank j).map SegmentSpec.Draft.shown
  | .yaml node => (SegmentSpec.decode yaml node).map (·.getD .blank)

/-- The file that a value describes, in either layout. -/
def file? : FileValue yaml → Option FileSpec
  | .json j => FileSpec.ofJson? j
  | .yaml node => FileSpec.ofYaml? yaml node

/-- A file is decoded by parsing its content and then reading what it holds. -/
theorem decodeContent_eq {α : Type} (read : FileValue yaml → Option α) (name : String)
    (content : Content) :
    decodeContent yaml name (fun j => read (.json j)) (fun node => read (.yaml node)) content =
      match ofContent? yaml name content with
      | none => .error (.malformed (FileFormat.ofName name) name)
      | some doc => (read doc).elim (.error (.unfit (FileFormat.ofName name) name)) .ok := by
  unfold decodeContent ofContent?
  cases FileFormat.ofName name with
  | json => cases Json.parse? content.chars <;> rfl
  | yaml => cases yaml.parse content <;> rfl

end FileValue

/-- What a reading makes of a file; a file of which it makes nothing is unfit. -/
def fitted {α : Type} (name : String) (x? : Option α) : Except SpecFileError α :=
  x?.elim (.error (.unfit (FileFormat.ofName name) name)) .ok

theorem fitted_eq_ok_iff {α : Type} {name : String} {x? : Option α} {a : α} :
    fitted name x? = .ok a ↔ x? = some a := by
  cases x? <;> simp [fitted]

theorem fitted_eq_error_iff {α : Type} {name : String} {x? : Option α} {e : SpecFileError} :
    fitted name x? = .error e ↔ x? = none ∧ .unfit (FileFormat.ofName name) name = e := by
  cases x? <;> simp [fitted]

section

variable (yaml : Yaml.Library) (tree : FileTree) (name : String)

/-- Each reader looks at what the file holds, and then reads it in its own way. -/
theorem readContent_bind_decodeContent {α : Type} (read : FileValue yaml → Option α) :
    (readContent tree name >>= decodeContent yaml name (fun j => read (.json j)) fun node =>
        read (.yaml node)) =
      FileValue.load yaml tree name >>= fun doc => fitted name (read doc) := by
  unfold FileValue.load
  rw [bind_assoc]
  congr 1
  funext content
  rw [FileValue.decodeContent_eq]
  cases FileValue.ofContent? yaml name content <;> rfl

theorem SetSpec.load_eq :
    SetSpec.load yaml tree name =
      FileValue.load yaml tree name >>= fun doc => fitted name doc.set? :=
  readContent_bind_decodeContent yaml tree name FileValue.set?

theorem SegmentSpec.load_eq :
    SegmentSpec.load yaml tree name =
      FileValue.load yaml tree name >>= fun doc => fitted name doc.file? >>= fun file =>
        (file.segments.getD [some file.segment]).mapM (fillSource name) := by
  rw [← bind_assoc, ← readContent_bind_decodeContent, bind_assoc]
  rfl

end

/-! ## §2 Rules of two sides -/

section Sides

variable {File Set Segment ν ε : Type} {file : Segment → Set → File}

/-- What a list of rules does with a key: the rule for it makes a change, and without one there is
none. -/
def change {σ : Type} (rules : List (String × (σ → ν → Option σ))) (isKey : String → Bool) (s : σ)
    (v : ν) : Option σ :=
  (rules.find? fun f => isKey f.1).elim (some s) fun f => f.2 s v

/-- **How rules of two sides become rules of the whole**: each has the name that it had, changes its
own side, and leaves the other as it is. The second side has one rule. -/
structure Joins (file : Segment → Set → File)
    (lift : String × (Segment → ν → Option Segment) → String × (File → ν → Option File))
    (last : String × (File → ν → Option File)) (only : String × (Set → ν → Option Set)) : Prop where
  name : ∀ f, (lift f).1 = f.1
  change : ∀ f b a v, (lift f).2 (file b a) v = (f.2 b v).map fun b' => file b' a
  lastName : last.1 = only.1
  lastChange : ∀ b a v, last.2 (file b a) v = (only.2 a v).map (file b)

/-- **One key** changes one side: that of the last rule, or that of all others. -/
theorem Joins.change_eq {rules : List (String × (Segment → ν → Option Segment))}
    {lift : String × (Segment → ν → Option Segment) → String × (File → ν → Option File)}
    {last : String × (File → ν → Option File)} {only : String × (Set → ν → Option Set)}
    (h : Joins file lift last only) {isKey : String → Bool}
    (hrules : isKey only.1 = true → ∀ f ∈ rules, isKey f.1 = false) (b : Segment) (a : Set) (v : ν) :
    NameIndex.change (rules.map lift ++ [last]) isKey (file b a) v =
      (NameIndex.change rules isKey b v).bind fun b' =>
        (NameIndex.change [only] isKey a v).map (file b') := by
  have hcomp : (fun f => isKey f.1) ∘ lift = fun f => isKey f.1 := by
    funext f
    simp [h.name]
  unfold NameIndex.change
  rw [List.find?_append, List.find?_map, hcomp, List.find?_singleton, List.find?_singleton, h.lastName]
  cases hkey : isKey only.1 with
  | true =>
    -- no rule of the first side comes before
    have hnone : rules.find? (fun f => isKey f.1) = none := by
      simpa [List.find?_eq_none] using hrules hkey
    simp [hnone, h.lastChange]
  | false =>
    cases rules.find? fun f => isKey f.1 with
    | none => simp
    | some f =>
      show (lift f).2 (file b a) v = (f.2 b v).bind fun b' => some (file b' a)
      rw [h.change, Option.map_eq_bind]
      rfl

/-- **All keys**: if each changes the sides side by side, so do they one after the other. -/
theorem foldlM_sides {step : File → ε → Option File} {stepSegment : Segment → ε → Option Segment}
    {stepSet : Set → ε → Option Set}
    (hstep : ∀ b a e, step (file b a) e =
      (stepSegment b e).bind fun b' => (stepSet a e).map (file b'))
    (entries : List ε) (b : Segment) (a : Set) :
    entries.foldlM step (file b a) = (entries.foldlM stepSegment b).bind fun b' =>
      (entries.foldlM stepSet a).map (file b') := by
  induction entries generalizing b a with
  | nil => rfl
  | cons e entries ih =>
    simp only [List.foldlM_cons, Option.bind_eq_bind, hstep]
    cases stepSegment b e with
    | none => rfl
    | some b' =>
      cases stepSet a e with
      | some a' => exact ih b' a'
      | none =>
        -- the second side fails here, so nothing comes of what the first side goes on to
        cases hrest : entries.foldlM stepSegment b' with
        | none => simp [hrest]
        | some b'' => simp [hrest]

end Sides

/-! ## §3 The rules of either layout -/

namespace FileSpec

/-! ### Members of an object -/

theorem member_eq_change {σ : Type} (rules : List (Overlay.FieldRule σ)) (s : σ) (m : String × Json) :
    Overlay.member rules s m = change rules (Fold.same · m.1) s m.2 := by
  unfold Overlay.member change
  cases rules.find? fun f => Fold.same f.1 m.1 with
  | none => rfl
  | some f => rfl

theorem not_same_of_isList {name : String} (h : Fold.same "segments" name = true) :
    ∀ f ∈ SegmentSpec.fields, Fold.same f.1 name = false := by
  have hfields : ∀ f ∈ SegmentSpec.fields, Fold.chars f.1 ≠ Fold.chars "segments" := by decide
  intro f hf
  rw [Fold.same, beq_iff_eq] at h
  rw [Fold.same, ← h, beq_eq_false_iff_ne]
  exact hfields f hf

/-- The rule of a collection. -/
abbrev jsonListRule : Overlay.FieldRule SetSpec.Draft :=
  Overlay.field "segments" (·.segments) (fun s v => { s with segments := v }) SegmentSpec.overlayList

/-- The rules of either layout. -/
abbrev jsonRules : List (Overlay.FieldRule FileSpec.Draft) :=
  SegmentSpec.fields.map ofSegmentField ++
    [Overlay.field "segments" (·.segments) (fun s v => { s with segments := v })
      SegmentSpec.overlayList]

theorem joins_json : Joins (fun b (a : SetSpec.Draft) => Draft.mk b a.segments) ofSegmentField
    (Overlay.field "segments" (·.segments) (fun s v => { s with segments := v })
      SegmentSpec.overlayList) jsonListRule := by
  refine ⟨fun _ => rfl, fun _ _ _ _ => rfl, rfl, fun b a v => ?_⟩
  simp [Overlay.field, Option.map_map, Function.comp_def]

theorem overlay_eq (j : Json) :
    overlay .blank j = (SegmentSpec.overlay .blank j).bind fun segment =>
      (SetSpec.overlay .blank j).map fun set => ⟨segment, set.segments⟩ := by
  cases j with
  | object members =>
    have hstep : ∀ (b : SegmentSpec.Draft) (a : SetSpec.Draft) (m : String × Json),
        Overlay.member jsonRules ⟨b, a.segments⟩ m =
          (Overlay.member SegmentSpec.fields b m).bind fun b' =>
            (Overlay.member [jsonListRule] a m).map fun a' => ⟨b', a'.segments⟩ := by
      intro b a m
      rw [member_eq_change, member_eq_change, member_eq_change]
      exact joins_json.change_eq not_same_of_isList b a m.2
    exact foldlM_sides hstep members .blank .blank
  | _ => rfl

/-! ### Entries of a mapping -/

theorem entry_eq_change {Node σ : Type} (rules : List (Yaml.FieldRule Node σ)) (s : σ)
    (e : String × Node) : Yaml.entry rules s e = change rules (fun name => name = e.1) s e.2 := by
  unfold Yaml.entry change
  cases rules.find? fun f => f.1 = e.1 with
  | none => rfl
  | some f => rfl

variable {yaml : Yaml.Library}

/-- The rule of a collection. -/
abbrev yamlListRule (yaml : Yaml.Library) : Yaml.FieldRule yaml.Node SetSpec :=
  Yaml.field "segments" (SegmentSpec.decodeList yaml) fun s v => { s with segments := v }

theorem joins_yaml (hdecodes : yaml.Decodes) :
    Joins (fun b (a : SetSpec) => FileSpec.mk b a.segments) ofSegmentYamlField
      (Yaml.field "segments" (yaml.pointer (SegmentSpec.decodeList yaml)) fun s v =>
        { s with segments := v.map (·.getD []) }) (yamlListRule yaml) := by
  refine ⟨fun _ => rfl, fun _ _ _ _ => rfl, rfl, fun b a v => ?_⟩
  simp only [Yaml.field, SegmentSpec.decodeList, hdecodes.pointer_eq, hdecodes.slice_eq]
  rw [Yaml.valueOf]
  cases hnull : yaml.isNull v with
  | true => simp [Yaml.itemsOf, hnull]
  | false => simp [Yaml.itemsOf, hnull, Option.map_bind, Function.comp_def]

/-- A field of the whole comes once if it does on its side. -/
theorem namesOnce_yamlFields (entries : List (String × yaml.Node)) :
    Yaml.namesOnce (yamlFields yaml) entries =
      (Yaml.namesOnce (SegmentSpec.yamlFields yaml) entries &&
        Yaml.namesOnce [yamlListRule yaml] entries) := by
  rw [yamlFields, Yaml.namesOnce, List.all_append, List.all_map]
  rfl

/-- A structure from a node that may say nothing. -/
theorem getD_recordOf {σ : Type} (fields : List (Yaml.FieldRule yaml.Node σ)) (s : σ)
    (node : yaml.Node) :
    (Yaml.recordOf yaml.isNull yaml.entries? fields s node).map (·.getD s) =
      if yaml.isNull node then some s
      else (yaml.entries? node).bind fun entries =>
        if Yaml.namesOnce fields entries then entries.foldlM (Yaml.entry fields) s else none := by
  unfold Yaml.recordOf
  split
  · rfl
  · rw [Option.map_bind]
    congr 1
    funext entries
    rw [Function.comp_apply]
    split
    · cases entries.foldlM (Yaml.entry fields) s <;> rfl
    · rfl

theorem ofYaml?_eq (hdecodes : yaml.Decodes) (node : yaml.Node) :
    ofYaml? yaml node = ((SegmentSpec.decode yaml node).map (·.getD .blank)).bind fun segment =>
      (SetSpec.ofYaml? yaml node).map fun set => ⟨segment, set.segments⟩ := by
  have hstep : ∀ (b : SegmentSpec) (a : SetSpec) (e : String × yaml.Node),
      Yaml.entry (yamlFields yaml) ⟨b, a.segments⟩ e =
        (Yaml.entry (SegmentSpec.yamlFields yaml) b e).bind fun b' =>
          (Yaml.entry [yamlListRule yaml] a e).map fun a' => ⟨b', a'.segments⟩ := by
    intro b a e
    have hfields : ∀ f ∈ SegmentSpec.yamlFields yaml, f.1 ≠ "segments" := by
      simp [SegmentSpec.yamlFields, Yaml.records, Yaml.field]
    rw [entry_eq_change, entry_eq_change, entry_eq_change]
    apply (joins_yaml hdecodes).change_eq
    intro hkey
    have hkey : "segments" = e.1 := of_decide_eq_true hkey
    simpa [← hkey] using hfields
  rw [ofYaml?, SegmentSpec.decode, SetSpec.ofYaml?, hdecodes.record_eq, hdecodes.record_eq,
    hdecodes.record_eq, getD_recordOf, getD_recordOf, getD_recordOf, SetSpec.yamlFields]
  cases yaml.isNull node with
  | true => rfl
  | false =>
    cases yaml.entries? node with
    | none => rfl
    | some entries =>
      have hsides : entries.foldlM (Yaml.entry (yamlFields yaml)) .blank = _ :=
        foldlM_sides hstep entries .blank .blank
      simp only [Bool.false_eq_true, if_false, Option.bind_some, namesOnce_yamlFields, hsides]
      -- a field that comes twice makes its side unfit, and with it the whole
      cases Yaml.namesOnce (SegmentSpec.yamlFields yaml) entries with
      | false => rfl
      | true =>
        cases Yaml.namesOnce [yamlListRule yaml] entries with
        | true => rfl
        | false => simp

end FileSpec

namespace FileValue

/-- **Either layout** is a collection and a segment side by side. -/
theorem file?_eq {yaml : Yaml.Library} (hdecodes : yaml.Decodes) (doc : FileValue yaml) :
    doc.file? = doc.segment?.bind fun segment =>
      doc.set?.map fun set => ⟨segment, set.segments⟩ := by
  cases doc with
  | yaml node => exact FileSpec.ofYaml?_eq hdecodes node
  | json j =>
    simp only [file?, segment?, set?, FileSpec.ofJson?, SetSpec.ofJson?, FileSpec.overlay_eq]
    cases SegmentSpec.overlay .blank j with
    | none => rfl
    | some segment => cases SetSpec.overlay .blank j <;> rfl

end FileValue

end NameIndex
