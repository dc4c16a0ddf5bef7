import NameIndex.Proofs.JsonText
import NameIndex.Proofs.Storage
import NameIndex.Yaml.Fragment

/-!
# Descriptions kept in JSON files

A collection that is stored in a JSON file is loaded from it as it was: every number, every text, and
every element that is missing. Only the list of segments itself is always there afterwards, so that
a collection without a list comes back with an empty one.

Members are laid over a structure one after the other. A member that is left out when its field is
blank makes no difference, because the structure is blank where nothing has been laid over it; so
the members that are written for a structure, laid over the blank one, give the structure
(`Overlay.Gives`). Every list is read but once, so nothing is ever behind it.

## Main result

* `SetSpec.load_store_json` — a stored collection is loaded again.
-/

namespace NameIndex

open NameIndex.Text

/-! ## §1 Drafts with nothing behind their lists -/

namespace Buffer

variable {α : Type}

/-- The list with nothing behind it. -/
def ofList (xs : List α) : Buffer α := ⟨xs, []⟩

theorem refilled_empty (xs : List α) : Buffer.empty.refilled xs = ofList xs := by
  unfold refilled
  split
  · next h => rw [List.isEmpty_iff.mp h]; rfl
  · rw [show Buffer.empty.all = ([] : List α) from rfl, List.drop_nil]; rfl

end Buffer

/-- The constraint as a draft. -/
def DisjointSpec.draft (s : DisjointSpec) : DisjointSpec.Draft where
  vars := s.vars.map .ofList
  index := s.index

/-- The segment as a draft. -/
def SegmentSpec.draft (s : SegmentSpec) : SegmentSpec.Draft where
  id := s.id
  source := s.source
  symbols := .ofList s.symbols
  localVars := .ofList s.localVars
  labels := .ofList s.labels
  floats := .ofList s.floats
  disjoints := .ofList (s.disjoints.map (Option.map DisjointSpec.draft))

/-- A draft shows what it was made from. -/
theorem DisjointSpec.shown_draft (s : DisjointSpec) : s.draft.shown = s := by
  have hlist : (fun b => b.elements) ∘ Buffer.ofList = (id : List String → List String) := rfl
  simp [draft, Draft.shown, hlist]

theorem SegmentSpec.shown_draft (s : SegmentSpec) : s.draft.shown = s := by
  have hdisjoints : DisjointSpec.Draft.shown ∘ DisjointSpec.draft = fun s => s :=
    funext DisjointSpec.shown_draft
  simp [draft, Draft.shown, Buffer.ofList, hdisjoints]

theorem SegmentSpec.shownAll_ofList (specs : List (Option SegmentSpec)) :
    Draft.shownAll (.ofList (specs.map (Option.map draft))) = specs := by
  have hsegments : Draft.shown ∘ draft = fun s => s := funext shown_draft
  simp [Draft.shownAll, Buffer.ofList, hsegments]

/-! ## §2 Fields of a structure -/

namespace Overlay

variable {σ α : Type} {rules : List (FieldRule σ)} {s s' s'' : σ} {get : σ → α} {set : σ → α → σ}
  {name : String}

/-- The names of the fields are told apart, also without regard to letter case. -/
def Distinct (rules : List (FieldRule σ)) : Prop :=
  (rules.map Prod.fst).Pairwise fun a b => Fold.same a b = false

instance : Decidable (Distinct rules) :=
  inferInstanceAs (Decidable (List.Pairwise _ _))

/-- A member changes the field that it names. -/
theorem member_of_mem (hrules : Distinct rules) {f : FieldRule σ} (hf : f ∈ rules) (s : σ)
    (j : Json) : member rules s (f.1, j) = f.2 s j := by
  have hfind : rules.find? (fun g => Fold.same g.1 f.1) = some f :=
    find?_of_distinct (fun _ => by simp [Fold.same]) hrules hf
  simp [member, hfind]

/-- The members, laid over the first structure, give the second. -/
def Gives (rules : List (FieldRule σ)) (s : σ) (members : List (String × Json)) (s' : σ) : Prop :=
  members.foldlM (member rules) s = some s'

theorem gives_nil : Gives rules s [] s := rfl

theorem Gives.append {ms ms' : List (String × Json)} (h : Gives rules s ms s')
    (h' : Gives rules s' ms' s'') : Gives rules s (ms ++ ms') s'' := by
  unfold Gives at *
  rw [List.foldlM_append, h]
  exact h'

/-- A member gives the structure with what was read into its field. -/
theorem gives_cons {lay : Overlay α} {ms : List (String × Json)} {j : Json} {v : α}
    (hrules : Distinct rules) (hf : field name get set lay ∈ rules) (hread : lay (get s) j = some v)
    (hrest : Gives rules (set s v) ms s') : Gives rules s ((name, j) :: ms) s' := by
  have hmember := member_of_mem hrules hf s j
  simp only [field, hread, Option.map_some] at hmember
  unfold Gives at *
  rw [List.foldlM_cons, hmember]
  exact hrest

/-- A structure is read from the object whose members give it. -/
theorem fields_of_gives {ms : List (String × Json)} (hrules : Distinct rules)
    (h : Distinct rules → Gives rules s ms s') : fields rules s (.object ms) = some s' :=
  h hrules

/-! ### What is written for a field reads back -/

theorem int_repr (old n : Int32) : int old (.number n.toInt.repr) = some n := by
  simp [int, Numeral.int?_repr, Numeral.int32?_toInt]

theorem word_repr (old n : UInt32) : word old (.number n.toNat.repr) = some n := by
  rw [word, Numeral.nat?_repr, Option.bind_some, Numeral.word32?_toNat]

theorem items_map {β : Type} {fresh : β} {item : Overlay β} {write : α → Json} {result : α → β}
    (h : ∀ x, item fresh (write x) = some (result x)) (xs : List α) :
    items fresh item [] (xs.map write) = some (xs.map result) := by
  induction xs with
  | nil => rfl
  | cons x xs ih => simp [items, h, ih]

/-- A list that is read for the first time. -/
theorem list?_map {β : Type} {fresh : β} {item : Overlay β} {write : α → Json} {result : α → β}
    (h : ∀ x, item fresh (write x) = some (result x)) (xs : List α) (old : Option (Buffer β))
    (hold : old.getD .empty = .empty) :
    list? fresh item old (.array (xs.map write)) = some (some (.ofList (xs.map result))) := by
  have hitems := items_map h xs
  simp only [list?, hold, ← Buffer.refilled_empty]
  rw [show Buffer.empty.all = ([] : List β) from rfl, hitems, Option.map_some]

theorem optional_getD {β : Type} {fresh : β} {whole : Overlay β} {write : α → Json} {result : α → β}
    (h : ∀ x, whole fresh (write x) = some (result x)) (hobject : ∀ x, write x ≠ .null)
    (x : Option α) :
    optional fresh whole none ((x.map write).getD .null) = some (x.map result) := by
  cases x with
  | none => rfl
  | some x =>
    have hne := hobject x
    simp only [Option.map_some, Option.getD_some]
    unfold optional
    split
    · next hnull => exact absurd hnull hne
    · simp [h]

variable (hrules : Distinct rules)
include hrules

/-- A number that is left out when it is zero. -/
theorem gives_int {get : σ → Int32} {set : σ → Int32 → σ} (hf : field name get set int ∈ rules)
    (hblank : set s 0 = s) (n : Int32) : Gives rules s (SpecMember.int name n) (set s n) := by
  unfold SpecMember.int
  split
  · next hzero =>
    rw [hzero, hblank]
    exact gives_nil
  · exact gives_cons hrules hf (int_repr _ n) gives_nil

/-- A text that is left out when it is empty. -/
theorem gives_text {get : σ → String} {set : σ → String → σ} (hf : field name get set text ∈ rules)
    (hblank : set s "" = s) (t : String) : Gives rules s (SpecMember.text name t) (set s t) := by
  unfold SpecMember.text
  split
  · next hempty =>
    rw [hempty, hblank]
    exact gives_nil
  · exact gives_cons hrules hf rfl gives_nil

/-- A list of structures, some of which may be missing, that is left out when it is empty; its
elements may be read as something else. -/
theorem gives_results {β : Type} {get : σ → Buffer (Option β)} {set : σ → Buffer (Option β) → σ}
    {fresh : β} {whole : Overlay β} {write : α → Json} {result : α → β}
    (hf : field name get set (optionals fresh whole) ∈ rules)
    (hwrite : ∀ x, whole fresh (write x) = some (result x)) (hobject : ∀ x, write x ≠ .null)
    (hnone : get s = .empty) (hblank : set s .empty = s) (xs : List (Option α)) :
    Gives rules s (SpecMember.list name write xs) (set s (.ofList (xs.map (Option.map result)))) := by
  unfold SpecMember.list
  split
  · next hempty =>
    rw [List.isEmpty_iff.mp hempty]
    exact hblank.symm ▸ gives_nil
  · have hlist := list?_map (optional_getD hwrite hobject) xs (some (get s)) hnone
    exact gives_cons hrules hf (by simp [optionals, list, hlist]) gives_nil

theorem gives_list {get : σ → Buffer (Option α)} {set : σ → Buffer (Option α) → σ} {fresh : α}
    {whole : Overlay α} {write : α → Json} (hf : field name get set (optionals fresh whole) ∈ rules)
    (hwrite : ∀ x, whole fresh (write x) = some x) (hobject : ∀ x, write x ≠ .null)
    (hnone : get s = .empty) (hblank : set s .empty = s) (xs : List (Option α)) :
    Gives rules s (SpecMember.list name write xs) (set s (.ofList xs)) := by
  have hgives := gives_results hrules hf hwrite hobject hnone hblank xs
  have hself : xs.map (Option.map fun x => x) = xs := by simp
  rwa [hself] at hgives

end Overlay

/-! ## §3 The structures -/

/-! In each proof the members are followed from the blank structure on; a rule is named by its place
in the list of rules. -/

open Overlay in
theorem SymbolSpec.overlay_toJson (s : SymbolSpec) : overlay .blank s.toJson = some s := by
  refine fields_of_gives (by decide) fun hrules => ?_
  have hwords : Gives _ blank [("name", .string s.name), ("type", .string s.type)]
      ⟨s.name, s.type, 0, 0⟩ :=
    gives_cons hrules (.head _) rfl (gives_cons hrules (.tail _ (.head _)) rfl gives_nil)
  have hindex : Gives _ (mk s.name s.type 0 0) (SpecMember.int "index" s.index)
      ⟨s.name, s.type, s.index, 0⟩ :=
    gives_int hrules (.tail _ (.tail _ (.head _))) rfl s.index
  have hordinal : Gives _ ⟨s.name, s.type, s.index, 0⟩ (SpecMember.int "ordinal" s.ordinal) s :=
    gives_int hrules (.tail _ (.tail _ (.tail _ (.head _)))) rfl s.ordinal
  exact (hwords.append hindex).append hordinal

open Overlay in
theorem LocalVarSpec.overlay_toJson (s : LocalVarSpec) : overlay .blank s.toJson = some s := by
  refine fields_of_gives (by decide) fun hrules => ?_
  have hname : Gives _ blank [("name", .string s.name)] ⟨s.name, 0, 0⟩ :=
    gives_cons hrules (.head _) rfl gives_nil
  have hindex : Gives _ (mk s.name 0 0) (SpecMember.int "index" s.index) ⟨s.name, s.index, 0⟩ :=
    gives_int hrules (.tail _ (.head _)) rfl s.index
  have hordinal : Gives _ ⟨s.name, s.index, 0⟩ (SpecMember.int "ordinal" s.ordinal) s :=
    gives_int hrules (.tail _ (.tail _ (.head _))) rfl s.ordinal
  exact (hname.append hindex).append hordinal

open Overlay in
theorem LabelSpec.overlay_toJson (s : LabelSpec) : overlay .blank s.toJson = some s := by
  refine fields_of_gives (by decide) fun hrules => ?_
  have hlabel : Gives _ blank [("label", .string s.label)] ⟨s.label, 0⟩ :=
    gives_cons hrules (.head _) rfl gives_nil
  have hindex : Gives _ ⟨s.label, 0⟩ (SpecMember.int "index" s.index) s :=
    gives_int hrules (.tail _ (.head _)) rfl s.index
  exact hlabel.append hindex

open Overlay in
theorem FloatSpec.overlay_toJson (s : FloatSpec) : overlay .blank s.toJson = some s := by
  refine fields_of_gives (by decide) fun hrules => ?_
  have hwords : Gives _ blank
      [("name", .string s.name), ("label", .string s.label), ("typecode", .string s.typecode)]
      ⟨s.name, s.label, s.typecode, 0⟩ :=
    gives_cons hrules (.head _) rfl (gives_cons hrules (.tail _ (.head _)) rfl
      (gives_cons hrules (.tail _ (.tail _ (.head _))) rfl gives_nil))
  have hindex : Gives _ ⟨s.name, s.label, s.typecode, 0⟩ (SpecMember.int "index" s.index) s :=
    gives_int hrules (.tail _ (.tail _ (.tail _ (.head _)))) rfl s.index
  exact hwords.append hindex

open Overlay in
theorem DisjointSpec.overlay_toJson (s : DisjointSpec) : overlay .blank s.toJson = some s.draft := by
  refine fields_of_gives (by decide) fun hrules => ?_
  have hindex : Gives _ ⟨s.vars.map .ofList, 0⟩ (SpecMember.int "index" s.index) s.draft :=
    gives_int hrules (.tail _ (.head _)) rfl s.index
  cases hvars : s.vars with
  | none =>
    -- absent variables are written as nothing, and read as absent again
    have hnone : Gives _ Draft.blank [("vars", .null)] ⟨none, 0⟩ :=
      gives_cons hrules (.head _) rfl gives_nil
    exact hnone.append (by simpa [hvars] using hindex)
  | some vars =>
    have hread : list? "" text none (.array (vars.map .string)) = some (some (.ofList (vars.map id))) :=
      list?_map (fun _ => rfl) vars none rfl
    rw [List.map_id] at hread
    have hsome : Gives _ Draft.blank [("vars", .array (vars.map .string))] ⟨some (.ofList vars), 0⟩ :=
      gives_cons hrules (.head _) hread gives_nil
    exact hsome.append (by simpa [hvars] using hindex)

open Overlay in
theorem SegmentSpec.overlay_toJson (s : SegmentSpec) : overlay .blank s.toJson = some s.draft := by
  refine fields_of_gives (by decide) fun hrules => ?_
  -- each field is laid over a draft that knows those before it and is blank from there on
  have hid : Gives fields Draft.blank [("id", .number s.id.toNat.repr)]
      ⟨s.id, "", .empty, .empty, .empty, .empty, .empty⟩ :=
    gives_cons hrules (.head _) (word_repr _ _) gives_nil
  have hsource : Gives fields ⟨s.id, "", .empty, .empty, .empty, .empty, .empty⟩
      (SpecMember.text "source" s.source)
      ⟨s.id, s.source, .empty, .empty, .empty, .empty, .empty⟩ :=
    gives_text hrules (.tail _ (.head _)) rfl s.source
  have hsymbols : Gives fields ⟨s.id, s.source, .empty, .empty, .empty, .empty, .empty⟩
      (SpecMember.list "symbols" SymbolSpec.toJson s.symbols)
      ⟨s.id, s.source, .ofList s.symbols, .empty, .empty, .empty, .empty⟩ :=
    gives_list hrules (.tail _ (.tail _ (.head _))) SymbolSpec.overlay_toJson
      (fun _ => Json.noConfusion) rfl rfl s.symbols
  have hlocalVars : Gives fields
      ⟨s.id, s.source, .ofList s.symbols, .empty, .empty, .empty, .empty⟩
      (SpecMember.list "localVars" LocalVarSpec.toJson s.localVars)
      ⟨s.id, s.source, .ofList s.symbols, .ofList s.localVars, .empty, .empty, .empty⟩ :=
    gives_list hrules (.tail _ (.tail _ (.tail _ (.head _)))) LocalVarSpec.overlay_toJson
      (fun _ => Json.noConfusion) rfl rfl s.localVars
  have hlabels : Gives fields
      ⟨s.id, s.source, .ofList s.symbols, .ofList s.localVars, .empty, .empty, .empty⟩
      (SpecMember.list "labels" LabelSpec.toJson s.labels)
      ⟨s.id, s.source, .ofList s.symbols, .ofList s.localVars, .ofList s.labels, .empty, .empty⟩ :=
    gives_list hrules (.tail _ (.tail _ (.tail _ (.tail _ (.head _))))) LabelSpec.overlay_toJson
      (fun _ => Json.noConfusion) rfl rfl s.labels
  have hfloats : Gives fields
      ⟨s.id, s.source, .ofList s.symbols, .ofList s.localVars, .ofList s.labels, .empty, .empty⟩
      (SpecMember.list "floats" FloatSpec.toJson s.floats)
      ⟨s.id, s.source, .ofList s.symbols, .ofList s.localVars, .ofList s.labels, .ofList s.floats,
        .empty⟩ :=
    gives_list hrules (.tail _ (.tail _ (.tail _ (.tail _ (.tail _ (.head _))))))
      FloatSpec.overlay_toJson (fun _ => Json.noConfusion) rfl rfl s.floats
  have hdisjoints : Gives fields
      ⟨s.id, s.source, .ofList s.symbols, .ofList s.localVars, .ofList s.labels, .ofList s.floats,
        .empty⟩
      (SpecMember.list "globalDvs" DisjointSpec.toJson s.disjoints) s.draft :=
    gives_results hrules (.tail _ (.tail _ (.tail _ (.tail _ (.tail _ (.tail _ (.head _)))))))
      DisjointSpec.overlay_toJson (fun _ => Json.noConfusion) rfl rfl s.disjoints
  exact (((((hid.append hsource).append hsymbols).append hlocalVars).append hlabels).append
    hfloats).append hdisjoints

/-- **A collection** is read from what is written for it, with a list that may be empty. -/
theorem SetSpec.ofJson?_toJson (s : SetSpec) :
    ofJson? s.toJson = some ⟨some (s.segments.getD [])⟩ := by
  have hdraft : overlay .blank s.toJson =
      some ⟨some (.ofList ((s.segments.getD []).map (Option.map SegmentSpec.draft)))⟩ := by
    refine Overlay.fields_of_gives (by decide) fun hrules => ?_
    have hlist := Overlay.list?_map (Overlay.optional_getD SegmentSpec.overlay_toJson
      fun _ => Json.noConfusion) (s.segments.getD []) none rfl
    exact Overlay.gives_cons hrules (.head _) hlist Overlay.gives_nil
  rw [ofJson?, hdraft, Option.map_some, Draft.shown, Option.map_some, SegmentSpec.shownAll_ofList]

/-! ## §4 Depth -/

namespace SpecMember

open Json (Readable)

theorem readable_int {depth : Nat} (name : String) (n : Int32) :
    ∀ m ∈ int name n, Readable depth m.2 := by
  unfold int
  split
  · simp
  · simpa using .number n.toInt

theorem readable_text {depth : Nat} (name t : String) : ∀ m ∈ text name t, Readable depth m.2 := by
  unfold text
  split
  · simp
  · simpa using .string t

theorem readable_array {α : Type} {depth : Nat} {write : α → Json}
    (h : ∀ x, Readable depth (write x)) (xs : List (Option α)) :
    Readable (depth + 1) (.array (xs.map fun x => (x.map write).getD .null)) := by
  apply Readable.array
  intro j hj
  obtain ⟨x, -, rfl⟩ := List.mem_map.mp hj
  cases x with
  | none => exact .null
  | some x => exact h x

theorem readable_list {α : Type} {depth : Nat} {write : α → Json} (name : String)
    (h : ∀ x, Readable depth (write x)) (xs : List (Option α)) :
    ∀ m ∈ list name write xs, Readable (depth + 1) m.2 := by
  unfold list
  split
  · simp
  · simpa using readable_array h xs

end SpecMember

section Depth

open SpecMember

variable {depth : Nat}

theorem SymbolSpec.readable_toJson (s : SymbolSpec) : s.toJson.Readable (depth + 1) := by
  apply Json.Readable.object
  simp only [List.forall_mem_append, List.forall_mem_cons]
  exact ⟨⟨⟨.string _, .string _, by simp⟩, readable_int _ _⟩, readable_int _ _⟩

theorem LocalVarSpec.readable_toJson (s : LocalVarSpec) : s.toJson.Readable (depth + 1) := by
  apply Json.Readable.object
  simp only [List.forall_mem_append, List.forall_mem_singleton]
  exact ⟨⟨.string _, readable_int _ _⟩, readable_int _ _⟩

theorem LabelSpec.readable_toJson (s : LabelSpec) : s.toJson.Readable (depth + 1) := by
  apply Json.Readable.object
  simp only [List.forall_mem_append, List.forall_mem_singleton]
  exact ⟨.string _, readable_int _ _⟩

theorem FloatSpec.readable_toJson (s : FloatSpec) : s.toJson.Readable (depth + 1) := by
  apply Json.Readable.object
  simp only [List.forall_mem_append, List.forall_mem_cons]
  exact ⟨⟨.string _, .string _, .string _, by simp⟩, readable_int _ _⟩

theorem DisjointSpec.readable_toJson (s : DisjointSpec) : s.toJson.Readable (depth + 2) := by
  apply Json.Readable.object
  simp only [List.forall_mem_append, List.forall_mem_singleton]
  refine ⟨?_, readable_int _ _⟩
  cases s.vars with
  | none => exact .null
  | some vars =>
    apply Json.Readable.array
    intro j hj
    obtain ⟨t, -, rfl⟩ := List.mem_map.mp hj
    exact .string t

theorem SegmentSpec.readable_toJson (s : SegmentSpec) : s.toJson.Readable (depth + 4) := by
  apply Json.Readable.object
  simp only [List.forall_mem_append, List.forall_mem_singleton]
  exact ⟨⟨⟨⟨⟨⟨.number (s.id.toNat : Int), readable_text _ _⟩, readable_list _ SymbolSpec.readable_toJson _⟩,
    readable_list _ LocalVarSpec.readable_toJson _⟩, readable_list _ LabelSpec.readable_toJson _⟩,
    readable_list _ FloatSpec.readable_toJson _⟩, readable_list _ DisjointSpec.readable_toJson _⟩

theorem SetSpec.readable_toJson (s : SetSpec) : s.toJson.Readable (depth + 6) := by
  apply Json.Readable.object
  simp only [List.forall_mem_singleton]
  exact readable_array SegmentSpec.readable_toJson _

end Depth

/-! ## §5 Files -/

/-- **A collection in a JSON file.** Under every name that a file can be written to, unless the name
stands for YAML, storing a collection succeeds, and loading it afterwards gives the collection back:
ids and positions of every size, texts of any characters, missing elements, and absent variables
apart from an empty list of them. A list of segments that is absent comes back empty. -/
theorem SetSpec.load_store_json (yaml : Yaml.Library) (s : SetSpec) {tree : FileTree} {name : String}
    (hwritable : tree.Writable name)
    (hname : ¬ ∃ stem : String, name = stem ++ ".yaml" ∨ name = stem ++ ".yml") :
    ∃ tree', s.store yaml tree name = .ok tree' ∧
      SetSpec.load yaml tree' name = .ok ⟨some (s.segments.getD [])⟩ := by
  have hformat := FileFormat.ofName_eq_json_iff.mpr hname
  obtain ⟨tree', hwrite⟩ := hwritable.exists_write (.text (s.fileText yaml name))
  refine ⟨tree', by simp [store, hwrite], ?_⟩
  have hread : readContent tree' name = .ok (.text s.toJson.text) := by
    rw [readContent, FileTree.read_write hwrite, fileText, hformat]
  have hreadable : s.toJson.Readable (9994 + 6) := s.readable_toJson
  have hparse : Json.parse? s.toJson.text.toList = some s.toJson := Json.parse?_text hreadable
  simp [load, hread, decodeContent, hformat, Content.chars, hparse, ofJson?_toJson, bind, Except.bind]

/-- A collection at the limits: the largest id, the least position, missing elements, absent and empty
variables, and texts with a quote, a control character, a line separator and a character beyond the
basic plane. -/
def Sample.atLimits : SetSpec where
  segments := some [none, some { SegmentSpec.blank with
    id := 4294967295
    source := "\"<\x01\u2028\\"
    symbols := [none, some ⟨"𝟙", "constant", -2147483648, 2147483647⟩]
    disjoints := [some ⟨none, 0⟩, some ⟨some [], 1⟩, some ⟨some ["", "x"], 0⟩] }]

theorem SetSpec.load_store_json_atLimits :
    FileTree.empty.Writable "set.json" ∧
      (¬ ∃ stem : String, "set.json" = stem ++ ".yaml" ∨ "set.json" = stem ++ ".yml") ∧
      ∃ tree', Sample.atLimits.store Yaml.fragment .empty "set.json" = .ok tree' ∧
        SetSpec.load Yaml.fragment tree' "set.json" = .ok Sample.atLimits := by
  have hwritable : FileTree.empty.Writable "set.json" := ⟨["set.json".toList], by decide +kernel⟩
  have hname := FileFormat.ofName_eq_json_iff.mp (show FileFormat.ofName "set.json" = .json by decide)
  exact ⟨hwritable, hname, load_store_json Yaml.fragment Sample.atLimits hwritable hname⟩

end NameIndex
