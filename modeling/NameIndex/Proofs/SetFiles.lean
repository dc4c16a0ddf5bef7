import NameIndex.Proofs.FileValues

/-!
# Files that hold a list of segments

A file may hold the fields of one segment, or a list of segments under the key `segments`. The list
decides if it is there: whatever other keys stand beside it, the file then contributes the elements of
the list and nothing else. A key that stands there without a list, with nothing as its value, does
**not** decide: the file is read as if the key were not there, and contributes the one segment that
its other fields describe (`SegmentSpec.loadAll_without_list`).

What is read as either layout is a collection and a segment side by side, and the list is that of the
collection. A collection looks at the values of its key only (`foldlM_change_singleton`). In JSON the
key may come more than once, and each list is read over what the earlier ones have left
(`FileValue.listAfter`); in YAML it comes once.

## Main result

* `SegmentSpec.loadAll_contributions` — what each of several files contributes.
-/

namespace NameIndex

open NameIndex.Text

/-! ## §1 The key of the list -/

namespace FileValue

variable {yaml : Yaml.Library}

/-- The value is nothing: `null`, or what YAML takes for it. -/
def isNothing : FileValue yaml → Bool
  | .json .null => true
  | .json _ => false
  | .yaml node => yaml.isNull node

/-- The values of the members that name the list, without regard to letter case. -/
def ofMembers (members : List (String × Json)) : List Json :=
  (members.filter fun m => Fold.same "segments" m.1).map Prod.snd

/-- The values of the entries that name the list. -/
def ofEntries {Node : Type} (entries : List (String × Node)) : List Node :=
  (entries.filter fun e => "segments" = e.1).map Prod.snd

/-- The values at the top of a file that stand under the key `segments`, in the order of the text. -/
def listValues : FileValue yaml → List (FileValue yaml)
  | .json (.object members) => (ofMembers members).map .json
  | .json _ => []
  | .yaml node =>
    if yaml.isNull node then [] else (ofEntries ((yaml.entries? node).getD [])).map .yaml

/-- What the values of the key have left, one after the other, for the next list to be read over. In
YAML nothing is left, since the key has no more than one value. -/
def listAfter (values : List (FileValue yaml)) :
    Option (Option (Buffer (Option SegmentSpec.Draft))) :=
  values.foldlM (fun list? v => match v with
    | .json j => SegmentSpec.overlayList list? j
    | .yaml _ => some list?) none

/-- The elements of a list of segments, in the sequence of the list: nothing is a missing element. In
JSON each is read over what the earlier values of the key have left at its place. -/
def elements? (earlier : List (FileValue yaml)) :
    FileValue yaml → Option (List (Option SegmentSpec))
  | .json (.array js) => do
    let old := ((← listAfter earlier).getD .empty).all
    let drafts ← Overlay.items none (Overlay.optional .blank SegmentSpec.overlay) old js
    return drafts.map (Option.map SegmentSpec.Draft.shown)
  | .json _ => none
  | .yaml node => do
    (← yaml.items? node).mapM fun item =>
      if yaml.isNull item then some none else SegmentSpec.decode yaml item

end FileValue

/-! ## §2 The list of a collection -/

/-- **A structure with one rule** sees the values of its key and nothing else. -/
theorem foldlM_change_singleton {σ ν ε : Type} (rule : String × (σ → ν → Option σ))
    (isKey : ε → String → Bool) (value : ε → ν) (entries : List ε) (s : σ) :
    entries.foldlM (fun s e => change [rule] (isKey e) s (value e)) s =
      ((entries.filter fun e => isKey e rule.1).map value).foldlM rule.2 s := by
  induction entries generalizing s with
  | nil => rfl
  | cons e entries ih =>
    rw [List.foldlM_cons]
    cases hkey : isKey e rule.1 with
    | true =>
      have hstep : change [rule] (isKey e) s (value e) = rule.2 s (value e) := by
        simp [change, hkey]
      have hfilter : (e :: entries).filter (fun e => isKey e rule.1) =
          e :: entries.filter fun e => isKey e rule.1 := List.filter_cons_of_pos hkey
      rw [hfilter, List.map_cons, List.foldlM_cons, hstep]
      congr 1
      exact funext ih
    | false =>
      have hstep : change [rule] (isKey e) s (value e) = some s := by simp [change, hkey]
      have hfilter : (e :: entries).filter (fun e => isKey e rule.1) =
          entries.filter fun e => isKey e rule.1 := List.filter_cons_of_neg (by simp [hkey])
      rw [hfilter, hstep]
      exact ih s

namespace FileValue

variable {yaml : Yaml.Library} {set : SetSpec}

/-- A list shows the elements that were put into it. -/
theorem shownAll_refilled (b : Buffer (Option SegmentSpec.Draft))
    (drafts : List (Option SegmentSpec.Draft)) :
    SegmentSpec.Draft.shownAll (b.refilled drafts) =
      drafts.map (Option.map SegmentSpec.Draft.shown) := by
  unfold SegmentSpec.Draft.shownAll Buffer.refilled
  split
  · next hempty => rw [List.isEmpty_iff.mp hempty]; rfl
  · rfl

theorem overlay_object (members : List (String × Json)) :
    SetSpec.overlay .blank (.object members) =
      ((ofMembers members).foldlM SegmentSpec.overlayList none).map SetSpec.Draft.mk := by
  have hvalues : ∀ (js : List Json) (list? : Option (Buffer (Option SegmentSpec.Draft))),
      js.foldlM FileSpec.jsonListRule.2 ⟨list?⟩ =
        (js.foldlM SegmentSpec.overlayList list?).map SetSpec.Draft.mk := by
    intro js
    induction js with
    | nil => intro list?; rfl
    | cons j js ih =>
      intro list?
      rw [List.foldlM_cons, List.foldlM_cons, Option.bind_eq_bind, Option.bind_eq_bind,
        Option.map_bind]
      simp only [Overlay.field, Option.bind_map]
      congr 1
      funext list?
      exact ih list?
  have hmember : Overlay.member [FileSpec.jsonListRule] = fun s (m : String × Json) =>
      change [FileSpec.jsonListRule] (Fold.same · m.1) s m.2 := by
    funext s m
    exact FileSpec.member_eq_change _ s m
  have hfold := foldlM_change_singleton FileSpec.jsonListRule
    (fun m : String × Json => (Fold.same · m.1)) Prod.snd members ⟨none⟩
  rw [← hmember] at hfold
  rw [← hvalues]
  exact hfold

/-- **The list of a collection**, if `v` is the last value of its key. -/
structure Decides (earlier : List (FileValue yaml)) (v : FileValue yaml) (set : SetSpec) : Prop where
  nothing : v.isNothing = true → set.segments = none
  elements : v.isNothing = false → ∃ elements, v.elements? earlier = some elements ∧
    set.segments = some elements

/-- The last of the images comes from the last element. -/
theorem exists_of_map_eq_append_singleton {α β : Type} {f : α → β} {xs : List α} {ys : List β}
    {y : β} (h : xs.map f = ys ++ [y]) :
    ∃ before x, xs = before ++ [x] ∧ before.map f = ys ∧ f x = y := by
  obtain ⟨before, last, hsplit, hbefore, hlast⟩ := List.map_eq_append_iff.mp h
  obtain ⟨x, rfl, hx⟩ := List.map_eq_singleton_iff.mp hlast
  exact ⟨before, x, hsplit, hbefore, hx⟩

theorem decides_json {members : List (String × Json)} {earlier : List (FileValue yaml)}
    {v : FileValue yaml} (hset : SetSpec.ofJson? (.object members) = some set)
    (hvalues : (ofMembers members).map .json = earlier ++ [v]) : Decides earlier v set := by
  obtain ⟨draft, hdraft, rfl⟩ := Option.map_eq_some_iff.mp hset
  rw [overlay_object] at hdraft
  obtain ⟨list?, hlist, rfl⟩ := Option.map_eq_some_iff.mp hdraft
  -- the last value is read over what those before it have left
  obtain ⟨before, j, hsplit, rfl, rfl⟩ := exists_of_map_eq_append_singleton hvalues
  rw [hsplit, List.foldlM_append] at hlist
  obtain ⟨old, hbefore, hlast⟩ := Option.bind_eq_some_iff.mp hlist
  obtain ⟨list?, hread, heq⟩ := Option.bind_eq_some_iff.mp hlast
  obtain rfl := Option.some.inj heq
  have hafter : listAfter (before.map FileValue.json : List (FileValue yaml)) = some old := by
    rw [listAfter, List.foldlM_map]
    exact hbefore
  refine ⟨fun hnothing => ?_, fun hsomething => ?_⟩
  · cases j with
    | null =>
      obtain rfl := Option.some.inj hread
      rfl
    | _ => cases hnothing
  · -- what is not nothing is read only if it is a list
    cases j with
    | null => cases hsomething
    | array js =>
      obtain ⟨drafts, hdrafts, rfl⟩ := Option.map_eq_some_iff.mp hread
      refine ⟨drafts.map (Option.map SegmentSpec.Draft.shown), ?_, ?_⟩
      · simp [elements?, hafter, hdrafts]
      · simp [SetSpec.Draft.shown, shownAll_refilled]
    | bool => cases hread
    | number => cases hread
    | string => cases hread
    | object => cases hread

theorem mapM_map_some {α β : Type} {f : α → Option β} (xs : List α) :
    xs.mapM (fun x => (f x).map some) = (xs.mapM f).map (List.map some) := by
  induction xs with
  | nil => rfl
  | cons x xs ih =>
    simp only [List.mapM_cons, ih]
    cases f x with
    | none => rfl
    | some y => cases xs.mapM f <;> rfl

/-- A list of segments that is something has an element for each of its items. -/
theorem decodeList_eq (hdecodes : yaml.Decodes) {node : yaml.Node} (h : yaml.isNull node = false) :
    SegmentSpec.decodeList yaml node =
      (elements? [] (FileValue.yaml node)).map fun elements => some (some elements) := by
  have hitem : yaml.pointer (SegmentSpec.decode yaml) = fun item =>
      (if yaml.isNull item then some none else SegmentSpec.decode yaml item).map some := by
    rw [hdecodes.pointer_eq]
    funext item
    unfold Yaml.valueOf
    split
    · rfl
    · next hnull =>
      -- what is something is decoded as a segment, or not at all
      rw [SegmentSpec.decode, hdecodes.record_eq, Yaml.recordOf, if_neg hnull]
      cases yaml.entries? item with
      | none => rfl
      | some entries =>
        rw [Option.bind_some]
        split
        · cases entries.foldlM (Yaml.entry (SegmentSpec.yamlFields yaml)) .blank <;> rfl
        · rfl
  rw [SegmentSpec.decodeList, hdecodes.slice_eq, hitem, Yaml.itemsOf, h, elements?]
  cases yaml.items? node with
  | none => rfl
  | some items =>
    simp [mapM_map_some, Option.map_map, Function.comp_def, List.filterMap_map]

theorem decides_yaml (hdecodes : yaml.Decodes) {node : yaml.Node} {earlier : List (FileValue yaml)}
    {v : FileValue yaml} (hset : SetSpec.ofYaml? yaml node = some set)
    (hvalues : (FileValue.yaml node).listValues = earlier ++ [v]) : Decides earlier v set := by
  rw [SetSpec.ofYaml?, hdecodes.record_eq, FileSpec.getD_recordOf] at hset
  rw [listValues] at hvalues
  cases hnull : yaml.isNull node with
  | true => simp [hnull] at hvalues
  | false =>
    simp only [hnull, Bool.false_eq_true, if_false] at hset hvalues
    obtain ⟨entries, hentries, hset⟩ := Option.bind_eq_some_iff.mp hset
    rw [hentries, Option.getD_some] at hvalues
    split_ifs at hset with honce
    have hentry : Yaml.entry [FileSpec.yamlListRule yaml] = fun s (e : String × yaml.Node) =>
        change [FileSpec.yamlListRule yaml] (fun name => name = e.1) s e.2 := by
      funext s e
      exact FileSpec.entry_eq_change _ s e
    rw [SetSpec.yamlFields, hentry] at hset
    have hfold : (ofEntries entries).foldlM (FileSpec.yamlListRule yaml).2 SetSpec.blank =
        some set :=
      (foldlM_change_singleton (FileSpec.yamlListRule yaml) (fun e name => name = e.1) Prod.snd entries
        _).symm.trans hset
    -- the key comes once, so there are no earlier values
    have hlength : (ofEntries entries).length ≤ 1 := by
      simpa [SetSpec.yamlFields, Yaml.namesOnce, Yaml.field, ofEntries, eq_comm] using honce
    obtain ⟨before, value, hsplit, rfl, rfl⟩ := exists_of_map_eq_append_singleton hvalues
    rw [hsplit] at hfold hlength
    obtain rfl : before = [] := by simpa using hlength
    obtain ⟨set', hread, heq⟩ := Option.bind_eq_some_iff.mp hfold
    obtain rfl := Option.some.inj heq
    obtain ⟨list?, hdecode, rfl⟩ := Option.map_eq_some_iff.mp hread
    refine ⟨fun hnothing => ?_, fun hsomething => ?_⟩
    · have hnull : yaml.isNull value = true := hnothing
      rw [SegmentSpec.decodeList, hdecodes.slice_eq, Yaml.itemsOf, if_pos hnull] at hdecode
      obtain rfl := Option.some.inj hdecode
      rfl
    · rw [decodeList_eq hdecodes hsomething] at hdecode
      obtain ⟨elements, helements, rfl⟩ := Option.map_eq_some_iff.mp hdecode
      exact ⟨elements, helements, rfl⟩

/-- Only what has keys at its top has a list under one of them. -/
theorem decides (hdecodes : yaml.Decodes) {doc : FileValue yaml} (hset : doc.set? = some set)
    {earlier : List (FileValue yaml)} {v : FileValue yaml}
    (hvalues : doc.listValues = earlier ++ [v]) : Decides earlier v set := by
  cases doc with
  | yaml node => exact decides_yaml hdecodes hset hvalues
  | json j =>
    cases j with
    | object members => exact decides_json hset hvalues
    | _ => simp [listValues] at hvalues

end FileValue

/-! ## §3 What several files contribute -/

namespace SegmentSpec

variable {yaml : Yaml.Library} {tree : FileTree} {name : String} {part : List (Option SegmentSpec)}

/-- **What a file has contributed**, if a key at its top names a list of segments and `v` is the last
value of that key: the elements of the list, if there is one, and else the one segment that the fields
at the top describe. -/
def Contributed (yaml : Yaml.Library) (tree : FileTree) (name : String)
    (part : List (Option SegmentSpec)) : Prop :=
  ∃ content doc, tree.read name = .ok content ∧
    FileValue.ofContent? yaml name content = some doc ∧
    ∀ earlier v, doc.listValues = earlier ++ [v] →
      (v.isNothing = false → ∃ elements, v.elements? earlier = some elements ∧
        elements.mapM (fillSource name) = .ok part) ∧
      (v.isNothing = true → ∃ s, doc.segment? = some s ∧ [some s].mapM (fillSource name) = .ok part)

theorem contributed_of_load (hdecodes : yaml.Decodes) (h : load yaml tree name = .ok part) :
    Contributed yaml tree name part := by
  rw [load_eq] at h
  obtain ⟨doc, hload, h⟩ := bind_eq_ok_iff.mp h
  obtain ⟨file, hfile, hpart⟩ := bind_eq_ok_iff.mp h
  obtain ⟨content, hread, hdoc⟩ := FileValue.load_eq_ok_iff.mp hload
  refine ⟨content, doc, hread, hdoc, fun earlier v hvalues => ?_⟩
  -- the file is a collection and a segment side by side
  rw [FileValue.file?_eq hdecodes, fitted_eq_ok_iff] at hfile
  obtain ⟨segment, hsegment, hfile⟩ := Option.bind_eq_some_iff.mp hfile
  obtain ⟨set, hset, rfl⟩ := Option.map_eq_some_iff.mp hfile
  obtain ⟨hnothing, helements⟩ := FileValue.decides hdecodes hset hvalues
  refine ⟨fun hv => ?_, fun hv => ?_⟩
  · obtain ⟨elements, hread, hlist⟩ := helements hv
    exact ⟨elements, hread, by simpa only [hlist, Option.getD_some] using hpart⟩
  · exact ⟨segment, hsegment, by simpa only [hnothing hv, Option.getD_none] using hpart⟩

/-- **Files are read one after the other**, by any library that decodes YAML as it promises. Each that
names a list of segments at its top contributes the elements of that list and nothing else, whatever
other keys stand beside it; a key with nothing as its value names no list, and the file contributes
what its other fields describe. -/
theorem loadAll_contributions (hdecodes : yaml.Decodes) {names : List String}
    {specs : List (Option SegmentSpec)} (h : loadAll yaml tree names = .ok specs) :
    ∃ parts, specs = parts.flatten ∧ List.Forall₂ (Contributed yaml tree) names parts := by
  obtain ⟨parts, hparts, hspecs⟩ := bind_eq_ok_iff.mp h
  refine ⟨parts, (Except.ok.inj hspecs).symm, ?_⟩
  exact (mapM_eq_ok_iff.mp hparts).imp fun _ _ => contributed_of_load hdecodes

/-- A list beside other keys, a list that comes twice, an empty list, and a key that names nothing. -/
def sampleTree : FileTree :=
  (((FileTree.empty.put "list.yaml"
    (.file (.text "id: 7\nsegments:\n- id: 1\n- id: 2\n  source: two\n"))).put "twice.json"
    (.file (.text
      "\x7b\"segments\": [\x7b\"id\": 3\x7d, null], \"segments\": [\x7b\"source\": \"three\"\x7d]\x7d"))).put
    "empty.json" (.file (.text "\x7b\"SEGMENTS\": [], \"id\": 8\x7d"))).put "nothing.yml"
    (.file (.text "id: 9\nsegments: ~\n"))

theorem loadAll_contributions_beside :
    Yaml.fragment.Decodes ∧
      ∃ parts, [some { blank with id := 1, source := "list.yaml" },
          some { blank with id := 2, source := "two" }, some { blank with id := 3, source := "three" },
          some { blank with id := 9, source := "nothing.yml" }] = parts.flatten ∧
        List.Forall₂ (Contributed Yaml.fragment sampleTree)
          ["list.yaml", "twice.json", "empty.json", "nothing.yml"] parts :=
  ⟨Yaml.fragment_decodes,
    loadAll_contributions Yaml.fragment_decodes (eq_ok_of_toOption (by decide +kernel))⟩

/-- Files that have nothing but the key of the list at their top, with nothing as its value: each
contributes a segment. -/
theorem loadAll_without_list :
    ((FileValue.ofContent? Yaml.fragment "a.json" (.text "\x7b\"segments\": null\x7d")).map
      fun doc => doc.listValues.map fun v => v.isNothing) = some [true] ∧
    loadAll Yaml.fragment (FileTree.empty.put "a.json" (.file (.text "\x7b\"segments\": null\x7d")))
      ["a.json"] = .ok [some { blank with source := "a.json" }] ∧
    ((FileValue.ofContent? Yaml.fragment "a.yaml" (.text "segments:\n")).map fun doc =>
      doc.listValues.map fun v => v.isNothing) = some [true] ∧
    loadAll Yaml.fragment (FileTree.empty.put "a.yaml" (.file (.text "segments:\n"))) ["a.yaml"] =
      .ok [some { blank with source := "a.yaml" }] := by
  refine ⟨by decide +kernel, eq_ok_of_toOption ?_, by decide +kernel, eq_ok_of_toOption ?_⟩
  · decide +kernel
  · decide +kernel

end SegmentSpec

end NameIndex
