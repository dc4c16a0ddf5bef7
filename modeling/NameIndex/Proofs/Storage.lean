import Mathlib.Data.List.Forall2
import Mathlib.Data.List.Infix
import Mathlib.Data.List.TakeWhile
import NameIndex.Proofs.StableSort
import NameIndex.Spec.File

/-!
# What is written is read

A file that could be written is found again under the path it was written to: writing adds one file
to a directory that the path leads to, and every place that the path walks through stays as it was.

The format of a file is decided by how its name ends, and by nothing else. In either format a
structure is read by rules that are found by their keys; where the keys are told apart, each finds
its own.

## Main results

* `FileTree.read_write` — reading after writing.
* `FileFormat.ofName_eq_yaml_iff` — which names stand for YAML.
-/

namespace NameIndex

/-! ## §1 Computations that may fail -/

section Computations

variable {ε α β : Type} {p : Prop} [Decidable p] {e : ε} {f : β → Except ε α} {x : Except ε α} {a : α}

theorem throw_bind_ne_ok : (throw e >>= f) ≠ .ok a := by
  simp [throw, throwThe, MonadExceptOf.throw, bind, Except.bind]

/-- A check that is passed, and what comes after it. -/
theorem check_eq_ok_iff : (if p then throw e >>= f else x) = .ok a ↔ ¬ p ∧ x = .ok a := by
  by_cases hp : p
  · simp only [hp, if_true, not_true, false_and, iff_false]
    exact throw_bind_ne_ok
  · simp [hp]

theorem demand_eq_ok_iff : (if p then x else throw e >>= f) = .ok a ↔ p ∧ x = .ok a := by
  by_cases hp : p
  · simp [hp]
  · simp only [hp, if_false, false_and, iff_false]
    exact throw_bind_ne_ok

theorem mapM_eq_ok_iff {f : α → Except ε β} {xs : List α} {ys : List β} :
    xs.mapM f = .ok ys ↔ List.Forall₂ (fun x y => f x = .ok y) xs ys := by
  induction xs generalizing ys with
  | nil => simp [pure, Except.pure, eq_comm]
  | cons x xs ih =>
    rw [List.mapM_cons, bind_eq_ok_iff, List.forall₂_cons_left_iff]
    simp only [bind_eq_ok_iff, ih, pure, Except.pure, Except.ok.injEq]
    constructor
    · rintro ⟨y, hy, ys, hys, rfl⟩
      exact ⟨y, ys, hy, hys, rfl⟩
    · rintro ⟨y, ys, hy, hys, rfl⟩
      exact ⟨y, hy, ys, hys, rfl⟩

end Computations

/-! ## §2 Rules by their keys -/

/-- Among rules whose keys are told apart, a key finds its own. -/
theorem find?_of_distinct {κ ρ : Type} {same : κ → κ → Bool} {rules : List (κ × ρ)}
    (hself : ∀ k, same k k = true)
    (hdistinct : (rules.map Prod.fst).Pairwise fun a b => same a b = false) {f : κ × ρ}
    (hf : f ∈ rules) : rules.find? (fun g => same g.1 f.1) = some f := by
  induction rules with
  | nil => cases hf
  | cons g rules ih =>
    obtain ⟨hg, hrules⟩ := List.pairwise_cons.mp hdistinct
    rcases List.mem_cons.mp hf with rfl | hf
    · exact List.find?_cons_of_pos (hself f.1)
    · rw [List.find?_cons_of_neg (by simp [hg f.1 (List.mem_map_of_mem hf)])]
      exact ih hrules hf

/-! ## §3 Files -/

namespace FileTree

variable {t : FileTree} {place above : List (List Char)} {path : List Char} {content : Content}

/-- A file can be written under the name. -/
def Writable (t : FileTree) (name : String) : Prop := ∃ place, t.writable? name.toList = .ok place

/-- The tree with a file at a place. -/
def withFile (t : FileTree) (place : List (List Char)) (content : Content) : FileTree :=
  { t with entries := (place, .file content) :: t.entries }

/-- What holds of a path that a file can be written to: it leads into a directory, and to no
directory there. -/
theorem writable?_eq_ok (h : t.writable? path = .ok place) :
    demandsDirectory path = false ∧ t.at? place ≠ some .directory ∧
      ∃ directory name, t.locate path (steps path).dropLast = .ok directory ∧
        t.at? directory = some .directory ∧ (steps path).getLast? = some name ∧
        name ≠ ['.', '.'] ∧ place = directory ++ [name] := by
  unfold writable? at h
  obtain ⟨directory, hwalk, h⟩ := bind_eq_ok_iff.mp h
  obtain ⟨hdirectory, h⟩ := demand_eq_ok_iff.mp h
  cases hlast : (steps path).getLast? with
  | none => simp [hlast, throw, throwThe, MonadExceptOf.throw] at h
  | some name =>
    simp only [hlast] at h
    obtain ⟨hdots, h⟩ := check_eq_ok_iff.mp h
    have hresult : demandsDirectory path = false ∧ t.at? (directory ++ [name]) ≠ some .directory ∧
        directory ++ [name] = place := by
      split at h
      · exact absurd h throw_bind_ne_ok
      · next hfile =>
        obtain ⟨hdemands, h⟩ := check_eq_ok_iff.mp h
        exact ⟨by simpa using hdemands, by simp [hfile], Except.ok.inj h⟩
      · next hnone =>
        obtain ⟨hdemands, h⟩ := check_eq_ok_iff.mp h
        exact ⟨by simpa using hdemands, by simp [hnone], Except.ok.inj h⟩
    obtain ⟨hdemands, hat, rfl⟩ := hresult
    exact ⟨hdemands, hat, directory, name, hwalk, by simpa [isDirectory] using hdirectory, rfl, hdots,
      rfl⟩

/-- Directories stay where they are when a file is written where none of them is. -/
theorem at?_withFile_of_directory (hplace : t.at? place ≠ some .directory)
    (habove : t.at? above = some .directory) :
    (t.withFile place content).at? above = some .directory := by
  have hne : place ≠ above := by
    rintro rfl
    exact hplace habove
  unfold at? at habove ⊢
  split at habove
  · next hhere => exact if_pos hhere
  · next hhere =>
    rw [withFile, if_neg hhere, List.find?_cons_of_neg (by simpa using hne)]
    cases hfound : t.entries.find? fun e => decide (e.1 = above) with
    | some e => simpa [hfound] using habove
    | none =>
      simp only [hfound] at habove ⊢
      split at habove
      · next hany => rw [if_pos (by simp [hany])]
      · cases habove

theorem at?_withFile_self (hplace : t.at? place ≠ some .directory) :
    (t.withFile place content).at? place = some (.file content) := by
  have hhere : ¬ place.isPrefixOf t.here = true := by
    intro hhere
    rw [at?, if_pos hhere] at hplace
    exact hplace rfl
  unfold at?
  rw [withFile, if_neg hhere, List.find?_cons_of_pos (by simp)]

/-- A walk through directories goes the same way after a file is written, and then to that file. -/
theorem walk_withFile (content : Content) {name : List Char} {elements directory : List (List Char)}
    (hplace : t.at? place ≠ some .directory) (hname : name ≠ ['.', '.'])
    (hwalk : t.walk above elements = .ok directory) (hdirectory : t.at? directory = some .directory)
    (hat : place = directory ++ [name]) :
    (t.withFile place content).walk above (elements ++ [name]) = .ok place := by
  -- the place walked to grows or shrinks element by element
  induction elements generalizing above with
  | nil =>
    obtain rfl : above.reverse = directory := Except.ok.inj hwalk
    have hself : (name :: above).reverse = place := by simp [hat]
    simp [walk, hname, hself, at?_withFile_self hplace]
  | cons e rest ih =>
    unfold walk at hwalk
    rw [List.cons_append]
    unfold walk
    split at hwalk
    · next hdots =>
      rw [if_pos hdots]
      exact ih hwalk
    · next hdots =>
      rw [if_neg hdots]
      split at hwalk
      · cases hwalk
      · next hat? =>
        rw [at?_withFile_of_directory hplace hat?]
        exact ih hwalk
      · next hfile =>
        -- a walk that ends at a file does not end at a directory
        split at hwalk
        · rw [← Except.ok.inj hwalk, hfile] at hdirectory
          cases hdirectory
        · cases hwalk

/-- **What is written is read**, under the same path. -/
theorem read_write {t' : FileTree} {name : String} (h : t.write name content = .ok t') :
    t'.read name = .ok content := by
  unfold write at h
  split at h
  · cases h
  · next place hplace =>
    obtain rfl := Except.ok.inj h
    obtain ⟨hdemands, hnot, directory, last, hlocate, hdirectory, hlast, hdots, hat⟩ :=
      writable?_eq_ok hplace
    have hsteps : (steps name.toList).dropLast ++ [last] = steps name.toList :=
      List.dropLast_append_getLast? last hlast
    -- the path is walked from the same place as before
    have hreach : (t.withFile place content).locate name.toList (steps name.toList) = .ok place := by
      unfold locate at hlocate ⊢
      split at hlocate
      · cases hlocate
      · next hempty =>
        rw [if_neg hempty, ← hsteps]
        exact walk_withFile content hnot hdots hlocate hdirectory hat
    have hself : (t.withFile place content).at? place = some (.file content) := at?_withFile_self hnot
    show (t.withFile place content).read name = _
    simp [read, open?, hreach, hself, hdemands, bind, Except.bind, pure, Except.pure]

theorem Writable.exists_write {name : String} (h : t.Writable name) (content : Content) :
    ∃ t', t.write name content = .ok t' := by
  obtain ⟨place, hplace⟩ := h
  exact ⟨_, by rw [write, hplace]⟩

end FileTree

/-! ## §4 Names and formats -/

namespace Path

/-- **The extension of a path** is what it ends with from a dot on, where neither a dot nor a slash
follows. -/
theorem extension_eq_iff {path w : List Char} (hdot : '.' ∉ w) (hslash : '/' ∉ w) :
    extension path = '.' :: w ↔ ('.' :: w) <:+ path := by
  unfold extension
  simp only [List.reverse_reverse, List.contains_eq_mem, List.mem_reverse, decide_eq_true_eq]
  constructor
  · intro h
    split at h
    · next hcontains =>
      -- read from its end, the path starts with the letters up to the first dot
      obtain ⟨letters, more, hsplit, hfirst⟩ := List.eq_append_cons_of_mem hcontains
      have hletters : ∀ c ∈ letters, decide (c ≠ '.') = true := by
        intro c hc
        have hne : c ≠ '.' := fun h => hfirst (h ▸ hc)
        simpa using hne
      rw [hsplit, List.takeWhile_append_of_pos hletters] at h
      obtain rfl : letters.reverse = w := by simpa using h
      obtain ⟨front, hfront⟩ := List.takeWhile_prefix (l := path.reverse) (· ≠ '/')
      refine ⟨front.reverse ++ more.reverse, ?_⟩
      rw [← List.reverse_inj, ← hfront, hsplit]
      simp
    · cases h
  · rintro ⟨stem, rfl⟩
    have hends : ∀ c ∈ w.reverse ++ ['.'], decide (c ≠ '/') = true := by
      intro c hc
      rcases List.mem_append.mp hc with hc | hc
      · have hne : c ≠ '/' := fun h => hslash (h ▸ List.mem_reverse.mp hc)
        simpa using hne
      · simp [List.mem_singleton.mp hc]
    have hletters : ∀ c ∈ w.reverse, decide (c ≠ '.') = true := by
      intro c hc
      have hne : c ≠ '.' := fun h => hdot (h ▸ List.mem_reverse.mp hc)
      simpa using hne
    have hreverse : (stem ++ '.' :: w).reverse = (w.reverse ++ ['.']) ++ stem.reverse := by simp
    rw [hreverse, List.takeWhile_append_of_pos hends, if_pos (by simp), List.append_assoc,
      List.takeWhile_append_of_pos hletters]
    simp

end Path

namespace FileFormat

/-- **The format of a name**: YAML for exactly the names that end in one of its two extensions. -/
theorem ofName_eq_yaml_iff {name : String} :
    ofName name = .yaml ↔ ∃ stem : String, name = stem ++ ".yaml" ∨ name = stem ++ ".yml" := by
  have hends : ∀ (ending : String) (w : List Char), ending.toList = '.' :: w → '.' ∉ w → '/' ∉ w →
      (String.ofList (Path.extension name.toList) = ending ↔
        ∃ stem : String, name = stem ++ ending) := by
    intro ending w hending hdot hslash
    rw [← String.toList_inj, String.toList_ofList, hending, Path.extension_eq_iff hdot hslash,
      ← hending]
    constructor
    · rintro ⟨stem, hstem⟩
      refine ⟨String.ofList stem, ?_⟩
      rw [← String.toList_inj, ← hstem]
      simp
    · rintro ⟨stem, rfl⟩
      exact ⟨stem.toList, by simp⟩
  rw [exists_or, ← hends ".yaml" "yaml".toList (by decide) (by decide) (by decide),
    ← hends ".yml" "yml".toList (by decide) (by decide) (by decide)]
  simp only [ofName]
  split
  · next h => simpa using h
  · next h => simpa using h

theorem ofName_eq_json_iff {name : String} :
    ofName name = .json ↔ ¬ ∃ stem : String, name = stem ++ ".yaml" ∨ name = stem ++ ".yml" := by
  rw [← ofName_eq_yaml_iff]
  cases ofName name <;> simp

end FileFormat

end NameIndex
