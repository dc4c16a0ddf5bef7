import NameIndex.Manifest.Value
import NameIndex.Proofs.FirstFailure
import NameIndex.Proofs.Storage

/-!
# Strings of a nested list

The items of a list may be lists again, to any depth. What is no list is a leaf, and a leaf stands at
a place in one list, which a path of places leads to. The strings of a nested list are its leaves
from left to right, provided that all of them are strings; the first leaf that is none is reported
with its place in the list it stands in.

The leaves are described apart from any traversal: they are exactly what can be reached along a path
and is no list, and they are in the order of their paths, earlier places first.

## Architecture

1. `Value.at?` follows a path; `Value.leaves` lists the leaves with their paths.
2. `mem_leaves_iff`, `pairwise_leaves` — these are all leaves, in the order of their paths.
3. `listStrings_eq_mapM` — taking a list apart is reading its leaves one after the other.
4. What follows about the strings, the first failure, and nesting.

## Main results

* `Value.strings_flatten` — the strings of a nested list, or its first leaf that is no string.
-/

namespace NameIndex.Manifest.Value

/-! ## §1 Leaves -/

/-- The value is a list. -/
def isList : Value → Bool
  | .list _ => true
  | _ => false

/-- What a path leads to; each step goes to a place in a list. -/
def at? : Value → List Nat → Option Value
  | v, [] => some v
  | .list items, i :: path => items[i]?.bind fun item => item.at? path
  | _, _ :: _ => Option.none

/-- Something that is no list, where it stands in a nested list. -/
structure Leaf where
  /-- The path to the list that it stands in. -/
  list : List Nat
  /-- Its place in that list. -/
  place : Nat
  value : Value

namespace Leaf

/-- The path to the leaf. -/
def path (l : Leaf) : List Nat := l.list ++ [l.place]

/-- The leaf, seen from a list that has the present one at a place. -/
def below (i : Nat) (l : Leaf) : Leaf := { l with list := i :: l.list }

/-- The string that a leaf is. -/
def read (name : String) (l : Leaf) : Except StringListError String :=
  match l.value with
  | .string s => .ok s
  | v => .error (.notString name l.place v.typeName)

theorem path_below (i : Nat) (l : Leaf) : (l.below i).path = i :: l.path := rfl

theorem read_below (name : String) (i : Nat) (l : Leaf) : (l.below i).read name = l.read name := rfl

theorem read_eq_ok_iff {name : String} {l : Leaf} {s : String} :
    l.read name = .ok s ↔ l.value = .string s := by
  unfold read
  split
  · next h => simp [h]
  · next h => simpa using h s

theorem read_eq_error_iff {name : String} {l : Leaf} {e : StringListError} :
    l.read name = .error e ↔
      (∀ s, l.value ≠ .string s) ∧ e = .notString name l.place l.value.typeName := by
  unfold read
  split
  · next s h => simp [h]
  · next h =>
    rw [Except.error.injEq, eq_comm]
    exact (and_iff_right h).symm

end Leaf

mutual

/-- The leaves in the item at a place. -/
def itemLeaves (place : Nat) : Value → List Leaf
  | .list items => (leavesFrom 0 items).map (Leaf.below place)
  | v => [⟨[], place, v⟩]

/-- The leaves in the items from a place on. -/
def leavesFrom (place : Nat) : List Value → List Leaf
  | [] => []
  | v :: rest => itemLeaves place v ++ leavesFrom (place + 1) rest

end

/-- The leaves of a list, from left to right. -/
def leaves (items : List Value) : List Leaf := leavesFrom 0 items

variable {name : String} {items : List Value} {v : Value} {l : Leaf} {i place : Nat}

theorem itemLeaves_of_not_isList (h : v.isList = false) : itemLeaves place v = [⟨[], place, v⟩] := by
  cases v with
  | list items => simp [isList] at h
  | _ => simp [itemLeaves]

theorem itemLeaves_list : itemLeaves place (.list items) = (leaves items).map (Leaf.below place) := by
  rw [itemLeaves, leaves]

theorem leavesFrom_eq_flatMap (place : Nat) (items : List Value) :
    leavesFrom place items = (items.zipIdx place).flatMap fun item => itemLeaves item.2 item.1 := by
  induction items generalizing place with
  | nil => simp [leavesFrom]
  | cons v rest ih => rw [leavesFrom, ih, List.zipIdx_cons, List.flatMap_cons]

theorem mem_leaves_iff_item :
    l ∈ leaves items ↔ ∃ i v, items[i]? = some v ∧ l ∈ itemLeaves i v := by
  rw [leaves, leavesFrom_eq_flatMap, List.mem_flatMap]
  simp only [Prod.exists, List.mem_zipIdx_iff_getElem?]
  exact exists_comm

theorem mem_itemLeaves_iff :
    l ∈ itemLeaves i v ↔
      v.isList = false ∧ l = ⟨[], i, v⟩ ∨ ∃ inner l', v = .list inner ∧ l' ∈ leaves inner ∧
        l = l'.below i := by
  cases hv : v.isList with
  | false =>
    rw [itemLeaves_of_not_isList hv, List.mem_singleton]
    constructor
    · exact fun h => .inl ⟨rfl, h⟩
    · rintro (⟨-, h⟩ | ⟨inner, -, rfl, -⟩)
      · exact h
      · simp [isList] at hv
  | true =>
    obtain ⟨inner, rfl⟩ : ∃ inner, v = .list inner := by
      cases v with
      | list inner => exact ⟨inner, rfl⟩
      | _ => simp [isList] at hv
    rw [itemLeaves_list, List.mem_map]
    constructor
    · rintro ⟨l', hl', rfl⟩
      exact .inr ⟨inner, l', rfl, hl', rfl⟩
    · rintro (⟨h, -⟩ | ⟨_, l', ⟨⟩, hl', rfl⟩)
      · simp at h
      · exact ⟨l', hl', rfl⟩

theorem at?_nil (v : Value) : v.at? [] = some v := by
  cases v <;> rfl

/-- Only a list has lists in it. -/
theorem eq_list_of_at? {path : List Nat} {enclosing : List Value}
    (h : v.at? path = some (.list enclosing)) : ∃ inner, v = .list inner := by
  cases path with
  | nil =>
    rw [at?_nil, Option.some.injEq] at h
    exact ⟨enclosing, h⟩
  | cons i path =>
    cases v with
    | list inner => exact ⟨inner, rfl⟩
    | _ => simp [at?] at h

/-- **What the leaves are**: whatever stands at a place in a list that a path leads to, and is no
list. -/
theorem mem_leaves_iff :
    l ∈ leaves items ↔
      (∃ enclosing, at? (.list items) l.list = some (.list enclosing) ∧
        enclosing[l.place]? = some l.value) ∧ l.value.isList = false := by
  obtain ⟨path, place, value⟩ := l
  rw [mem_leaves_iff_item]
  -- along the path to the list that the leaf stands in
  induction path generalizing items with
  | nil =>
    -- the leaf stands in the outermost list
    constructor
    · rintro ⟨i, v, hv, h⟩
      rcases mem_itemLeaves_iff.mp h with ⟨hleaf, ⟨⟩⟩ | ⟨inner, l', -, -, ⟨⟩⟩
      exact ⟨⟨items, rfl, hv⟩, hleaf⟩
    · rintro ⟨⟨enclosing, hat, hplace⟩, hleaf⟩
      obtain rfl : items = enclosing := by simpa [at?] using hat
      exact ⟨place, value, hplace, mem_itemLeaves_iff.mpr (.inl ⟨hleaf, rfl⟩)⟩
  | cons i path ih =>
    -- the first step leads into the list at place `i`
    constructor
    · rintro ⟨j, v, hv, h⟩
      rcases mem_itemLeaves_iff.mp h with ⟨-, ⟨⟩⟩ | ⟨inner, l', rfl, hl', ⟨⟩⟩
      obtain ⟨⟨enclosing, hat, hplace⟩, hleaf⟩ := ih.mp (mem_leaves_iff_item.mp hl')
      refine ⟨⟨enclosing, ?_, hplace⟩, hleaf⟩
      rw [at?, hv]
      exact hat
    · rintro ⟨⟨enclosing, hat, hplace⟩, hleaf⟩
      rw [at?, Option.bind_eq_some_iff] at hat
      obtain ⟨item, hitem, hat⟩ := hat
      obtain ⟨inner, rfl⟩ := eq_list_of_at? hat
      have hinner : ⟨path, place, value⟩ ∈ leaves inner :=
        mem_leaves_iff_item.mpr (ih.mpr ⟨⟨enclosing, hat, hplace⟩, hleaf⟩)
      exact ⟨i, .list inner, hitem, mem_itemLeaves_iff.mpr (.inr ⟨inner, _, rfl, hinner, rfl⟩)⟩

/-! ## §2 The order of the leaves -/

theorem path_of_mem_itemLeaves (h : l ∈ itemLeaves i v) : ∃ path, l.path = i :: path := by
  rcases mem_itemLeaves_iff.mp h with ⟨-, rfl⟩ | ⟨inner, l', -, -, rfl⟩
  · exact ⟨[], rfl⟩
  · exact ⟨l'.path, rfl⟩

theorem path_of_mem_leavesFrom (h : l ∈ leavesFrom place items) :
    ∃ i path, place ≤ i ∧ l.path = i :: path := by
  induction items generalizing place with
  | nil => simp [leavesFrom] at h
  | cons v rest ih =>
    rw [leavesFrom, List.mem_append] at h
    rcases h with h | h
    · obtain ⟨path, hpath⟩ := path_of_mem_itemLeaves h
      exact ⟨place, path, le_rfl, hpath⟩
    · obtain ⟨i, path, hle, hpath⟩ := ih h
      exact ⟨i, path, by omega, hpath⟩

mutual

theorem pairwise_itemLeaves (place : Nat) :
    ∀ v : Value, (itemLeaves place v).Pairwise fun a b => a.path < b.path
  | .list items => by
    -- all paths go through `place`, so what comes after it decides
    rw [itemLeaves, List.pairwise_map]
    apply (pairwise_leavesFrom 0 items).imp
    intro a b hab
    rw [Leaf.path_below, Leaf.path_below, List.cons_lt_cons_iff]
    exact .inr ⟨rfl, hab⟩
  | .none | .bool _ | .int _ | .float _ | .string _ | .tuple _ | .dict _ | .builtin _ | .other _ => by
    rw [itemLeaves_of_not_isList rfl]
    exact List.pairwise_singleton _ _

theorem pairwise_leavesFrom (place : Nat) :
    ∀ items : List Value, (leavesFrom place items).Pairwise fun a b => a.path < b.path
  | [] => by
    rw [leavesFrom]
    exact List.Pairwise.nil
  | v :: rest => by
    rw [leavesFrom, List.pairwise_append]
    refine ⟨pairwise_itemLeaves place v, pairwise_leavesFrom (place + 1) rest, ?_⟩
    -- the paths part at the outermost place
    intro a ha b hb
    obtain ⟨path, hpath⟩ := path_of_mem_itemLeaves ha
    obtain ⟨i, path', hle, hpath'⟩ := path_of_mem_leavesFrom hb
    rw [hpath, hpath', List.cons_lt_cons_iff]
    exact .inl (by omega)

end

/-- **The order of the leaves** is that of their paths. -/
theorem pairwise_leaves (items : List Value) :
    (leaves items).Pairwise fun a b => a.path < b.path :=
  pairwise_leavesFrom 0 items

/-! ## §3 Reading the leaves -/

mutual

theorem itemStrings_eq_mapM (name : String) (place : Nat) :
    ∀ v : Value, itemStrings name place v = (itemLeaves place v).mapM (Leaf.read name)
  | .list items => by
    -- a leaf is read by its own place, however deep its list stands
    have hread : Leaf.read name ∘ Leaf.below place = Leaf.read name :=
      funext (Leaf.read_below name place)
    rw [itemStrings, itemLeaves, listStrings_eq_mapM name 0 items, List.mapM_map, hread]
  | .string s => by
    rw [itemStrings, itemLeaves_of_not_isList rfl]
    rfl
  | .none | .bool _ | .int _ | .float _ | .tuple _ | .dict _ | .builtin _ | .other _ => by
    rw [itemStrings, itemLeaves_of_not_isList rfl]
    · rfl
    all_goals simp

theorem listStrings_eq_mapM (name : String) (place : Nat) :
    ∀ items : List Value, listStrings name place items = (leavesFrom place items).mapM (Leaf.read name)
  | [] => by
    rw [listStrings, leavesFrom]
    rfl
  | v :: rest => by
    rw [listStrings, leavesFrom, itemStrings_eq_mapM name place v,
      listStrings_eq_mapM name (place + 1) rest, List.mapM_append]

end

theorem strings_list : strings name (.list items) = (leaves items).mapM (Leaf.read name) := by
  rw [strings, listStrings_eq_mapM, leaves]

theorem strings_eq_ok_iff {texts : List String} :
    strings name (.list items) = .ok texts ↔
      (leaves items).map (·.value) = texts.map .string := by
  rw [strings_list, mapM_eq_ok_iff]
  simp only [Leaf.read_eq_ok_iff]
  -- string by string, and so list by list
  rw [← List.forall₂_eq_eq_eq, List.forall₂_map_left_iff, List.forall₂_map_right_iff]

theorem strings_failsBy (name : String) (items : List Value) :
    FailsBy (strings name (.list items))
      ((leaves items).findSome? fun l => failure? (l.read name)) := by
  rw [strings_list]
  exact FailsBy.mapM (fun l => FailsBy.own _) _

/-! ## §4 Nesting -/

/-- The leaves in a value, without their places. -/
def leafValues (v : Value) : List Value := (itemLeaves 0 v).map (·.value)

theorem map_value_itemLeaves (place : Nat) (v : Value) :
    (itemLeaves place v).map (·.value) = v.leafValues := by
  unfold leafValues
  cases v with
  | list inner =>
    rw [itemLeaves_list, itemLeaves_list, List.map_map, List.map_map]
    rfl
  | _ =>
    rw [itemLeaves_of_not_isList rfl, itemLeaves_of_not_isList rfl]
    rfl

theorem map_value_leaves (items : List Value) :
    (leaves items).map (·.value) = items.flatMap leafValues := by
  unfold leaves
  generalize 0 = place
  induction items generalizing place with
  | nil => simp [leavesFrom]
  | cons v rest ih =>
    rw [leavesFrom, List.map_append, map_value_itemLeaves, ih, List.flatMap_cons]

theorem leafValues_list (inner : List Value) : leafValues (.list inner) = inner.flatMap leafValues := by
  rw [← map_value_leaves, leafValues, itemLeaves_list, List.map_map]
  rfl

theorem leafValues_string (s : String) : leafValues (.string s) = [.string s] := by
  rw [leafValues, itemLeaves_of_not_isList rfl]
  rfl

/-- A list among the items counts as its own items. -/
theorem map_value_leaves_splice (front inner rest : List Value) :
    (leaves (front ++ .list inner :: rest)).map (·.value) =
      (leaves (front ++ inner ++ rest)).map (·.value) := by
  simp only [map_value_leaves, List.flatMap_append, List.flatMap_cons, leafValues_list,
    List.append_assoc]

theorem map_value_leaves_flat (texts : List String) :
    (leaves (texts.map .string)).map (·.value) = texts.map .string := by
  rw [map_value_leaves, List.flatMap_map]
  simp only [leafValues_string]
  exact List.map_eq_flatMap.symm

/-- **Nested lists are flattened from left to right.** The leaves of a nested list are what stands at
a place in a list that can be reached and is no list itself, in the order of their paths. Its strings
can be listed iff every leaf is one, and are then the leaves in this order; otherwise the first leaf
that is none is reported, by the name that was given, its place in the list that it stands in, and
its type. So a list of strings is left as it is, and it makes no difference whether items stand in a
list of their own, which may be empty. -/
theorem strings_flatten (name : String) (items : List Value) :
    (∀ l, l ∈ leaves items ↔
      (∃ enclosing, at? (.list items) l.list = some (.list enclosing) ∧
        enclosing[l.place]? = some l.value) ∧ l.value.isList = false) ∧
    ((leaves items).Pairwise fun a b => a.path < b.path) ∧
    ((∃ texts, strings name (.list items) = .ok texts) ↔
      ∀ l ∈ leaves items, ∃ s, l.value = .string s) ∧
    (∀ texts, strings name (.list items) = .ok texts ↔
      (leaves items).map (·.value) = texts.map .string) ∧
    (∀ e, strings name (.list items) = .error e ↔
      ∃ pre l post, leaves items = pre ++ l :: post ∧ (∀ l' ∈ pre, ∃ s, l'.value = .string s) ∧
        (∀ s, l.value ≠ .string s) ∧ e = .notString name l.place l.value.typeName) ∧
    (∀ place type, (StringListError.notString name place type).message =
      name ++ "[" ++ place.repr ++ "] must be a string (got " ++ type ++ ")") ∧
    (∀ texts : List String, strings name (.list (texts.map .string)) = .ok texts) ∧
    ∀ front inner rest texts, strings name (.list (front ++ .list inner :: rest)) = .ok texts ↔
      strings name (.list (front ++ inner ++ rest)) = .ok texts := by
  refine ⟨fun l => mem_leaves_iff, pairwise_leaves items, ?succeeds, fun texts => strings_eq_ok_iff,
    ?fails, fun place type => rfl, ?flat, ?nested⟩
  case succeeds =>
    rw [(strings_failsBy name items).exists_ok_iff_forall]
    simp only [Leaf.read_eq_ok_iff]
  case fails =>
    intro e
    rw [(strings_failsBy name items).eq_error_iff_first]
    simp only [Leaf.read_eq_ok_iff, Leaf.read_eq_error_iff]
  case flat =>
    intro texts
    exact strings_eq_ok_iff.mpr (map_value_leaves_flat texts)
  case nested =>
    intro front inner rest texts
    rw [strings_eq_ok_iff, strings_eq_ok_iff, map_value_leaves_splice]

/-- The place is counted in the inner list, and the empty list before it counts as a place. -/
example :
    strings "segments" (.list [.string "a", .list [.list [], .string "b", .int 3], .none]) =
      .error (.notString "segments" 2 "int") := rfl

end NameIndex.Manifest.Value
