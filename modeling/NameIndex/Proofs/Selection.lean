import Mathlib.Data.List.Nodup
import NameIndex.Pattern.Selection
import NameIndex.Proofs.ByteOrder
import NameIndex.Proofs.FirstFailure
import NameIndex.Proofs.StableSort

/-!
# What a selection selects

A selection goes through patterns, sorts what each lists, and passes over what is excluded or was
selected before. All of it follows from one operation on lists: the names of a first list, and after
them those that only a second one has (`Selection.followedBy`). It is associative, so what several
patterns select is what the first of them select followed by what the others select on their own,
wherever one cuts (`Selection.selectFrom_append`). From there the properties are those of one
pattern, carried over one cut (`Selection.Selects.followedBy`).

Nothing is assumed about listing and matching; for the files of a tree, a pattern cannot be listed
iff it is malformed.

## Main definitions

* `Selection.followedBy` — a list, and what another one adds to it.
* `Selection.firstListing` — the place of the first pattern that lists a name.
* `Selection.Selects` — the names that are selected, each once and in their order.

## Main results

* `Selection.selectFrom_append` — the patterns of a selection can be cut anywhere.
* `Selection.selects_of_selectFrom`, `Selection.selectFrom_failsBy` — what is selected, and why
  nothing is.
* `Selection.select_lists_once` — both for every list of patterns.
* `FileTree.select_eq_error_iff` — a selection of files fails for the first malformed pattern.
-/

namespace NameIndex.Selection

variable {ε : Type} {listing : String → Except ε (List String)} {isExcluded : String → Bool}
  {a b c names selected front back patterns : List String} {name pattern : String}

/-! ## §1 Lists that follow one another -/

/-- The names of the first list, and after them those that only the second one has. -/
def followedBy (front back : List String) : List String := front ++ back.filter (· ∉ front)

theorem mem_followedBy : name ∈ followedBy front back ↔ name ∈ front ∨ name ∈ back := by
  unfold followedBy
  rw [List.mem_append, List.mem_filter, decide_eq_true_iff]
  tauto

theorem nodup_followedBy (hfront : front.Nodup) (hback : back.Nodup) :
    (followedBy front back).Nodup := by
  refine hfront.append (hback.filter _) ?_
  intro name hname hfilter
  exact of_decide_eq_true (List.mem_filter.mp hfilter).2 hname

theorem followedBy_assoc : followedBy (followedBy a b) c = followedBy a (followedBy b c) := by
  have hboth : c.filter (· ∉ followedBy a b) = (c.filter (· ∉ b)).filter (· ∉ a) := by
    rw [List.filter_filter]
    apply List.filter_congr
    intro name _
    simp only [mem_followedBy, not_or, Bool.decide_and]
  nth_rewrite 1 [followedBy]
  rw [hboth]
  simp only [followedBy, List.filter_append, List.append_assoc]

theorem followedBy_singleton_of_mem (h : name ∈ selected) : followedBy selected [name] = selected := by
  simp [followedBy, h]

theorem followedBy_singleton_of_not_mem (h : name ∉ selected) :
    followedBy selected [name] = selected ++ [name] := by
  simp [followedBy, h]

theorem nil_followedBy : followedBy [] back = back := by simp [followedBy]

/-! ## §2 The names of one pattern -/

/-- What names add to a selection is what they select on their own. -/
theorem extend_eq_followedBy :
    extend isExcluded selected names = followedBy selected (extend isExcluded [] names) := by
  induction names generalizing selected with
  | nil => simp [extend, followedBy]
  | cons name rest ih =>
    by_cases hexcluded : isExcluded name
    · rw [extend, if_pos (.inr hexcluded), extend, if_pos (.inr hexcluded), ih]
    · have halone : extend isExcluded [] (name :: rest) =
          followedBy [name] (extend isExcluded [] rest) := by
        rw [extend, if_neg (by simp [hexcluded]), ih]
        rfl
      rw [halone, ← followedBy_assoc]
      by_cases hmem : name ∈ selected
      · rw [extend, if_pos (.inl hmem), followedBy_singleton_of_mem hmem, ih]
      · rw [extend, if_neg (by simp [hmem, hexcluded]), followedBy_singleton_of_not_mem hmem, ih]

theorem extend_nil_cons :
    extend isExcluded [] (name :: names) =
      if isExcluded name then extend isExcluded [] names
      else followedBy [name] (extend isExcluded [] names) := by
  by_cases hexcluded : isExcluded name
  · rw [extend, if_pos (.inr hexcluded), if_pos hexcluded]
  · rw [extend, if_neg (by simp [hexcluded]), if_neg hexcluded, extend_eq_followedBy]
    rfl

theorem mem_extend_nil :
    name ∈ extend isExcluded [] names ↔ name ∈ names ∧ isExcluded name = false := by
  induction names with
  | nil => simp [extend]
  | cons first rest ih =>
    rw [extend_nil_cons, List.mem_cons]
    split
    · next hexcluded =>
      rw [ih]
      constructor
      · exact fun h => ⟨.inr h.1, h.2⟩
      · rintro ⟨rfl | hrest, hkept⟩
        · simp [hexcluded] at hkept
        · exact ⟨hrest, hkept⟩
    · next hkept =>
      rw [mem_followedBy, ih, List.mem_singleton, or_and_right]
      apply or_congr_left
      constructor
      · rintro rfl
        exact ⟨rfl, by simpa using hkept⟩
      · exact And.left

theorem nodup_extend_nil : (extend isExcluded [] names).Nodup := by
  induction names with
  | nil => exact List.nodup_nil
  | cons name rest ih =>
    rw [extend_nil_cons]
    split
    · exact ih
    · exact nodup_followedBy (List.nodup_singleton name) ih

theorem extend_nil_sublist : (extend isExcluded [] names).Sublist names := by
  induction names with
  | nil => exact List.Sublist.refl []
  | cons name rest ih =>
    rw [extend_nil_cons]
    split
    · exact ih.cons name
    · exact (List.filter_sublist.trans ih).cons_cons name

theorem mem_sorted : name ∈ sorted names ↔ name ∈ names := List.mem_mergeSort

theorem pairwise_sorted (names : List String) : (sorted names).Pairwise fun a b => ¬ b < a := by
  have hascending : (sorted names).Pairwise fun a b => !(b < a) := by
    apply List.pairwise_mergeSort
    · intro a b c hab hbc
      simp only [Bool.not_eq_true', decide_eq_false_iff_not, String.not_lt] at hab hbc ⊢
      exact String.le_trans hab hbc
    · intro a b
      simp only [Bool.or_eq_true, Bool.not_eq_true', decide_eq_false_iff_not, String.not_lt]
      exact String.le_total a b
  exact hascending.imp fun hab => by simpa using hab

/-! ## §3 Cutting the patterns -/

/-- What patterns add to a selection is what they select on their own. -/
theorem selectFrom_eq_followedBy :
    selectFrom listing isExcluded selected patterns = (do
      let names ← selectFrom listing isExcluded [] patterns
      return followedBy selected names) := by
  induction patterns generalizing selected with
  | nil => simp [selectFrom, followedBy, bind, Except.bind, pure, Except.pure]
  | cons pattern rest ih =>
    rw [selectFrom, selectFrom]
    cases listing pattern with
    | error e => rfl
    | ok names =>
      -- both sides go on with the rest alone
      show selectFrom _ _ _ rest = (do
        let names ← selectFrom _ _ (extend isExcluded [] (sorted names)) rest
        return followedBy selected names)
      rw [ih, @ih (extend isExcluded [] (sorted names))]
      cases selectFrom listing isExcluded [] rest with
      | error e => rfl
      | ok more =>
        show Except.ok _ = Except.ok _
        rw [extend_eq_followedBy, followedBy_assoc]

theorem selectFrom_cons :
    selectFrom listing isExcluded [] (pattern :: patterns) = (do
      let names ← listing pattern
      let more ← selectFrom listing isExcluded [] patterns
      return followedBy (extend isExcluded [] (sorted names)) more) := by
  rw [selectFrom]
  apply bind_congr
  intro names
  exact selectFrom_eq_followedBy

/-- **The patterns can be cut anywhere**: what the later ones select alone follows what the earlier
ones select. -/
theorem selectFrom_append {later : List String} :
    selectFrom listing isExcluded [] (patterns ++ later) = (do
      let front ← selectFrom listing isExcluded [] patterns
      let back ← selectFrom listing isExcluded [] later
      return followedBy front back) := by
  induction patterns with
  | nil =>
    show _ = (do
      let back ← selectFrom listing isExcluded [] later
      return followedBy [] back)
    simp [nil_followedBy]
  | cons pattern rest ih =>
    rw [List.cons_append, selectFrom_cons, selectFrom_cons, ih]
    simp only [bind_assoc, pure_bind, followedBy_assoc]

/-! ## §4 What is selected -/

/-- The pattern lists the name. -/
def lists (listing : String → Except ε (List String)) (pattern name : String) : Bool :=
  match listing pattern with
  | .ok names => name ∈ names
  | .error _ => false

/-- The place of the first pattern that lists the name. -/
def firstListing (listing : String → Except ε (List String)) (patterns : List String)
    (name : String) : Nat :=
  patterns.findIdx (lists listing · name)

/-- The names are those that some pattern lists and nothing excludes, each of them once, by the first
pattern that lists them and within one pattern by their bytes. -/
structure Selects (listing : String → Except ε (List String)) (isExcluded : String → Bool)
    (patterns names : List String) : Prop where
  nodup : names.Nodup
  mem_iff : ∀ name, name ∈ names ↔
    (∃ pattern ∈ patterns, lists listing pattern name) ∧ isExcluded name = false
  ordered : names.Pairwise fun a b =>
    firstListing listing patterns a < firstListing listing patterns b ∨
      firstListing listing patterns a = firstListing listing patterns b ∧ Text.bytes a < Text.bytes b

theorem lists_iff :
    lists listing pattern name ↔ ∃ names, listing pattern = .ok names ∧ name ∈ names := by
  unfold lists
  cases listing pattern with
  | error e => simp
  | ok names => simp

theorem selects_nil : Selects listing isExcluded [] [] where
  nodup := List.nodup_nil
  mem_iff := by simp
  ordered := List.Pairwise.nil

/-- One pattern selects what it lists, in the order of the bytes. -/
theorem selects_singleton (h : listing pattern = .ok names) :
    Selects listing isExcluded [pattern] (extend isExcluded [] (sorted names)) where
  nodup := nodup_extend_nil
  mem_iff name := by
    rw [mem_extend_nil, mem_sorted]
    simp [lists, h]
  ordered := by
    have hascending : (extend isExcluded [] (sorted names)).Pairwise fun a b => ¬ b < a :=
      (pairwise_sorted names).sublist extend_nil_sublist
    refine (hascending.and nodup_extend_nil).imp_of_mem ?_
    rintro a b ha hb ⟨hle, hne⟩
    have hplace : ∀ name ∈ extend isExcluded [] (sorted names),
        firstListing listing [pattern] name = 0 := by
      intro name hname
      rw [mem_extend_nil, mem_sorted] at hname
      simp [firstListing, lists, h, hname.1]
    refine .inr ⟨(hplace a ha).trans (hplace b hb).symm, Text.lt_iff_bytes_lt.mp ?_⟩
    by_contra hnot
    exact hne (String.le_antisymm (String.not_lt.mp hle) (String.not_lt.mp hnot))

namespace Selects

variable {later : List String}

theorem firstListing_lt (h : Selects listing isExcluded patterns front) (hname : name ∈ front) :
    firstListing listing patterns name < patterns.length := by
  obtain ⟨⟨pattern, hpattern, hlists⟩, -⟩ := (h.mem_iff name).mp hname
  exact List.findIdx_lt_length_of_exists ⟨pattern, hpattern, hlists⟩

/-- A name that is selected keeps its place when more patterns follow. -/
theorem firstListing_append_of_mem (h : Selects listing isExcluded patterns front)
    (hname : name ∈ front) :
    firstListing listing (patterns ++ later) name = firstListing listing patterns name := by
  have hplace := h.firstListing_lt hname
  unfold firstListing at hplace ⊢
  rw [List.findIdx_append, if_pos hplace]

/-- A name that is neither selected nor excluded can only be listed later. -/
theorem firstListing_append_of_not_mem (h : Selects listing isExcluded patterns front)
    (hname : name ∉ front) (hkept : isExcluded name = false) :
    firstListing listing (patterns ++ later) name =
      firstListing listing later name + patterns.length := by
  have hplace : ¬ firstListing listing patterns name < patterns.length := by
    intro hlt
    obtain ⟨pattern, hpattern, hlists⟩ := List.findIdx_lt_length.mp hlt
    exact hname ((h.mem_iff name).mpr ⟨⟨pattern, hpattern, hlists⟩, hkept⟩)
  unfold firstListing at hplace ⊢
  rw [List.findIdx_append, if_neg hplace]

/-- **One cut**: what follows is selected by later patterns. -/
theorem followedBy (hfront : Selects listing isExcluded patterns front)
    (hback : Selects listing isExcluded later back) :
    Selects listing isExcluded (patterns ++ later) (followedBy front back) where
  nodup := nodup_followedBy hfront.nodup hback.nodup
  mem_iff name := by
    rw [mem_followedBy, hfront.mem_iff, hback.mem_iff, ← or_and_right]
    simp only [List.mem_append, or_and_right, exists_or]
  ordered := by
    -- the names that are added were excluded from or missing in the first part
    have hadded : ∀ name ∈ back.filter (· ∉ front),
        firstListing listing (patterns ++ later) name =
          firstListing listing later name + patterns.length := by
      intro name hname
      obtain ⟨hmem, hnew⟩ := List.mem_filter.mp hname
      exact hfront.firstListing_append_of_not_mem (of_decide_eq_true hnew)
        ((hback.mem_iff name).mp hmem).2
    refine List.pairwise_append.mpr ⟨?earlier, ?later, ?across⟩
    case earlier =>
      apply hfront.ordered.imp_of_mem
      intro a b ha hb hab
      rwa [hfront.firstListing_append_of_mem ha, hfront.firstListing_append_of_mem hb]
    case later =>
      apply (hback.ordered.filter _).imp_of_mem
      intro a b ha hb hab
      rw [hadded a ha, hadded b hb]
      rcases hab with hlt | ⟨heq, hlt⟩
      · exact .inl (by omega)
      · exact .inr ⟨by omega, hlt⟩
    case across =>
      intro a ha b hb
      have hlt := hfront.firstListing_lt ha
      rw [hfront.firstListing_append_of_mem ha, hadded b hb]
      exact .inl (by omega)

end Selects

/-- **What is selected**, pattern by pattern. -/
theorem selects_of_selectFrom (h : selectFrom listing isExcluded [] patterns = .ok names) :
    Selects listing isExcluded patterns names := by
  induction patterns generalizing names with
  | nil =>
    obtain rfl := Except.ok.inj h
    exact selects_nil
  | cons pattern rest ih =>
    rw [selectFrom_cons] at h
    obtain ⟨listed, hlisted, h⟩ := bind_eq_ok_iff.mp h
    obtain ⟨more, hmore, h⟩ := bind_eq_ok_iff.mp h
    obtain rfl := Except.ok.inj h
    exact (selects_singleton hlisted).followedBy (ih hmore)

/-- **Why nothing is selected**: the first pattern that cannot be listed. -/
theorem selectFrom_failsBy :
    FailsBy (selectFrom listing isExcluded [] patterns)
      (patterns.findSome? fun pattern => failure? (listing pattern)) := by
  induction patterns with
  | nil => exact FailsBy.ok []
  | cons pattern rest ih =>
    rw [selectFrom_cons, FailsBy.findSome?_cons]
    exact (FailsBy.own _).bind fun listed => ih.bind fun more => FailsBy.ok _

/-- **Each selected name is listed once, in the documented order.** A selection fails iff one of its
patterns cannot be listed, with the failure of the first such pattern. Otherwise it has exactly the
names that some pattern lists and no exclusion matches, without repetition, by the first pattern that
lists them and in byte order within one pattern. So what more patterns select is what is selected
without them, followed by what they select and is not there yet. -/
theorem select_lists_once (listing : String → Except ε (List String))
    (matching : String → String → Bool) (excludes : List String) :
    (∀ patterns, (∃ e, select listing matching patterns excludes = .error e) ↔
      ∃ pattern ∈ patterns, ∃ e, listing pattern = .error e) ∧
    (∀ patterns e, select listing matching patterns excludes = .error e ↔
      ∃ pre pattern post, patterns = pre ++ pattern :: post ∧
        (∀ earlier ∈ pre, ∃ names, listing earlier = .ok names) ∧ listing pattern = .error e) ∧
    (∀ patterns names, select listing matching patterns excludes = .ok names →
      names.Nodup ∧
      (∀ name, name ∈ names ↔
        (∃ pattern ∈ patterns, ∃ listed, listing pattern = .ok listed ∧ name ∈ listed) ∧
          ∀ exclude ∈ excludes, matching exclude name = false) ∧
      names.Pairwise fun a b =>
        firstListing listing patterns a < firstListing listing patterns b ∨
          firstListing listing patterns a = firstListing listing patterns b ∧
            Text.bytes a < Text.bytes b) ∧
    ∀ p q, select listing matching (p ++ q) excludes = (do
      let front ← select listing matching p excludes
      let back ← select listing matching q excludes
      return front ++ back.filter (· ∉ front)) := by
  refine ⟨?fails, ?first, ?selected, fun p q => selectFrom_append⟩
  case fails =>
    intro patterns
    simp only [select, selectFrom_failsBy _, ← Option.isSome_iff_exists, List.findSome?_isSome_iff]
    simp only [Option.isSome_iff_exists, failure?_eq_some_iff]
  case first =>
    intro patterns e
    rw [select, selectFrom_failsBy, List.findSome?_eq_some_iff]
    simp only [failure?_eq_some_iff, failure?_eq_none_iff, and_comm]
  case selected =>
    intro patterns names h
    obtain ⟨hnodup, hmem, hordered⟩ := selects_of_selectFrom h
    refine ⟨hnodup, fun name => ?_, hordered⟩
    simp only [hmem, lists_iff, List.any_eq_false, Bool.not_eq_true]

/-- Three files, one of them a draft. -/
def Sample.drafted : FileTree :=
  ⟨[(["a.json".toList], .file (.text "")), (["b.json".toList], .file (.text "")),
    (["draft.json".toList], .file (.text ""))], []⟩

/-- Two patterns that both list `b.json`, and an exclusion: the patterns can be listed, so the names
are selected, each once and without the draft. -/
theorem select_lists_once_drafted :
    ∃ names, Sample.drafted.select [] ["b*", "*.json"] ["draft*"] = .ok names ∧ names.Nodup ∧
      "a.json" ∈ names ∧ "b.json" ∈ names ∧ "draft.json" ∉ names := by
  have hfront : Sample.drafted.listPattern [] "b*" = .ok ["b.json"] := by cbv
  have hall : Sample.drafted.listPattern [] "*.json" = .ok ["a.json", "b.json", "draft.json"] := by
    cbv
  have hdraft : Pattern.isMatch "draft*" "draft.json" = true := by cbv
  have ha : Pattern.isMatch "draft*" "a.json" = false := by cbv
  have hb : Pattern.isMatch "draft*" "b.json" = false := by cbv
  obtain ⟨hfails, -, hselected, -⟩ :=
    select_lists_once (Sample.drafted.listPattern []) Pattern.isMatch ["draft*"]
  unfold FileTree.select
  cases h : select (Sample.drafted.listPattern []) Pattern.isMatch ["b*", "*.json"] ["draft*"] with
  | error e =>
    have hfail := (hfails _).mp ⟨e, h⟩
    simp [hfront, hall] at hfail
  | ok names =>
    obtain ⟨hnodup, hmem, -⟩ := hselected _ _ h
    refine ⟨names, rfl, hnodup, ?_, ?_, ?_⟩
    · simp [hmem, hfront, hall, ha]
    · simp [hmem, hfront, hall, hb]
    · simp [hmem, hdraft]

end NameIndex.Selection

/-! ## §5 The files of a tree -/

namespace NameIndex.FileTree

variable {tree : FileTree} {directory : List (List Char)} {pattern : String}
  {patterns excludes : List String} {e : PatternError}

theorem listPattern_eq_error_iff :
    tree.listPattern directory pattern = .error e ↔ Pattern.parse? pattern = none ∧ ⟨pattern⟩ = e := by
  unfold listPattern
  split
  · next p hp => simp [hp]
  · next hp => simp [hp]

theorem exists_listPattern_iff :
    (∃ names, tree.listPattern directory pattern = .ok names) ↔ Pattern.parse? pattern ≠ none := by
  unfold listPattern
  split
  · next p hp => simp [hp]
  · next hp => simp [hp]

/-- **The first malformed pattern is named**, whatever the tree has. -/
theorem select_eq_error_iff :
    tree.select directory patterns excludes = .error e ↔
      patterns.find? (fun pattern => (Pattern.parse? pattern).isNone) = some e.pattern := by
  rw [select, Selection.select, Selection.selectFrom_failsBy, List.findSome?_eq_some_iff,
    List.find?_eq_some_iff_append]
  simp only [failure?_eq_some_iff, failure?_eq_none_iff, listPattern_eq_error_iff,
    exists_listPattern_iff, Bool.not_eq_true', Option.isNone_eq_false_iff, Option.isNone_iff_eq_none,
    Option.isSome_iff_ne_none]
  constructor
  · rintro ⟨pre, pattern, post, hsplit, ⟨hmalformed, rfl⟩, hpre⟩
    exact ⟨hmalformed, pre, post, hsplit, hpre⟩
  · rintro ⟨hmalformed, pre, post, hsplit, hpre⟩
    exact ⟨pre, e.pattern, post, hsplit, ⟨hmalformed, rfl⟩, hpre⟩

end NameIndex.FileTree
