import Mathlib.Algebra.Order.Ring.Nat
import Mathlib.Data.Finset.Card
import NameIndex.Proofs.Interning

/-!
# Tables of names in use

A stored table answers two kinds of calls: it interns a name, or it says whether a name is interned.
The answers come from the map, and handles are led back through the list, so everything that calls do
is said here of the two structures and not of a table that is known to be sound.

What is answered once is answered for good, whatever the two structures hold: the map is only added
to, where it has no entry, and the list grows at its end. That the map and the list lead to each
other, and that no handle is skipped, is what a step has to keep
(`AtomTable.Store.Sound.intern`), and what a sequence of calls keeps by induction
(`AtomTable.Store.Sound.calls`). The handle zero and the handles behind the last place are nobody's.
The placeholder at place zero is the empty text, which is also a name like any other, and gets a
handle when it is interned.

## Main definitions

* `AtomTable.Call`, `AtomTable.Store.calls` — calls as data, with what they answer.
* `AtomTable.interned` — the names that a sequence of calls interns.

## Main results

* `AtomTable.Store.Sound.lookup?_eq_some_iff` — the map and the list lead to each other.
* `AtomTable.Store.answer_intern`, `AtomTable.Store.answer_lookup` — an answer is never out of date.
* `AtomTable.Store.numbering_of_calls` — handles and names are in a one-to-one relation that only
  grows.
-/

namespace NameIndex.AtomTable

/-! ## §1 Calls -/

/-- A call on a table. -/
inductive Call where
  /-- Asks for the handle of a name, which is new to the table or not. -/
  | intern (name : String)
  /-- Asks for the handle of a name if there is one. -/
  | lookup (name : String)
  deriving Repr, DecidableEq

/-- The name that a call interns. -/
def Call.interned? : Call → Option String
  | .intern name => some name
  | .lookup _ => none

/-- The names that a sequence of calls interns, as often as it does. -/
def interned (sequence : List Call) : List String := sequence.filterMap Call.interned?

theorem mem_interned {sequence : List Call} {s : String} :
    s ∈ interned sequence ↔ .intern s ∈ sequence := by
  rw [interned, List.mem_filterMap]
  constructor
  · rintro ⟨c, hc, hname⟩
    cases c with
    | intern name =>
      obtain rfl := Option.some.inj hname
      exact hc
    | lookup name => cases hname
  · intro h
    exact ⟨.intern s, h, rfl⟩

namespace Store

variable {t t' : Store} {name s : String} {a : Atom} {sequence : List Call}
  {answers : List (Option Atom)}

/-- The answer to a call, and the store that the call leaves. -/
def call (t : Store) : Call → Option Atom × Store
  | .intern name => (some (t.intern name).1, (t.intern name).2)
  | .lookup name => (t.lookup? name, t)

/-- The answers to a sequence of calls, and the store that the last one leaves. -/
def calls (t : Store) : List Call → List (Option Atom) × Store
  | [] => ([], t)
  | c :: rest =>
    let (answer, t) := t.call c
    let (answers, t) := t.calls rest
    (answer :: answers, t)

theorem calls_cons (t : Store) (c : Call) (rest : List Call) :
    t.calls (c :: rest) =
      ((t.call c).1 :: ((t.call c).2.calls rest).1, ((t.call c).2.calls rest).2) := rfl

theorem calls_append (t : Store) (before after : List Call) :
    t.calls (before ++ after) =
      ((t.calls before).1 ++ ((t.calls before).2.calls after).1,
        ((t.calls before).2.calls after).2) := by
  induction before generalizing t with
  | nil => rfl
  | cons c before ih => rw [List.cons_append, calls_cons, calls_cons, ih, List.cons_append]

theorem length_calls (t : Store) (sequence : List Call) :
    (t.calls sequence).1.length = sequence.length := by
  induction sequence generalizing t with
  | nil => rfl
  | cons c rest ih => rw [calls_cons, List.length_cons, ih, List.length_cons]

/-- The answer to a call in the middle of a sequence is the one that the store of that moment
gives. -/
theorem answer_calls (t : Store) (before : List Call) (c : Call) (after : List Call) :
    (t.calls (before ++ c :: after)).1[before.length]? = some ((t.calls before).2.call c).1 := by
  -- the earlier calls have one answer each
  have hlength := length_calls t before
  rw [calls_append, List.getElem?_append_right hlength.le, hlength, Nat.sub_self, calls_cons]
  rfl

/-! ## §2 Answers are for good -/

/-- What interning answers is what the map has for the name from then on. -/
theorem lookup?_intern (t : Store) (s : String) :
    (t.intern s).2.lookup? s = some (t.intern s).1 := by
  unfold intern
  split
  · next a hknown => exact hknown
  · exact Std.ExtTreeMap.getElem?_insert_self

/-- Interning a name leaves the entries of the map as they are. -/
theorem lookup?_intern_of_eq_some (h : t.lookup? s = some a) :
    (t.intern name).2.lookup? s = some a := by
  unfold intern
  split
  · exact h
  · next hnew =>
    -- the name that is put in has no entry, and the other one has
    have hne : name ≠ s := by
      rintro rfl
      rw [hnew] at h
      cases h
    show (t.ids.insert name _)[s]? = some a
    rw [Std.ExtTreeMap.getElem?_insert, if_neg (by simpa using hne)]
    exact h

theorem reverse_prefix_intern (t : Store) (name : String) :
    t.reverse <+: (t.intern name).2.reverse := by
  unfold intern
  split
  · exact List.prefix_refl t.reverse
  · exact List.prefix_append t.reverse [name]

/-- **Handles are for good**: whatever is called, a name keeps the handle it has. -/
theorem lookup?_calls_of_eq_some (h : t.lookup? s = some a) (later : List Call) :
    (t.calls later).2.lookup? s = some a := by
  induction later generalizing t with
  | nil => exact h
  | cons c later ih =>
    rw [calls_cons]
    cases c with
    | intern name => exact ih (lookup?_intern_of_eq_some h)
    | lookup name => exact ih h

theorem reverse_prefix_calls (t : Store) (later : List Call) :
    t.reverse <+: (t.calls later).2.reverse := by
  induction later generalizing t with
  | nil => exact List.prefix_refl t.reverse
  | cons c later ih =>
    rw [calls_cons]
    cases c with
    | intern name => exact (reverse_prefix_intern t name).trans (ih (t.intern name).2)
    | lookup name => exact ih t

theorem name_eq_ok_iff : t.name a = .ok s ↔ a ≠ Atom.none ∧ t.reverse[a.toNat]? = some s := by
  have hname? : t.name? a = some s ↔ a ≠ Atom.none ∧ t.reverse[a.toNat]? = some s := by
    unfold name?
    split
    · next hnobody =>
      -- a place behind the last holds nothing
      constructor
      · rintro ⟨⟩
      · rintro ⟨hne, hplace⟩
        rw [List.getElem?_eq_none (hnobody.resolve_left hne)] at hplace
        cases hplace
    · next hplaced => exact (and_iff_right (not_or.mp hplaced).1).symm
  rw [← hname?, name]
  cases t.name? a with
  | none => simp
  | some n => simp

/-- **Nobody's handles**: zero and those behind the last place. -/
theorem name_eq_error_iff {f : Fault} :
    t.name a = .error f ↔
      (a = Atom.none ∨ t.reverse.length ≤ a.toNat) ∧ f = .atomOutOfBounds a t.size := by
  have hname? : t.name? a = none ↔ a = Atom.none ∨ t.reverse.length ≤ a.toNat := by
    unfold name?
    split
    · next hnobody => simp [hnobody]
    · next hplaced =>
      obtain ⟨hne, hlt⟩ := not_or.mp hplaced
      simp [hne, hlt]
  rw [← hname?, name]
  cases t.name? a with
  | none => simp [eq_comm]
  | some n => simp

/-- Whatever is called, a handle keeps its name. -/
theorem name_calls_of_eq_ok (h : t.name a = .ok s) (later : List Call) :
    (t.calls later).2.name a = .ok s := by
  obtain ⟨hne, hplace⟩ := name_eq_ok_iff.mp h
  obtain ⟨hlt, rfl⟩ := List.getElem?_eq_some_iff.mp hplace
  exact name_eq_ok_iff.mpr ⟨hne, List.prefix_iff_getElem?.mp (reverse_prefix_calls t later) _ hlt⟩

/-- **Interning answers for good**, with the handle that the name has in the end. -/
theorem answer_intern (t : Store) (before : List Call) (s : String) (after : List Call) :
    (t.calls (before ++ .intern s :: after)).1[before.length]? =
      some ((t.calls (before ++ .intern s :: after)).2.lookup? s) := by
  rw [answer_calls, calls_append, calls_cons]
  exact congrArg some (lookup?_calls_of_eq_some (lookup?_intern _ s) after).symm

/-- **A question answers for good** if the name has a handle when it is asked. -/
theorem answer_lookup (t : Store) (before : List Call) (s : String) (after : List Call) :
    (t.calls (before ++ .lookup s :: after)).1[before.length]? =
      some (if ((t.calls before).2.lookup? s).isSome then
        (t.calls (before ++ .lookup s :: after)).2.lookup? s else none) := by
  rw [answer_calls, calls_append, calls_cons]
  show some ((t.calls before).2.lookup? s) =
    some (if ((t.calls before).2.lookup? s).isSome then
      ((t.calls before).2.calls after).2.lookup? s else none)
  cases hknown : (t.calls before).2.lookup? s with
  | none => rfl
  | some a => rw [lookup?_calls_of_eq_some hknown after]; rfl

/-! ## §3 The two directions stay together -/

/-- **What calls keep**: the map and the list go on saying the same. -/
theorem Sound.calls (h : t.Sound) (sequence : List Call) : (t.calls sequence).2.Sound := by
  induction sequence generalizing t with
  | nil => exact h
  | cons c rest ih =>
    rw [calls_cons]
    cases c with
    | intern name => exact ih (h.intern name)
    | lookup name => exact ih h

theorem Sound.size_eq (h : t.Sound) : t.size = t.names.length := by
  rw [size, h.length_reverse, Nat.add_sub_cancel]

/-- In the list a name stands one place further than among the names. -/
theorem Sound.getElem?_reverse (h : t.Sound) (i : Nat) : t.reverse[i + 1]? = t.names[i]? := by
  rw [h.placeholder, List.getElem?_cons_succ]

/-- In the list of names a name is found at its place and at no other. -/
theorem Sound.idxOf?_eq_some_iff (h : t.Sound) {i : Nat} :
    t.names.idxOf? s = some i ↔ t.names[i]? = some s := by
  rw [List.idxOf?_eq_some_iff, List.getElem?_eq_some_iff]
  constructor
  · rintro ⟨hlt, hat, -⟩
    exact ⟨hlt, hat⟩
  · rintro ⟨hlt, hat⟩
    refine ⟨hlt, hat, fun j hj heq => ?_⟩
    -- the name at an earlier place would be a repetition
    exact absurd (h.distinct.getElem_inj_iff.mp (heq.trans hat.symm)) (by omega)

/-- **The map and the list lead to each other**: the map has a handle for a name iff the handle is not
zero and the list has the name at its place, in a store that is no larger than the words reach. -/
theorem Sound.lookup?_eq_some_iff (h : t.Sound) (hsize : t.size < UInt32.size) :
    t.lookup? s = some a ↔ 1 ≤ a.toNat ∧ t.reverse[a.toNat]? = some s := by
  have hfound : t.lookup? s = (t.names.idxOf? s).map handle := h.found s
  rw [hfound, Option.map_eq_some_iff]
  rw [h.size_eq] at hsize
  constructor
  · rintro ⟨i, hi, rfl⟩
    rw [h.idxOf?_eq_some_iff] at hi
    have hlt : i < t.names.length := (List.getElem?_eq_some_iff.mp hi).1
    -- places fit into the words
    rw [toNat_handle (by omega), h.getElem?_reverse]
    exact ⟨by omega, hi⟩
  · rintro ⟨hpos, hplace⟩
    have hback : a.toNat - 1 + 1 = a.toNat := Nat.sub_add_cancel hpos
    refine ⟨a.toNat - 1, ?_, ?_⟩
    · rw [h.idxOf?_eq_some_iff, ← h.getElem?_reverse, hback, hplace]
    · rw [handle, hback, UInt32.ofNat_toNat]

/-- A handle in use leads to a name that leads back to it. -/
theorem Sound.exists_name_of_le (h : t.Sound) (hsize : t.size < UInt32.size)
    (hpos : 1 ≤ a.toNat) (hle : a.toNat ≤ t.size) :
    ∃ s, t.name a = .ok s ∧ t.lookup? s = some a := by
  have hlength := h.length_reverse
  rw [h.size_eq] at hle
  have hlt : a.toNat < t.reverse.length := by omega
  have hplace := List.getElem?_eq_getElem hlt
  have hne : a ≠ Atom.none := by
    rintro rfl
    exact absurd hpos (by decide)
  exact ⟨t.reverse[a.toNat], name_eq_ok_iff.mpr ⟨hne, hplace⟩,
    (h.lookup?_eq_some_iff hsize).mpr ⟨hpos, hplace⟩⟩

/-- **The handles in use** are the numbers from one to the number of names. -/
theorem Sound.exists_lookup?_iff (h : t.Sound) (hsize : t.size < UInt32.size) :
    (∃ s, t.lookup? s = some a) ↔ 1 ≤ a.toNat ∧ a.toNat ≤ t.size := by
  constructor
  · rintro ⟨s, hs⟩
    obtain ⟨hpos, hplace⟩ := (h.lookup?_eq_some_iff hsize).mp hs
    have hlt := (List.getElem?_eq_some_iff.mp hplace).1
    rw [h.length_reverse, ← h.size_eq] at hlt
    omega
  · rintro ⟨hpos, hle⟩
    obtain ⟨s, -, hs⟩ := h.exists_name_of_le hsize hpos hle
    exact ⟨s, hs⟩

theorem size_intern_le (t : Store) (s : String) : (t.intern s).2.size ≤ t.size + 1 := by
  unfold intern
  split
  · exact Nat.le_succ t.size
  · show (t.reverse ++ [s]).length - 1 ≤ t.reverse.length - 1 + 1
    rw [List.length_append, List.length_singleton]
    omega

/-- What interning a name answers leads back to the name, also when the name is the last for which
there is a handle. -/
theorem Sound.name_intern (h : t.Sound) (hsize : t.size + 1 < UInt32.size) (s : String) :
    (t.intern s).2.name (t.intern s).1 = .ok s := by
  have hgrow := size_intern_le t s
  have hfound := lookup?_intern t s
  rw [(h.intern s).lookup?_eq_some_iff (by omega)] at hfound
  obtain ⟨hpos, hplace⟩ := hfound
  refine name_eq_ok_iff.mpr ⟨?_, hplace⟩
  intro hzero
  rw [hzero] at hpos
  exact absurd hpos (by decide)

/-! ## §4 The names after calls -/

/-- Questions leave no trace: calls leave the store of the table that the interned names alone
leave. -/
theorem calls_snd (whole : AtomTable) (sequence : List Call) :
    (whole.store.calls sequence).2 = (whole.internAll (interned sequence)).2.store := by
  induction sequence generalizing whole with
  | nil => rfl
  | cons c rest ih =>
    cases c with
    | intern name => exact ih (whole.intern name).2
    | lookup name =>
      -- the question is not in the list of interned names, and the store stays
      exact ih whole

/-- **The names after calls** are those that were interned, each once, where it first was. -/
theorem names_calls (sequence : List Call) :
    (empty.calls sequence).2.names = (interned sequence).eraseDups := by
  -- a fresh table knows none of the names
  have hnone : (interned sequence).filter (· ∉ AtomTable.empty.names) = interned sequence :=
    List.filter_eq_self.mpr fun _ _ => decide_eq_true (List.not_mem_nil)
  show (AtomTable.empty.store.calls sequence).2.names = _
  rw [calls_snd]
  show (AtomTable.empty.internAll (interned sequence)).2.names = _
  rw [names_internAll, hnone]
  rfl

theorem isSome_lookup?_calls_iff :
    ((empty.calls sequence).2.lookup? s).isSome ↔ .intern s ∈ sequence := by
  have hfound : (empty.calls sequence).2.lookup? s = _ := (Sound.empty.calls sequence).found s
  rw [hfound, Option.isSome_map, List.isSome_idxOf?, names_calls, List.mem_eraseDups, mem_interned]

theorem size_calls (sequence : List Call) :
    (empty.calls sequence).2.size = (interned sequence).toFinset.card := by
  have hsound := Sound.empty.calls sequence
  -- the names are listed without repetition, so their number is that of a set
  rw [hsound.size_eq, ← List.toFinset_card_of_nodup hsound.distinct]
  congr 1
  ext s
  rw [List.mem_toFinset, List.mem_toFinset, names_calls, List.mem_eraseDups]

/-! ## §5 The numbering -/

/-- **Handles and names are in a one-to-one relation that only grows.** Calls on a fresh store, with
fewer different names than there are handles, leave as many names as were interned. They are
numbered from one in the order of first interning. The map leads from a name to a handle iff the list
leads from the handle to the name; a name is found if it was interned, and a handle has a name unless
it is zero or behind the last. What a call answers is so in the end, and whatever is called later
leaves every handle with its name. -/
theorem numbering_of_calls (hcalls : empty.calls sequence = (answers, t))
    (hfew : (interned sequence).toFinset.card < 2 ^ 32 - 1) :
    t.size = (interned sequence).toFinset.card ∧
    (∀ (i : Nat) s, (interned sequence).eraseDups[i]? = some s →
      t.lookup? s = some (UInt32.ofNat (i + 1))) ∧
    (∀ s (a : Atom), t.ids[s]? = some a ↔ 1 ≤ a.toNat ∧ t.reverse[a.toNat]? = some s) ∧
    (∀ a, (∃ s, t.lookup? s = some a) ↔ 1 ≤ a.toNat ∧ a.toNat ≤ t.size) ∧
    (∀ s, (t.intern s).2.name (t.intern s).1 = .ok s) ∧
    (∀ a, 1 ≤ a.toNat → a.toNat ≤ t.size → ∃ s, t.name a = .ok s ∧ t.lookup? s = some a) ∧
    (∀ s, (t.lookup? s).isSome ↔ .intern s ∈ sequence) ∧
    (∀ a, (∃ f, t.name a = .error f) ↔ a = 0 ∨ t.size < a.toNat) ∧
    (∀ before s after, sequence = before ++ .intern s :: after →
      answers[before.length]? = some (t.lookup? s)) ∧
    (∀ before s after, sequence = before ++ .lookup s :: after →
      answers[before.length]? =
        some (if .intern s ∈ before then t.lookup? s else none)) ∧
    ∀ later : List Call,
      (∀ s a, t.lookup? s = some a → (t.calls later).2.lookup? s = some a) ∧
      ∀ a s, t.name a = .ok s → (t.calls later).2.name a = .ok s := by
  obtain rfl : (empty.calls sequence).1 = answers := congrArg Prod.fst hcalls
  obtain rfl : (empty.calls sequence).2 = t := congrArg Prod.snd hcalls
  set t := (empty.calls sequence).2
  have hsound : t.Sound := Sound.empty.calls sequence
  have hsize : t.size = (interned sequence).toFinset.card := size_calls sequence
  -- there is a handle left for one name more
  have hwords : t.size + 1 < UInt32.size := by
    have : UInt32.size = 2 ^ 32 := rfl
    omega
  refine ⟨hsize, ?order, ?inverse, ?range, hsound.name_intern hwords, ?back,
    fun s => isSome_lookup?_calls_iff, ?fault, ?interned, ?asked, ?later⟩
  case order =>
    intro i s hi
    rw [← names_calls, ← hsound.idxOf?_eq_some_iff] at hi
    have hfound : t.lookup? s = _ := hsound.found s
    rw [hfound, hi]
    rfl
  case inverse =>
    intro s a
    exact hsound.lookup?_eq_some_iff (by omega)
  case range =>
    intro a
    exact hsound.exists_lookup?_iff (by omega)
  case back =>
    intro a hpos hle
    exact hsound.exists_name_of_le (by omega) hpos hle
  case fault =>
    intro a
    have hlength : t.reverse.length ≤ a.toNat ↔ t.size < a.toNat := by
      rw [hsound.length_reverse, ← hsound.size_eq]
      exact Nat.succ_le_iff
    simp only [name_eq_error_iff, exists_and_left, exists_eq, and_true, hlength]
    rfl
  case interned =>
    intro before s after hsplit
    have hanswer := answer_intern empty before s after
    rwa [← hsplit] at hanswer
  case asked =>
    intro before s after hsplit
    have hanswer := answer_lookup empty before s after
    rw [← hsplit] at hanswer
    simpa only [isSome_lookup?_calls_iff] using hanswer
  case later =>
    intro later
    exact ⟨fun s a hs => lookup?_calls_of_eq_some hs later,
      fun a s hname => name_calls_of_eq_ok hname later⟩

/-- Calls with a name interned twice, the empty name, and a question that comes too early. -/
def Sample.earlyQuestion : List Call :=
  [.lookup "b", .intern "a", .intern "", .intern "a", .intern "b", .lookup "", .lookup "c"]

/-- Three names get the handles 1, 2 and 3, the empty one among them, which stands in the list a second
time, behind the placeholder. The handles 0 and 4 are nobody's, and interning a fourth name leaves the
three alone. -/
theorem numbering_of_calls_empty_name :
    ∃ t : Store,
      empty.calls Sample.earlyQuestion =
        ([none, some 1, some 2, some 1, some 3, some 2, none], t) ∧
      t.reverse = ["", "a", "", "b"] ∧ t.size = 3 ∧ t.ids[""]? = some 2 ∧ t.lookup? "b" = some 3 ∧
      ¬ (t.lookup? "c").isSome ∧
      (∃ f, t.name 0 = .error f) ∧ (∃ f, t.name 4 = .error f) ∧
      (∃ s, t.name 2 = .ok s ∧ t.lookup? s = some 2) ∧
      (t.calls [.intern "c"]).2.lookup? "" = some 2 := by
  obtain ⟨t, hcalls⟩ : ∃ t, empty.calls Sample.earlyQuestion =
      ([none, some 1, some 2, some 1, some 3, some 2, none], t) :=
    ⟨_, Prod.ext (by decide +kernel) rfl⟩
  have hreverse : t.reverse = ["", "a", "", "b"] := by
    have hlist : (empty.calls Sample.earlyQuestion).2.reverse = ["", "a", "", "b"] := by
      decide +kernel
    rwa [hcalls] at hlist
  obtain ⟨hsize, horder, hinverse, -, -, hback, hfound, hfault, -, -, hlater⟩ :=
    numbering_of_calls hcalls (by decide)
  have hempty := horder 1 "" (by decide)
  refine ⟨t, hcalls, hreverse, hsize, ?_, horder 2 "b" (by decide), ?_, ?_, ?_, ?_,
    (hlater [.intern "c"]).1 "" 2 hempty⟩
  · refine (hinverse "" 2).mpr ⟨by decide, ?_⟩
    rw [hreverse]
    decide
  · rw [hfound "c"]
    decide
  · exact (hfault 0).mpr (Or.inl rfl)
  · exact (hfault 4).mpr (Or.inr (by rw [hsize]; decide))
  · exact hback 2 (by decide) (by rw [hsize]; decide)

end Store

end NameIndex.AtomTable
