import Mathlib.Data.List.Forall2
import Mathlib.Data.Set.List
import NameIndex.Proofs.Disjointness
import NameIndex.Tool.Run

/-!
# What a run reports

A run is a chain of steps that may fail and that write on the console. Only the reports reach the
output, and an output that takes any number of bytes shows their texts one after the other
(`Tool.answers_of_inquire`).

Reports give names where an index has handles. As long as handles tell names apart, the constraints
are reported with the names that they were declared with, and the partners of a variable are the
names that stand beside it in some constraint, each once (`Index.ShowsDisjoint.exists_partners`).

## Main definitions

* `Report.text` — what a report prints, without answers in full.
* `Tool.Answers` — the reports of a run that goes to its end.
-/

namespace NameIndex

/-! ## §1 Texts of reports -/

/-- What a report prints when answers in full are not asked for. -/
def Report.text (r : Report) : String := String.join ((r.pieces false).map Piece.text)

theorem Report.text_float (name : String) (a : FloatAnswer) :
    (Report.float name (some a)).text = "float " ++ name ++ ": " ++ a.label ++ " " ++ a.typecode
      ++ " " ++ name ++ " at " ++ a.address.text ++ "\n" := by
  simp [text, pieces, line, inFull]

theorem Report.text_constraint (a : DisjointAnswer) (vars : List String) :
    (Report.constraint a vars).text =
      "dv " ++ a.address.text ++ ":" ++ String.join ((namePieces vars).map Piece.text) := by
  simp [text, pieces, line, inFull]

theorem Piece.deliver_none (ps : List Piece) :
    Piece.deliver none ps = (String.join (ps.map Piece.text), true) := by
  induction ps with
  | nil => rfl
  | cons p rest ih => simp [deliver, ih]

/-- An output that takes any number of bytes shows the texts of all reports. -/
theorem Report.deliver_none (rs : List Report) :
    Piece.deliver none (rs.flatMap (Report.pieces false)) =
      (String.join (rs.map Report.text), true) := by
  rw [Piece.deliver_none]
  congr 1
  induction rs with
  | nil => rfl
  | cons r rest ih =>
    rw [List.flatMap_cons, List.map_append, String.join_append, ih, List.map_cons, String.join_cons]
    rfl

/-! ## §2 Steps of a run -/

namespace Tool

variable {α β ε : Type} {yaml : Yaml.Library} {tree : FileTree} {o : Options} {s s' : String}

theorem run_bind_ok {x : Step α} {f : α → Step β} {a : α} (h : x.run s = (.ok a, s')) :
    (x >>= f).run s = (f a).run s' := by
  show ExceptT.bindCont f (x.run s).1 (x.run s).2 = _
  rw [h]
  rfl

theorem run_bind_error {x : Step α} {f : α → Step β} {e : RunError}
    (h : x.run s = (.error e, s')) : (x >>= f).run s = (.error e, s') := by
  show ExceptT.bindCont f (x.run s).1 (x.run s).2 = _
  rw [h]
  rfl

/-- Showing an update fails only if the update does. -/
theorem run_update {ix ix' : Index} {c : Collection} (h : ix.update c = .ok ix') (display : Display)
    (last : Bool) (s : String) :
    ∃ s', (update display ix c last).run s = (.ok ix', s') := by
  obtain ⟨p, hplan, hrun⟩ := Index.update_eq_ok_iff.mp h
  obtain ⟨events, hevents⟩ := Index.carryOut_eq_ok_iff.mp hrun
  have happly : ix.apply (.update c) = .ok (ix', events) :=
    bind_eq_ok_iff.mpr ⟨p, hplan, hevents⟩
  unfold update
  rw [happly]
  cases hprogress : display.progress with
  | true => exact ⟨_, rfl⟩
  | false => exact ⟨_, rfl⟩

/-- **The reports of a run** that goes to its end: what is inquired, shown on an output that takes
any number of bytes. -/
structure Answers (yaml : Yaml.Library) (tree : FileTree) (o : Options) (rs : List Report) : Prop where
  inquired : ((inquire yaml tree o).run "").1 = .ok rs
  output : (run yaml tree o none).output = String.join (rs.map Report.text)
  failure : (run yaml tree o none).failure = none

theorem answers_of_inquire {rs : List Report} (hdump : o.dump = false)
    (h : (inquire yaml tree o).run "" = (.ok rs, s)) : Answers yaml tree o rs := by
  have hrun : run yaml tree o none = ⟨String.join (rs.map Report.text), s, none⟩ := by
    simp [run, h, hdump, Report.deliver_none]
  refine ⟨by rw [h], ?_, ?_⟩
  · rw [hrun]
  · rw [hrun]

/-- A run in which nothing can be inquired prints nothing, whatever the output takes. -/
theorem run_of_inquire_error {e : RunError} (h : (inquire yaml tree o).run "" = (.error e, s))
    (room : Option Nat) : run yaml tree o room = ⟨"", s, some e⟩ := by
  simp [run, h]

end Tool

/-! ## §3 Names in reports -/

/-- Two computations that succeed on every element of a list, with related results, succeed on the
whole list. -/
theorem exists_mapM_forall₂ {α β ε : Type} {R : β → β → Prop} {f g : α → Except ε β} {xs : List α}
    (h : ∀ x ∈ xs, ∃ y y', f x = .ok y ∧ g x = .ok y' ∧ R y y') :
    ∃ ys ys', xs.mapM f = .ok ys ∧ xs.mapM g = .ok ys' ∧ List.Forall₂ R ys ys' := by
  induction xs with
  | nil => exact ⟨[], [], rfl, rfl, .nil⟩
  | cons x xs ih =>
    obtain ⟨⟨y, y', hy, hy', hR⟩, hrest⟩ := List.forall_mem_cons.mp h
    obtain ⟨ys, ys', hys, hys', hRs⟩ := ih hrest
    refine ⟨y :: ys, y' :: ys', ?_, ?_, .cons hR hRs⟩
    · simp [List.mapM_cons, hy, hys, bind, Except.bind, pure, Except.pure]
    · simp [List.mapM_cons, hy', hys', bind, Except.bind, pure, Except.pure]

namespace Index

variable {ix : Index} {ds : List (StatementAddress × List String)} {x : String}

theorem atomNames_map_atomOf {names : List String} (hsize : ix.atoms.size < UInt32.size)
    (hnames : ∀ n ∈ names, n ∈ ix.atoms.names) :
    ix.atomNames (names.map ix.atoms.atomOf) = .ok names := by
  unfold atomNames
  induction names with
  | nil => rfl
  | cons n names ih =>
    obtain ⟨hn, hrest⟩ := List.forall_mem_cons.mp hnames
    have hname : ix.atomName (ix.atoms.atomOf n) = .ok n := AtomTable.name_atomOf hsize hn
    rw [List.map_cons, List.mapM_cons, hname, ih hrest]
    rfl

/-- **The partners of a variable** by name: each name that stands beside it in some constraint,
once. -/
theorem ShowsDisjoint.exists_partners (h : ix.ShowsDisjoint ds) (hix : ix.Exact)
    (hsize : ix.atoms.size < UInt32.size) (hx : x ∈ ix.atoms.names) :
    ∃ partners, ix.atomNames (ix.disjointFrom (ix.atoms.atomOf x)) = .ok partners ∧
      partners.Nodup ∧ ∀ y, y ∈ partners ↔ y ≠ x ∧ ∃ q ∈ ds, x ∈ q.2 ∧ y ∈ q.2 := by
  -- what is listed beside a handle are variables of constraints, hence handles of names
  have hnamed : ∀ b ∈ ix.disjointFrom (ix.atoms.atomOf x),
      ∃ y : {y // y ∈ ix.atoms.names}, ix.atoms.atomOf y = b := by
    intro b hb
    obtain ⟨-, g, hg, -, hbg⟩ := hix.mem_disjointFrom_iff.mp hb
    rw [h.listed] at hg
    obtain ⟨q, hq, rfl⟩ := List.mem_map.mp hg
    obtain ⟨y, hy, rfl⟩ := List.mem_map.mp hbg
    exact ⟨⟨y, h.interned q hq y hy⟩, rfl⟩
  -- so the list as a whole is a list of names, written with handles
  obtain ⟨ys, hys⟩ : ix.disjointFrom (ix.atoms.atomOf x) ∈
      Set.range (List.map fun y : {y // y ∈ ix.atoms.names} => ix.atoms.atomOf y) := by
    rw [Set.range_list_map]
    exact hnamed
  have hmap : (ys.map Subtype.val).map ix.atoms.atomOf = ix.disjointFrom (ix.atoms.atomOf x) := by
    rw [List.map_map]
    exact hys
  have hinterned : ∀ y ∈ ys.map Subtype.val, y ∈ ix.atoms.names := by
    intro y hy
    obtain ⟨z, -, rfl⟩ := List.mem_map.mp hy
    exact z.2
  refine ⟨ys.map Subtype.val, ?_, ?_, fun y => ?_⟩
  · rw [← hmap]
    exact atomNames_map_atomOf hsize hinterned
  · -- the handles are ascending, so no name comes twice
    apply List.Nodup.of_map ix.atoms.atomOf
    rw [hmap]
    exact (ix.pairwise_disjointFrom _).imp fun hlt => UInt32.ne_of_lt hlt
  · constructor
    · intro hy
      have hlisted : ix.atoms.atomOf y ∈ ix.disjointFrom (ix.atoms.atomOf x) :=
        hmap ▸ List.mem_map_of_mem hy
      obtain ⟨hne, hboth⟩ :=
        (h.isDisjoint_iff hix hsize hx (hinterned y hy)).mp (hix.isDisjoint_iff_mem.mpr hlisted)
      exact ⟨Ne.symm hne, hboth⟩
    · rintro ⟨hne, q, hq, hxq, hyq⟩
      have hy := h.interned q hq y hyq
      have hlisted := hix.isDisjoint_iff_mem.mp
        ((h.isDisjoint_iff hix hsize hx hy).mpr ⟨Ne.symm hne, q, hq, hxq, hyq⟩)
      rw [← hmap] at hlisted
      obtain ⟨z, hz, heq⟩ := List.mem_map.mp hlisted
      rwa [← (AtomTable.atomOf_inj hsize (hinterned z hz) hy).mp heq]

end Index

end NameIndex
