import Mathlib.Algebra.Order.BigOperators.Group.List
import Mathlib.Data.List.TakeWhile
import NameIndex.Proofs.YamlLine

/-!
# The fragment reads what is legible

A layout that is legible is written as lines, and the fragment reads the lines as a node that shows
it. The induction is on the layout: `Block` says what holds of the lines of one node, wherever they
are closed by a line further out, and `Listing` says the same of the entries of a sequence or the
pairs of a mapping. What is left over is known only up to lines that say nothing, which is all that
the readers see of it.

Reading is bounded by a number of steps; `cost` is how many the lines can take, and the weight of a
text covers it.

## Main results

* `listing_items`, `listing_pairs` — collections, from what holds of their members.
* `Layout.Legible.isBlock` — every legible layout, at every indentation.
* `fragment_writes`, `fragment_reads` — the fragment keeps the promises of a library.
-/

namespace NameIndex.Yaml

open NameIndex.Text

variable {bare : String → Prop} {present : Bool → Nat → String → List Char} {depth : Nat}

/-! ## §1 Lines of a layout -/

/-- The text of lines that end with a newline each. -/
def unlines (ls : List Line) : List Char :=
  ls.flatMap fun l => List.replicate l.indent ' ' ++ (l.text ++ ['\n'])

/-- A line that says something, and that divides no documents. -/
structure Line.Proper (l : Line) : Prop where
  ending : l.ending = some '\n'
  solid : Solid l.text
  inLine : ∀ c ∈ l.text, staysInLine c = true
  unmarked : startsLikeMarker l.text = false

/-- A bound for the steps that reading the lines takes. -/
def cost (ls : List Line) : Nat := (ls.map fun l => 4 * l.text.length + 8).sum

@[simp]
theorem cost_nil : cost [] = 0 := rfl

@[simp]
theorem cost_cons (l : Line) (ls : List Line) : cost (l :: ls) = 4 * l.text.length + 8 + cost ls := by
  simp [cost]

@[simp]
theorem cost_append (ls ls' : List Line) : cost (ls ++ ls') = cost ls + cost ls' := by
  simp [cost]

/-- **Lines that stand for a node**: they are those of the text, the first is indented by `n`, and
they are read as the node wherever something closes them. -/
structure Block (text : List Char) (n : Nat) (l : Line) (ls : List Line) (node : Node) : Prop where
  text_eq : text = unlines (l :: ls)
  indent : l.indent = n
  proper : ∀ l' ∈ l :: ls, l'.Proper
  read : ∀ {fuel k : Nat} {rest : List Line}, cost (l :: ls) + 1 < fuel → k ≤ n → Closes k rest →
    Leaves (block? fuel k (l :: (ls ++ rest))) node rest

/-- What is written on one line is a block of one line. -/
theorem block_of_face {w : List Char} {node : Node} (h : Face w node) (n : Nat) :
    Block (List.replicate n ' ' ++ (w ++ ['\n'])) n ⟨n, w, some '\n'⟩ [] node := by
  refine ⟨by simp [unlines], rfl, ?_, ?_⟩
  · exact List.forall_mem_singleton.mpr ⟨rfl, h.solid, h.inLine, h.unmarked⟩
  · intro fuel k rest hfuel _ hcloses
    obtain ⟨fuel, rfl⟩ : ∃ fuel', fuel = fuel' + 1 := ⟨fuel - 1, by omega⟩
    simp only [cost_cons, cost_nil] at hfuel
    have htab : Line.startsWithTab ⟨n, w, some '\n'⟩ = false := Solid.startsWithTab h.solid
    have hentry : Line.isEntry ⟨n, w, some '\n'⟩ = false := by
      unfold Line.isEntry
      split
      · next rest heq => exact h.notEntry rest heq
      · rfl
    have hkey := h.notKey (show w.length + 1 < fuel by omega)
    rw [List.nil_append, block?, htab, hentry, hkey]
    exact h.read (by omega) hcloses (some '\n')

/-- The lines of one collection, entry by entry or key by key: `read` reads them, and `starts` tells
with what kind of line they start. -/
structure Listing {α : Type} (read : Nat → List Line → Option (α × List Line)) (starts : Line → Prop)
    (text : List Char) (n : Nat) (ls : List Line) (a : α) : Prop where
  text_eq : text = unlines ls
  proper : ∀ l ∈ ls, l.Proper
  opens : ∀ l ∈ ls.head?, l.indent = n ∧ starts l
  read : ∀ {fuel : Nat} {rest : List Line}, cost ls < fuel → Closes n rest →
    Leaves (read fuel (ls ++ rest)) a rest

/-- What is further in is closed by the next of the collection, or by what closes it. -/
theorem Listing.closes {α : Type} {read : Nat → List Line → Option (α × List Line)}
    {starts : Line → Prop} {text : List Char} {n : Nat} {ls rest : List Line} {a : α}
    (h : Listing read starts text n ls a) (hrest : Closes n rest) : Closes (n + 1) (ls ++ rest) := by
  cases ls with
  | nil => exact hrest.mono (Nat.le_succ n)
  | cons l ls =>
    have hindent := (h.opens l rfl).1
    exact .line (h.proper l List.mem_cons_self).solid (by omega)

/-! ## §2 Entries of a sequence -/

theorem ofChars_replicate {text : List Char} (h : Solid text) (n : Nat) (ending : Option Char) :
    Line.ofChars (List.replicate n ' ' ++ text) ending = ⟨n, text, ending⟩ := by
  obtain ⟨c, cs, rfl, hblank, -⟩ := h
  have hc : c ≠ ' ' := by
    rintro rfl
    cases hblank
  have hspaces : ∀ d ∈ List.replicate n ' ', decide (d = ' ') = true := by
    intro d hd
    simpa using List.eq_of_mem_replicate hd
  simp [Line.ofChars, List.takeWhile_append_of_pos hspaces, List.dropWhile_append_of_pos hspaces, hc]

/-- Lines that say nothing do not count among the entries. -/
theorem entries?_congr {ls ls' : List Line} (h : dropIdle ls = dropIdle ls') (fuel n : Nat) :
    entries? fuel n ls = entries? fuel n ls' := by
  cases fuel with
  | zero => rw [entries?, entries?]
  | succ fuel => rw [entries?, entries?, h]

theorem pairs?_congr {ls ls' : List Line} (h : dropIdle ls = dropIdle ls') (fuel n : Nat) :
    pairs? fuel n ls = pairs? fuel n ls' := by
  cases fuel with
  | zero => rw [pairs?, pairs?]
  | succ fuel => rw [pairs?, pairs?, h]

/-- Nothing is left of a collection where something closes it. -/
theorem Closes.entries?_eq_nil {n : Nat} {rest : List Line} (h : Closes n rest) {fuel : Nat}
    (hfuel : 0 < fuel) : Leaves (entries? fuel n rest) [] rest := by
  obtain ⟨fuel, rfl⟩ : ∃ fuel', fuel = fuel' + 1 := ⟨fuel - 1, by omega⟩
  cases h with
  | last => exact ⟨[], by rw [entries?]; rfl, rfl⟩
  | @line l below hsolid hindent =>
    refine ⟨l :: below, ?_, rfl⟩
    rw [entries?, hsolid.dropIdle]
    simp [hindent, Nat.lt_asymm hindent]

theorem Closes.pairs?_eq_nil {n : Nat} {rest : List Line} (h : Closes n rest) {fuel : Nat}
    (hfuel : 0 < fuel) : Leaves (pairs? fuel n rest) [] rest := by
  obtain ⟨fuel, rfl⟩ : ∃ fuel', fuel = fuel' + 1 := ⟨fuel - 1, by omega⟩
  cases h with
  | last => exact ⟨[], by rw [pairs?]; rfl, rfl⟩
  | @line l below hsolid hindent =>
    refine ⟨l :: below, ?_, rfl⟩
    rw [pairs?, hsolid.dropIdle]
    simp [hindent, Nat.lt_asymm hindent]

/-- The line of an entry: a dash before the first line of the item. -/
def dashed (n : Nat) (text : List Char) : Line := ⟨n, '-' :: ' ' :: text, some '\n'⟩

theorem proper_dashed {text : List Char} (h : ∀ c ∈ text, staysInLine c = true) (n : Nat) :
    (dashed n text).Proper where
  ending := rfl
  solid := ⟨'-', _, rfl, rfl, by decide⟩
  inLine := List.forall_mem_cons.mpr ⟨by decide, List.forall_mem_cons.mpr ⟨by decide, h⟩⟩
  unmarked := rfl

/-- **One entry**: what stands after the dash is read as a line of its own, further in. -/
theorem entries?_dashed {n fuel : Nat} {text : List Char} (h : Solid text) (below : List Line) :
    entries? (fuel + 1) n (dashed n text :: below) = do
      let (item, rest) ← block? fuel (n + 1) (⟨n + 2, text, some '\n'⟩ :: below)
      let (more, rest) ← entries? fuel n rest
      return (item :: more, rest) := by
  have hsolid : Solid (dashed n text).text := ⟨'-', _, rfl, rfl, by decide⟩
  have hinner : Line.ofChars (List.replicate (n + 1) ' ' ++ ' ' :: text) (some '\n') =
      ⟨n + 2, text, some '\n'⟩ := by
    rw [← List.singleton_append, ← List.append_assoc, ← List.replicate_succ', ofChars_replicate h]
  have hidle : Line.isIdle ⟨n + 2, text, some '\n'⟩ = false := h.isVoid
  rw [entries?, hsolid.dropIdle]
  simp [dashed, hinner, hidle, Line.isEntry, startsBlank, isBlank]

/-- What is written for a layout is a block, and is read as a node that shows it. -/
def Layout.IsBlock (present : Bool → Nat → String → List Char) (d : Layout) (n : Nat) : Prop :=
  ∃ l ls node, Block (List.replicate n ' ' ++ d.writeItem present n) n l ls node ∧
    fragment.Shows d node

/-- **The items of a sequence**, if each item is a block. -/
theorem listing_items {items : List Layout} (h : ∀ item ∈ items, ∀ n, item.IsBlock present n)
    (n : Nat) :
    ∃ ls nodes, Listing (fun fuel => entries? fuel n) (fun l => l.isEntry = true)
      (Layout.writeItems present n items) n ls nodes ∧ List.Forall₂ fragment.Shows items nodes := by
  induction items with
  | nil =>
    refine ⟨[], [], ⟨by simp [Layout.writeItems, unlines], by simp, by simp, ?_⟩, .nil⟩
    intro fuel rest hfuel hrest
    exact hrest.entries?_eq_nil hfuel
  | cons item items ih =>
    obtain ⟨hitem, hitems⟩ := List.forall_mem_cons.mp h
    obtain ⟨⟨indent, text, ending⟩, ls, node, hblock, hshows⟩ := hitem (n + 2)
    obtain ⟨ls', nodes, hlist, hshown⟩ := ih hitems
    obtain ⟨hl, hls⟩ := List.forall_mem_cons.mp hblock.proper
    obtain rfl : indent = n + 2 := hblock.indent
    obtain rfl : ending = some '\n' := hl.ending
    refine ⟨dashed n text :: (ls ++ ls'), node :: nodes, ⟨?_, ?_, ?_, ?_⟩, .cons hshows hshown⟩
    · have htext := hblock.text_eq
      simp only [unlines, List.flatMap_cons, List.append_assoc, List.append_cancel_left_eq] at htext
      simp [Layout.writeItems, unlines, dashed, htext, hlist.text_eq]
    · simp only [List.forall_mem_cons, List.mem_append]
      refine ⟨proper_dashed hl.inLine n, ?_⟩
      rintro l (hl | hl)
      · exact hls l hl
      · exact hlist.proper l hl
    · rintro l ⟨⟩
      exact ⟨rfl, rfl⟩
    · intro fuel rest hfuel hrest
      simp only [cost_cons, cost_append, dashed, List.length_cons] at hfuel
      obtain ⟨fuel, rfl⟩ : ∃ fuel', fuel = fuel' + 1 := ⟨fuel - 1, by omega⟩
      have hroom : cost (⟨n + 2, text, some '\n'⟩ :: ls) + 1 < fuel := by
        simp only [cost_cons]
        omega
      -- the item is closed by the next dash, and the entries after it by what closes the sequence
      obtain ⟨rest₁, hread₁, hrest₁⟩ := hblock.read hroom (by omega) (hlist.closes hrest)
      obtain ⟨rest₂, hread₂, hrest₂⟩ := hlist.read (by omega : cost ls' < fuel) hrest
      refine ⟨rest₂, ?_, hrest₂⟩
      rw [List.cons_append, List.append_assoc, entries?_dashed hl.solid, hread₁]
      simp [entries?_congr hrest₁, hread₂]

/-! ## §3 Pairs of a mapping -/

/-- The line of a key. -/
def keyed (n : Nat) (key : String) (text : List Char) : Line :=
  ⟨n, key.toList ++ ':' :: text, some '\n'⟩

theorem startsLikeMarker_cons (a b c : Char) (more : List Char) :
    startsLikeMarker (a :: b :: c :: more) =
      ((a == '-' && b == '-' && c == '-') || (a == '.' && b == '.' && c == '.')) := by
  unfold startsLikeMarker
  split
  · next heq =>
    obtain ⟨rfl, rfl, rfl, -⟩ := heq
    rfl
  · next heq =>
    obtain ⟨rfl, rfl, rfl, -⟩ := heq
    rfl
  · next hdash hdot =>
    symm
    rw [Bool.eq_false_iff]
    intro hmarker
    simp only [Bool.or_eq_true, Bool.and_eq_true, beq_iff_eq] at hmarker
    rcases hmarker with ⟨⟨rfl, rfl⟩, rfl⟩ | ⟨⟨rfl, rfl⟩, rfl⟩
    · exact hdash more rfl
    · exact hdot more rfl

/-- No colon completes what divides documents. -/
theorem startsLikeMarker_append_colon {cs : List Char} (h : startsLikeMarker cs = false)
    (text : List Char) : startsLikeMarker (cs ++ ':' :: text) = false := by
  match cs, h with
  | [], _ => rfl
  | [a], _ => simp [startsLikeMarker]
  | [a, b], _ => simp [startsLikeMarker]
  | a :: b :: c :: cs, h =>
    rw [startsLikeMarker_cons] at h
    rw [List.cons_append, List.cons_append, List.cons_append, startsLikeMarker_cons, h]

section Keys

variable {key : String} {text : List Char}

theorem proper_keyed (hkey : fitsPlain false key.toList = true)
    (hline : ∀ c ∈ text, staysInLine c = true) (n : Nat) : (keyed n key text).Proper := by
  obtain ⟨c, cs, hcs, hplain⟩ := undisturbed_of_fitsPlain hkey
  refine ⟨rfl, ?_, ?_, ?_⟩
  · exact ⟨c, cs ++ ':' :: text, by simp [keyed, hcs], hplain.not_isBlank, hplain.ne_of_isOpener rfl⟩
  · simp only [keyed, List.mem_append, List.mem_cons]
    rintro d (hd | rfl | hd)
    · exact hplain.inLine d (hcs ▸ hd)
    · decide
    · exact hline d hd
  · exact startsLikeMarker_append_colon (hcs ▸ hplain.unmarked) text

theorem not_isEntry_keyed (hkey : fitsPlain false key.toList = true) (n : Nat) :
    (keyed n key text).isEntry = false := by
  obtain ⟨c, cs, hcs, hplain⟩ := undisturbed_of_fitsPlain hkey
  unfold Line.isEntry
  split
  · next rest heq =>
    simp only [keyed, hcs, List.cons_append, List.cons.injEq] at heq
    obtain ⟨rfl, rfl⟩ := heq
    exact startsBlank_append (by simpa [startsDisturbing] using hplain.starts) _
  · rfl

/-- **A key** is read up to its colon. -/
theorem key?_keyed (hkey : fitsPlain false key.toList = true) (hblank : startsBlank text = true)
    (fuel : Nat) : key? fuel (key.toList ++ ':' :: text) = some (.scalar true key, text) := by
  obtain ⟨c, cs, hcs, hplain⟩ := undisturbed_of_fitsPlain hkey
  have hne : ∀ opener, isOpener opener = true → c ≠ opener := fun _ => hplain.ne_of_isOpener
  have hname : String.ofList (c :: cs) = key := by rw [← hcs, String.ofList_toList]
  simp only [hcs, List.cons_append, key?, hne '[' rfl, hne '\x7b' rfl, hne '"' rfl, hne '\'' rfl,
    decide_false, Bool.or_false, Bool.false_eq_true, if_false, hplain.startsPlain, if_true,
    hplain.plainRun (.colon hblank), hname]

end Keys

/-- **What follows a key** at `n`: the rest of its line, and the lines below, which are read as the
value wherever something closes them. -/
structure Value (written : List Char) (n : Nat) (text : List Char) (ls : List Line) (node : Node) :
    Prop where
  text_eq : written = text ++ '\n' :: unlines ls
  blank : startsBlank text = true
  inLine : ∀ c ∈ text, staysInLine c = true
  proper : ∀ l ∈ ls, l.Proper
  read : ∀ {fuel : Nat} {rest : List Line}, 4 * text.length + cost ls + 6 < fuel →
    Closes (n + 1) rest → Leaves (value? fuel n ⟨skipBlanks text, some '\n', ls ++ rest⟩) node rest

theorem value_of_face {w : List Char} {node : Node} (h : Face w node) (n : Nat) :
    Value (' ' :: (w ++ ['\n'])) n (' ' :: w) [] node := by
  refine ⟨by simp [unlines], rfl, ?_, by simp, ?_⟩
  · exact List.forall_mem_cons.mpr ⟨by decide, h.inLine⟩
  · intro fuel rest hfuel hrest
    obtain ⟨fuel, rfl⟩ : ∃ fuel', fuel = fuel' + 1 := ⟨fuel - 1, by omega⟩
    simp only [List.length_cons, cost_nil] at hfuel
    have hskip : skipBlanks (' ' :: w) = w := by
      rw [skipBlanks, List.dropWhile_cons_of_pos rfl]
      exact h.solid.skipBlanks
    rw [hskip, value?, List.nil_append]
    simp only [h.solid.isVoid]
    exact h.read (by omega) hrest (some '\n')

theorem value_of_block {text : List Char} {n m : Nat} {l : Line} {ls : List Line} {node : Node}
    (h : Block text m l ls node) (hm : n < m) : Value ('\n' :: text) n [] (l :: ls) node := by
  refine ⟨by simp [h.text_eq], rfl, by simp, h.proper, ?_⟩
  intro fuel rest hfuel hrest
  obtain ⟨fuel, rfl⟩ : ∃ fuel', fuel = fuel' + 2 := ⟨fuel - 2, by omega⟩
  have hindent := h.indent
  have hsolid := (h.proper l List.mem_cons_self).solid
  have hne : l.indent ≠ n := by omega
  have hlt : n < l.indent := by omega
  simp only [List.length_nil] at hfuel
  rw [List.cons_append, value?]
  simp only [skipBlanks, List.dropWhile_nil, isVoid, hsolid.dropIdle, hne]
  rw [nested?, hsolid.dropIdle]
  simp only [hlt]
  exact h.read (by omega) (by omega) hrest

/-- **One pair**: the value starts after the blanks behind the colon. -/
theorem pairs?_keyed {key : String} {text : List Char} {n fuel : Nat}
    (hkey : fitsPlain false key.toList = true) (hblank : startsBlank text = true)
    (hline : ∀ c ∈ text, staysInLine c = true) (below : List Line) :
    pairs? (fuel + 1) n (keyed n key text :: below) = do
      let (v, rest) ← value? fuel n ⟨skipBlanks text, some '\n', below⟩
      let (more, rest) ← pairs? fuel n rest
      return ((.scalar true key, v) :: more, rest) := by
  have hsolid := (proper_keyed hkey hline n).solid
  rw [pairs?, hsolid.dropIdle]
  simp [keyed, key?_keyed hkey hblank]

/-- The line starts with a key, without a dash before it. -/
def Line.StartsPair (l : Line) : Prop :=
  l.isEntry = false ∧ ∀ fuel, (key? fuel l.text).isSome = true

/-- What is written for the value of a key at `n` is read as a node that shows it. -/
def Layout.IsValue (present : Bool → Nat → String → List Char) (d : Layout) (n : Nat) : Prop :=
  ∃ text ls node, Value (d.writeValue present n) n text ls node ∧ fragment.Shows d node

/-- **The pairs of a mapping**, if its keys can be written plainly and each value can be read. -/
theorem listing_pairs {pairs : List (String × Layout)}
    (hkeys : ∀ p ∈ pairs, fitsPlain false p.1.toList = true) {n : Nat}
    (h : ∀ p ∈ pairs, p.2.IsValue present n) :
    ∃ ls nodes, Listing (fun fuel => pairs? fuel n) Line.StartsPair (Layout.writePairs present n pairs)
        n ls ((pairs.map fun p => Node.scalar true p.1).zip nodes) ∧
      List.Forall₂ fragment.Shows (pairs.map Prod.snd) nodes := by
  induction pairs with
  | nil =>
    refine ⟨[], [], ⟨by simp [Layout.writePairs, unlines], by simp, by simp, ?_⟩, .nil⟩
    intro fuel rest hfuel hrest
    exact hrest.pairs?_eq_nil hfuel
  | cons pair pairs ih =>
    obtain ⟨key, v⟩ := pair
    obtain ⟨hkey, hkeys⟩ := List.forall_mem_cons.mp hkeys
    obtain ⟨⟨text, ls, node, hvalue, hshows⟩, hvalues⟩ := List.forall_mem_cons.mp h
    obtain ⟨ls', nodes, hlist, hshown⟩ := ih hkeys hvalues
    refine ⟨keyed n key text :: (ls ++ ls'), node :: nodes, ⟨?_, ?_, ?_, ?_⟩, .cons hshows hshown⟩
    · have htext := hvalue.text_eq
      simp only at htext
      simp [Layout.writePairs, unlines, keyed, htext, hlist.text_eq]
    · simp only [List.forall_mem_cons, List.mem_append]
      refine ⟨proper_keyed hkey hvalue.inLine n, ?_⟩
      rintro l (hl | hl)
      · exact hvalue.proper l hl
      · exact hlist.proper l hl
    · rintro l ⟨⟩
      refine ⟨rfl, not_isEntry_keyed hkey n, fun fuel => ?_⟩
      rw [keyed, key?_keyed hkey hvalue.blank]
      rfl
    · intro fuel rest hfuel hrest
      simp only [cost_cons, cost_append, keyed, List.length_append, List.length_cons] at hfuel
      obtain ⟨fuel, rfl⟩ : ∃ fuel', fuel = fuel' + 1 := ⟨fuel - 1, by omega⟩
      have hroom : 4 * text.length + cost ls + 6 < fuel := by omega
      -- what the value leaves over starts with the next key, or closes the mapping
      obtain ⟨rest₁, hread₁, hrest₁⟩ := hvalue.read hroom (hlist.closes hrest)
      obtain ⟨rest₂, hread₂, hrest₂⟩ := hlist.read (by omega : cost ls' < fuel) hrest
      refine ⟨rest₂, ?_, hrest₂⟩
      rw [List.cons_append, List.append_assoc, pairs?_keyed hkey hvalue.blank hvalue.inLine, hread₁]
      simp [pairs?_congr hrest₁, hread₂]

/-! ## §4 Blocks -/

theorem Closes.not_continuesAt {k n : Nat} {rest : List Line} (h : Closes k rest) (hk : k ≤ n) :
    continuesAt n rest = false := by
  cases h with
  | last => rfl
  | line hsolid hindent =>
    have hne : ¬ _ = n := (hindent.trans_le hk).ne
    simp [continuesAt, hsolid.dropIdle, hne]

theorem block_of_items {text : List Char} {n : Nat} {l : Line} {ls : List Line} {items : List Node}
    (h : Listing (fun fuel => entries? fuel n) (fun l => l.isEntry = true) text n (l :: ls) items) :
    Block text n l ls (.sequence items) := by
  obtain ⟨hindent, hentry⟩ := h.opens l rfl
  have htab := (h.proper l List.mem_cons_self).solid.startsWithTab
  refine ⟨h.text_eq, hindent, h.proper, ?_⟩
  intro fuel k rest hfuel hk hrest
  obtain ⟨fuel, rfl⟩ : ∃ fuel', fuel = fuel' + 1 := ⟨fuel - 1, by omega⟩
  obtain ⟨rest', hread, hrest'⟩ := h.read (by omega : cost (l :: ls) < fuel) (hrest.mono hk)
  refine ⟨rest', ?_, hrest'⟩
  -- a sequence is refused if something that is no entry follows where the next would stand
  have hends : continuesAt n rest' = false := by
    rw [continuesAt, hrest']
    exact hrest.not_continuesAt hk
  rw [List.cons_append] at hread
  simp [block?, htab, hentry, hindent, hread, hends]

theorem block_of_pairs {text : List Char} {n : Nat} {l : Line} {ls : List Line}
    {pairs : List (Node × Node)}
    (h : Listing (fun fuel => pairs? fuel n) Line.StartsPair text n (l :: ls) pairs) :
    Block text n l ls (.mapping pairs) := by
  obtain ⟨hindent, hentry, hkey⟩ := h.opens l rfl
  have htab := (h.proper l List.mem_cons_self).solid.startsWithTab
  refine ⟨h.text_eq, hindent, h.proper, ?_⟩
  intro fuel k rest hfuel hk hrest
  obtain ⟨fuel, rfl⟩ : ∃ fuel', fuel = fuel' + 1 := ⟨fuel - 1, by omega⟩
  obtain ⟨rest', hread, hrest'⟩ := h.read (by omega : cost (l :: ls) < fuel) (hrest.mono hk)
  refine ⟨rest', ?_, hrest'⟩
  rw [List.cons_append] at hread
  simp [block?, htab, hentry, hkey, hindent, hread]

theorem Layout.lt_deeper (n : Nat) : n < deeper n := by
  unfold deeper step
  omega

theorem distinctKeys_zip {keys : List String} (h : keys.Nodup) (nodes : List Node) :
    Node.distinctKeys ((keys.map (Node.scalar true)).zip nodes) = true := by
  induction keys generalizing nodes with
  | nil => rfl
  | cons key keys ih =>
    cases nodes with
    | nil => rfl
    | cons node nodes =>
      obtain ⟨hkey, hkeys⟩ := List.nodup_cons.mp h
      have hother : ∀ p ∈ (keys.map (Node.scalar true)).zip nodes,
          Node.sameKey (.scalar true key) p.1 = false := by
        rintro ⟨other, v⟩ hp
        obtain ⟨name, hname, rfl⟩ := List.mem_map.mp (List.of_mem_zip hp).1
        simp only [Node.sameKey, beq_eq_false_iff_ne]
        exact fun heq => hkey (heq ▸ hname)
      simp only [List.map_cons, List.zip_cons_cons, Node.distinctKeys, ih hkeys, Bool.and_true,
        Bool.not_eq_true', List.any_eq_false]
      exact fun p hp => by simp [hother p hp]

/-- The entries of a mapping whose keys name themselves and are told apart. -/
theorem Node.entries?_mapping {keys : List String} (hdistinct : keys.Nodup)
    (hmeans : ∀ key ∈ keys, Scalar.word? key ≠ some .null) (nodes : List Node) :
    entries? (.mapping ((keys.map (scalar true)).zip nodes)) = some (keys.zip nodes) := by
  have hentries : ((keys.map (scalar true)).zip nodes).mapM
      (fun p => (text p.1).map fun key? => key?.map fun key => (key, p.2)) =
        some ((keys.zip nodes).map some) := by
    clear hdistinct
    induction keys generalizing nodes with
    | nil => rfl
    | cons key keys ih =>
      cases nodes with
      | nil => rfl
      | cons node nodes =>
        obtain ⟨hkey, hkeys⟩ := List.forall_mem_cons.mp hmeans
        have htext : text (scalar true key) = some (some key) := by
          have hmeaning : Scalar.meaning key ≠ .null := fun h =>
            hkey (Scalar.word?_of_meaning_eq_null h)
          simp [text, scalar?, isNull, hmeaning]
        simp [htext, ih hkeys nodes]
  simp [entries?, distinctKeys_zip hdistinct nodes, hentries, List.filterMap_map]

/-- The value of a key, if it is a block wherever it stands below the key. -/
theorem Layout.Legible.isValue {d : Layout} (h : d.Legible bare present depth)
    (hblock : ∀ n, d.IsBlock present n) (n : Nat) : d.IsValue present n := by
  cases hd : d.isOneLine with
  | true =>
    obtain ⟨-, w, node, hface, hshows, hwrite⟩ := h.oneLine hd n
    unfold Layout.IsValue
    rw [hwrite]
    exact ⟨' ' :: w, [], node, value_of_face hface n, hshows⟩
  | false =>
    -- the line of the key ends after the colon, and the block starts on the next
    obtain ⟨l, ls, node, hread, hshows⟩ := hblock (deeper n)
    unfold Layout.IsValue
    rw [writeValue_of_not_isOneLine hd]
    exact ⟨[], l :: ls, node, value_of_block hread (lt_deeper n), hshows⟩

theorem Layout.Legible.isBlock_of_isOneLine {d : Layout} (h : d.Legible bare present depth)
    (hd : d.isOneLine = true) (n : Nat) : d.IsBlock present n := by
  obtain ⟨⟨w, node, hface, hshows, hwrite⟩, -⟩ := h.oneLine hd n
  unfold Layout.IsBlock
  rw [hwrite]
  exact ⟨_, [], node, block_of_face hface n, hshows⟩

/-- **Every legible layout is a block** at every indentation. -/
theorem Layout.Legible.isBlock {d : Layout} (h : d.Legible bare present depth) (n : Nat) :
    d.IsBlock present n := by
  -- a member stands further in than its collection, so the indentation varies
  induction h generalizing n with
  | @null depth => exact isBlock_of_isOneLine (@null bare present depth) rfl n
  | @number depth k h => exact isBlock_of_isOneLine (@number bare present depth k h) rfl n
  | @text depth t h => exact isBlock_of_isOneLine (@text bare present depth t h) rfl n
  | @brackets depth ts h => exact isBlock_of_isOneLine (@brackets bare present depth ts h) rfl n
  | @sequence _ items h ih =>
    cases items with
    | nil => exact isBlock_of_isOneLine (.sequence h) rfl n
    | cons item items =>
      have hwrite : List.replicate n ' ' ++ (Layout.sequence (item :: items)).writeItem present n =
          writeItems present n (item :: items) := by
        simp [writeItem, writeItems]
      obtain ⟨ls, nodes, hlist, hshown⟩ := listing_items ih n
      cases ls with
      | nil => simpa [writeItems, unlines] using hlist.text_eq
      | cons l ls =>
        unfold Layout.IsBlock
        rw [hwrite]
        exact ⟨l, ls, .sequence nodes, block_of_items hlist, .sequence rfl rfl hshown⟩
  | @mapping _ pairs hkeys hdistinct h ih =>
    cases pairs with
    | nil => exact isBlock_of_isOneLine (.mapping hkeys hdistinct h) rfl n
    | cons pair pairs =>
      have hwrite : List.replicate n ' ' ++ (Layout.mapping (pair :: pairs)).writeItem present n =
          writePairs present n (pair :: pairs) := by
        simp [writeItem, writePairs]
      obtain ⟨ls, nodes, hlist, hshown⟩ := listing_pairs (fun p hp => (hkeys p hp).fits)
        fun p hp => (h p hp).isValue (ih p hp) n
      have hmeans : ∀ key ∈ (pair :: pairs).map Prod.fst, Scalar.word? key ≠ some .null := by
        intro key hkey
        obtain ⟨p, hp, rfl⟩ := List.mem_map.mp hkey
        exact (hkeys p hp).means
      have hentries := Node.entries?_mapping hdistinct hmeans nodes
      rw [List.map_map] at hentries
      cases ls with
      | nil => simpa [writePairs, unlines] using hlist.text_eq
      | cons l ls =>
        unfold Layout.IsBlock
        rw [hwrite]
        exact ⟨l, ls, .mapping _, block_of_pairs hlist, .mapping rfl hentries hshown⟩

/-! ## §5 Documents -/

/-- The empty line after the last break. -/
def lastLine : Line := ⟨0, [], none⟩

theorem pieces_append_newline {cs : List Char} (h : ∀ c ∈ cs, isBreak c = false) (rest : List Char) :
    pieces (cs ++ '\n' :: rest) = (cs, some '\n') :: pieces rest := by
  induction cs with
  | nil => simp [pieces, isBreak, breakChar]
  | cons c cs ih =>
    obtain ⟨hc, hcs⟩ := List.forall_mem_cons.mp h
    have hreturn : c ≠ '\r' := by
      rintro rfl
      cases hc
    rw [List.cons_append, pieces, ih hcs]
    · simp [hc]
    · exact fun _ hr => absurd hr hreturn

theorem lines_unlines {ls : List Line} (h : ∀ l ∈ ls, l.Proper) :
    lines (unlines ls) = ls ++ [lastLine] := by
  induction ls with
  | nil => rfl
  | cons l ls ih =>
    obtain ⟨hl, hls⟩ := List.forall_mem_cons.mp h
    have hunbroken : ∀ c ∈ List.replicate l.indent ' ' ++ l.text, isBreak c = false := by
      intro c hc
      rcases List.mem_append.mp hc with hspace | htext
      · rw [List.eq_of_mem_replicate hspace]
        rfl
      · exact not_isBreak_of_staysInLine (hl.inLine c htext)
    have hsplit : unlines (l :: ls) =
        (List.replicate l.indent ' ' ++ l.text) ++ '\n' :: unlines ls := by
      simp [unlines]
    have hline : Line.ofChars (List.replicate l.indent ' ' ++ l.text) (some '\n') = l := by
      rw [ofChars_replicate hl.solid, ← hl.ending]
    have hmore := ih hls
    rw [lines] at hmore ⊢
    rw [hsplit, pieces_append_newline hunbroken, List.map_cons, hmore]
    simp only [hline, List.cons_append]

theorem isAllowed_of_staysInLine {c : Char} (h : staysInLine c = true) : isAllowed c = true := by
  have hshown := (Bool.and_eq_true_iff.mp h).1
  simp only [isShown, isAllowed, Bool.or_eq_true, Bool.and_eq_true, decide_eq_true_eq] at hshown ⊢
  tauto

theorem all_isAllowed_unlines {ls : List Line} (h : ∀ l ∈ ls, l.Proper) :
    (unlines ls).all isAllowed = true := by
  simp only [List.all_eq_true, unlines, List.mem_flatMap, List.mem_append, List.mem_singleton]
  rintro c ⟨l, hl, hspace | htext | rfl⟩
  · rw [List.eq_of_mem_replicate hspace]
    rfl
  · exact isAllowed_of_staysInLine ((h l hl).inLine c htext)
  · rfl

theorem weight_append_lastLine (ls : List Line) : weight (ls ++ [lastLine]) = cost ls + 24 := by
  have hsum : ∀ (ls : List Line) (n : Nat),
      4 * ls.foldl (fun n l => n + l.text.length + 2) n = 4 * n + cost ls := by
    intro ls
    induction ls with
    | nil => simp
    | cons l ls ih =>
      intro n
      rw [List.foldl_cons, ih, cost_cons]
      omega
  have hweight := hsum (ls ++ [lastLine]) 4
  rw [weight, Nat.mul_comm, hweight]
  simp [lastLine]
  omega

theorem withoutMark_unlines {l : Line} (hl : l.Proper) (hindent : l.indent = 0) (ls : List Line) :
    withoutMark (unlines (l :: ls)) = unlines (l :: ls) := by
  obtain ⟨c, cs, htext, -, -⟩ := hl.solid
  have hmark : c ≠ '\uFEFF' := ne_of_staysInLine (hl.inLine c (by simp [htext])) (by decide)
  simp only [unlines, List.flatMap_cons, hindent, htext, List.replicate_zero, List.nil_append,
    List.cons_append]
  unfold withoutMark
  split
  · next heq => exact absurd (List.cons.inj heq).1 hmark
  · rfl

/-- A line that divides no documents. -/
theorem Line.Proper.not_isMarkerOf {l : Line} (h : l.Proper) {c : Char} (hc : c = '-' ∨ c = '.') :
    l.isMarkerOf c = false := by
  have hunmarked := h.unmarked
  unfold isMarkerOf
  split
  · next a b d rest heq =>
    rw [heq, startsLikeMarker_cons, Bool.or_eq_false_iff] at hunmarked
    rcases hc with rfl | rfl
    · simp [hunmarked.1]
    · simp [hunmarked.2]
  · simp

theorem undivided_of_proper {ls : List Line} (h : ∀ l ∈ ls, l.Proper) :
    documentLines (ls ++ [lastLine]) = ls ++ [lastLine] ∧
      afterDocument (ls ++ [lastLine]) = ⟨[], none, []⟩ := by
  have hmarks : ∀ l ∈ ls ++ [lastLine], (!l.isStart && !l.isEnd) = true := by
    intro l hl
    rcases List.mem_append.mp hl with hl | hl
    · simp [Line.isStart, Line.isEnd, (h l hl).not_isMarkerOf]
    · obtain rfl := List.mem_singleton.mp hl
      rfl
  have hnone : (ls ++ [lastLine]).dropWhile (fun l => !l.isStart && !l.isEnd) = [] :=
    List.dropWhile_eq_nil_iff.mpr hmarks
  exact ⟨List.takeWhile_eq_self_iff.mpr hmarks, by rw [afterDocument, hnone]⟩

/-- A block at the root of a document: nothing is left after it. -/
theorem Block.root? {text : List Char} {n : Nat} {l : Line} {ls : List Line} {node : Node}
    (h : Block text n l ls node) {fuel : Nat} (hfuel : cost (l :: ls) + 1 < fuel) :
    ∃ c rest, root? fuel (l :: (ls ++ [lastLine])) = some (node, c) ∧ c.closed? = some rest ∧
      Yaml.dropIdle rest = [] := by
  have hproper := h.proper l List.mem_cons_self
  have htab := hproper.solid.startsWithTab
  rw [Yaml.root?, hproper.solid.dropIdle]
  simp only [htab, Bool.false_eq_true, if_false]
  split
  · obtain ⟨rest, hread, hrest⟩ := h.read hfuel (Nat.zero_le n) .last
    exact ⟨⟨[], none, rest⟩, rest, by simp [lastLine, hread], rfl, hrest⟩
  · next hinline =>
    -- what is no collection is read where the line starts
    simp only [Bool.or_eq_true, not_or, Bool.not_eq_true] at hinline
    obtain ⟨hentry, hkey⟩ := hinline
    obtain ⟨rest, hread, hrest⟩ := h.read (hfuel.trans (Nat.lt_succ_self fuel)) (Nat.zero_le n) .last
    simp only [block?, htab, hentry, hkey, Bool.false_eq_true, if_false, Option.bind_eq_bind,
      Option.bind_eq_some_iff, Option.pure_def, Option.some.injEq, Prod.mk.injEq] at hread
    obtain ⟨⟨node', c⟩, hinline, rest', hclosed, rfl, rfl⟩ := hread
    exact ⟨c, rest', hinline, hclosed, hrest⟩

theorem Cursor.mayBeIgnored_of_closed? {c : Cursor} {rest : List Line} (h : c.closed? = some rest)
    (hrest : dropIdle rest = []) (fuel : Nat) : c.mayBeIgnored fuel = true := by
  simp only [closed?, Option.ite_none_right_eq_some, Option.some.injEq] at h
  obtain ⟨hvoid, rfl⟩ := h
  simp [mayBeIgnored, hvoid, hrest]

/-- A document of one block. -/
theorem Block.firstDocument? {text : List Char} {n : Nat} {l : Line} {ls : List Line} {node : Node}
    (h : Block text n l ls node) : firstDocument? (l :: (ls ++ [lastLine])) = some node := by
  obtain ⟨hl, hls⟩ := List.forall_mem_cons.mp h.proper
  have hstart : l.isStart = false := hl.not_isMarkerOf (.inl rfl)
  have hend : l.isEnd = false := hl.not_isMarkerOf (.inr rfl)
  obtain ⟨hdocument, hafter⟩ := undivided_of_proper hls
  have hweight : weight (l :: (ls ++ [lastLine])) = cost (l :: ls) + 24 :=
    weight_append_lastLine (l :: ls)
  obtain ⟨c, rest, hroot, hclosed, hrest⟩ :=
    h.root? (show cost (l :: ls) + 1 < weight (l :: (ls ++ [lastLine])) by omega)
  have hignored := Cursor.mayBeIgnored_of_closed? hclosed hrest
  have hnothing : ∀ fuel, Cursor.mayBeIgnored fuel ⟨[], none, []⟩ = true :=
    Cursor.mayBeIgnored_of_closed? rfl rfl
  simp [Yaml.firstDocument?, hl.solid.dropIdle, firstRoot?, hend, hstart, hdocument, hroot, hafter,
    hignored, hnothing]

/-- **What is legible** is read as a node that shows it. -/
theorem exists_parse?_documentBy {d : Layout} (h : d.Legible bare present depth) :
    ∃ node, parse? (d.documentBy present).toList = some node ∧ fragment.Shows d node := by
  obtain ⟨l, ls, node, hblock, hshows⟩ := h.isBlock 0
  have hproper := hblock.proper
  have htext : (d.documentBy present).toList = unlines (l :: ls) := by
    rw [Layout.documentBy, String.toList_ofList, ← hblock.text_eq, List.replicate_zero,
      List.nil_append]
  have hmark := withoutMark_unlines (hproper l List.mem_cons_self) hblock.indent ls
  refine ⟨node, ?_, hshows⟩
  simp only [parse?, htext, hmark, all_isAllowed_unlines hproper, if_true, lines_unlines hproper]
  exact hblock.firstDocument?

/-! ## §6 The fragment as a library -/

theorem fragment_writes : fragment.Writes := fun _ _ => rfl

/-- **The fragment** reads every legible document, whatever stands bare in it, also those whose
collections stand in one another deeper than is asked. -/
theorem fragment_reads (bare : String → Prop) : fragment.Reads bare := by
  intro present d h
  obtain ⟨node, hparse, hshows⟩ := exists_parse?_documentBy h
  exact ⟨node, hparse, hshows⟩

end NameIndex.Yaml
