import NameIndex.Proofs.YamlNumeral
import NameIndex.Proofs.YamlScalar

/-!
# What takes one line of a document

A node may stand alone on a line, after a dash, or after a key. Where it does, the reader has to
tell it from an entry, from a key, and from a line that divides documents, and a plain scalar must
not be taken to go on below. `Face` gathers what makes that work: it holds of texts in every style,
of texts in brackets, and of empty collections.

## Main definitions

* `Closes` — the lines below do not belong to what came before.
* `Face` — what is written on one line, and the node it is read as.
* `Layout.OneLine` — what is written on one line and shows the layout, as an item and as a value.

## Main results

* `Layout.Legible.oneLine` — only collections with something in them take more than one line.
-/

namespace NameIndex.Yaml

open NameIndex.Text

/-! ## §1 Where something ends -/

/-- The text starts with something that is no blank and no comment. -/
def Solid (text : List Char) : Prop := ∃ c cs, text = c :: cs ∧ isBlank c = false ∧ c ≠ '#'

namespace Solid

variable {text : List Char} {l : Line}

theorem isVoid (h : Solid text) : isVoid text = false := by
  obtain ⟨c, cs, rfl, -, hhash⟩ := h
  simp [Yaml.isVoid, hhash]

theorem skipBlanks (h : Solid text) : skipBlanks text = text := by
  obtain ⟨c, cs, rfl, hblank, -⟩ := h
  simp [Yaml.skipBlanks, hblank]

theorem startsWithTab (h : Solid l.text) : l.startsWithTab = false := by
  obtain ⟨c, cs, htext, hblank, -⟩ := h
  have htab : c ≠ '\t' := by
    rintro rfl
    cases hblank
  simp [Line.startsWithTab, htext, htab]

theorem dropIdle (h : Solid l.text) (below : List Line) : dropIdle (l :: below) = l :: below := by
  have hidle : l.isIdle = false := h.isVoid
  simp [Yaml.dropIdle, hidle]

end Solid

/-- **The lines close** what is indented by `k` or more: they are at their end, or go on further
out. -/
inductive Closes (k : Nat) : List Line → Prop where
  | last : Closes k [⟨0, [], none⟩]
  | line {l : Line} {below : List Line} (hsolid : Solid l.text) (hindent : l.indent < k) :
      Closes k (l :: below)

theorem Closes.mono {k k' : Nat} {rest : List Line} (h : Closes k rest) (hle : k ≤ k') :
    Closes k' rest := by
  cases h with
  | last => exact .last
  | line hsolid hindent => exact .line hsolid (hindent.trans_le hle)

/-- A plain scalar does not go on over lines that close it. -/
theorem Closes.continuation {k : Nat} {rest : List Line} (h : Closes k rest) :
    ∃ rest', continuation k [] rest = .ended rest' ∧ dropIdle rest' = dropIdle rest := by
  cases h with
  | last => exact ⟨[], rfl, rfl⟩
  | @line l below hsolid hindent =>
    refine ⟨l :: below, ?_, rfl⟩
    have hempty : l.text.isEmpty = false := by
      obtain ⟨c, cs, htext, -, -⟩ := hsolid
      simp [htext]
    simp [Yaml.continuation, hsolid.startsWithTab, hsolid.skipBlanks, hempty, hindent]

/-- The result is the value, and what is left are the lines, but for lines that say nothing. -/
def Leaves {α : Type} (result : Option (α × List Line)) (a : α) (rest : List Line) : Prop :=
  ∃ rest', result = some (a, rest') ∧ dropIdle rest' = dropIdle rest

/-! ## §2 Nodes that take the rest of a line -/

/-- A node that nothing follows on its line. -/
def wholeLine? (fuel k : Nat) (c : Cursor) : Option (Node × List Line) := do
  let (node, after) ← inline? fuel k c
  return (node, ← after.closed?)

/-- **What is written on one line** and read as a node: it can be told from an entry, from a key and
from what divides documents. -/
structure Face (written : List Char) (node : Node) : Prop where
  solid : Solid written
  inLine : ∀ c ∈ written, staysInLine c = true
  unmarked : startsLikeMarker written = false
  notEntry : ∀ rest, written = '-' :: rest → startsBlank rest = false
  notKey : ∀ {fuel : Nat}, written.length + 1 < fuel → key? fuel written = none
  read : ∀ {fuel k : Nat} {below : List Line}, written.length + 1 < fuel → Closes k below →
    ∀ ending, Leaves (wholeLine? fuel k ⟨written, ending, below⟩) node below

theorem face_plain {written : List Char} (h : fitsPlain false written = true) :
    Face written (.scalar true (String.ofList written)) := by
  obtain ⟨c, cs, rfl, hplain⟩ := undisturbed_of_fitsPlain h
  have hne : ∀ opener, isOpener opener = true → c ≠ opener := fun _ => hplain.ne_of_isOpener
  have hrun := hplain.plainRun .lineEnd
  have hstarts := hplain.startsPlain []
  rw [List.append_nil] at hrun hstarts
  refine ⟨⟨c, cs, rfl, hplain.not_isBlank, hne '#' rfl⟩, hplain.inLine, hplain.unmarked, ?_, ?_, ?_⟩
  · rintro rest heq
    obtain ⟨rfl, rfl⟩ := List.cons.inj heq
    simpa [startsDisturbing] using hplain.starts
  · intro fuel _
    simp [key?, hne '[' rfl, hne '\x7b' rfl, hne '"' rfl, hne '\'' rfl, hstarts, hrun]
  · intro fuel k below hfuel hcloses ending
    obtain ⟨rest', hended, hrest'⟩ := hcloses.continuation
    obtain ⟨fuel, rfl⟩ : ∃ fuel', fuel = fuel' + 1 := ⟨fuel - 1, by omega⟩
    refine ⟨rest', ?_, hrest'⟩
    simp [wholeLine?, inline?, hne '|' rfl, hne '[' rfl, hne '\x7b' rfl, hne '"' rfl, hne '\'' rfl,
      hstarts, plainBlock?, hrun, hended, Cursor.closed?, skipBlanks, isVoid]

/-- What starts with a quote or bracket, and is read up to its end. -/
theorem face_of_flowNode? {d : Char} {ds : List Char} {node : Node}
    (hd : ((d = '[' ∨ d = '\x7b') ∨ d = '"') ∨ d = '\'') (hline : ∀ c ∈ d :: ds, staysInLine c = true)
    (hread : ∀ {fuel : Nat}, (d :: ds).length + 1 < fuel → ∀ ending below,
      flowNode? fuel ⟨d :: ds, ending, below⟩ = some (node, ⟨[], ending, below⟩)) :
    Face (d :: ds) node := by
  have hne : isBlank d = false ∧ d ≠ '#' ∧ d ≠ '-' ∧ d ≠ '.' ∧ d ≠ '|' := by
    rcases hd with ((rfl | rfl) | rfl) | rfl
    all_goals decide
  obtain ⟨hblank, hhash, hdash, hdot, hbar⟩ := hne
  refine ⟨⟨d, ds, rfl, hblank, hhash⟩, hline, ?_, ?_, ?_, ?_⟩
  · simp [startsLikeMarker, hdash, hdot]
  · intro rest heq
    exact absurd (List.cons.inj heq).1 hdash
  · intro fuel hfuel
    simp [key?, hd, hread hfuel, skipBlanks]
  · intro fuel k below hfuel _ ending
    refine ⟨below, ?_, rfl⟩
    simp [wholeLine?, inline?, hd, hread hfuel, Cursor.closed?, skipBlanks, isVoid]

theorem face_of_token {text : String} {plain : Bool} {written : List Char}
    (h : Token bare false text plain written) : Face written (.scalar plain text) := by
  have hline := h.inLine
  cases h with
  | plain _ hfits =>
    have hface := face_plain hfits
    rwa [String.ofList_toList] at hface
  | quoted hquote hcarries =>
    have hlength := length_le_flatMap fun c hc => (hcarries c hc).ne_nil
    refine face_of_flowNode? ?_ hline fun hfuel ending below => ?_
    · rcases hquote with rfl | rfl
      · simp
      · simp
    · simp only [List.length_cons, List.length_append] at hfuel
      rw [flowNode?_quoted hquote hcarries (by simp) (by omega), String.ofList_toList]

theorem face_brackets {write : String → List Char} {plain : String → Bool} {texts : List String}
    (h : ∀ text ∈ texts, Token bare true text (plain text) (write text)) :
    Face ('[' :: (List.intercalate [',', ' '] (texts.map write) ++ [']']))
      (.sequence (texts.map fun text => .scalar (plain text) text)) := by
  refine face_of_flowNode? (by simp) ?_ fun {fuel} hfuel ending below => ?_
  · intro c hc
    simp only [List.mem_cons, List.mem_append, List.not_mem_nil, or_false] at hc
    rcases hc with rfl | hc | rfl
    · decide
    · rcases mem_of_mem_intercalate hc with hsep | ⟨written, hwritten, hc⟩
      · have hmarks : ∀ d ∈ [',', ' '], staysInLine d = true := List.all_eq_true.mp rfl
        exact hmarks c hsep
      · obtain ⟨text, htext, rfl⟩ := List.mem_map.mp hwritten
        exact (h text htext).inLine c hc
    · decide
  · obtain ⟨fuel, rfl⟩ : ∃ fuel', fuel = fuel' + 1 := ⟨fuel - 1, by omega⟩
    simp only [List.length_cons, List.length_append, List.length_nil] at hfuel
    have hroom : (List.intercalate [',', ' '] (texts.map write)).length + 1 < fuel := by omega
    have hread := flowItems?_intercalate h (List.forall_mem_nil _) hroom [] ending below
    rw [List.nil_append] at hread
    simp [flowNode?, hread]

theorem face_braces : Face ['\x7b', '\x7d'] (.mapping []) := by
  refine face_of_flowNode? (by simp) (List.all_eq_true.mp rfl) fun {fuel} hfuel ending below => ?_
  obtain ⟨fuel, rfl⟩ : ∃ fuel', fuel = fuel' + 2 := ⟨fuel - 2, by simp at hfuel; omega⟩
  rfl

/-! ## §3 Layouts -/

namespace Layout

variable {bare : String → Prop} {present : Bool → Nat → String → List Char} {depth : Nat}

theorem endLine_of_inLine {line : List Char} (h : ∀ c ∈ line, staysInLine c = true) :
    endLine line = line ++ ['\n'] := by
  unfold endLine
  cases hlast : line.getLast? with
  | none => rfl
  | some c =>
    have hbreak := not_isBreak_of_staysInLine (h c (List.mem_of_getLast? hlast))
    simp [hbreak]

/-- Something is written on one line, and is read as a node that shows it. -/
def OneLine (present : Bool → Nat → String → List Char) (d : Layout) : Prop :=
  ∀ n, (∃ w node, Face w node ∧ fragment.Shows d node ∧ d.writeItem present n = w ++ ['\n']) ∧
    ∃ w node, Face w node ∧ fragment.Shows d node ∧
      d.writeValue present n = ' ' :: (w ++ ['\n'])

theorem oneLine_of_faces {d : Layout} {item value : Nat → List Char}
    (hitem : ∀ n, ∃ node, Face (item n) node ∧ fragment.Shows d node)
    (hvalue : ∀ n, ∃ node, Face (value n) node ∧ fragment.Shows d node)
    (hwriteItem : ∀ n, d.writeItem present n = endLine (item n))
    (hwriteValue : ∀ n, d.writeValue present n = endLine (' ' :: value n)) : d.OneLine present := by
  have hspace : staysInLine ' ' = true := by decide
  intro n
  obtain ⟨node, hface, hshows⟩ := hitem n
  obtain ⟨node', hface', hshows'⟩ := hvalue n
  refine ⟨⟨item n, node, hface, hshows, ?_⟩, ⟨value n, node', hface', hshows', ?_⟩⟩
  · rw [hwriteItem, endLine_of_inLine hface.inLine]
  · rw [hwriteValue, endLine_of_inLine (List.forall_mem_cons.mpr ⟨hspace, hface'.inLine⟩),
      List.cons_append]

/-- Only collections with something in them take more than one line. -/
def isOneLine : Layout → Bool
  | .sequence (_ :: _) => false
  | .mapping (_ :: _) => false
  | _ => true

/-- A number is shown by its numeral. -/
theorem shows_number {n : Int} (h : Numeral.fitsInt64 n = true) :
    fragment.Shows (.number n) (Node.scalar true n.repr) := by
  have hmeaning := Scalar.meaning_repr h
  have hnull : (Node.scalar true n.repr).isNull = false := by simp [Node.isNull, hmeaning]
  refine .number hnull ?_ ?_
  · show Node.int (Node.scalar true n.repr) = _
    simp [Node.int, Node.scalar?, hnull, Node.number?, hmeaning]
  · show Node.word (Node.scalar true n.repr) = _
    simp [Node.word, Node.scalar?, hnull, Node.number?, hmeaning]

/-- **Texts in brackets** are read as nodes that show them. -/
theorem exists_face_brackets {write : String → List Char} {texts : List String}
    (h : ∀ text ∈ texts, ∃ plain, Token bare true text plain (write text)) :
    ∃ node, Face ('[' :: (List.intercalate [',', ' '] (texts.map write) ++ [']'])) node ∧
      fragment.Shows (.brackets texts) node := by
  choose! plain hplain using h
  refine ⟨_, face_brackets hplain, .brackets rfl rfl (List.forall₂_map_right_iff.mpr ?_)⟩
  exact List.forall₂_same.mpr fun text htext => (hplain text htext).showsText

theorem Legible.oneLine {d : Layout} (h : d.Legible bare present depth) (hd : d.isOneLine = true) :
    d.OneLine present := by
  cases h with
  | null =>
    have hface : Face "null".toList (.scalar true "null") := face_plain (by decide)
    have hshows : fragment.Shows .null (Node.scalar true "null") := .null rfl
    exact oneLine_of_faces (fun _ => ⟨_, hface, hshows⟩) (fun _ => ⟨_, hface, hshows⟩)
      (fun n => by rw [writeItem]) fun n => by rw [writeValue]; rfl
  | @number _ k hfits =>
    have hface := face_plain (isNumeral_repr k).fitsPlain
    rw [String.ofList_toList] at hface
    exact oneLine_of_faces (fun _ => ⟨_, hface, shows_number hfits⟩)
      (fun _ => ⟨_, hface, shows_number hfits⟩) (fun n => by rw [writeItem]) fun n => by rw [writeValue]
  | @text _ t htoken =>
    have hface : ∀ n, ∃ node, Face (present false n t) node ∧ fragment.Shows (.text t) node := by
      intro n
      obtain ⟨plain, htoken⟩ := htoken n
      exact ⟨_, face_of_token htoken, .text htoken.showsText⟩
    exact oneLine_of_faces hface (fun n => hface (deeper n)) (fun n => by rw [writeItem])
      fun n => by rw [writeValue]
  | brackets htoken =>
    have hface := fun n => exists_face_brackets fun t ht => htoken t ht n
    exact oneLine_of_faces (fun n => hface (deeper n)) (fun n => hface (deeper (deeper n)))
      (fun n => by rw [writeItem, writeBrackets]) fun n => by rw [writeValue, writeBrackets]
  | @sequence _ items _ =>
    cases items with
    | nil =>
      have hnone : ∀ t ∈ [], Token bare true t true (present true 0 t) := List.forall_mem_nil _
      have hface : Face "[]".toList (.sequence []) := face_brackets hnone
      have hshows : fragment.Shows (.sequence []) (Node.sequence []) := .sequence rfl rfl .nil
      exact oneLine_of_faces (fun _ => ⟨_, hface, hshows⟩) (fun _ => ⟨_, hface, hshows⟩)
        (fun n => by rw [writeItem]) fun n => by rw [writeValue]; rfl
    | cons item items => cases hd
  | @mapping _ pairs _ _ _ =>
    cases pairs with
    | nil =>
      have hshows : fragment.Shows (.mapping []) (Node.mapping []) := .mapping rfl rfl .nil
      exact oneLine_of_faces (fun _ => ⟨_, face_braces, hshows⟩) (fun _ => ⟨_, face_braces, hshows⟩)
        (fun n => by rw [writeItem]) fun n => by rw [writeValue]
    | cons pair pairs => cases hd

/-- The value of a key stands below it if it takes more than one line. -/
theorem writeValue_of_not_isOneLine {d : Layout} (hd : d.isOneLine = false) (n : Nat) :
    d.writeValue present n =
      '\n' :: (List.replicate (deeper n) ' ' ++ d.writeItem present (deeper n)) := by
  cases d with
  | sequence items =>
    cases items with
    | nil => cases hd
    | cons item items => simp [writeValue, writeItems, writeItem]
  | mapping pairs =>
    cases pairs with
    | nil => cases hd
    | cons pair pairs => simp [writeValue, writePairs, writeItem]
  | _ => cases hd

end Layout

end NameIndex.Yaml
