import Mathlib.Data.List.Forall2
import NameIndex.Yaml.Fragment
import NameIndex.Yaml.Presentation

/-!
# What is asked of a YAML library

A library is known by what its documentation promises, and each promise is a hypothesis of its own:

1. its decoders of lists, optional values and structures come to what `itemsOf`, `valueOf` and
   `recordOf` say (`Library.Decodes`);
2. it lays documents out in the way of `Layout.document`, every text in the style that is chosen for
   it (`Library.Writes`);
3. it reads a document that is laid out in this way, in whatever style its texts are, as a node that
   shows the layout (`Library.Reads`).

The third is a promise about documents whose texts are **tokens** (`Token`): plain where nothing in a
text disturbs, or in quotes with something between them for every character. Whether the style that is
chosen for a text makes it a token is not promised. Nor is anything said about other documents, which
may have tags, anchors and aliases, or mappings that are merged into others; whatever a library makes
of those, it shows it by its views of nodes.

A promise stays inside what every library can hold: collections stand in one another no deeper than
`Layout.deepest`, and keys are short and stand for themselves. As a key `<<` would merge a mapping,
so the promise says which texts may stand **bare** in a document; whether `<<` is one of them is left
to those who need it. What a library counts while it decodes, to refuse documents that are made of
aliases for the most part, is left out.

`fragment` keeps the promises, so they can be kept together.
-/

namespace NameIndex.Yaml

open NameIndex.Text

/-! ## §1 Decoders -/

/-- **The decoders of a library** come to what those of their parts make of a node. -/
structure Library.Decodes (lib : Library) : Prop where
  slice_eq : ∀ {α : Type} (decode : Decoder lib.Node α),
    lib.slice decode = itemsOf lib.isNull lib.items? decode
  pointer_eq : ∀ {α : Type} (decode : Decoder lib.Node α),
    lib.pointer decode = valueOf lib.isNull decode
  record_eq : ∀ {σ : Type} (fields : List (FieldRule lib.Node σ)) (s : σ),
    lib.record fields s = recordOf lib.isNull lib.entries? fields s

/-- The fragment has no other decoders. -/
theorem fragment_decodes : fragment.Decodes := ⟨fun _ => rfl, fun _ => rfl, fun _ _ => rfl⟩

/-! ## §2 Tokens -/

/-- The character is shown as it is, and does not end the line. Only such characters are written. -/
def staysInLine (c : Char) : Bool := isShown c && !isBreak c

/-- **What stands for a character in quotes**: the character itself, a quote that is written twice, or
an escape. -/
inductive Carries (quote : Char) : List Char → Char → Prop where
  | self {c : Char} (hquote : c ≠ quote) (hback : quote = '"' → c ≠ '\\') : Carries quote [c] c
  | twice (hquote : quote = '\'') : Carries quote ['\'', '\''] '\''
  | escape {written : List Char} {c : Char} (hquote : quote = '"') (hne : written ≠ [])
      (h : ∀ rest, escape? (written ++ rest) = some (c, rest)) : Carries quote ('\\' :: written) c

/-- **What may be written for a text**, inside brackets or outside: the text itself, if it may stand
bare and is none of the words for nothing; or what carries its characters, between quotes. -/
inductive Token (bare : String → Prop) (flow : Bool) (text : String) :
    (plain : Bool) → List Char → Prop where
  | plain (hbare : bare text) (hfits : fitsPlain flow text.toList = true)
      (hmeans : Scalar.word? text ≠ some .null) : Token bare flow text true text.toList
  | quoted {quote : Char} {write : Char → List Char} (hquote : quote = '"' ∨ quote = '\'')
      (hcarries : ∀ c ∈ text.toList, Carries quote (write c) c)
      (hline : ∀ c ∈ text.toList, ∀ d ∈ write c, staysInLine d = true) :
      Token bare flow text false (quote :: (text.toList.flatMap write ++ [quote]))

/-! ## §3 Layouts -/

namespace Layout

/-- A key that is written plainly on the line of its value, and that names itself. -/
structure IsKey (key : String) : Prop where
  fits : fitsPlain false key.toList = true
  means : Scalar.word? key ≠ some .null
  notMerge : key ≠ "<<"
  short : key.length ≤ 128

instance (key : String) : Decidable (IsKey key) :=
  decidable_of_iff (fitsPlain false key.toList = true ∧ Scalar.word? key ≠ some .null ∧
      key ≠ "<<" ∧ key.length ≤ 128)
    ⟨fun ⟨hfits, hmeans, hmerge, hshort⟩ => ⟨hfits, hmeans, hmerge, hshort⟩,
      fun ⟨hfits, hmeans, hmerge, hshort⟩ => ⟨hfits, hmeans, hmerge, hshort⟩⟩

/-- **A layout that can be read back** when its texts are presented in a given way: numbers are no
longer than 64 bits, texts are tokens, keys are told apart, and collections stand in one another no
deeper than `depth`. -/
inductive Legible (bare : String → Prop) (present : Bool → Nat → String → List Char) :
    (depth : Nat) → Layout → Prop where
  | null {depth : Nat} : Legible bare present depth .null
  | number {depth : Nat} {n : Int} (h : Numeral.fitsInt64 n = true) :
      Legible bare present depth (.number n)
  | text {depth : Nat} {t : String} (h : ∀ n, ∃ plain, Token bare false t plain (present false n t)) :
      Legible bare present depth (.text t)
  | brackets {depth : Nat} {ts : List String}
      (h : ∀ t ∈ ts, ∀ n, ∃ plain, Token bare true t plain (present true n t)) :
      Legible bare present (depth + 1) (.brackets ts)
  | sequence {depth : Nat} {items : List Layout} (h : ∀ item ∈ items, Legible bare present depth item) :
      Legible bare present (depth + 1) (.sequence items)
  | mapping {depth : Nat} {pairs : List (String × Layout)} (hkeys : ∀ p ∈ pairs, IsKey p.1)
      (hdistinct : (pairs.map Prod.fst).Nodup) (h : ∀ p ∈ pairs, Legible bare present depth p.2) :
      Legible bare present (depth + 1) (.mapping pairs)

/-- How deep the collections stand in one another about which something is promised. -/
def deepest : Nat := 1000

end Layout

namespace Library

/-- A node that shows a text. -/
structure ShowsText (lib : Library) (t : String) (node : lib.Node) : Prop where
  notNull : lib.isNull node = false
  text_eq : lib.text node = some (some t)

/-- **What a node shows** of a layout, seen by the views of a library. -/
inductive Shows (lib : Library) : Layout → lib.Node → Prop where
  | null {node : lib.Node} (h : lib.isNull node = true) : Shows lib .null node
  | number {n : Int} {node : lib.Node} (hnull : lib.isNull node = false)
      (hint : lib.int node = (Numeral.int32? n).map some)
      (hword : lib.word node = (Numeral.word32? n).map some) : Shows lib (.number n) node
  | text {t : String} {node : lib.Node} (h : lib.ShowsText t node) : Shows lib (.text t) node
  | brackets {ts : List String} {node : lib.Node} {nodes : List lib.Node}
      (hnull : lib.isNull node = false) (hitems : lib.items? node = some nodes)
      (h : List.Forall₂ lib.ShowsText ts nodes) : Shows lib (.brackets ts) node
  | sequence {items : List Layout} {node : lib.Node} {nodes : List lib.Node}
      (hnull : lib.isNull node = false) (hitems : lib.items? node = some nodes)
      (h : List.Forall₂ (Shows lib) items nodes) : Shows lib (.sequence items) node
  | mapping {pairs : List (String × Layout)} {node : lib.Node} {nodes : List lib.Node}
      (hnull : lib.isNull node = false)
      (hentries : lib.entries? node = some ((pairs.map Prod.fst).zip nodes))
      (h : List.Forall₂ (Shows lib) (pairs.map Prod.snd) nodes) : Shows lib (.mapping pairs) node

/-! ## §4 Documents -/

/-- **How a library writes**: legible documents as they are laid out, each text in its style. -/
def Writes (lib : Library) : Prop :=
  ∀ d : Layout, d.Legible (fun _ => True) presented Layout.deepest → lib.print d = d.document

/-- **How a library reads** documents in which only some texts stand bare: legible ones as nodes that
show them, however texts are presented. -/
def Reads (lib : Library) (bare : String → Prop) : Prop :=
  ∀ (present : Bool → Nat → String → List Char) (d : Layout),
    d.Legible bare present Layout.deepest →
      ∃ node, lib.parse (.text (d.documentBy present)) = some node ∧ lib.Shows d node

end Library

end NameIndex.Yaml
