import Mathlib.Data.List.ReduceOption
import NameIndex.Proofs.Storage
import NameIndex.Proofs.YamlBlock

/-!
# Descriptions kept in YAML files

A collection that is stored in a YAML file is loaded from it as it was, as long as its texts have no
line breaks. This needs of the YAML library no more than what it promises: the texts of a collection
are written as tokens, so the whole document is one that is read as a node that shows it. A text may
look like anything else that YAML knows. Lists that are absent come back empty.

The text `<<` is written plainly, and as a key it would mean something else. That it stands for itself
as a value is asked of the library only if it is one of the texts.

`Yaml.Conveys` says of one value, and `Yaml.Gives` of the pairs of a structure, that what is written
is legible and that the value is decoded from whatever shows it. A pair that is left out when its
field is blank makes no difference, because the structure starts out blank.

## Main result

* `SetSpec.load_store_yaml` — a stored collection is loaded again.
-/

namespace NameIndex

open NameIndex.Text

/-! ## §1 What is written for a value -/

namespace Yaml

variable {yaml : Library} {bare : String → Prop}

/-- **What is written for a value** is legible, and the value is decoded from a node that shows it. -/
structure Conveys (bare : String → Prop) (depth : Nat) {α : Type} (decode : Decoder yaml.Node α)
    (d : Layout) (a : α) : Prop where
  legible : d.Legible bare presented depth
  decoded : ∀ {node : yaml.Node}, yaml.Shows d node →
    yaml.isNull node = false ∧ decode node = some (some a)

theorem conveys_text {depth : Nat} {t : String} (h : Presentable bare t) :
    Conveys bare depth yaml.text (.text t) t := by
  refine ⟨.text fun n => token_presented h false n, ?_⟩
  rintro node (_ | _ | ⟨⟨hnull, htext⟩⟩)
  exact ⟨hnull, htext⟩

theorem conveys_int {depth : Nat} (n : Int32) : Conveys bare depth yaml.int (.number n.toInt) n := by
  have hlow : -2147483648 ≤ n.toInt := n.minValue_le_toInt
  have hhigh : n.toInt ≤ 2147483647 := n.toInt_le
  refine ⟨.number (Numeral.fitsInt64_of_bounds hlow (by omega)), ?_⟩
  rintro node (_ | ⟨hnull, hint, -⟩)
  exact ⟨hnull, by rw [hint, Numeral.int32?_toInt]; rfl⟩

theorem conveys_word {depth : Nat} (n : UInt32) : Conveys bare depth yaml.word (.number n.toNat) n := by
  have hlt : (n.toNat : Int) < 4294967296 := by exact_mod_cast n.toNat_lt
  refine ⟨.number (Numeral.fitsInt64_of_bounds (by omega) hlt), ?_⟩
  rintro node (_ | ⟨hnull, -, hword⟩)
  exact ⟨hnull, by rw [hword, Numeral.word32?_toNat]; rfl⟩

/-- Nodes that are decoded one by one. -/
theorem mapM_of_forall₂ {α β : Type} {R : α → yaml.Node → Prop} {decode : Decoder yaml.Node β}
    {result : α → β} {xs : List α} {nodes : List yaml.Node} (h : List.Forall₂ R xs nodes)
    (hdecode : ∀ x ∈ xs, ∀ node, R x node → decode node = some (some (result x))) :
    nodes.mapM decode = some (xs.map fun x => some (result x)) := by
  induction h with
  | nil => rfl
  | @cons x node xs nodes hx _ ih =>
    obtain ⟨hfirst, hrest⟩ := List.forall_mem_cons.mp hdecode
    simp [hfirst node hx, ih hrest]

theorem itemsOf_eq_some {α β : Type} {R : α → yaml.Node → Prop} {decode : Decoder yaml.Node β}
    {result : α → β} {xs : List α} {node : yaml.Node} {nodes : List yaml.Node}
    (hnull : yaml.isNull node = false) (hitems : yaml.items? node = some nodes)
    (h : List.Forall₂ R xs nodes)
    (hdecode : ∀ x ∈ xs, ∀ node, R x node → decode node = some (some (result x))) :
    itemsOf yaml.isNull yaml.items? decode node = some (some (some (xs.map result))) := by
  have hvalues : (xs.map fun x => some (result x)).filterMap (fun v => v) = xs.map result := by
    simp [List.filterMap_map]
  simp [itemsOf, hnull, hitems, mapM_of_forall₂ h hdecode, hvalues]

variable (hdecodes : yaml.Decodes)
include hdecodes

/-- **A list of structures**, some of which may be missing. -/
theorem conveys_list {depth : Nat} {α β : Type} {decode : Decoder yaml.Node β} {item : α → Layout}
    {result : α → β} {xs : List (Option α)}
    (h : ∀ x, some x ∈ xs → Conveys bare depth decode (item x) (result x)) :
    Conveys bare (depth + 1) (yaml.slice (yaml.pointer decode))
      (.sequence (xs.map fun x => (x.map item).getD .null)) (some (xs.map (Option.map result))) := by
  refine ⟨.sequence fun d hd => ?_, ?_⟩
  · obtain ⟨x, hx, rfl⟩ := List.mem_map.mp hd
    cases x with
    | none => exact .null
    | some x => exact (h x hx).legible
  · rintro node (_ | _ | _ | _ | ⟨hnull, hitems, hshows⟩)
    rw [hdecodes.slice_eq, hdecodes.pointer_eq]
    rw [List.forall₂_map_left_iff] at hshows
    refine ⟨hnull, itemsOf_eq_some hnull hitems hshows fun x hx node hnode => ?_⟩
    -- a missing element is written as nothing, and nothing is decoded as a missing element
    cases x with
    | none =>
      obtain ⟨hnode⟩ := hnode
      simp [valueOf, hnode]
    | some x =>
      obtain ⟨hnull, hdecoded⟩ := (h x hx).decoded hnode
      simp [valueOf, hnull, hdecoded]

/-- Texts in brackets. -/
theorem conveys_brackets {depth : Nat} {ts : List String} (h : ∀ t ∈ ts, Presentable bare t) :
    Conveys bare (depth + 1) (yaml.slice yaml.text) (.brackets ts) (some ts) := by
  refine ⟨.brackets fun t ht n => token_presented (h t ht) true n, ?_⟩
  rintro node (_ | _ | _ | ⟨hnull, hitems, hshows⟩)
  have hread := itemsOf_eq_some hnull hitems hshows fun t _ _ hnode => hnode.text_eq
  rw [List.map_id'] at hread
  rw [hdecodes.slice_eq]
  exact ⟨hnull, hread⟩

omit hdecodes

/-! ## §2 Fields of a structure -/

/-- Keys of fields: each names its field, and they are told apart. -/
structure WellNamed (keys : List String) : Prop where
  distinct : keys.Nodup
  keys : ∀ key ∈ keys, Layout.IsKey key

instance (keys : List String) : Decidable (WellNamed keys) :=
  decidable_of_iff (keys.Nodup ∧ ∀ key ∈ keys, Layout.IsKey key)
    ⟨fun ⟨hdistinct, hkeys⟩ => ⟨hdistinct, hkeys⟩, fun ⟨hdistinct, hkeys⟩ => ⟨hdistinct, hkeys⟩⟩

section Gives

variable {depth : Nat} {σ α : Type} {fields : List (FieldRule yaml.Node σ)} {s s' s'' : σ}
  {key : String}

/-- An entry changes the field that it names. -/
theorem entry_of_mem (hfields : WellNamed (fields.map Prod.fst)) {f : FieldRule yaml.Node σ}
    (hf : f ∈ fields) (s : σ) (node : yaml.Node) : entry fields s (f.1, node) = f.2 s node := by
  have hself : ∀ key : String, decide (key = key) = true := by simp
  have hdistinct : (fields.map Prod.fst).Pairwise fun a b => decide (a = b) = false :=
    hfields.distinct.imp fun hne => decide_eq_false hne
  have hfind : fields.find? (fun g => g.1 = f.1) = some f := find?_of_distinct hself hdistinct hf
  simp [entry, hfind]

/-- **The pairs change the first structure into the second**, wherever nodes show their values. They
name some of the keys in their order, and are legible. -/
structure Gives (bare : String → Prop) (depth : Nat) (fields : List (FieldRule yaml.Node σ))
    (keys : List String) (s : σ) (pairs : List (String × Layout)) (s' : σ) : Prop where
  run : ∀ {nodes : List yaml.Node}, List.Forall₂ yaml.Shows (pairs.map Prod.snd) nodes →
    ((pairs.map Prod.fst).zip nodes).foldlM (entry fields) s = some s'
  keys : (pairs.map Prod.fst).Sublist keys
  legible : ∀ p ∈ pairs, p.2.Legible bare presented depth

theorem gives_nil (keys : List String) : Gives bare depth fields keys s [] s :=
  ⟨fun _ => rfl, by simp, by simp⟩

theorem exists_append_of_forall₂ {α β : Type} {R : α → β → Prop} {xs ys : List α} {zs : List β}
    (h : List.Forall₂ R (xs ++ ys) zs) :
    ∃ zs₁ zs₂, zs = zs₁ ++ zs₂ ∧ List.Forall₂ R xs zs₁ ∧ List.Forall₂ R ys zs₂ := by
  induction xs generalizing zs with
  | nil => exact ⟨[], zs, rfl, .nil, h⟩
  | cons x xs ih =>
    obtain ⟨z, zs, hz, hzs, rfl⟩ := List.forall₂_cons_left_iff.mp h
    obtain ⟨zs₁, zs₂, rfl, hzs₁, hzs₂⟩ := ih hzs
    exact ⟨z :: zs₁, zs₂, rfl, .cons hz hzs₁, hzs₂⟩

theorem Gives.append {keys keys' : List String} {ps ps' : List (String × Layout)}
    (h : Gives bare depth fields keys s ps s') (h' : Gives bare depth fields keys' s' ps' s'') :
    Gives bare depth fields (keys ++ keys') s (ps ++ ps') s'' := by
  refine ⟨fun {nodes} hshows => ?_, ?_, List.forall_mem_append.mpr ⟨h.legible, h'.legible⟩⟩
  · -- the nodes of the first pairs come first
    rw [List.map_append] at hshows
    obtain ⟨nodes₁, nodes₂, rfl, hshows₁, hshows₂⟩ := exists_append_of_forall₂ hshows
    have hlength : (ps.map Prod.fst).length = nodes₁.length := by
      simpa using hshows₁.length_eq
    rw [List.map_append, List.zip_append hlength, List.foldlM_append, h.run hshows₁]
    exact h'.run hshows₂
  · rw [List.map_append]
    exact h.keys.append h'.keys

/-- Keys that are told apart name no field twice. -/
theorem namesOnce_of_nodup (fields : List (FieldRule yaml.Node σ)) {entries : List (String × yaml.Node)}
    (h : (entries.map Prod.fst).Nodup) : namesOnce fields entries = true := by
  simp only [namesOnce, List.all_eq_true, decide_eq_true_eq]
  intro f _
  have hnodup : ((entries.filter fun e => e.1 = f.1).map Prod.fst).Nodup :=
    h.sublist (List.filter_sublist.map Prod.fst)
  -- the keys that name the field are all the same
  have hsame : ∀ key ∈ (entries.filter fun e => e.1 = f.1).map Prod.fst, key = f.1 := by simp
  rw [List.eq_replicate_of_mem hsame, List.nodup_replicate, List.length_map] at hnodup
  exact hnodup

/-- **A structure** is decoded from the pairs that give it. -/
theorem conveys_record (hdecodes : yaml.Decodes) {ps : List (String × Layout)}
    (hfields : WellNamed (fields.map Prod.fst))
    (h : WellNamed (fields.map Prod.fst) → Gives bare depth fields (fields.map Prod.fst) s ps s') :
    Conveys bare (depth + 1) (yaml.record fields s) (.mapping ps) s' := by
  obtain ⟨hrun, hkeys, hlegible⟩ := h hfields
  have hdistinct := hfields.distinct.sublist hkeys
  refine ⟨.mapping ?_ hdistinct hlegible, ?_⟩
  · intro p hp
    exact hfields.keys p.1 (hkeys.subset (List.mem_map_of_mem hp))
  · rintro node (_ | _ | _ | _ | _ | @⟨_, _, nodes, hnull, hentries, hshows⟩)
    have hlength : (ps.map Prod.fst).length = nodes.length := by simpa using hshows.length_eq
    have honce : namesOnce fields ((ps.map Prod.fst).zip nodes) = true := by
      apply namesOnce_of_nodup
      rwa [List.map_fst_zip hlength.le]
    exact ⟨hnull, by simp [hdecodes.record_eq, recordOf, hnull, hentries, honce, hrun hshows]⟩

variable (hfields : WellNamed (fields.map Prod.fst))
include hfields

/-- A pair gives the structure with what was decoded into its field. -/
theorem gives_pair {decode : Decoder yaml.Node α} {set : σ → α → σ} {d : Layout} {a : α}
    (hf : field key decode set ∈ fields) (h : Conveys bare depth decode d a) :
    Gives bare depth fields [key] s [(key, d)] (set s a) := by
  refine ⟨fun {nodes} hshows => ?_, by simp, by simpa using h.legible⟩
  obtain ⟨node, _, hnode, hnil, rfl⟩ := List.forall₂_cons_left_iff.mp hshows
  obtain rfl := List.forall₂_nil_left_iff.mp hnil
  have hentry := entry_of_mem hfields hf s node
  simp only [field, (h.decoded hnode).2, Option.map_some, Option.getD_some] at hentry
  simp [hentry]

/-- A number that is left out when it is zero. -/
theorem gives_int {set : σ → Int32 → σ} (hf : field key yaml.int set ∈ fields)
    (hblank : set s 0 = s) (n : Int32) :
    Gives bare depth fields [key] s (SpecPair.int key n) (set s n) := by
  unfold SpecPair.int
  split
  · next hzero =>
    rw [hzero, hblank]
    exact gives_nil [key]
  · exact gives_pair hfields hf (conveys_int n)

/-- A text that is left out when it is empty. -/
theorem gives_text {set : σ → String → σ} (hf : field key yaml.text set ∈ fields)
    (hblank : set s "" = s) {t : String} (ht : Presentable bare t) :
    Gives bare depth fields [key] s (SpecPair.text key t) (set s t) := by
  unfold SpecPair.text
  split
  · next hempty =>
    rw [hempty, hblank]
    exact gives_nil [key]
  · exact gives_pair hfields hf (conveys_text ht)

/-- A list that is left out when it is empty; its elements may come back as something else. -/
theorem gives_results (hdecodes : yaml.Decodes) {β : Type} {decode : Decoder yaml.Node β}
    {set : σ → List (Option β) → σ} {item : α → Layout} {result : α → β} {xs : List (Option α)}
    (hf : records yaml key decode set ∈ fields)
    (h : ∀ x, some x ∈ xs → Conveys bare depth decode (item x) (result x)) (hblank : set s [] = s) :
    Gives bare (depth + 1) fields [key] s (SpecPair.list key item xs)
      (set s (xs.map (Option.map result))) := by
  have hf : field key (yaml.slice (yaml.pointer decode)) (fun s v => set s (v.getD [])) ∈ fields := hf
  unfold SpecPair.list
  split
  · next hempty =>
    rw [List.isEmpty_iff.mp hempty, List.map_nil, hblank]
    exact gives_nil [key]
  · have hgives := gives_pair (s := s) hfields hf (conveys_list hdecodes h)
    exact hgives

theorem gives_list (hdecodes : yaml.Decodes) {decode : Decoder yaml.Node α}
    {set : σ → List (Option α) → σ} {item : α → Layout} {xs : List (Option α)}
    (hf : records yaml key decode set ∈ fields)
    (h : ∀ x, some x ∈ xs → Conveys bare depth decode (item x) x) (hblank : set s [] = s) :
    Gives bare (depth + 1) fields [key] s (SpecPair.list key item xs) (set s xs) := by
  have hgives := gives_results hfields hdecodes hf h hblank
  have hself : xs.map (Option.map fun x => x) = xs := by simp
  rwa [hself] at hgives

end Gives

end Yaml

/-! ## §3 The structures -/

/-- The texts of a symbol. -/
def SymbolSpec.texts (s : SymbolSpec) : List String := [s.name, s.type]

/-- The texts of a local variable. -/
def LocalVarSpec.texts (s : LocalVarSpec) : List String := [s.name]

/-- The texts of a labelled statement. -/
def LabelSpec.texts (s : LabelSpec) : List String := [s.label]

/-- The texts of a floating hypothesis. -/
def FloatSpec.texts (s : FloatSpec) : List String := [s.name, s.label, s.typecode]

/-- The texts of a disjointness constraint. -/
def DisjointSpec.texts (s : DisjointSpec) : List String := s.vars.getD []

/-- The texts of a segment. -/
def SegmentSpec.texts (s : SegmentSpec) : List String :=
  s.source :: (s.symbols.reduceOption.flatMap SymbolSpec.texts
    ++ s.localVars.reduceOption.flatMap LocalVarSpec.texts
    ++ s.labels.reduceOption.flatMap LabelSpec.texts
    ++ s.floats.reduceOption.flatMap FloatSpec.texts
    ++ s.disjoints.reduceOption.flatMap DisjointSpec.texts)

/-- The texts of a collection. -/
def SetSpec.texts (s : SetSpec) : List String :=
  (s.segments.getD []).reduceOption.flatMap SegmentSpec.texts

/-- The constraint with a list of variables, which may be empty. -/
def DisjointSpec.filled (s : DisjointSpec) : DisjointSpec := { s with vars := some (s.vars.getD []) }

/-- The segment with lists of variables. -/
def SegmentSpec.filled (s : SegmentSpec) : SegmentSpec :=
  { s with disjoints := s.disjoints.map (Option.map DisjointSpec.filled) }

/-- The collection with a list of segments, which may be empty, and with lists of variables. -/
def SetSpec.filled (s : SetSpec) : SetSpec :=
  ⟨some ((s.segments.getD []).map (Option.map SegmentSpec.filled))⟩

open Yaml

section Structures

variable {yaml : Yaml.Library} (hdecodes : yaml.Decodes) {bare : String → Prop} {depth : Nat}
include hdecodes

theorem SymbolSpec.conveys_toYaml {s : SymbolSpec} (h : ∀ t ∈ s.texts, Presentable bare t) :
    Conveys bare (depth + 1) (SymbolSpec.decode yaml) s.toYaml s := by
  simp only [texts, List.forall_mem_cons] at h
  obtain ⟨hname, htype, -⟩ := h
  have hnamed : WellNamed ["name", "type", "index", "ordinal"] := by decide
  refine conveys_record hdecodes hnamed fun hfields => ?_
  have hnames : Gives bare depth _ ["name"] blank [("name", .text s.name)] ⟨s.name, "", 0, 0⟩ :=
    gives_pair hfields (.head _) (conveys_text hname)
  have htypes : Gives bare depth _ ["type"] (mk s.name "" 0 0) [("type", .text s.type)]
      ⟨s.name, s.type, 0, 0⟩ :=
    gives_pair hfields (.tail _ (.head _)) (conveys_text htype)
  have hindex : Gives bare depth _ ["index"] (mk s.name s.type 0 0) (SpecPair.int "index" s.index)
      ⟨s.name, s.type, s.index, 0⟩ :=
    gives_int hfields (.tail _ (.tail _ (.head _))) rfl s.index
  have hordinal : Gives bare depth _ ["ordinal"] ⟨s.name, s.type, s.index, 0⟩
      (SpecPair.int "ordinal" s.ordinal) s :=
    gives_int hfields (.tail _ (.tail _ (.tail _ (.head _)))) rfl s.ordinal
  exact ((hnames.append htypes).append hindex).append hordinal

theorem LocalVarSpec.conveys_toYaml {s : LocalVarSpec} (h : ∀ t ∈ s.texts, Presentable bare t) :
    Conveys bare (depth + 1) (LocalVarSpec.decode yaml) s.toYaml s := by
  have hname := List.forall_mem_singleton.mp h
  have hnamed : WellNamed ["name", "index", "ordinal"] := by decide
  refine conveys_record hdecodes hnamed fun hfields => ?_
  have hname : Gives bare depth _ ["name"] blank [("name", .text s.name)] ⟨s.name, 0, 0⟩ :=
    gives_pair hfields (.head _) (conveys_text hname)
  have hindex : Gives bare depth _ ["index"] (mk s.name 0 0) (SpecPair.int "index" s.index)
      ⟨s.name, s.index, 0⟩ :=
    gives_int hfields (.tail _ (.head _)) rfl s.index
  have hordinal : Gives bare depth _ ["ordinal"] ⟨s.name, s.index, 0⟩
      (SpecPair.int "ordinal" s.ordinal) s :=
    gives_int hfields (.tail _ (.tail _ (.head _))) rfl s.ordinal
  exact (hname.append hindex).append hordinal

theorem LabelSpec.conveys_toYaml {s : LabelSpec} (h : ∀ t ∈ s.texts, Presentable bare t) :
    Conveys bare (depth + 1) (LabelSpec.decode yaml) s.toYaml s := by
  have hlabel := List.forall_mem_singleton.mp h
  have hnamed : WellNamed ["label", "index"] := by decide
  refine conveys_record hdecodes hnamed fun hfields => ?_
  have hlabel : Gives bare depth _ ["label"] blank [("label", .text s.label)] ⟨s.label, 0⟩ :=
    gives_pair hfields (.head _) (conveys_text hlabel)
  have hindex : Gives bare depth _ ["index"] ⟨s.label, 0⟩ (SpecPair.int "index" s.index) s :=
    gives_int hfields (.tail _ (.head _)) rfl s.index
  exact hlabel.append hindex

theorem FloatSpec.conveys_toYaml {s : FloatSpec} (h : ∀ t ∈ s.texts, Presentable bare t) :
    Conveys bare (depth + 1) (FloatSpec.decode yaml) s.toYaml s := by
  simp only [texts, List.forall_mem_cons] at h
  obtain ⟨hname, hlabel, htypecode, -⟩ := h
  have hnamed : WellNamed ["name", "label", "typecode", "index"] := by decide
  refine conveys_record hdecodes hnamed fun hfields => ?_
  have hnames : Gives bare depth _ ["name"] blank [("name", .text s.name)] ⟨s.name, "", "", 0⟩ :=
    gives_pair hfields (.head _) (conveys_text hname)
  have hlabels : Gives bare depth _ ["label"] (mk s.name "" "" 0) [("label", .text s.label)]
      ⟨s.name, s.label, "", 0⟩ :=
    gives_pair hfields (.tail _ (.head _)) (conveys_text hlabel)
  have htypecodes : Gives bare depth _ ["typecode"] (mk s.name s.label "" 0)
      [("typecode", .text s.typecode)] ⟨s.name, s.label, s.typecode, 0⟩ :=
    gives_pair hfields (.tail _ (.tail _ (.head _))) (conveys_text htypecode)
  have hindex : Gives bare depth _ ["index"] ⟨s.name, s.label, s.typecode, 0⟩
      (SpecPair.int "index" s.index) s :=
    gives_int hfields (.tail _ (.tail _ (.tail _ (.head _)))) rfl s.index
  exact ((hnames.append hlabels).append htypecodes).append hindex

/-- A constraint is read with a list of variables, whether or not it had one. -/
theorem DisjointSpec.conveys_toYaml {s : DisjointSpec} (h : ∀ t ∈ s.texts, Presentable bare t) :
    Conveys bare (depth + 2) (DisjointSpec.decode yaml) s.toYaml s.filled := by
  have hnamed : WellNamed ["vars", "index"] := by decide
  refine conveys_record hdecodes hnamed fun hfields => ?_
  have hvars : Gives bare (depth + 1) _ ["vars"] blank [("vars", .brackets s.texts)]
      ⟨some s.texts, 0⟩ :=
    gives_pair hfields (.head _) (conveys_brackets hdecodes h)
  have hindex : Gives bare (depth + 1) _ ["index"] ⟨some s.texts, 0⟩ (SpecPair.int "index" s.index)
      s.filled :=
    gives_int hfields (.tail _ (.head _)) rfl s.index
  exact hvars.append hindex

omit hdecodes in
theorem presentable_of_mem {α : Type} {xs : List (Option α)} {texts : α → List String}
    (h : ∀ t ∈ xs.reduceOption.flatMap texts, Presentable bare t) {x : α} (hx : some x ∈ xs) :
    ∀ t ∈ texts x, Presentable bare t := by
  intro t ht
  exact h t (List.mem_flatMap.mpr ⟨x, List.reduceOption_mem_iff.mpr hx, ht⟩)

theorem SegmentSpec.conveys_toYaml {s : SegmentSpec} (h : ∀ t ∈ s.texts, Presentable bare t) :
    Conveys bare (depth + 4) (SegmentSpec.decode yaml) s.toYaml s.filled := by
  simp only [texts, List.forall_mem_cons, List.forall_mem_append] at h
  obtain ⟨hsource, ⟨⟨⟨hsymbols, hlocalVars⟩, hlabels⟩, hfloats⟩, hdisjoints⟩ := h
  have hnamed : WellNamed
      ["id", "source", "symbols", "localVars", "labels", "floats", "globalDvs"] := by decide
  refine conveys_record hdecodes hnamed fun hfields => ?_
  -- each field is given to a segment that knows those before it and is blank from there on
  have hid : Gives bare (depth + 3) (yamlFields yaml) ["id"] blank [("id", .number s.id.toNat)]
      ⟨s.id, "", [], [], [], [], []⟩ :=
    gives_pair hfields (.head _) (conveys_word s.id)
  have hsource : Gives bare (depth + 3) (yamlFields yaml) ["source"] ⟨s.id, "", [], [], [], [], []⟩
      (SpecPair.text "source" s.source) ⟨s.id, s.source, [], [], [], [], []⟩ :=
    gives_text hfields (.tail _ (.head _)) rfl hsource
  have hsymbols : Gives bare (depth + 3) (yamlFields yaml) ["symbols"]
      ⟨s.id, s.source, [], [], [], [], []⟩ (SpecPair.list "symbols" SymbolSpec.toYaml s.symbols)
      ⟨s.id, s.source, s.symbols, [], [], [], []⟩ :=
    gives_list hfields hdecodes (.tail _ (.tail _ (.head _)))
      (fun _ hx => SymbolSpec.conveys_toYaml hdecodes (presentable_of_mem hsymbols hx)) rfl
  have hlocalVars : Gives bare (depth + 3) (yamlFields yaml) ["localVars"]
      ⟨s.id, s.source, s.symbols, [], [], [], []⟩
      (SpecPair.list "localVars" LocalVarSpec.toYaml s.localVars)
      ⟨s.id, s.source, s.symbols, s.localVars, [], [], []⟩ :=
    gives_list hfields hdecodes (.tail _ (.tail _ (.tail _ (.head _))))
      (fun _ hx => LocalVarSpec.conveys_toYaml hdecodes (presentable_of_mem hlocalVars hx)) rfl
  have hlabels : Gives bare (depth + 3) (yamlFields yaml) ["labels"]
      ⟨s.id, s.source, s.symbols, s.localVars, [], [], []⟩
      (SpecPair.list "labels" LabelSpec.toYaml s.labels)
      ⟨s.id, s.source, s.symbols, s.localVars, s.labels, [], []⟩ :=
    gives_list hfields hdecodes (.tail _ (.tail _ (.tail _ (.tail _ (.head _)))))
      (fun _ hx => LabelSpec.conveys_toYaml hdecodes (presentable_of_mem hlabels hx)) rfl
  have hfloats : Gives bare (depth + 3) (yamlFields yaml) ["floats"]
      ⟨s.id, s.source, s.symbols, s.localVars, s.labels, [], []⟩
      (SpecPair.list "floats" FloatSpec.toYaml s.floats)
      ⟨s.id, s.source, s.symbols, s.localVars, s.labels, s.floats, []⟩ :=
    gives_list hfields hdecodes (.tail _ (.tail _ (.tail _ (.tail _ (.tail _ (.head _))))))
      (fun _ hx => FloatSpec.conveys_toYaml hdecodes (presentable_of_mem hfloats hx)) rfl
  have hdisjoints : Gives bare (depth + 3) (yamlFields yaml) ["globalDvs"]
      ⟨s.id, s.source, s.symbols, s.localVars, s.labels, s.floats, []⟩
      (SpecPair.list "globalDvs" DisjointSpec.toYaml s.disjoints) s.filled :=
    gives_results hfields hdecodes
      (.tail _ (.tail _ (.tail _ (.tail _ (.tail _ (.tail _ (.head _)))))))
      (fun _ hx => DisjointSpec.conveys_toYaml hdecodes (presentable_of_mem hdisjoints hx)) rfl
  exact (((((hid.append hsource).append hsymbols).append hlocalVars).append hlabels).append
    hfloats).append hdisjoints

/-- **A collection** is legible, and is read with its lists. -/
theorem SetSpec.conveys_toYaml {s : SetSpec} (h : ∀ t ∈ s.texts, Presentable bare t) :
    Conveys bare (depth + 6) (yaml.record (yamlFields yaml) blank) s.toYaml s.filled := by
  have hnamed : WellNamed ["segments"] := by decide
  refine conveys_record hdecodes hnamed fun hfields => ?_
  exact gives_pair hfields (.head _) (conveys_list hdecodes fun _ hx =>
    SegmentSpec.conveys_toYaml hdecodes (presentable_of_mem h hx))

end Structures

/-! ## §4 Files -/

/-- Texts that look like something else in YAML: nothing, truth, numbers, entries, keys, comments,
quotes, brackets, literal scalars and merged mappings; and texts that start or end with a space. -/
def Sample.lookalikes : SetSpec where
  segments := some [none, some { SegmentSpec.blank with
    id := 4294967295
    source := "- a: b # c"
    symbols := [none, some ⟨"|-", "constant", -2147483648, 2147483647⟩, some ⟨"(", "->", 0, 0⟩]
    labels := [some ⟨"null", 1⟩, some ⟨"~", 2⟩, some ⟨"", 3⟩, some ⟨"1_2", 4⟩, some ⟨"yes", 5⟩,
      some ⟨"<<", 6⟩]
    floats := [some ⟨" x ", "'", "\"\\", 0⟩, some ⟨"---", "...", "2020-1-31", 0⟩]
    disjoints := [some ⟨none, 0⟩, some ⟨some ["", ",", "]", "#", "null", "<<", "𝟙"], 0⟩] }]

/-- A tree with nothing in it but a working directory, which is not its root. -/
def Sample.elsewhere : FileTree := .within ["tmp".toList, "work".toList]

end NameIndex
