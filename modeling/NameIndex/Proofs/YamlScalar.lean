import NameIndex.Proofs.YamlToken
import NameIndex.Yaml.Fragment

/-!
# Scalars of the fragment

A token is read back by the fragment. Between quotes, what stands for a character is read as the
character, whatever was pending. Plainly a text stands for itself, which works because nothing in it
disturbs; `Undisturbed` gathers what that leaves. Texts in brackets come one after the other, each up
to the mark after it.

## Main definition

* `Undisturbed` — what is written plainly.

## Main results

* `quoted?_flatMap` — quoted scalars read back.
* `Undisturbed.plainRun` — plain scalars are read up to where they end.
* `flowItems?_intercalate` — texts in brackets read back.
-/

namespace NameIndex.Yaml

open NameIndex.Text

/-! ## §1 Quoted scalars -/

/-- **What stands for a character in quotes** is read as the character, after whatever was pending. -/
theorem Carries.read {quote c : Char} {written : List Char} (h : Carries quote written c) {fuel : Nat}
    {rest : List Char} {ending : Option Char} {below : List Line} {text : List Char} {after : Cursor}
    (hrest : ∀ pending,
      quoted? quote fuel pending ⟨rest, ending, below⟩ = some (pending ++ text, after))
    (pending : List Char) :
    quoted? quote (fuel + 1) pending ⟨written ++ rest, ending, below⟩ =
      some (pending ++ c :: text, after) := by
  cases h with
  | self hquote hback =>
    by_cases hc : c = '\\'
    · subst hc
      have hdouble : quote ≠ '"' := fun hq => hback hq rfl
      simp [quoted?, hdouble, hrest]
    · by_cases hblank : isBlank c = true
      · simp [quoted?, hquote, hblank, hrest]
      · simp [quoted?, hquote, hblank, hrest]
  | twice hquote =>
    subst hquote
    simp [quoted?, hrest]
  | @escape written c hquote hne hescape =>
    subst hquote
    have hempty : (written ++ rest).isEmpty = false := by simp [hne]
    rw [List.cons_append, quoted?]
    simp [hempty, hescape, hrest]

/-- **A quoted scalar** reads back, if what is written for each character carries it. -/
theorem quoted?_flatMap {quote : Char} (hquote : quote = '"' ∨ quote = '\'')
    {write : Char → List Char} {cs rest : List Char} (hwrite : ∀ c ∈ cs, Carries quote (write c) c)
    (hrest : rest.head? ≠ some '\'') {fuel : Nat} (hfuel : cs.length < fuel) (ending : Option Char)
    (below : List Line) (pending : List Char) :
    quoted? quote fuel pending ⟨cs.flatMap write ++ quote :: rest, ending, below⟩ =
      some (pending ++ cs, ⟨rest, ending, below⟩) := by
  induction cs generalizing fuel pending with
  | nil =>
    obtain ⟨fuel, rfl⟩ := Nat.exists_eq_add_of_lt hfuel
    rcases hquote with rfl | rfl
    · simp [quoted?]
    · cases rest with
      | nil => simp [quoted?]
      | cons d rest =>
        have hd : d ≠ '\'' := by simpa using hrest
        simp [quoted?, hd]
  | cons c cs ih =>
    obtain ⟨hc, hcs⟩ := List.forall_mem_cons.mp hwrite
    obtain ⟨fuel, rfl⟩ := Nat.exists_eq_add_of_lt hfuel
    rw [List.flatMap_cons, List.append_assoc]
    exact hc.read (ih hcs (by simp only [List.length_cons]; omega)) pending

/-! ## §2 Plain scalars -/

/-- **What is written plainly** is no blank at either end, starts nothing else, and goes on without
something that would end it. -/
structure Undisturbed (flow : Bool) (c : Char) (rest : List Char) : Prop where
  inLine : ∀ d ∈ c :: rest, staysInLine d = true
  first : c ≠ ' '
  last : ∀ d ∈ (c :: rest).getLast?, d ≠ ' '
  unmarked : startsLikeMarker (c :: rest) = false
  starts : startsDisturbing flow (c :: rest) = false
  goesOn : goesOnDisturbing flow c rest = false

theorem undisturbed_of_fitsPlain {flow : Bool} {cs : List Char} (h : fitsPlain flow cs = true) :
    ∃ c rest, cs = c :: rest ∧ Undisturbed flow c rest := by
  simp only [fitsPlain, Bool.and_eq_true, Bool.not_eq_true', List.any_eq_false,
    Bool.not_eq_true] at h
  obtain ⟨⟨⟨⟨⟨hsingle, hbreak⟩, hedged⟩, hmarker⟩, hstarts⟩, hgoes⟩ := h
  cases cs with
  | nil => simp [startsDisturbing] at hstarts
  | cons c rest =>
    have hchars := staysInLine_of_fitsSingle hsingle hbreak
    simp only [isEdged, Bool.or_eq_false_iff, List.head?_cons, Option.any_some, isSpace,
      beq_eq_false_iff_ne] at hedged
    refine ⟨c, rest, rfl, hchars, hedged.1, ?_, hmarker, hstarts, by simpa using hgoes⟩
    intro d hd
    have hlast := hedged.2
    rw [Option.mem_def.mp hd] at hlast
    simpa [isSpace] using hlast

/-- A plain scalar ends here: the line is at its end, or something follows that ends it. -/
inductive Stops (flow : Bool) : List Char → Prop where
  | lineEnd : Stops flow []
  | colon {rest : List Char} (h : startsBlank rest = true) : Stops flow (':' :: rest)
  | indicator {c : Char} {rest : List Char} (hflow : flow = true) (h : isFlowIndicator c = true) :
      Stops flow (c :: rest)

theorem Stops.plainRun_nil {flow : Bool} {stop : List Char} (h : Stops flow stop) :
    plainRun flow [] stop = ([], stop) := by
  cases h with
  | lineEnd => rfl
  | colon h => simp [plainRun, h, isBlank]
  | @indicator c rest hflow h =>
    have hblank : isBlank c = false := by
      simp only [isFlowIndicator, Bool.or_eq_true, beq_iff_eq] at h
      rcases h with ((((rfl | rfl) | rfl) | rfl) | rfl) | rfl <;> rfl
    simp [plainRun, hflow, h, hblank]

theorem startsBlank_append {cs : List Char} (h : startsBlank cs = false) (more : List Char) :
    startsBlank (cs ++ more) = false := by
  cases cs with
  | nil => cases h
  | cons c cs => exact h

/-- What goes on undisturbed belongs to the scalar, with the blanks that came before it. -/
theorem plainRun_append {flow : Bool} {previous : Char} {pending cs stop : List Char}
    (hgoes : goesOnDisturbing flow previous cs = false)
    (hpending : pending ≠ [] → isBlank previous = true)
    (hlast : ∀ d ∈ cs.getLast?, isBlank d = false) (hend : cs = [] → pending = [])
    (hstop : Stops flow stop) : plainRun flow pending (cs ++ stop) = (pending ++ cs, stop) := by
  -- blanks are kept back until something follows them
  induction cs generalizing previous pending with
  | nil =>
    obtain rfl := hend rfl
    exact hstop.plainRun_nil
  | cons c cs ih =>
    simp only [goesOnDisturbing, Bool.or_eq_false_iff, Bool.and_eq_false_iff] at hgoes
    obtain ⟨⟨⟨hcolon, hhash⟩, hflow⟩, hrest⟩ := hgoes
    have hlast' : ∀ d ∈ cs.getLast?, isBlank d = false := by
      intro d hd
      apply hlast d
      rw [List.getLast?_cons, Option.mem_def.mp hd]
      rfl
    rw [List.cons_append, plainRun]
    cases hblank : isBlank c with
    | true =>
      simp only [if_true]
      rw [ih hrest (fun _ => hblank) hlast' (fun hnil => ?_)]
      · simp
      · -- a blank does not come last
        subst hnil
        simp [hlast c (by simp)] at hblank
    | false =>
      -- none of the three reasons to stop is there
      have hhash' : (c == '#' && !pending.isEmpty) = false := by
        rcases hhash with hc | hprevious
        · simp [hc]
        · have hnone : pending = [] := by
            by_contra hne
            simp [hpending hne] at hprevious
          simp [hnone]
      have hcolon' : (c == ':' && startsBlank (cs ++ stop)) = false := by
        rcases hcolon with hc | hblank
        · simp [hc]
        · simp [startsBlank_append hblank.2]
      have hflow' : (flow && isFlowIndicator c) = false := by
        rcases hflow with rfl | hc
        · rfl
        · simp [isFlowIndicator, hc]
      simp only [hhash', hcolon', hflow', Bool.or_false, Bool.false_eq_true, if_false]
      rw [ih hrest (by simp) hlast' (fun _ => rfl)]
      simp

theorem startsDisturbing_of_isOpener {c : Char} (h : isOpener c = true) (flow : Bool)
    (rest : List Char) : startsDisturbing flow (c :: rest) = true := by
  have hne : ∀ d, isOpener d = false → c ≠ d := by
    rintro d hd rfl
    simp [h] at hd
  simp [startsDisturbing, hne '-' rfl, hne '?' rfl, hne ':' rfl, h]

namespace Undisturbed

variable {flow : Bool} {c : Char} {rest stop : List Char}

theorem not_isOpener (h : Undisturbed flow c rest) : isOpener c = false := by
  by_contra hopener
  have hstarts := startsDisturbing_of_isOpener (by simpa using hopener) flow rest
  simp [h.starts] at hstarts

theorem ne_of_isOpener (h : Undisturbed flow c rest) {d : Char} (hd : isOpener d = true) : c ≠ d := by
  rintro rfl
  simp [h.not_isOpener] at hd

theorem not_isBlank (h : Undisturbed flow c rest) : isBlank c = false := by
  have htab : c ≠ '\t' := ne_of_staysInLine (h.inLine c List.mem_cons_self) (by decide)
  simp [isBlank, h.first, htab]

theorem not_isBlank_last (h : Undisturbed flow c rest) :
    ∀ d ∈ (c :: rest).getLast?, isBlank d = false := by
  intro d hd
  have htab : d ≠ '\t' := ne_of_staysInLine (h.inLine d (List.mem_of_getLast? hd)) (by decide)
  simp [isBlank, h.last d hd, htab]

/-- What may stand at the front although it starts other things: outside brackets all three. -/
theorem starts_cases (h : Undisturbed flow c rest) :
    (c = '-' ∧ startsBlank rest = false) ∨
      ((c = '?' ∨ c = ':') ∧ flow = false ∧ startsBlank rest = false) ∨
      (c ≠ '-' ∧ c ≠ '?' ∧ c ≠ ':') := by
  have hstarts := h.starts
  by_cases hdash : c = '-'
  · subst hdash
    exact .inl ⟨rfl, by simpa [startsDisturbing] using hstarts⟩
  · by_cases hmark : c = '?' ∨ c = ':'
    · have hboth : (c == '?' || c == ':') = true := by simpa using hmark
      simp only [startsDisturbing, beq_iff_eq, hdash, hboth, if_true, if_false,
        Bool.or_eq_false_iff] at hstarts
      exact .inr (.inl ⟨hmark, hstarts⟩)
    · rw [not_or] at hmark
      exact .inr (.inr ⟨hdash, hmark⟩)

/-- The first character does not disturb either when it is taken for a later one. -/
theorem goesOn_cons (h : Undisturbed flow c rest) (previous : Char) :
    goesOnDisturbing flow previous (c :: rest) = false := by
  have hne : ∀ d, isOpener d = true → c ≠ d := fun d => h.ne_of_isOpener
  have hbrackets : (c == ',' || c == '[' || c == ']' || c == '\x7b' || c == '\x7d') = false := by
    simp [hne ',' rfl, hne '[' rfl, hne ']' rfl, hne '\x7b' rfl, hne '\x7d' rfl]
  simp only [Bool.or_eq_false_iff] at hbrackets
  rcases h.starts_cases with ⟨rfl, hblank⟩ | ⟨rfl | rfl, rfl, hblank⟩ | ⟨-, hask, hcolon⟩
  · simp [goesOnDisturbing, h.goesOn]
  · simp [goesOnDisturbing, h.goesOn]
  · simp [goesOnDisturbing, h.goesOn, hblank]
  · simp [goesOnDisturbing, h.goesOn, hask, hcolon, hne '#' rfl, hbrackets]

/-- **What is written plainly** is read up to where it ends. -/
theorem plainRun (h : Undisturbed flow c rest) (hstop : Stops flow stop) :
    plainRun flow [] (c :: (rest ++ stop)) = (c :: rest, stop) :=
  plainRun_append (h.goesOn_cons 'a') (fun hne => absurd rfl hne) h.not_isBlank_last (fun _ => rfl)
    hstop

theorem startsPlain (h : Undisturbed flow c rest) (more : List Char) :
    startsPlain flow (c :: (rest ++ more)) = true := by
  rcases h.starts_cases with ⟨rfl, hblank⟩ | ⟨rfl | rfl, rfl, hblank⟩ | ⟨hdash, hask, hcolon⟩
  · simp [Yaml.startsPlain, startsBlank_append hblank]
  · simp [Yaml.startsPlain, startsBlank_append hblank]
  · simp [Yaml.startsPlain, startsBlank_append hblank]
  · have hindicator : isIndicator c = false := by
      have hopener := h.not_isOpener
      simp only [isOpener, decide_eq_false_iff_not, List.mem_cons, not_or] at hopener
      simp [isIndicator, isFlowIndicator, hdash, hask, hcolon, hopener]
    simp [Yaml.startsPlain, hdash, hask, hcolon, h.not_isBlank, hindicator]

end Undisturbed

/-! ## §3 Tokens -/

theorem Carries.ne_nil {quote c : Char} {written : List Char} (h : Carries quote written c) :
    written ≠ [] := by
  cases h with
  | self => exact List.cons_ne_nil _ _
  | twice => exact List.cons_ne_nil _ _
  | escape => exact List.cons_ne_nil _ _

theorem length_le_flatMap {write : Char → List Char} {cs : List Char}
    (h : ∀ c ∈ cs, write c ≠ []) : cs.length ≤ (cs.flatMap write).length := by
  induction cs with
  | nil => simp
  | cons c cs ih =>
    obtain ⟨hc, hcs⟩ := List.forall_mem_cons.mp h
    have hpos := List.length_pos_iff.mpr hc
    have hrest := ih hcs
    simp only [List.flatMap_cons, List.length_append, List.length_cons]
    omega

/-- A plain scalar as a node inside brackets. -/
theorem Undisturbed.flowNode? {c : Char} {cs rest : List Char} (h : Undisturbed true c cs) {d : Char}
    (hd : isFlowIndicator d = true) {fuel : Nat} (hfuel : 1 < fuel) (ending : Option Char)
    (below : List Line) :
    flowNode? fuel ⟨c :: (cs ++ d :: rest), ending, below⟩ =
      some (.scalar true (String.ofList (c :: cs)), ⟨d :: rest, ending, below⟩) := by
  obtain ⟨fuel, rfl⟩ : ∃ fuel', fuel = fuel' + 2 := ⟨fuel - 2, by omega⟩
  have hne : ∀ opener, isOpener opener = true → c ≠ opener := fun _ => h.ne_of_isOpener
  have hplain : plainFlow? (fuel + 1) ⟨c :: (cs ++ d :: rest), ending, below⟩ =
      some (c :: cs, ⟨d :: rest, ending, below⟩) := by
    simp [plainFlow?, h.plainRun (.indicator rfl hd)]
  rw [Yaml.flowNode?]
  dsimp only
  split
  · next heq => exact absurd (List.cons.inj heq).1 (hne '[' rfl)
  · next heq => exact absurd (List.cons.inj heq).1 (hne '\x7b' rfl)
  · next heq => exact absurd (List.cons.inj heq).1 (hne '"' rfl)
  · next heq => exact absurd (List.cons.inj heq).1 (hne '\'' rfl)
  · rw [if_pos (h.startsPlain _), hplain]
    rfl

/-- A quoted scalar as a node. -/
theorem flowNode?_quoted {quote : Char} (hquote : quote = '"' ∨ quote = '\'')
    {write : Char → List Char} {cs rest : List Char} (hcarries : ∀ c ∈ cs, Carries quote (write c) c)
    (hrest : rest.head? ≠ some '\'') {fuel : Nat} (hfuel : cs.length + 1 < fuel)
    (ending : Option Char) (below : List Line) :
    flowNode? fuel ⟨quote :: (cs.flatMap write ++ quote :: rest), ending, below⟩ =
      some (.scalar false (String.ofList cs), ⟨rest, ending, below⟩) := by
  obtain ⟨fuel, rfl⟩ : ∃ fuel', fuel = fuel' + 1 := ⟨fuel - 1, by omega⟩
  have hread := quoted?_flatMap hquote hcarries hrest (Nat.lt_of_succ_lt_succ hfuel) ending below []
  rcases hquote with rfl | rfl
  · simp [flowNode?, hread]
  · simp [flowNode?, hread]

theorem Scalar.numeric_ne_null (text : List Char) : numeric text ≠ .null := by
  unfold numeric
  split
  · nofun
  · dsimp only
    split
    · nofun
    · split
      · nofun
      · cases marked? (withoutUnderscores text) with
        | none => nofun
        | some n => nofun

theorem Scalar.fractional_ne_null (text : List Char) : fractional text ≠ .null := by
  unfold fractional
  split
  · cases float? (withoutUnderscores text) with
    | none => nofun
    | some x => nofun
  · nofun

/-- Only a word for nothing says nothing. -/
theorem Scalar.word?_of_meaning_eq_null {text : String} (h : meaning text = .null) :
    word? text = some .null := by
  unfold meaning at h
  split at h
  · next m hword => rw [hword, h]
  · next hword =>
    exfalso
    split at h
    · next hempty =>
      rw [String.toList_eq_nil_iff.mp hempty] at hword
      cases hword
    · split at h
      · exact numeric_ne_null _ h
      · split at h
        · exact fractional_ne_null _ h
        · cases h

namespace Token

variable {bare : String → Prop} {flow plain : Bool} {text : String} {written : List Char}

/-- **A token shows its text.** -/
theorem showsText (h : Token bare flow text plain written) :
    fragment.ShowsText text (Node.scalar plain text) := by
  have hnull : (Node.scalar plain text).isNull = false := by
    cases h with
    | plain _ _ hmeans =>
      have hmeaning : Scalar.meaning text ≠ .null := fun h =>
        hmeans (Scalar.word?_of_meaning_eq_null h)
      simpa [Node.isNull] using hmeaning
    | quoted => rfl
  refine ⟨hnull, ?_⟩
  show Node.text (Node.scalar plain text) = _
  simp [Node.text, Node.scalar?, hnull]

/-- What is written starts with something that is seen. -/
theorem solid (h : Token bare flow text plain written) :
    ∃ d ds, written = d :: ds ∧ isBlank d = false ∧ d ≠ '#' ∧ d ≠ ']' := by
  cases h with
  | plain _ hfits =>
    obtain ⟨c, cs, hcs, hplain⟩ := undisturbed_of_fitsPlain hfits
    exact ⟨c, cs, hcs, hplain.not_isBlank, hplain.ne_of_isOpener rfl, hplain.ne_of_isOpener rfl⟩
  | quoted hquote =>
    rcases hquote with rfl | rfl
    · exact ⟨_, _, rfl, rfl, by decide, by decide⟩
    · exact ⟨_, _, rfl, rfl, by decide, by decide⟩

theorem inLine (h : Token bare flow text plain written) : ∀ d ∈ written, staysInLine d = true := by
  cases h with
  | plain _ hfits =>
    obtain ⟨c, cs, hcs, hplain⟩ := undisturbed_of_fitsPlain hfits
    exact hcs ▸ hplain.inLine
  | @quoted quote _ hquote _ hline =>
    have hmark : staysInLine quote = true := by
      rcases hquote with rfl | rfl
      · decide
      · decide
    simp only [List.mem_cons, List.mem_append, List.mem_flatMap, List.not_mem_nil, or_false]
    rintro d (rfl | ⟨c, hc, hd⟩ | rfl)
    · exact hmark
    · exact hline c hc d hd
    · exact hmark

/-- **A text inside brackets** is read up to the mark after it. -/
theorem flowNode? (h : Token bare true text plain written) {d : Char} (hd : d = ',' ∨ d = ']')
    {fuel : Nat} (hfuel : written.length < fuel) (rest : List Char) (ending : Option Char)
    (below : List Line) :
    flowNode? fuel ⟨written ++ d :: rest, ending, below⟩ =
      some (.scalar plain text, ⟨d :: rest, ending, below⟩) := by
  cases h with
  | plain _ hfits =>
    obtain ⟨c, cs, hcs, hplain⟩ := undisturbed_of_fitsPlain hfits
    have hindicator : isFlowIndicator d = true := by rcases hd with rfl | rfl <;> rfl
    rw [hcs, List.length_cons] at hfuel
    rw [hcs, List.cons_append, hplain.flowNode? hindicator (by omega), ← hcs, String.ofList_toList]
  | quoted hquote hcarries hline =>
    have hrest : (d :: rest).head? ≠ some '\'' := by rcases hd with rfl | rfl <;> simp
    have hlength := length_le_flatMap fun c hc => (hcarries c hc).ne_nil
    simp only [List.length_cons, List.length_append] at hfuel
    rw [List.cons_append, List.append_assoc, List.singleton_append,
      flowNode?_quoted hquote hcarries hrest (by omega), String.ofList_toList]

end Token

/-! ## §4 Texts in brackets -/

theorem token?_of_solid {lead : List Char} {c : Char} (hlead : ∀ d ∈ lead, isBlank d = true)
    (hblank : isBlank c = false) (hhash : c ≠ '#') (cs : List Char) (ending : Option Char)
    (below : List Line) :
    Cursor.token? ⟨lead ++ c :: cs, ending, below⟩ = some ⟨c :: cs, ending, below⟩ := by
  have hskip : skipBlanks (lead ++ c :: cs) = c :: cs := by
    rw [skipBlanks, List.dropWhile_append_of_pos hlead, List.dropWhile_cons_of_neg (by simp [hblank])]
  have hvoid : isVoid (c :: cs) = false := by
    unfold isVoid
    split
    · next heq => cases heq
    · next heq => exact absurd (List.cons.inj heq).1 hhash
    · rfl
  simp [Cursor.token?, hskip, hvoid]

/-- **One text** of several, and the mark after it. -/
theorem flowItems?_text {text : String} {plain : Bool} {lead written rest : List Char}
    (h : Token bare true text plain written) (hlead : ∀ d ∈ lead, isBlank d = true) {fuel : Nat}
    (hfuel : written.length < fuel) (ending : Option Char) (below : List Line) :
    flowItems? (fuel + 1) ⟨lead ++ (written ++ ']' :: rest), ending, below⟩ =
        some ([.scalar plain text], ⟨rest, ending, below⟩) ∧
      flowItems? (fuel + 1) ⟨lead ++ (written ++ ',' :: rest), ending, below⟩ =
        (flowItems? fuel ⟨rest, ending, below⟩).map fun (more, c) =>
          (.scalar plain text :: more, c) := by
  have hlast := h.flowNode? (.inr rfl) hfuel rest ending below
  have hmore := h.flowNode? (.inl rfl) hfuel rest ending below
  obtain ⟨d, ds, rfl, hblank, hhash, hclose⟩ := h.solid
  have hmark : ∀ mark, mark = ',' ∨ mark = ']' →
      Cursor.token? ⟨mark :: rest, ending, below⟩ = some ⟨mark :: rest, ending, below⟩ := by
    rintro mark (rfl | rfl)
    · exact token?_of_solid (List.forall_mem_nil _) rfl (by decide) rest ending below
    · exact token?_of_solid (List.forall_mem_nil _) rfl (by decide) rest ending below
  simp only [List.cons_append] at hlast hmore ⊢
  constructor
  · rw [flowItems?, token?_of_solid hlead hblank hhash]
    simp [hclose, hlast, hmark ']' (.inr rfl), separator?]
  · rw [flowItems?, token?_of_solid hlead hblank hhash]
    simp [hclose, hmore, hmark ',' (.inl rfl), separator?, Option.map_eq_bind]

theorem mem_of_mem_intercalate {sep : List Char} {texts : List (List Char)} {c : Char}
    (h : c ∈ List.intercalate sep texts) : c ∈ sep ∨ ∃ text ∈ texts, c ∈ text := by
  induction texts with
  | nil => simp at h
  | cons text texts ih =>
    cases texts with
    | nil => exact .inr ⟨text, List.mem_cons_self, by simpa using h⟩
    | cons text' texts =>
      rw [List.intercalate_cons_cons, List.mem_append, List.mem_append] at h
      rcases h with (h | h) | h
      · exact .inr ⟨text, List.mem_cons_self, h⟩
      · exact .inl h
      · apply (ih h).imp_right
        rintro ⟨t, ht, hc⟩
        exact ⟨t, List.mem_cons_of_mem text ht, hc⟩

/-- **Texts in brackets** read back, up to the bracket that closes them. -/
theorem flowItems?_intercalate {write : String → List Char} {plain : String → Bool}
    {texts : List String} (h : ∀ text ∈ texts, Token bare true text (plain text) (write text))
    {lead : List Char} (hlead : ∀ d ∈ lead, isBlank d = true) {fuel : Nat}
    (hfuel : (List.intercalate [',', ' '] (texts.map write)).length + 1 < fuel) (rest : List Char)
    (ending : Option Char) (below : List Line) :
    flowItems? fuel ⟨lead ++ (List.intercalate [',', ' '] (texts.map write) ++ ']' :: rest), ending,
        below⟩ = some (texts.map fun text => .scalar (plain text) text, ⟨rest, ending, below⟩) := by
  induction texts generalizing fuel lead with
  | nil =>
    obtain ⟨fuel, rfl⟩ : ∃ fuel', fuel = fuel' + 1 := ⟨fuel - 1, by omega⟩
    have htoken := token?_of_solid hlead (show isBlank ']' = false from rfl) (by decide) rest
      ending below
    simp [flowItems?, htoken]
  | cons text texts ih =>
    obtain ⟨htext, htexts⟩ := List.forall_mem_cons.mp h
    obtain ⟨fuel, rfl⟩ : ∃ fuel', fuel = fuel' + 1 := ⟨fuel - 1, by omega⟩
    cases texts with
    | nil =>
      simp only [List.map_cons, List.map_nil, List.intercalate_singleton] at hfuel ⊢
      exact (flowItems?_text htext hlead (by omega) ending below).1
    | cons text' texts =>
      -- the blank after the comma is skipped with the rest of the lead
      simp only [List.map_cons, List.intercalate_cons_cons, List.length_append, List.length_cons,
        List.length_nil] at hfuel ih ⊢
      rw [List.append_assoc, List.append_assoc, List.cons_append,
        (flowItems?_text htext hlead (by omega) ending below).2]
      have hlead' : ∀ d ∈ [' '], isBlank d = true := List.forall_mem_singleton.mpr rfl
      rw [ih htexts hlead' (by omega)]
      rfl

end NameIndex.Yaml
