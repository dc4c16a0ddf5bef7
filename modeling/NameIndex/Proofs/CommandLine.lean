import Mathlib.Data.List.TakeWhile
import NameIndex.Proofs.FirstFailure
import NameIndex.Proofs.Numeral
import NameIndex.Proofs.Storage
import NameIndex.Tool.Options

/-!
# Command lines

A command line gives options one after the other, ends them with two dashes alone, and goes on with
files. An option that takes a value is given in one of four forms: with one dash or two, and the
value after an equals sign or as an argument of its own. The value may be any text: it may look like
an option, have equals signs in it, or be empty.

Reading such a line, each option finds its own values and nothing of the others. A repeatable option
has its values in the order in which they are given, any other option the last one, and a switch is
on iff it is given. So the options of different names can be given in any order.

## Architecture

1. Occurrences of options and the arguments that write them.
2. `of_plain`, `of_joined` — what such an argument is taken for.
3. `parseArguments_append` for one occurrence, and `parseArguments_occurrences` for a line: what is
   read is what was given (`gathered`).
4. Numerals of segment ids: which texts are read, and why the others are not.
5. The options of a line.

## Main results

* `CommandLine.parse_occurrences` — the options of a command line, and the first value that spoils it.
-/

namespace NameIndex.CommandLine

/-! ## §1 Occurrences of options -/

/-- An option that takes a value. -/
inductive Valued where
  | label
  | symbol
  | float
  | disjoint
  | drop
  | manifest
  | logLevel
  deriving DecidableEq

/-- An option that is on or off. -/
inductive Switch where
  | disjointList
  | dump
  | progress
  deriving DecidableEq

/-- An option. -/
inductive Flag where
  | valued (f : Valued)
  | switch (s : Switch)
  deriving DecidableEq

/-- What stands before the name of an option. -/
inductive Dashes where
  | one
  | two
  deriving DecidableEq

/-- One option as it is given. -/
inductive Occurrence where
  /-- An option and its value, joined by an equals sign or as two arguments. -/
  | valued (f : Valued) (value : String) (dashes : Dashes) (joined : Bool)
  /-- A switch, without a value. -/
  | switch (s : Switch) (dashes : Dashes)
  deriving DecidableEq

def Dashes.text : Dashes → String
  | .one => "-"
  | .two => "--"

def Valued.name : Valued → String
  | .label => "label"
  | .symbol => "symbol"
  | .float => "float"
  | .disjoint => "disjoint"
  | .drop => "drop"
  | .manifest => "manifest"
  | .logLevel => "log_level"

def Switch.name : Switch → String
  | .disjointList => "dv"
  | .dump => "dump"
  | .progress => "progress"

def Flag.name : Flag → String
  | .valued f => f.name
  | .switch s => s.name

namespace Occurrence

/-- The option that is given. -/
def flag : Occurrence → Flag
  | .valued f .. => .valued f
  | .switch s _ => .switch s

/-- The value that it is given. -/
def value? : Occurrence → Option String
  | .valued _ v .. => some v
  | .switch .. => none

/-- The arguments that write it. -/
def arguments : Occurrence → List String
  | .valued f v dashes true => [dashes.text ++ f.name ++ "=" ++ v]
  | .valued f v dashes false => [dashes.text ++ f.name, v]
  | .switch s dashes => [dashes.text ++ s.name]

end Occurrence

/-- The command line that gives some options and then some files. -/
def commandLine (os : List Occurrence) (files : List String) : List String :=
  os.flatMap Occurrence.arguments ++ "--" :: files

/-- The occurrences of one option. -/
def occurrencesOf (flag : Flag) (os : List Occurrence) : List Occurrence :=
  os.filter (·.flag = flag)

/-- The values that an option is given, in the order of the command line. -/
def valuesOf (f : Valued) (os : List Occurrence) : List String :=
  (occurrencesOf (.valued f) os).filterMap Occurrence.value?

/-- The switch is given. -/
def occurs (s : Switch) (os : List Occurrence) : Bool := os.any (·.flag = .switch s)

theorem occurs_eq_any (s : Switch) (os : List Occurrence) :
    occurs s os = (occurrencesOf (.switch s) os).any fun _ => true := by
  simp [occurs, occurrencesOf, List.any_filter]

section Cons

variable {f g : Valued} {s t : Switch} {v : String} {dashes : Dashes} {joined : Bool}
  {os : List Occurrence}

theorem valuesOf_cons_valued :
    valuesOf f (.valued g v dashes joined :: os) =
      if g = f then v :: valuesOf f os else valuesOf f os := by
  by_cases hgf : g = f
  · simp [valuesOf, occurrencesOf, Occurrence.flag, Occurrence.value?, hgf]
  · simp [valuesOf, occurrencesOf, Occurrence.flag, hgf]

theorem valuesOf_cons_switch : valuesOf f (.switch s dashes :: os) = valuesOf f os := by
  simp [valuesOf, occurrencesOf, Occurrence.flag]

theorem occurs_cons_valued : occurs s (.valued g v dashes joined :: os) = occurs s os := by
  simp [occurs, Occurrence.flag]

theorem occurs_cons_switch : occurs s (.switch t dashes :: os) = (decide (t = s) || occurs s os) := by
  simp [occurs, Occurrence.flag]

end Cons

/-! ## §2 Arguments -/

/-- Characters that can be the name of an option: they do not begin with a dash, and have no equals
sign. -/
structure IsName (cs : List Char) : Prop where
  begins : ∃ c rest, cs = c :: rest ∧ c ≠ '-'
  unequal : '=' ∉ cs

theorem Flag.isName (flag : Flag) : IsName flag.name.toList := by
  obtain ⟨f⟩ | ⟨s⟩ := flag
  · cases f <;> exact ⟨⟨_, _, rfl, by decide⟩, by decide⟩
  · cases s <;> exact ⟨⟨_, _, rfl, by decide⟩, by decide⟩

theorem IsName.exists_first {cs : List Char} (h : IsName cs) :
    ∃ c rest, cs = c :: rest ∧ c ≠ '-' ∧ c ≠ '=' := by
  obtain ⟨⟨c, rest, rfl, hdash⟩, hunequal⟩ := h
  exact ⟨c, rest, rfl, hdash, fun heq => hunequal (heq ▸ List.mem_cons_self)⟩

theorem splitValue_plain {cs : List Char} (h : '=' ∉ cs) : splitValue cs = (String.ofList cs, none) := by
  have hnil : cs.dropWhile (· ≠ '=') = [] := by
    rw [List.dropWhile_eq_nil_iff]
    intro c hc
    exact decide_eq_true fun heq => h (heq ▸ hc)
  rw [splitValue, hnil]

/-- The first equals sign divides; those in the value stay there. -/
theorem splitValue_joined {cs : List Char} (h : '=' ∉ cs) (v : List Char) :
    splitValue (cs ++ '=' :: v) = (String.ofList cs, some (String.ofList v)) := by
  have hne : ∀ c ∈ cs, decide (c ≠ '=') = true := fun c hc => decide_eq_true fun heq => h (heq ▸ hc)
  rw [splitValue, List.dropWhile_append_of_pos hne, List.takeWhile_append_of_pos hne]
  simp

/-- One dash or two, and then something that is neither a dash nor an equals sign. -/
theorem of_dashes {argument : String} {dashes : Dashes} {c : Char} {rest : List Char}
    (hargument : argument.toList = dashes.text.toList ++ c :: rest) (hdash : c ≠ '-')
    (hequals : c ≠ '=') :
    Argument.of argument = .option (splitValue (c :: rest)).1 (splitValue (c :: rest)).2 := by
  have hname : Argument.ofName (c :: rest) =
      .option (splitValue (c :: rest)).1 (splitValue (c :: rest)).2 := by
    simp [Argument.ofName, hdash, hequals]
  rw [← hname, Argument.of]
  cases dashes with
  | one =>
    replace hargument : argument.toList = '-' :: c :: rest := hargument
    rw [hargument]
    -- a second dash would make it another argument
    split
    · next heq => simp [hdash] at heq
    · next heq => simp [hdash] at heq
    · next heq =>
      obtain ⟨rfl, rfl⟩ : c = _ ∧ rest = _ := by simpa using heq
      rfl
    · next hno => exact absurd rfl (hno c rest)
  | two =>
    replace hargument : argument.toList = '-' :: '-' :: c :: rest := hargument
    rw [hargument]
    rfl

theorem of_plain (flag : Flag) (dashes : Dashes) :
    Argument.of (dashes.text ++ flag.name) = .option flag.name none := by
  obtain ⟨c, rest, hname, hdash, hequals⟩ := flag.isName.exists_first
  have hargument : (dashes.text ++ flag.name).toList = dashes.text.toList ++ c :: rest := by
    rw [String.toList_append, hname]
  rw [of_dashes hargument hdash hequals, ← hname, splitValue_plain flag.isName.unequal,
    String.ofList_toList]

theorem of_joined (flag : Flag) (dashes : Dashes) (v : String) :
    Argument.of (dashes.text ++ flag.name ++ "=" ++ v) = .option flag.name (some v) := by
  obtain ⟨c, rest, hname, hdash, hequals⟩ := flag.isName.exists_first
  have hargument : (dashes.text ++ flag.name ++ "=" ++ v).toList =
      dashes.text.toList ++ c :: (rest ++ '=' :: v.toList) := by
    simp [String.toList_append, hname]
  rw [of_dashes hargument hdash hequals, ← List.cons_append, ← hname,
    splitValue_joined flag.isName.unequal, String.ofList_toList, String.ofList_toList]

/-! ## §3 What is read -/

/-- What a value of an option changes. -/
def Valued.set : Valued → RawOptions → String → RawOptions
  | .label, o, v => { o with labels := o.labels.add v }
  | .symbol, o, v => { o with symbols := o.symbols.add v }
  | .float, o, v => { o with floats := o.floats.add v }
  | .disjoint, o, v => { o with disjoint := o.disjoint.add v }
  | .drop, o, v => { o with drop := o.drop.add v }
  | .manifest, o, v => { o with manifest := v }
  | .logLevel, o, v => { o with level := v }

/-- What a switch changes. -/
def Switch.set : Switch → RawOptions → Bool → RawOptions
  | .disjointList, o, b => { o with disjointList := b }
  | .dump, o, b => { o with dump := b }
  | .progress, o, b => { o with progress := b }

/-- What an occurrence changes. -/
def Occurrence.apply (o : RawOptions) : Occurrence → RawOptions
  | .valued f v .. => f.set o v
  | .switch s _ => s.set o true

theorem setting?_valued (f : Valued) :
    setting? f.name = some (.single f.set) ∨ setting? f.name = some (.repeated f.set) := by
  cases f with
  | manifest | logLevel => exact .inl rfl
  | _ => exact .inr rfl

theorem setting?_switch (s : Switch) : setting? s.name = some (.switch s.set) := by
  cases s <;> rfl

section Step

variable {o : RawOptions} {f : Valued} {s : Switch} {argument v : String} {rest : List String}

theorem parseArguments_joined (h : Argument.of argument = .option f.name (some v)) :
    parseArguments o (argument :: rest) = parseArguments (f.set o v) rest := by
  rw [parseArguments, h]
  rcases setting?_valued f with hset | hset
  · simp only [hset]
  · simp only [hset]

/-- The next argument is the value, whatever it looks like. -/
theorem parseArguments_following (h : Argument.of argument = .option f.name none) :
    parseArguments o (argument :: v :: rest) = parseArguments (f.set o v) rest := by
  rw [parseArguments, h]
  rcases setting?_valued f with hset | hset
  · simp only [hset]
  · simp only [hset]

theorem parseArguments_switch (h : Argument.of argument = .option s.name none) :
    parseArguments o (argument :: rest) = parseArguments (s.set o true) rest := by
  rw [parseArguments, h]
  simp only [setting?_switch]
  rfl

end Step

/-- **One occurrence**, whatever comes after it. -/
theorem parseArguments_append (o : RawOptions) (x : Occurrence) (rest : List String) :
    parseArguments o (x.arguments ++ rest) = parseArguments (x.apply o) rest := by
  cases x with
  | switch s dashes =>
    apply parseArguments_switch
    exact of_plain (.switch s) dashes
  | valued f v dashes joined =>
    cases joined with
    | true =>
      apply parseArguments_joined
      exact of_joined (.valued f) dashes v
    | false =>
      apply parseArguments_following
      exact of_plain (.valued f) dashes

/-- What is given after some occurrences: each option knows its own values only. -/
def gathered (o : RawOptions) (os : List Occurrence) : RawOptions where
  manifest := (valuesOf .manifest os).getLastD o.manifest
  labels := ⟨o.labels.values ++ valuesOf .label os⟩
  symbols := ⟨o.symbols.values ++ valuesOf .symbol os⟩
  floats := ⟨o.floats.values ++ valuesOf .float os⟩
  disjoint := ⟨o.disjoint.values ++ valuesOf .disjoint os⟩
  disjointList := o.disjointList || occurs .disjointList os
  drop := ⟨o.drop.values ++ valuesOf .drop os⟩
  dump := o.dump || occurs .dump os
  progress := o.progress || occurs .progress os
  level := (valuesOf .logLevel os).getLastD o.level

theorem gathered_nil (o : RawOptions) : gathered o [] = o := by
  simp [gathered, valuesOf, occurrencesOf, occurs]

theorem gathered_apply (o : RawOptions) (x : Occurrence) (os : List Occurrence) :
    gathered (x.apply o) os = gathered o (x :: os) := by
  -- the option at hand has one value more to come, and the others see no occurrence of theirs
  cases x with
  | valued f v dashes joined =>
    simp only [gathered, valuesOf_cons_valued, occurs_cons_valued, Occurrence.apply]
    cases f <;> simp [Valued.set, ValueList.add, List.getLastD_cons, -List.getLastD_eq_getLast?]
  | switch s dashes =>
    simp only [gathered, valuesOf_cons_switch, occurs_cons_switch, Occurrence.apply]
    cases s <;> simp [Switch.set]

/-- **A command line**: what is given is read, and the files are left as they are. -/
theorem parseArguments_occurrences (o : RawOptions) (os : List Occurrence) (files : List String) :
    parseArguments o (commandLine os files) = .ok (gathered o os, files) := by
  unfold commandLine
  -- over the occurrences, with what has been given before them
  induction os generalizing o with
  | nil =>
    rw [gathered_nil]
    rfl
  | cons x os ih =>
    rw [List.flatMap_cons, List.append_assoc, parseArguments_append, ih, gathered_apply]

theorem parse_commandLine (readLevel : Level.Reader) (os : List Occurrence) (files : List String) :
    Options.parse readLevel (commandLine os files) =
      (gathered .blank os).toOptions readLevel files := by
  rw [Options.parse, parseArguments_occurrences]
  rfl

/-- Only the occurrences of each option count, and not how they stand to those of others. -/
theorem gathered_congr {os os' : List Occurrence}
    (h : ∀ flag, occurrencesOf flag os' = occurrencesOf flag os) (o : RawOptions) :
    gathered o os' = gathered o os := by
  simp only [gathered, valuesOf, occurs_eq_any, h]

/-! ## §4 Numerals of segment ids -/

/-- The number that decimal digits write. -/
def numeralValue (cs : List Char) : Nat := Nat.ofDigitChars 10 cs 0

/-- A text that writes a segment id: one or more decimal digits, and a number that fits. -/
structure IsIdNumeral (text : String) : Prop where
  nonempty : text ≠ ""
  digits : ∀ c ∈ text.toList, c.isDigit = true
  fits : numeralValue text.toList < UInt32.size

/-- The segment id that a text writes. -/
def numeralId (text : String) : SegmentId := UInt32.ofNat (numeralValue text.toList)

theorem le_ofDigitChars (cs : List Char) (n : Nat) : n ≤ Nat.ofDigitChars 10 cs n := by
  induction cs generalizing n with
  | nil => exact le_rfl
  | cons c cs ih =>
    rw [Nat.ofDigitChars_cons]
    have := ih (10 * n + (c.toNat - '0'.toNat))
    omega

theorem digit?_eq_none_iff {c : Char} : Text.Numeral.digit? c = none ↔ c.isDigit = false := by
  rw [Text.Numeral.digit?, ite_eq_right_iff, ← Text.Numeral.isDigit_iff]
  simp

theorem idFrom_cons_of_isDigit {c : Char} (hc : c.isDigit = true) (n : Nat) (cs : List Char) :
    idFrom n (c :: cs) =
      if UInt32.size ≤ 10 * n + (c.toNat - '0'.toNat) then .error .outOfRange
      else idFrom (10 * n + (c.toNat - '0'.toNat)) cs := by
  rw [idFrom, Text.Numeral.digit?_of_isDigit hc]

theorem idFrom_cons_of_not_isDigit {c : Char} (hc : c.isDigit = false) (n : Nat) (cs : List Char) :
    idFrom n (c :: cs) = .error .badSyntax := by
  rw [idFrom, digit?_eq_none_iff.mpr hc]

theorem idFrom_eq_ok_iff {n m : Nat} {cs : List Char} (hn : n < UInt32.size) :
    idFrom n cs = .ok m ↔
      (∀ c ∈ cs, c.isDigit = true) ∧ Nat.ofDigitChars 10 cs n < UInt32.size ∧
        m = Nat.ofDigitChars 10 cs n := by
  induction cs generalizing n with
  | nil =>
    rw [idFrom, Nat.ofDigitChars_nil, Except.ok.injEq, eq_comm]
    simp [hn]
  | cons c cs ih =>
    rw [List.forall_mem_cons, Nat.ofDigitChars_cons]
    cases hc : c.isDigit with
    | false => simp [idFrom_cons_of_not_isDigit hc]
    | true =>
      rw [idFrom_cons_of_isDigit hc]
      split
      · -- what is too large stays too large
        next hlarge =>
        have hle := le_ofDigitChars cs (10 * n + (c.toNat - '0'.toNat))
        have hnot : ¬ Nat.ofDigitChars 10 cs (10 * n + (c.toNat - '0'.toNat)) < UInt32.size := by
          omega
        exact iff_of_false (by simp) fun h => hnot h.2.1
      · next hsmall =>
        rw [ih (by omega)]
        simp

/-- The digits that come first already write a number that is too large. -/
def Overflows (n : Nat) (cs : List Char) : Prop :=
  ∃ front rest, cs = front ++ rest ∧ (∀ c ∈ front, c.isDigit = true) ∧
    UInt32.size ≤ Nat.ofDigitChars 10 front n

theorem overflows_cons {n : Nat} {c : Char} {cs : List Char} (hn : n < UInt32.size) :
    Overflows n (c :: cs) ↔
      c.isDigit = true ∧ Overflows (10 * n + (c.toNat - '0'.toNat)) cs := by
  constructor
  · rintro ⟨front, rest, hsplit, hdigits, hlarge⟩
    cases front with
    | nil =>
      rw [Nat.ofDigitChars_nil] at hlarge
      omega
    | cons d front =>
      obtain ⟨rfl, rfl⟩ : c = d ∧ cs = front ++ rest := by simpa using hsplit
      rw [List.forall_mem_cons] at hdigits
      rw [Nat.ofDigitChars_cons] at hlarge
      exact ⟨hdigits.1, front, rest, rfl, hdigits.2, hlarge⟩
  · rintro ⟨hc, front, rest, rfl, hdigits, hlarge⟩
    refine ⟨c :: front, rest, rfl, List.forall_mem_cons.mpr ⟨hc, hdigits⟩, ?_⟩
    rwa [Nat.ofDigitChars_cons]

theorem idFrom_eq_outOfRange_iff {n : Nat} {cs : List Char} (hn : n < UInt32.size) :
    idFrom n cs = .error .outOfRange ↔ Overflows n cs := by
  induction cs generalizing n with
  | nil =>
    constructor
    · intro h
      simp [idFrom] at h
    · rintro ⟨front, rest, hsplit, -, hlarge⟩
      obtain ⟨rfl, rfl⟩ := List.append_eq_nil_iff.mp hsplit.symm
      rw [Nat.ofDigitChars_nil] at hlarge
      omega
  | cons c cs ih =>
    rw [overflows_cons hn]
    cases hc : c.isDigit with
    | false => simp [idFrom_cons_of_not_isDigit hc]
    | true =>
      rw [idFrom_cons_of_isDigit hc]
      split
      · next hlarge => simpa using ⟨[], cs, rfl, by simp, hlarge⟩
      · next hsmall =>
        rw [ih (by omega)]
        simp

theorem parseId_eq_ok_iff {text : String} {id : SegmentId} :
    parseId text = .ok id ↔ IsIdNumeral text ∧ id = numeralId text := by
  have hzero : 0 < UInt32.size := by decide
  by_cases hempty : text = ""
  · subst hempty
    constructor
    · intro h
      simp [parseId] at h
    · rintro ⟨h, -⟩
      exact absurd rfl h.nonempty
  · rw [parseId, if_neg (by simpa using hempty), bind_eq_ok_iff]
    simp only [idFrom_eq_ok_iff hzero, pure, Except.pure, Except.ok.injEq]
    constructor
    · rintro ⟨m, ⟨hdigits, hfits, rfl⟩, rfl⟩
      exact ⟨⟨hempty, hdigits, hfits⟩, rfl⟩
    · rintro ⟨⟨-, hdigits, hfits⟩, rfl⟩
      exact ⟨_, ⟨hdigits, hfits, rfl⟩, rfl⟩

theorem parseId_eq_outOfRange_iff {text : String} :
    parseId text = .error .outOfRange ↔ Overflows 0 text.toList := by
  have hzero : 0 < UInt32.size := by decide
  by_cases hempty : text = ""
  · subst hempty
    rw [← idFrom_eq_outOfRange_iff hzero]
    simp [parseId, idFrom]
  · rw [parseId, if_neg (by simpa using hempty), ← idFrom_eq_outOfRange_iff hzero]
    cases idFrom 0 text.toList with
    | ok m => simp [bind, Except.bind, pure, Except.pure]
    | error e => simp [bind, Except.bind]

/-- **Why a value is no segment to drop**: it writes no id, because its digits become too large
before anything else is wrong with it, or else because it has something other than digits, or
nothing. -/
theorem parseDrop_eq_error_iff {text : String} {e : OptionError} :
    parseDrop text = .error e ↔
      ¬ IsIdNumeral text ∧
        ∃ cause, e = .badDrop text cause ∧ (cause = .outOfRange ↔ Overflows 0 text.toList) := by
  rw [← parseId_eq_outOfRange_iff, parseDrop]
  cases h : parseId text with
  | ok id => simp [(parseId_eq_ok_iff.mp h).1]
  | error cause =>
    have hnot : ¬ IsIdNumeral text := by
      intro hnumeral
      rw [parseId_eq_ok_iff.mpr ⟨hnumeral, rfl⟩] at h
      cases h
    simp only [Except.error.injEq, hnot, not_false_eq_true, true_and]
    constructor
    · rintro rfl
      exact ⟨cause, rfl, Iff.rfl⟩
    · rintro ⟨cause', rfl, hcause⟩
      cases cause <;> cases cause' <;> simp_all

theorem parseDrop_eq_ok_iff {text : String} {id : SegmentId} :
    parseDrop text = .ok id ↔ IsIdNumeral text ∧ id = numeralId text := by
  rw [← parseId_eq_ok_iff, parseDrop]
  cases parseId text with
  | ok id' => simp
  | error cause => simp

theorem exists_parseDrop_iff {text : String} :
    (∃ id, parseDrop text = .ok id) ↔ IsIdNumeral text := by
  simp [parseDrop_eq_ok_iff]

/-! ## §5 The options of a command line -/

/-- What a command line asks for, each part of it by the occurrences of one option. -/
def optionsOf (os : List Occurrence) (files : List String) (level : Level) (drop : List SegmentId) :
    Options where
  manifest := (valuesOf .manifest os).getLastD ""
  files := files
  labels := valuesOf .label os
  symbols := valuesOf .symbol os
  floats := valuesOf .float os
  disjoint := valuesOf .disjoint os
  disjointList := occurs .disjointList os
  drop := drop
  dump := occurs .dump os
  progress := occurs .progress os
  level := level

section Parse

variable {readLevel : Level.Reader} {os : List Occurrence} {files : List String} {level : Level}

/-- With something to read and a level, only the segments to drop are left to be understood. -/
theorem parse_eq_mapM (hread : (valuesOf .manifest os).getLastD "" ≠ "" ∨ files ≠ [])
    (hlevel : readLevel ((valuesOf .logLevel os).getLastD "warn") = .ok level) :
    Options.parse readLevel (commandLine os files) = (do
      let drop ← (valuesOf .drop os).mapM parseDrop
      return optionsOf os files level drop) := by
  have hgiven : ((gathered .blank os).manifest.isEmpty && files.isEmpty) = false := by
    simpa [gathered, RawOptions.blank, imp_iff_not_or] using hread
  have hparsed : parseLevel readLevel (gathered .blank os).level = .ok level := by
    show parseLevel readLevel ((valuesOf .logLevel os).getLastD "warn") = .ok level
    rw [parseLevel, hlevel]
  rw [parse_commandLine, RawOptions.toOptions, hgiven, hparsed]
  rfl

theorem parse_failsBy (hread : (valuesOf .manifest os).getLastD "" ≠ "" ∨ files ≠ [])
    (hlevel : readLevel ((valuesOf .logLevel os).getLastD "warn") = .ok level) :
    FailsBy (Options.parse readLevel (commandLine os files))
      ((valuesOf .drop os).findSome? fun v => failure? (parseDrop v)) := by
  have hfails := (FailsBy.mapM (fun v => FailsBy.own (parseDrop v)) (valuesOf .drop os)).bind
    fun drop => FailsBy.ok (optionsOf os files level drop)
  rw [Option.or_none] at hfails
  rw [parse_eq_mapM hread hlevel]
  exact hfails

/-- Segments to drop that are all understood. -/
theorem parse_eq_ok (hread : (valuesOf .manifest os).getLastD "" ≠ "" ∨ files ≠ [])
    (hlevel : readLevel ((valuesOf .logLevel os).getLastD "warn") = .ok level)
    (hdrop : ∀ v ∈ valuesOf .drop os, IsIdNumeral v) :
    Options.parse readLevel (commandLine os files) =
      .ok (optionsOf os files level ((valuesOf .drop os).map numeralId)) := by
  have hids : (valuesOf .drop os).mapM parseDrop = .ok ((valuesOf .drop os).map numeralId) := by
    rw [mapM_eq_ok_iff, List.forall₂_map_right_iff, List.forall₂_same]
    exact fun v hv => parseDrop_eq_ok_iff.mpr ⟨hdrop v hv, rfl⟩
  rw [parse_eq_mapM hread hlevel, hids]
  rfl

end Parse

/-- **Each option depends on its own occurrences only.** Let a command line give some options and
then, after two dashes, some files. In what order the occurrences of different options stand makes no
difference to what is read, whatever texts are levels. Let there be something to read, and let the last
level be one. If every
segment to drop is a numeral of an id, the line is accepted: each repeatable option has its values in
the order of the line, the manifest is the last one given or none, a switch is on iff it is given,
and the files are those after the dashes. Otherwise it is refused for the first segment to drop that
is no such numeral, and is refused for nothing else. -/
theorem parse_occurrences (readLevel : Level.Reader) (os : List Occurrence) (files : List String) :
    (∀ os', (∀ flag, occurrencesOf flag os' = occurrencesOf flag os) →
      Options.parse readLevel (commandLine os' files) =
        Options.parse readLevel (commandLine os files)) ∧
    ∀ level, ((valuesOf .manifest os).getLastD "" ≠ "" ∨ files ≠ []) →
      readLevel ((valuesOf .logLevel os).getLastD "warn") = .ok level →
      ((∀ v ∈ valuesOf .drop os, IsIdNumeral v) →
        Options.parse readLevel (commandLine os files) =
          .ok (optionsOf os files level ((valuesOf .drop os).map numeralId))) ∧
      ((∃ e, Options.parse readLevel (commandLine os files) = .error e) ↔
        ∃ v ∈ valuesOf .drop os, ¬ IsIdNumeral v) ∧
      ∀ e, Options.parse readLevel (commandLine os files) = .error e ↔
        ∃ pre v post, valuesOf .drop os = pre ++ v :: post ∧ (∀ u ∈ pre, IsIdNumeral u) ∧
          ¬ IsIdNumeral v ∧
          ∃ cause, e = .badDrop v cause ∧ (cause = .outOfRange ↔ Overflows 0 v.toList) := by
  constructor
  · intro os' h
    rw [parse_commandLine, parse_commandLine, gathered_congr h]
  intro level hread hlevel
  refine ⟨parse_eq_ok hread hlevel, ?fails, ?first⟩
  case fails =>
    rw [exists_error_iff_not_ok, (parse_failsBy hread hlevel).exists_ok_iff_forall]
    simp only [exists_parseDrop_iff, not_forall, exists_prop]
  case first =>
    intro e
    rw [(parse_failsBy hread hlevel).eq_error_iff_first]
    simp only [exists_parseDrop_iff, parseDrop_eq_error_iff]

/-- Values that look like a switch, have an equals sign, or are empty. -/
def Sample.disguised : List Occurrence :=
  [.valued .label "-dv" .one false, .valued .drop "007" .one true, .switch .dump .two,
    .valued .logLevel "info" .two false, .valued .symbol "a=b" .two true, .valued .label "" .one true]

/-- The same occurrences in another order; the two labels stand as they stood. -/
def Sample.reordered : List Occurrence :=
  [.switch .dump .two, .valued .symbol "a=b" .two true, .valued .label "-dv" .one false,
    .valued .label "" .one true, .valued .logLevel "info" .two false, .valued .drop "007" .one true]

/-- Two segments to drop that are no ids, and one before them that is. -/
def Sample.undroppable : List Occurrence :=
  [.valued .drop "3" .one false, .valued .drop "4294967296" .two true, .valued .drop "x" .one false]

/-- No value is taken for anything else, in either order; of the two bad values the first is named,
with what is wrong with it. -/
theorem parse_occurrences_disguised :
    Options.parse Level.parse ["-label", "-dv", "-drop=007", "--dump", "--log_level", "info",
        "--symbol=a=b", "-label=", "--", "--dv", "a.json"] =
      .ok { manifest := "", files := ["--dv", "a.json"], labels := ["-dv", ""], symbols := ["a=b"],
            floats := [], disjoint := [], disjointList := false, drop := [7], dump := true,
            progress := false, level := .info } ∧
    Options.parse Level.parse ["--dump", "--symbol=a=b", "-label", "-dv", "-label=", "--log_level",
        "info", "-drop=007", "--", "--dv", "a.json"] =
      Options.parse Level.parse ["-label", "-dv", "-drop=007", "--dump", "--log_level", "info",
        "--symbol=a=b", "-label=", "--", "--dv", "a.json"] ∧
    Options.parse Level.parse ["-drop", "3", "--drop=4294967296", "-drop", "x", "--", "a.json"] =
      .error (.badDrop "4294967296" .outOfRange) := by
  obtain ⟨hreorder, hvalid⟩ := parse_occurrences Level.parse Sample.disguised ["--dv", "a.json"]
  refine ⟨?accepted, ?reordered, ?refused⟩
  case accepted =>
    have hlevel : Level.parse ((valuesOf .logLevel Sample.disguised).getLastD "warn") =
        .ok .info := rfl
    have hdrop : ∀ v ∈ valuesOf .drop Sample.disguised, IsIdNumeral v := by
      show ∀ v ∈ ["007"], IsIdNumeral v
      rw [List.forall_mem_singleton]
      exact ⟨by decide, List.all_eq_true.mp rfl, by decide⟩
    exact (hvalid .info (.inr (List.cons_ne_nil _ _)) hlevel).1 hdrop
  case reordered =>
    apply hreorder Sample.reordered
    rintro (f | s)
    · cases f <;> rfl
    · cases s <;> rfl
  case refused =>
    obtain ⟨-, hvalid⟩ := parse_occurrences Level.parse Sample.undroppable ["a.json"]
    have hlevel : Level.parse ((valuesOf .logLevel Sample.undroppable).getLastD "warn") =
        .ok ⟨2⟩ := rfl
    obtain ⟨-, -, hfirst⟩ := hvalid ⟨2⟩ (.inr (List.cons_ne_nil _ _)) hlevel
    apply (hfirst _).mpr
    refine ⟨["3"], "4294967296", ["x"], rfl, ?earlier, ?large, .outOfRange, rfl, ?cause⟩
    case earlier =>
      rw [List.forall_mem_singleton]
      exact ⟨by decide, List.all_eq_true.mp rfl, by decide⟩
    case large =>
      intro h
      exact absurd h.fits (by decide)
    case cause =>
      have hoverflows : Overflows 0 "4294967296".toList :=
        ⟨"4294967296".toList, [], by simp, List.all_eq_true.mp rfl, by decide⟩
      exact iff_of_true rfl hoverflows

end NameIndex.CommandLine
