import Mathlib.Data.List.Forall2
import Mathlib.Data.List.TakeWhile
import NameIndex.Json.Reader
import NameIndex.Json.Writer
import NameIndex.Proofs.Numeral

/-!
# JSON text reads back

The text that is written for a JSON value is read as that value, for every value whose numbers are
integers, whose arrays and objects are no larger than the reader's bounds, and whose strings may hold
any characters.

## Architecture

1. A character of a string is written in one of three ways, and each is read as one piece that
   stands for it (`exists_piece`); pieces that stand for characters are put together to these
   (`assemble_of_standsFor`).
2. A numeral is read up to the first character that does not belong to it (`number?_repr`).
3. A group is read if each of its items is (`group?_writeGroup`), and so values are read by
   induction on how deep they nest (`takes_write`).

## Main result

* `parse?_text` — the whole text of a value reads back.
-/

namespace NameIndex.Json

open NameIndex.Text

/-! ## §1 Strings -/

/-- The piece stands for the character: as it is, or by its number. -/
def Piece.StandsFor : Piece → Char → Prop
  | .char d, c => d = c
  | .unit n, c => n = c.toNat ∧ n < 0xD800

theorem assemble_unit {n : Nat} (h : n < 0xD800) (rest : List Piece) :
    assemble (.unit n :: rest) = (Hex.char? n).getD replacement :: assemble rest := by
  have hlow : isHigh n = false := by
    simp only [isHigh, Bool.and_eq_false_iff, decide_eq_false_iff_not]
    omega
  match rest with
  | [] => simp [assemble]
  | .char c :: rest => simp [assemble]
  | .unit m :: rest => simp [assemble, hlow]

theorem assemble_of_standsFor {ps : List Piece} {cs : List Char}
    (h : List.Forall₂ Piece.StandsFor ps cs) : assemble ps = cs := by
  induction h with
  | nil => simp [assemble]
  | @cons p c ps cs hp _ ih =>
    cases p with
    | char d =>
      obtain rfl : d = c := hp
      simp [assemble, ih]
    | unit n =>
      obtain ⟨rfl, hlow⟩ := hp
      rw [assemble_unit hlow, Hex.char?_toNat, ih]
      rfl

theorem pieces?_letter {e c : Char} (hletter : e ≠ 'u') (h : escaped? e = some c) (text : List Char) :
    pieces? ('\\' :: e :: text) = (pieces? text).map fun (more, rest) => (.char c :: more, rest) := by
  rw [pieces?.eq_4]
  · simp [h, Option.map_eq_bind]
  · rintro _ _ _ _ _ hu
    exact absurd hu hletter

theorem pieces?_code {n : Nat} (hn : n < 65536) (text : List Char) :
    pieces? ('\\' :: 'u' :: (Hex.fixed Hex.lowerDigit 4 n ++ text)) =
      (pieces? text).map fun (more, rest) => (.unit n :: more, rest) := by
  have hnumber := Hex.number?_fixed Hex.digit?_lowerDigit 4 n hn
  simp only [Hex.fixed, List.nil_append, List.cons_append] at hnumber ⊢
  rw [pieces?, hnumber]
  simp [Option.map_eq_bind]

theorem pieces?_plain {c : Char} (hcode : 0x20 ≤ c.toNat) (hquote : c ≠ '"') (hback : c ≠ '\\')
    (text : List Char) :
    pieces? (c :: text) = (pieces? text).map fun (more, rest) => (.char c :: more, rest) := by
  have hlow : ¬ c.toNat < 0x20 := by omega
  rw [pieces?.eq_def]
  split
  · next heq => cases heq
  · next heq => exact absurd (List.cons.inj heq).1 hquote
  · next heq => exact absurd (List.cons.inj heq).1 hback
  · next heq => exact absurd (List.cons.inj heq).1 hback
  · next heq =>
    obtain ⟨rfl, rfl⟩ := List.cons.inj heq
    simp [hlow, hback, Option.map_eq_bind]

/-- **Each character** is read as a piece that stands for it. -/
theorem exists_piece (c : Char) : ∃ p : Piece, p.StandsFor c ∧ ∀ text,
    pieces? (writeChar c ++ text) = (pieces? text).map fun (more, rest) => (p :: more, rest) := by
  unfold writeChar
  -- the escapes of one letter
  split
  · next h =>
    refine ⟨.char c, rfl, ?_⟩
    rcases h with rfl | rfl
    · exact pieces?_letter (by decide) rfl
    · exact pieces?_letter (by decide) rfl
  split
  · next h => exact ⟨.char c, rfl, h ▸ pieces?_letter (by decide) rfl⟩
  split
  · next h => exact ⟨.char c, rfl, h ▸ pieces?_letter (by decide) rfl⟩
  split
  · next h => exact ⟨.char c, rfl, h ▸ pieces?_letter (by decide) rfl⟩
  split
  · next h => exact ⟨.char c, rfl, h ▸ pieces?_letter (by decide) rfl⟩
  split
  · next h => exact ⟨.char c, rfl, h ▸ pieces?_letter (by decide) rfl⟩
  split
  · -- what is written by its number lies far below the surrogates
    next h =>
    have hlow : c.toNat < 0xD800 := by
      simp only [needsCode, Bool.or_eq_true, decide_eq_true_eq, beq_iff_eq] at h
      rcases h with ((((h | rfl) | rfl) | rfl) | rfl) | rfl
      · omega
      all_goals decide
    exact ⟨.unit c.toNat, ⟨rfl, hlow⟩, pieces?_code (by omega)⟩
  · next hquote _ _ _ _ _ hcode =>
    simp only [needsCode, Bool.or_eq_true, decide_eq_true_eq, not_or] at hcode
    exact ⟨.char c, rfl, pieces?_plain (by omega) (fun h => hquote (.inl h)) fun h => hquote (.inr h)⟩

theorem exists_pieces (cs rest : List Char) : ∃ ps, List.Forall₂ Piece.StandsFor ps cs ∧
    pieces? (cs.flatMap writeChar ++ '"' :: rest) = some (ps, rest) := by
  induction cs with
  | nil => exact ⟨[], .nil, by simp [pieces?]⟩
  | cons c cs ih =>
    obtain ⟨p, hp, hread⟩ := exists_piece c
    obtain ⟨ps, hps, hrest⟩ := ih
    refine ⟨p :: ps, .cons hp hps, ?_⟩
    rw [List.flatMap_cons, List.append_assoc, hread, hrest]
    rfl

/-- **A string** reads back, whatever characters it holds. -/
theorem string?_writeChar (s : String) (rest : List Char) :
    string? (s.toList.flatMap writeChar ++ '"' :: rest) = some (s, rest) := by
  obtain ⟨ps, hps, hread⟩ := exists_pieces s.toList rest
  simp [string?, hread, assemble_of_standsFor hps]

/-! ## §2 Numbers -/

/-- The text ends a value: it is at its end, or goes on with a comma or a blank. -/
def Ends (rest : List Char) : Prop := ∀ c ∈ rest.head?, c = ',' ∨ isBlank c = true

theorem Ends.not_numeral {rest : List Char} (h : Ends rest) :
    ∀ c ∈ rest.head?, isDigit c = false ∧ c ≠ '.' ∧ c ≠ 'e' ∧ c ≠ 'E' := by
  intro c hc
  rcases h c hc with rfl | hblank
  · decide
  · simp only [isBlank, Bool.or_eq_true, beq_iff_eq] at hblank
    rcases hblank with ((rfl | rfl) | rfl) | rfl <;> decide

theorem isDigit_of_isDigit {c : Char} (h : c.isDigit = true) : isDigit c = true := by
  simpa [isDigit] using Numeral.isDigit_iff.mp h

theorem digits?_append {ds rest : List Char} (hds : Numeral.IsDigits ds) (hrest : Ends rest) :
    digits? (ds ++ rest) = some (ds, rest) := by
  have hall : ∀ c ∈ ds, isDigit c = true := fun c hc => isDigit_of_isDigit (hds.digits c hc)
  have hnone : rest.takeWhile isDigit = [] ∧ rest.dropWhile isDigit = rest := by
    cases rest with
    | nil => simp
    | cons c rest =>
      obtain ⟨hc, -⟩ := hrest.not_numeral c (by simp)
      simp [hc]
  rw [digits?, List.takeWhile_append_of_pos hall, List.dropWhile_append_of_pos hall, hnone.1, hnone.2]
  simp [hds.nonempty]

theorem integer?_append {ds rest : List Char} (hds : Numeral.IsDigits ds) (hrest : Ends rest) :
    integer? (ds ++ rest) = some (ds, rest) := by
  unfold integer?
  split
  · next more heq =>
    -- a zero in front stands alone
    cases ds with
    | nil => exact absurd rfl hds.nonempty
    | cons d ds =>
      obtain ⟨rfl, rfl⟩ := List.cons.inj heq
      obtain rfl := hds.lead ds rfl
      rfl
  · exact digits?_append hds hrest

theorem unsigned?_append {ds rest : List Char} (hds : Numeral.IsDigits ds) (hrest : Ends rest) :
    unsigned? (ds ++ rest) = some (ds, rest) := by
  have hfraction : fraction? rest = some ([], rest) := by
    unfold fraction?
    split
    · next more => exact absurd rfl (hrest.not_numeral '.' (by simp)).2.1
    · rfl
  have hexponent : exponent? rest = some ([], rest) := by
    cases rest with
    | nil => rfl
    | cons c rest =>
      obtain ⟨-, -, hlower, hupper⟩ := hrest.not_numeral c (by simp)
      simp [exponent?, hlower, hupper]
  simp [unsigned?, integer?_append hds hrest, hfraction, hexponent]

theorem number?_digits {ds rest : List Char} (hds : Numeral.IsDigits ds) (hrest : Ends rest) :
    number? (ds ++ rest) = some (String.ofList ds, rest) := by
  unfold number?
  split
  · next more heq =>
    -- digits do not start with a sign
    cases ds with
    | nil => exact absurd rfl hds.nonempty
    | cons d ds => exact absurd ((List.cons.inj heq).1 ▸ rfl) (hds.not_sign ds).1
  · simp [unsigned?_append hds hrest]

/-- **An integer** reads back as its numeral. -/
theorem number?_repr (n : Int) {rest : List Char} (hrest : Ends rest) :
    number? (n.repr.toList ++ rest) = some (n.repr, rest) := by
  obtain ⟨ds, hds, htext | htext⟩ := Numeral.exists_isDigits_repr n
  · rw [htext, number?_digits hds hrest, ← htext, String.ofList_toList]
  · have hback : String.ofList ('-' :: ds) = n.repr := by rw [← htext, String.ofList_toList]
    rw [htext, List.cons_append, number?, unsigned?_append hds hrest, ← hback]
    rfl

/-! ## §3 Groups -/

/-- The text is read as the value, after any blanks and before anything that ends it. -/
structure Reader.Takes {α : Type} (item : Reader α) (text : List Char) (x : α) : Prop where
  reads : ∀ blanks rest, (∀ c ∈ blanks, isBlank c = true) → Ends rest →
    item (blanks ++ (text ++ rest)) = some (x, rest)
  starts : ∃ c more, text = c :: more ∧ isBlank c = false ∧ c ≠ ']' ∧ c ≠ '\x7d'

theorem skipBlanks_of_not_isBlank {c : Char} (hc : isBlank c = false) (rest : List Char) :
    skipBlanks (c :: rest) = c :: rest :=
  List.dropWhile_cons_of_neg (by simp [hc])

theorem skipBlanks_append {blanks : List Char} (hblanks : ∀ c ∈ blanks, isBlank c = true)
    {c : Char} (hc : isBlank c = false) (rest : List Char) :
    skipBlanks (blanks ++ c :: rest) = c :: rest := by
  rw [skipBlanks, List.dropWhile_append_of_pos hblanks]
  exact skipBlanks_of_not_isBlank hc rest

theorem isBlank_lineStart (level : Nat) : ∀ c ∈ lineStart level, isBlank c = true := by
  intro c hc
  rcases List.mem_cons.mp hc with rfl | hc
  · decide
  · rw [List.eq_of_mem_replicate hc]
    decide

theorem ends_lineStart (level : Nat) (rest : List Char) : Ends (lineStart level ++ rest) := by
  intro c hc
  simp only [lineStart, List.cons_append, List.head?_cons, Option.mem_some_iff] at hc
  exact .inr (hc ▸ by decide)

theorem ends_comma (rest : List Char) : Ends (',' :: rest) := by
  intro c hc
  exact .inl (by simpa using hc.symm)

section Groups

variable {α : Type} {item : Reader α} {close : Char} {limit : Nat} {xs : List α}
  {texts : List (List Char)}

/-- One item after the other is read, up to the closing character. -/
theorem sequence?_intercalate (hcomma : close ≠ ',') (hclose : isBlank close = false)
    (h : List.Forall₂ (fun x text => item.Takes text x) xs texts) (hne : xs ≠ [])
    (hlimit : xs.length ≤ limit) {blanks : List Char} (hblanks : ∀ c ∈ blanks, isBlank c = true)
    (level : Nat) (rest : List Char) :
    sequence? item close limit (blanks ++ (List.intercalate (',' :: lineStart (level + 1)) texts
      ++ (lineStart level ++ close :: rest))) = some (xs, rest) := by
  induction h generalizing limit blanks with
  | nil => exact absurd rfl hne
  | @cons x text xs texts hx hrest ih =>
    cases limit with
    | zero => simp at hlimit
    | succ limit =>
      cases hrest with
      | nil =>
        -- the last item, before the line of the closing character
        rw [List.intercalate_singleton, sequence?, hx.reads _ _ hblanks (ends_lineStart _ _)]
        simp [skipBlanks_append (isBlank_lineStart level) hclose]
      | @cons x' text' xs texts hx' hrest =>
        have hmore := ih (by simp) (Nat.le_of_succ_le_succ hlimit) (isBlank_lineStart (level + 1))
        rw [List.intercalate_cons_cons, List.append_assoc, List.append_assoc, List.cons_append,
          sequence?, hx.reads _ _ hblanks (ends_comma _)]
        simp [skipBlanks_of_not_isBlank (c := ',') (by decide), hcomma.symm, hmore]

/-- **A group** is read if each of its items is. -/
theorem group?_writeGroup (openChar : Char) (level : Nat) (hcomma : close ≠ ',')
    (hclose : isBlank close = false)
    (hstarts : ∀ c, c ≠ ']' ∧ c ≠ '\x7d' → c ≠ close)
    (h : List.Forall₂ (fun x text => item.Takes text x) xs texts) (hlimit : xs.length ≤ limit) :
    ∃ body, writeGroup openChar close level texts = openChar :: body ∧
      ∀ rest, group? item close limit (body ++ rest) = some (xs, rest) := by
  cases h with
  | nil =>
    exact ⟨[close], rfl, fun rest => by simp [group?, skipBlanks_of_not_isBlank hclose]⟩
  | @cons x text xs texts hx hrest =>
    refine ⟨lineStart (level + 1) ++ (List.intercalate (',' :: lineStart (level + 1)) (text :: texts)
      ++ (lineStart level ++ [close])), by simp [writeGroup], fun rest => ?_⟩
    -- the first item starts after the blanks, with something else than the closing character
    have hread := sequence?_intercalate hcomma hclose (.cons hx hrest) (by simp) hlimit
      (List.forall_mem_nil _) level rest
    obtain ⟨c, more, htext, hc, hne⟩ := hx.starts
    obtain ⟨tail, htail⟩ : ∃ tail, List.intercalate (',' :: lineStart (level + 1)) (text :: texts) =
        c :: tail := by
      rw [htext, List.intercalate_cons_cons_left]
      exact ⟨_, rfl⟩
    rw [htail] at hread ⊢
    have hskip := skipBlanks_append (isBlank_lineStart (level + 1)) hc
      (tail ++ (lineStart level ++ close :: rest))
    simp only [List.append_assoc, List.cons_append, List.nil_append] at hread ⊢
    rw [group?, hskip]
    simp [hstarts c hne, hread]

end Groups

/-! ## §4 Values -/

/-- Values that nest no deeper than some depth, all numbers being integers. -/
inductive Readable : Nat → Json → Prop where
  | null {depth : Nat} : Readable depth .null
  | bool {depth : Nat} (b : Bool) : Readable depth (.bool b)
  | number {depth : Nat} (n : Int) : Readable depth (.number n.repr)
  | string {depth : Nat} (s : String) : Readable depth (.string s)
  | array {depth : Nat} {items : List Json} (h : ∀ j ∈ items, Readable depth j) :
      Readable (depth + 1) (.array items)
  | object {depth : Nat} {members : List (String × Json)} (h : ∀ m ∈ members, Readable depth m.2) :
      Readable (depth + 1) (.object members)

theorem writeItems_eq_map (level : Nat) (items : List Json) :
    writeItems level items = items.map (write level) := by
  induction items with
  | nil => simp [writeItems]
  | cons j items ih => simp [writeItems, ih]

theorem writeMembers_eq_map (level : Nat) (members : List (String × Json)) :
    writeMembers level members =
      members.map fun m => writeString m.1 ++ ([':', ' '] ++ write level m.2) := by
  induction members with
  | nil => simp [writeMembers]
  | cons m members ih => simp [writeMembers, ih]

/-- What starts neither an array nor an object is read as a scalar at every depth. -/
theorem value?_of_scalar {limit depth : Nat} {text more : List Char} {c : Char}
    (hskip : skipBlanks text = c :: more) (hbracket : c ≠ '[') (hbrace : c ≠ '\x7b') :
    value? limit depth text = scalar? (c :: more) := by
  cases depth with
  | zero =>
    unfold value?
    rw [hskip]
    split
    · next heq => exact absurd (List.cons.inj heq).1 hbracket
    · next heq => exact absurd (List.cons.inj heq).1 hbrace
    · rfl
  | succ depth =>
    unfold value?
    rw [hskip]
    split
    · next heq => exact absurd (List.cons.inj heq).1 hbracket
    · next heq => exact absurd (List.cons.inj heq).1 hbrace
    · rfl

theorem takes_of_scalar {limit depth : Nat} {text more : List Char} {c : Char} {v : Json}
    (htext : text = c :: more) (hblank : isBlank c = false)
    (hfirst : c ∉ ['[', '\x7b', ']', '\x7d'])
    (hread : ∀ rest, Ends rest → scalar? (text ++ rest) = some (v, rest)) :
    (value? limit depth).Takes text v := by
  subst htext
  simp only [List.mem_cons, List.not_mem_nil, or_false, not_or] at hfirst
  obtain ⟨hbracket, hbrace, hclosing⟩ := hfirst
  refine ⟨fun blanks rest hblanks hrest => ?_, c, more, rfl, hblank, hclosing⟩
  rw [List.cons_append, value?_of_scalar (skipBlanks_append hblanks hblank _) hbracket hbrace]
  exact hread rest hrest

theorem takes_number {limit depth : Nat} (n : Int) :
    (value? limit depth).Takes n.repr.toList (.number n.repr) := by
  -- a numeral starts with a digit or a minus
  obtain ⟨c, more, htext, hc⟩ :
      ∃ c more, n.repr.toList = c :: more ∧ (c.isDigit = true ∨ c = '-') := by
    obtain ⟨ds, hds, htext | htext⟩ := Numeral.exists_isDigits_repr n
    · obtain ⟨c, more, rfl⟩ := List.exists_cons_of_ne_nil hds.nonempty
      exact ⟨c, more, htext, .inl (hds.digits c List.mem_cons_self)⟩
    · exact ⟨'-', ds, htext, .inr rfl⟩
  have hne : ∀ d, d.isDigit = false → d ≠ '-' → c ≠ d := by
    rintro d hdigit hminus rfl
    rcases hc with hc | hc
    · simp [hdigit] at hc
    · exact hminus hc
  have hfirst : ∀ d ∈ [' ', '\t', '\r', '\n', '[', '\x7b', ']', '\x7d', 'n', 't', 'f', '"'], c ≠ d := by
    intro d hd
    have hall : ∀ d ∈ [' ', '\t', '\r', '\n', '[', '\x7b', ']', '\x7d', 'n', 't', 'f', '"'],
        (!d.isDigit && d != '-') = true := List.all_eq_true.mp rfl
    obtain ⟨hdigit, hminus⟩ := Bool.and_eq_true_iff.mp (hall d hd)
    exact hne d (by simpa using hdigit) (by simpa using hminus)
  simp only [List.mem_cons, List.not_mem_nil, or_false, forall_eq_or_imp, forall_eq] at hfirst
  obtain ⟨hspace, htab, hreturn, hnewline, hbracket, hbrace, hbracket', hbrace', hn, ht, hf, hquote⟩ :=
    hfirst
  apply takes_of_scalar htext
  · simp [isBlank, hspace, htab, hreturn, hnewline]
  · simp [hbracket, hbrace, hbracket', hbrace']
  · intro rest hrest
    have hnumber := number?_repr n hrest
    rw [htext, List.cons_append] at hnumber ⊢
    unfold scalar?
    split
    · next heq => exact absurd (List.cons.inj heq).1 hn
    · next heq => exact absurd (List.cons.inj heq).1 ht
    · next heq => exact absurd (List.cons.inj heq).1 hf
    · next heq => exact absurd (List.cons.inj heq).1 hquote
    · rw [hnumber]
      rfl

theorem takes_string {limit depth : Nat} (s : String) :
    (value? limit depth).Takes (writeString s) (.string s) := by
  apply takes_of_scalar (c := '"') rfl (by decide) (by decide)
  intro rest _
  simp only [List.cons_append, List.append_assoc, List.nil_append, scalar?, string?_writeChar,
    Option.map_some]

theorem takes_member {value : Reader Json} {text : List Char} {v : Json} (name : String)
    (h : value.Takes text v) :
    (member? value).Takes (writeString name ++ ([':', ' '] ++ text)) (name, v) := by
  refine ⟨fun blanks rest hblanks hrest => ?_, '"', _, rfl, by decide, by decide, by decide⟩
  have hvalue := h.reads [' '] rest (List.forall_mem_singleton.mpr rfl) hrest
  simp only [List.cons_append, List.nil_append] at hvalue
  simp only [member?, writeString, List.cons_append, List.append_assoc, List.nil_append]
  rw [skipBlanks_append hblanks (by decide)]
  simp [string?_writeChar, skipBlanks_of_not_isBlank (c := ':') (by decide), hvalue]

/-! ### Lengths

The reader bounds the number of items of a group by the length of the whole text. -/

theorem length_le_intercalate {sep : List Char} (hsep : sep ≠ []) (texts : List (List Char)) :
    texts.length ≤ (List.intercalate sep texts).length + 1 ∧
      ∀ text ∈ texts, text.length ≤ (List.intercalate sep texts).length := by
  have hone : 0 < sep.length := List.length_pos_iff.mpr hsep
  induction texts with
  | nil => simp
  | cons text texts ih =>
    cases texts with
    | nil => simp
    | cons text' texts =>
      obtain ⟨hcount, hitems⟩ := ih
      rw [List.intercalate_cons_cons, List.length_append, List.length_append, List.length_cons]
      refine ⟨by omega, fun t ht => ?_⟩
      rcases List.mem_cons.mp ht with rfl | ht
      · omega
      · exact (hitems t ht).trans (Nat.le_add_left _ _)

theorem length_le_writeGroup (openChar closeChar : Char) (level : Nat) (texts : List (List Char)) :
    texts.length ≤ (writeGroup openChar closeChar level texts).length ∧
      ∀ text ∈ texts, text.length ≤ (writeGroup openChar closeChar level texts).length := by
  have hsep : ',' :: lineStart (level + 1) ≠ [] := by simp
  obtain ⟨hcount, hitems⟩ := length_le_intercalate hsep texts
  cases texts with
  | nil => simp
  | cons text texts =>
    simp only [writeGroup, List.cons_append, List.length_cons, List.length_append] at hcount ⊢
    refine ⟨by omega, fun t ht => ?_⟩
    have hle := hitems t ht
    omega

/-- **A value** is read from its text by a reader that allows its depth and the length of its
text. -/
theorem takes_write {limit depth : Nat} {v : Json} (h : Readable depth v) (level : Nat)
    (hlimit : (write level v).length ≤ limit) : (value? limit depth).Takes (write level v) v := by
  -- on how deep the value nests; an item is written at the next level, in a shorter text
  induction h generalizing level with
  | null =>
    rw [write]
    exact takes_of_scalar (show _ = 'n' :: "ull".toList from rfl) (by decide) (by decide)
      fun _ _ => rfl
  | bool b =>
    cases b with
    | true =>
      rw [write]
      exact takes_of_scalar (show _ = 't' :: "rue".toList from rfl) (by decide) (by decide)
        fun _ _ => rfl
    | false =>
      rw [write]
      exact takes_of_scalar (show _ = 'f' :: "alse".toList from rfl) (by decide) (by decide)
        fun _ _ => rfl
  | number n =>
    rw [write]
    exact takes_number n
  | string s =>
    rw [write]
    exact takes_string s
  | @array depth items _ ih =>
    rw [write, writeItems_eq_map] at hlimit ⊢
    obtain ⟨hcount, hitems⟩ := length_le_writeGroup '[' ']' level
      (items.map (write (level + 1)))
    -- every item is read from its part of the text
    have htakes : List.Forall₂ (fun j text => (value? limit depth).Takes text j) items
        (items.map (write (level + 1))) := by
      rw [List.forall₂_map_right_iff, List.forall₂_same]
      intro j hj
      exact ih j hj (level + 1) ((hitems _ (List.mem_map_of_mem hj)).trans hlimit)
    obtain ⟨body, hbody, hgroup⟩ := group?_writeGroup '[' level
      (show ']' ≠ ',' by decide) (by decide) (fun c hc => hc.1) htakes
      (by simpa using hcount.trans hlimit)
    refine ⟨fun blanks rest hblanks _ => ?_, '[', body, hbody, by decide, by decide, by decide⟩
    rw [hbody, List.cons_append]
    unfold value?
    rw [skipBlanks_append hblanks (by decide)]
    simp [hgroup]
  | @object depth members _ ih =>
    rw [write, writeMembers_eq_map] at hlimit ⊢
    obtain ⟨hcount, hitems⟩ := length_le_writeGroup '\x7b' '\x7d' level
      (members.map fun m => writeString m.1 ++ ([':', ' '] ++ write (level + 1) m.2))
    -- a member is read from its name, a colon and the text of its value
    have htakes : List.Forall₂ (fun m text => (member? (value? limit depth)).Takes text m) members
        (members.map fun m => writeString m.1 ++ ([':', ' '] ++ write (level + 1) m.2)) := by
      rw [List.forall₂_map_right_iff, List.forall₂_same]
      intro m hm
      apply takes_member m.1 (ih m hm (level + 1) _)
      have hle := hitems _ (List.mem_map_of_mem hm)
      simp only [List.length_append] at hle
      omega
    obtain ⟨body, hbody, hgroup⟩ := group?_writeGroup '\x7b' level
      (show '\x7d' ≠ ',' by decide) (by decide) (fun c hc => hc.2) htakes
      (by simpa using hcount.trans hlimit)
    refine ⟨fun blanks rest hblanks _ => ?_, '\x7b', body, hbody, by decide, by decide, by decide⟩
    rw [hbody, List.cons_append]
    unfold value?
    rw [skipBlanks_append hblanks (by decide)]
    simp [hgroup]

/-- **The text of a value** reads back as the value. -/
theorem parse?_text {v : Json} (h : Readable maxDepth v) : parse? v.text.toList = some v := by
  rw [text, String.toList_ofList]
  have hread := (takes_write h 0 le_rfl).reads [] [] (by simp) (by simp [Ends])
  simp only [List.nil_append, List.append_nil] at hread
  rw [parse?, hread]
  rfl

end NameIndex.Json
