import NameIndex.Proofs.Numeral
import NameIndex.Proofs.YamlLibrary

/-!
# The style of a text makes it a token

A text without line breaks is written in one of three styles. In double quotes every character has
something that stands for it: itself, the letter of an escape, or its code in hexadecimal digits. In
single quotes it stands for itself or is doubled. Plainly a text is written only where it stays a
text, which none of the words for nothing does, and where nothing in it disturbs.

## Main result

* `token_presented` — every text without line breaks is written as a token.
-/

namespace NameIndex.Yaml

open NameIndex.Text

/-! ## §1 Characters -/

theorem not_isBreak_of_staysInLine {c : Char} (h : staysInLine c = true) : isBreak c = false := by
  simpa using (Bool.and_eq_true_iff.mp h).2

theorem ne_of_staysInLine {c d : Char} (h : staysInLine c = true) (hd : staysInLine d = false) :
    c ≠ d := by
  rintro rfl
  simp [h] at hd

/-! ## §2 Double quotes -/

/-- The escapes of one letter. -/
theorem escape?_of_escapeLetter {c letter : Char} (h : escapeLetter? c = some letter)
    (rest : List Char) :
    escape? (letter :: rest) = some (c, rest) ∧ staysInLine letter = true := by
  obtain ⟨before, behind, hsplit, -⟩ := List.lookup_eq_some_iff.mp h
  have htable : ∀ p ∈ before ++ (c, letter) :: behind,
      (escapeWidth? p.2 = none ∧ escaped? p.2 = some p.1) ∧ staysInLine p.2 = true := by
    rw [← hsplit]
    decide
  obtain ⟨⟨hwidth, hescaped⟩, hletter⟩ := htable (c, letter) (by simp)
  refine ⟨?_, hletter⟩
  rw [escape?, hwidth]
  simp [hescaped]

theorem escape?_fixed {mark c : Char} {width : Nat} (hmark : escapeWidth? mark = some width)
    (hc : c.toNat < 16 ^ width) (rest : List Char) :
    escape? (mark :: Hex.fixed Hex.upperDigit width c.toNat ++ rest) = some (c, rest) := by
  rw [List.cons_append, escape?, hmark]
  simp [Hex.take?_fixed Hex.digit?_upperDigit width c.toNat hc, Hex.char?_toNat]

theorem staysInLine_fixed (width n : Nat) :
    ∀ d ∈ Hex.fixed Hex.upperDigit width n, staysInLine d = true := by
  have hdigit : ∀ d < 16, staysInLine (Hex.upperDigit d) = true := by decide
  induction width generalizing n with
  | zero => simp [Hex.fixed]
  | succ width ih =>
    simp only [Hex.fixed, List.mem_append, List.mem_singleton]
    rintro d (hd | rfl)
    · exact ih _ d hd
    · exact hdigit _ (Nat.mod_lt _ (by decide))

/-- **A character in double quotes** is carried by what is written for it. -/
theorem carries_writeDoubleChar (c : Char) :
    Carries '"' (writeDoubleChar c) c ∧ ∀ d ∈ writeDoubleChar c, staysInLine d = true := by
  -- an escape with the code of the character, in as many digits as the code may need
  have hhex : ∀ {mark : Char} {width : Nat}, escapeWidth? mark = some width →
      staysInLine mark = true → c.toNat < 16 ^ width →
      Carries '"' ('\\' :: mark :: Hex.fixed Hex.upperDigit width c.toNat) c ∧
        ∀ d ∈ '\\' :: mark :: Hex.fixed Hex.upperDigit width c.toNat, staysInLine d = true := by
    intro mark width hmark hline hc
    refine ⟨.escape rfl (by simp) (escape?_fixed hmark hc), ?_⟩
    simp only [List.forall_mem_cons]
    exact ⟨by decide, hline, staysInLine_fixed width c.toNat⟩
  -- shown as it is; by a letter; or by its code, at the shortest of three widths
  unfold writeDoubleChar
  split
  · next h =>
    simp only [Bool.and_eq_true, bne_iff_ne, Bool.not_eq_true'] at h
    obtain ⟨⟨⟨hshown, hbreak⟩, hquote⟩, hback⟩ := h
    refine ⟨.self hquote fun _ => hback, fun d hd => ?_⟩
    obtain rfl := List.mem_singleton.mp hd
    simp [staysInLine, hshown, hbreak]
  · split
    · next letter hletter =>
      have hescape := fun rest => (escape?_of_escapeLetter hletter rest).1
      refine ⟨.escape rfl (by simp) hescape, ?_⟩
      simp only [List.forall_mem_cons, List.not_mem_nil, false_implies, implies_true, and_true]
      exact ⟨by decide, (escape?_of_escapeLetter hletter []).2⟩
    · split
      · exact hhex rfl (by decide) (by omega)
      · split
        · exact hhex rfl (by decide) (by omega)
        · have hvalid : c.toNat.isValidChar := c.valid
          exact hhex rfl (by decide) (by simp only [Nat.isValidChar] at hvalid; omega)

/-! ## §3 Single quotes -/

/-- What stands for a character in single quotes. -/
def writeSingleChar (c : Char) : List Char := if c = '\'' then ['\'', '\''] else [c]

theorem carries_writeSingleChar (c : Char) : Carries '\'' (writeSingleChar c) c := by
  unfold writeSingleChar
  split
  · next h => exact h ▸ .twice rfl
  · next h => exact .self h fun hdouble => absurd hdouble (by decide)

theorem writeSingle_of_unbroken {cs : List Char} (h : ∀ c ∈ cs, isBreak c = false) (indent : Nat) :
    writeSingle indent false cs = cs.flatMap writeSingleChar ++ ['\''] := by
  induction cs with
  | nil => rfl
  | cons c cs ih =>
    obtain ⟨hc, hcs⟩ := List.forall_mem_cons.mp h
    simp [writeSingle, hc, ih hcs, writeSingleChar]

theorem staysInLine_of_fitsSingle {cs : List Char} (hsingle : fitsSingle cs = true)
    (hbreak : ∀ c ∈ cs, isBreak c = false) : ∀ c ∈ cs, staysInLine c = true := by
  simp only [fitsSingle, Bool.and_eq_true, Bool.not_eq_true', List.any_eq_false] at hsingle
  obtain ⟨⟨⟨hspecial, htab⟩, -⟩, -⟩ := hsingle
  intro c hc
  have htab : c ≠ '\t' := by
    rintro rfl
    simp [hc] at htab
  have hshown : isShown c = true := by simpa [isSpecial, htab] using hspecial c hc
  simp [staysInLine, hshown, hbreak c hc]

/-! ## §4 The style of a text -/

/-- **A text that can be presented**: it has no line breaks, and may stand bare. -/
structure Presentable (bare : String → Prop) (text : String) : Prop where
  unbroken : ∀ c ∈ text.toList, isBreak c = false
  bare : bare text

/-- What stays a text is no word for nothing. -/
theorem word?_ne_null_of_staysText {text : String} (h : Scalar.staysText text = true) :
    Scalar.word? text ≠ some .null := by
  intro hnull
  simp [Scalar.staysText, Scalar.meaning, hnull] at h

/-- **Every text without line breaks** is written as a token, plainly, in single quotes or in double
quotes. -/
theorem token_presented {bare : String → Prop} {text : String} (h : Presentable bare text)
    (flow : Bool) (indent : Nat) :
    ∃ plain, Token bare flow text plain (presented flow indent text) := by
  have hnewline : text.toList.contains '\n' = false := by
    rw [List.contains_eq_mem, decide_eq_false_iff_not]
    intro hmem
    exact absurd (h.unbroken '\n' hmem) (by decide)
  have hdouble : Token bare flow text false ('"' :: (text.toList.flatMap writeDoubleChar ++ ['"'])) :=
    .quoted (.inl rfl) (fun c _ => (carries_writeDoubleChar c).1)
      fun c _ => (carries_writeDoubleChar c).2
  unfold presented Style.choose
  simp only [hnewline, Bool.false_eq_true, if_false]
  by_cases hstays : Scalar.staysText text = true
  · simp only [hstays, Bool.not_true, Bool.false_eq_true, if_false]
    by_cases hplain : fitsPlain flow text.toList = true
    · simp only [hplain, if_true]
      exact ⟨true, .plain h.bare hplain (word?_ne_null_of_staysText hstays)⟩
    · simp only [hplain]
      by_cases hsingle : fitsSingle text.toList = true
      · simp only [hsingle, if_true, writeSingle_of_unbroken h.unbroken]
        refine ⟨false, .quoted (.inr rfl) (fun c _ => carries_writeSingleChar c) fun c hc => ?_⟩
        have hline := staysInLine_of_fitsSingle hsingle h.unbroken c hc
        unfold writeSingleChar
        split
        · exact List.all_eq_true.mp rfl
        · exact List.forall_mem_singleton.mpr hline
      · simp only [hsingle]
        exact ⟨false, hdouble⟩
  · simp only [hstays, Bool.not_false, if_true]
    exact ⟨false, hdouble⟩

end NameIndex.Yaml
