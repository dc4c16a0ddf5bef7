import Mathlib.Data.List.TakeWhile
import NameIndex.Proofs.YamlToken

/-!
# Numerals in YAML

A number is written plainly, as its decimal numeral, so two things have to hold: nothing in the
numeral stands for anything else in a YAML text, and among all that a plain scalar can mean it means
the number. Neither is special to the number; both follow from the shape of a numeral, which is
digits without a leading zero, after a minus or not.

## Main results

* `IsNumeral.fitsPlain` — numerals can be written plainly.
* `meaning_repr` — a numeral means its number, inside 64 bits.
-/

namespace NameIndex.Yaml

open NameIndex.Text

/-! ## §1 Texts without obstacles -/

theorem hasNeighbours_eq_false {p : Char → Bool} {cs : List Char} (h : ∀ c ∈ cs, p c = false)
    (q : Char → Bool) : hasNeighbours p q cs = false ∧ hasNeighbours q p cs = false := by
  induction cs with
  | nil => exact ⟨rfl, rfl⟩
  | cons a cs ih =>
    cases cs with
    | nil => exact ⟨rfl, rfl⟩
    | cons b cs =>
      obtain ⟨ha, hcs⟩ := List.forall_mem_cons.mp h
      obtain ⟨hb, -⟩ := List.forall_mem_cons.mp hcs
      obtain ⟨hleft, hright⟩ := ih hcs
      exact ⟨by simp [hasNeighbours, ha, hleft], by simp [hasNeighbours, hb, hright]⟩

theorem goesOnDisturbing_eq_false {cs : List Char} (h : ∀ c ∈ cs, c ≠ ':' ∧ c ≠ '#')
    (previous : Char) : goesOnDisturbing false previous cs = false := by
  induction cs generalizing previous with
  | nil => rfl
  | cons c cs ih =>
    obtain ⟨hc, hcs⟩ := List.forall_mem_cons.mp h
    simp [goesOnDisturbing, hc, ih hcs]

theorem fitsSingle_of_inLine {cs : List Char} (h : ∀ c ∈ cs, staysInLine c = true) :
    fitsSingle cs = true := by
  have hbreak : ∀ c ∈ cs, isBreak c = false := fun c hc => not_isBreak_of_staysInLine (h c hc)
  obtain ⟨hleft, hright⟩ := hasNeighbours_eq_false hbreak isSpace
  have htab : '\t' ∉ cs := fun hmem => ne_of_staysInLine (h '\t' hmem) (by decide) rfl
  have hspecial : ∀ c ∈ cs, isSpecial c = false := by
    intro c hc
    have hshown := (Bool.and_eq_true_iff.mp (h c hc)).1
    simp [isSpecial, hshown]
  simpa [fitsSingle, htab, hleft, hright] using hspecial

/-! ## §2 Numerals are written plainly -/

/-- **A numeral**: digits, after a minus or not. -/
inductive IsNumeral : List Char → Prop where
  | digits {ds : List Char} (h : Numeral.IsDigits ds) : IsNumeral ds
  | minus {ds : List Char} (h : Numeral.IsDigits ds) : IsNumeral ('-' :: ds)

theorem mem_digits_of_isDigit {c : Char} (h : c.isDigit = true) : c ∈ "0123456789".toList := by
  obtain ⟨hlow, hhigh⟩ := Numeral.isDigit_iff.mp h
  have hlow : 48 ≤ c.toNat := hlow
  have hhigh : c.toNat ≤ 57 := hhigh
  have hdigits : ∀ n < 10, Char.ofNat (48 + n) ∈ "0123456789".toList := by decide
  have hmem := hdigits (c.toNat - 48) (by omega)
  rwa [Nat.add_sub_cancel' hlow, Char.ofNat_toNat] at hmem

theorem isNumeral_repr (n : Int) : IsNumeral n.repr.toList := by
  obtain ⟨ds, hds, heq | heq⟩ := Numeral.exists_isDigits_repr n
  · rw [heq]
    exact .digits hds
  · rw [heq]
    exact .minus hds

namespace IsNumeral

variable {text : List Char}

theorem mem_chars (h : IsNumeral text) : ∀ c ∈ text, c ∈ "-0123456789".toList := by
  cases h with
  | digits hds =>
    intro c hc
    exact List.mem_cons_of_mem _ (mem_digits_of_isDigit (hds.digits c hc))
  | minus hds =>
    intro c hc
    rcases List.mem_cons.mp hc with rfl | hc
    · decide
    · exact List.mem_cons_of_mem _ (mem_digits_of_isDigit (hds.digits c hc))

theorem any_isDigit (h : IsNumeral text) : text.any Char.isDigit = true := by
  rw [List.any_eq_true]
  cases h with
  | digits hds =>
    obtain ⟨c, hc⟩ := List.exists_mem_of_ne_nil _ hds.nonempty
    exact ⟨c, hc, hds.digits c hc⟩
  | minus hds =>
    obtain ⟨c, hc⟩ := List.exists_mem_of_ne_nil _ hds.nonempty
    exact ⟨c, List.mem_cons_of_mem _ hc, hds.digits c hc⟩

theorem ne_nil (h : IsNumeral text) : text ≠ [] := by
  obtain ⟨c, hc, -⟩ := List.any_eq_true.mp h.any_isDigit
  exact List.ne_nil_of_mem hc

theorem not_mem (h : IsNumeral text) {d : Char} (hd : d ∉ "-0123456789".toList) : d ∉ text :=
  fun hmem => hd (h.mem_chars d hmem)

theorem staysInLine (h : IsNumeral text) : ∀ c ∈ text, staysInLine c = true := by
  have hchars : ∀ c ∈ "-0123456789".toList, Yaml.staysInLine c = true :=
    List.all_eq_true.mp (by decide)
  exact fun c hc => hchars c (h.mem_chars c hc)

/-- Neither a sign with digits after it nor a digit starts anything else. -/
theorem starts (h : IsNumeral text) :
    startsLikeMarker text = false ∧ startsDisturbing false text = false := by
  have hdigit : ∀ c : Char, c.isDigit = true → (isBlank c = false ∧ isOpener c = false) ∧
      c ≠ '-' ∧ c ≠ '.' ∧ c ≠ '?' ∧ c ≠ ':' := by
    intro c hc
    have hchars : ∀ d ∈ "0123456789".toList, (!isBlank d && !isOpener d) = true :=
      List.all_eq_true.mp (by decide)
    have hne : ∀ d : Char, d.isDigit = false → c ≠ d := by
      rintro d hd rfl
      simp [hc] at hd
    exact ⟨by simpa using hchars c (mem_digits_of_isDigit hc), hne '-' rfl, hne '.' rfl, hne '?' rfl,
      hne ':' rfl⟩
  cases h with
  | digits hds =>
    obtain ⟨c, cs, rfl⟩ := List.exists_cons_of_ne_nil hds.nonempty
    obtain ⟨⟨-, hopener⟩, hdash, hdot, hask, hcolon⟩ := hdigit c (hds.digits c List.mem_cons_self)
    simp [startsLikeMarker, startsDisturbing, hdash, hdot, hask, hcolon, hopener]
  | minus hds =>
    obtain ⟨c, cs, rfl⟩ := List.exists_cons_of_ne_nil hds.nonempty
    obtain ⟨⟨hblank, -⟩, hdash, -⟩ := hdigit c (hds.digits c List.mem_cons_self)
    simp [startsLikeMarker, startsDisturbing, startsBlank, hdash, hblank]

/-- **A numeral** can be written plainly. -/
theorem fitsPlain (h : IsNumeral text) : fitsPlain false text = true := by
  obtain ⟨hmarker, hstarts⟩ := h.starts
  have hspace : ' ' ∉ text := h.not_mem (by decide)
  have hedged : isEdged isSpace text = false := by
    simp only [isEdged, Bool.or_eq_false_iff, Option.any_eq_false, isSpace, beq_eq_false_iff_ne]
    exact ⟨fun c hc hblank => hspace (hblank ▸ List.mem_of_head? hc),
      fun c hc hblank => hspace (hblank ▸ List.mem_of_getLast? hc)⟩
  have hbreak : text.any isBreak = false := by
    simpa using fun c hc => not_isBreak_of_staysInLine (h.staysInLine c hc)
  obtain ⟨c, cs, rfl⟩ := List.exists_cons_of_ne_nil h.ne_nil
  have hgoes : goesOnDisturbing false c cs = false := by
    apply goesOnDisturbing_eq_false
    intro d hd
    have hmem := List.mem_cons_of_mem c hd
    exact ⟨fun hcolon => h.not_mem (by decide) (hcolon ▸ hmem),
      fun hhash => h.not_mem (by decide) (hhash ▸ hmem)⟩
  have hsingle := fitsSingle_of_inLine h.staysInLine
  simp only [Yaml.fitsPlain, hsingle, hbreak, hedged, hmarker, hstarts, hgoes]
  rfl

end IsNumeral

/-! ## §3 What a numeral means -/

namespace Scalar

/-- No word with a meaning has a digit in it. -/
theorem word?_eq_none {text : String} (h : text.toList.any Char.isDigit = true) :
    word? text = none := by
  unfold word?
  split
  all_goals first | rfl | exact absurd h (by decide)

theorem natural?_digits {ds : List Char} (h : Numeral.IsDigits ds) :
    natural? ds = some (Nat.ofDigitChars 10 ds 0) := by
  have hten : digits? 10 ds = some (Nat.ofDigitChars 10 ds 0) := by
    rw [digits?, if_neg (by simpa using h.nonempty)]
    exact Numeral.inBase?_of_isDigit (fun c hc => if_pos (Numeral.isDigit_iff.mp hc)) h.digits
  unfold natural?
  split
  -- a numeral with more than one digit does not start with zero
  all_goals first | exact hten | cases h.lead _ rfl

theorem signed?_repr {n : Int} (hn : Numeral.fitsInt64 n = true) :
    signed? natural? n.repr.toList = some n := by
  rw [Numeral.toList_repr_int]
  split
  · next hpos =>
    have hds := Numeral.isDigits_toDigits n.toNat
    have hread := natural?_digits hds
    rw [Nat.ofDigitChars_ten_toDigits] at hread
    unfold signed?
    split
    · next rest heq => exact absurd heq (hds.not_sign rest).1
    · next rest heq => exact absurd heq (hds.not_sign rest).2
    · simp [hread, Int.toNat_of_nonneg hpos, hn]
  · next hneg =>
    have hpos : 0 ≤ -n := by omega
    have hread := natural?_digits (Numeral.isDigits_toDigits (-n).toNat)
    rw [Nat.ofDigitChars_ten_toDigits] at hread
    simp [signed?, hread, Int.toNat_of_nonneg hpos, hn]

/-- A date would need a dash after its first digits. -/
theorem date?_numeral {text : List Char} (h : IsNumeral text) : Timestamp.date? text = none := by
  cases h with
  | digits hds =>
    have hrest : text.dropWhile Char.isDigit = [] := List.dropWhile_eq_nil_iff.mpr hds.digits
    simp [Timestamp.date?, hrest, Timestamp.after?]
  | minus hds => simp [Timestamp.date?, Numeral.nat?]

/-- **A numeral means its number.** -/
theorem meaning_repr {n : Int} (hn : Numeral.fitsInt64 n = true) : meaning n.repr = .int n := by
  have hnumeral := isNumeral_repr n
  have hbare : withoutUnderscores n.repr.toList = n.repr.toList := by
    rw [withoutUnderscores, List.filter_eq_self]
    intro c hc
    simpa using fun hbar => hnumeral.not_mem (by decide) (hbar ▸ hc)
  have htime : Timestamp.isTimestamp n.repr.toList = false := by
    simp [Timestamp.isTimestamp, date?_numeral hnumeral]
  have hnumeric : numeric n.repr.toList = .int n := by
    simp [numeric, htime, hbare, signed?_repr hn]
  -- what is left is that the first character leads to `numeric`
  rw [meaning, word?_eq_none hnumeral.any_isDigit]
  cases hchars : n.repr.toList with
  | nil => exact absurd hchars hnumeral.ne_nil
  | cons c rest =>
    have hfirst : c.isDigit = true ∨ c = '-' := by
      have hmem : ∀ d ∈ "-0123456789".toList, (d.isDigit || d == '-') = true :=
        List.all_eq_true.mp (by decide)
      simpa using hmem c (hnumeral.mem_chars c (by simp [hchars]))
    have hsign : (c.isDigit || c = '+' || c = '-') = true := by
      rcases hfirst with hdigit | rfl
      · simp [hdigit]
      · rfl
    rw [hchars] at hnumeric
    simp only [hsign, if_true]
    exact hnumeric

end Scalar

end NameIndex.Yaml
