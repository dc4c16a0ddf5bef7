import NameIndex.Pattern.Basic

/-!
# Matching names

Whether a name as a whole is one of those that a pattern describes. Only the text counts here: no
file has to exist, and `x/**` matches `x` too, which may be a directory.
-/

namespace NameIndex

namespace Glyph

/-- A character lies in one of the ranges. -/
def inRanges (ranges : List (Char × Char)) (c : Char) : Bool :=
  ranges.any fun (lo, hi) => lo ≤ c && c ≤ hi

/-- The glyph, if it stands for one character, stands for this one. -/
def accepts (c : Char) : Glyph → Bool
  | .char d => c == d
  | .escaped d => c == d
  | .slash => c == '/'
  | .anyOne => c != '/'
  | .anyRun => false
  | .oneOf negated ranges => inRanges ranges c != negated

end Glyph

namespace Pattern

/-- What may be left of a pattern at the end of the name. -/
def isVacant : List Glyph → Bool
  | [] => true
  | [.anyRun] => true
  | [.anyRun, .anyRun] => true
  | [.slash, .anyRun, .anyRun] => true
  | [.anyRun, .anyRun, .slash] => true
  | [.slash, .anyRun, .anyRun, .slash] => true
  | _ => false

/-- The text after the next slash. -/
def afterSlash? : List Char → Option (List Char)
  | [] => none
  | c :: rest => if c = '/' then some rest else afterSlash? rest

/-- The text after a slash is shorter. -/
theorem length_lt_of_afterSlash? {text rest : List Char} (h : afterSlash? text = some rest) :
    rest.length < text.length := by
  induction text with
  | nil => simp [afterSlash?] at h
  | cons c text ih =>
    rw [afterSlash?] at h
    split at h
    · cases h; simp
    · exact Nat.lt_succ_of_lt (ih h)

/-- The simple pattern describes the name; both are at the start of an element or not. -/
def matchesFrom (start : Bool) (glyphs : List Glyph) (name : List Char) : Bool :=
  match start, glyphs, name with
  | _, gs, [] => isVacant gs
  | _, [], _ :: _ => false
  | true, [.anyRun, .anyRun], _ :: _ => true
  | true, .anyRun :: .anyRun :: .slash :: later, c :: cs =>
    matchesFrom true later (c :: cs) ||
      match h : afterSlash? (c :: cs) with
      | some rest =>
        have := length_lt_of_afterSlash? h
        matchesFrom true (.anyRun :: .anyRun :: .slash :: later) rest
      | none => false
  | _, .anyRun :: gs, c :: cs =>
    -- a run that has begun ends with the name at the latest, and is no longer part of what is left
    matchesFrom false gs (c :: cs) ||
      (c != '/' && if cs.isEmpty then isVacant gs else matchesFrom false (.anyRun :: gs) cs)
  | _, g :: gs, c :: cs => g.accepts c && matchesFrom (g == .slash) gs cs
termination_by glyphs.length + name.length
decreasing_by all_goals simp_all <;> omega

/-- The pattern describes the name. -/
def describes (p : Pattern) (name : String) : Bool :=
  (p.expand true).any fun glyphs => matchesFrom true glyphs name.toList

end Pattern

end NameIndex
