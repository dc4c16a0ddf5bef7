/-!
# Computations that stop at the first failure

A computation in several steps, or one that goes through a list, stops at the first step that fails,
and this failure is its own. So instead of following the steps one can ask for the first failure
among them, and know by the answer that and why the computation failed, or that it did not.

## Main definitions

* `FailsBy` — the computation fails with the given error, or with none.

## Main results

* `FailsBy.bind`, `FailsBy.mapM` — the first failure of two steps, and of a list.
* `FailsBy.eq_error_iff_first` — where in a list the first failure is.
-/

namespace NameIndex

/-- The computation fails with the error, or succeeds if there is none. -/
def FailsBy {ε α : Type} (x : Except ε α) (e? : Option ε) : Prop := ∀ e, x = .error e ↔ e? = some e

/-- The error that a computation fails with. -/
def failure? {ε α : Type} : Except ε α → Option ε
  | .ok _ => none
  | .error e => some e

namespace FailsBy

variable {ε α β : Type} {x : Except ε α} {e? e?' : Option ε}

theorem ok (a : α) : FailsBy (.ok a : Except ε α) none := fun _ => by simp

theorem error (e : ε) : FailsBy (.error e : Except ε α) (some e) := fun _ => by simp

theorem own (x : Except ε α) : FailsBy x (failure? x) := by
  cases x with
  | ok a => exact FailsBy.ok a
  | error e => exact FailsBy.error e

theorem exists_ok_iff (h : FailsBy x e?) : (∃ a, x = .ok a) ↔ e? = none := by
  cases x with
  | ok a => simpa [Option.eq_none_iff_forall_ne_some] using fun e => h e
  | error e => simp [(h e).mp rfl]

/-- Of two steps the first that fails decides. -/
theorem bind {f : α → Except ε β} (hx : FailsBy x e?) (hf : ∀ a, FailsBy (f a) e?') :
    FailsBy (x >>= f) (e?.or e?') := by
  cases x with
  | ok a =>
    rw [hx.exists_ok_iff.mp ⟨a, rfl⟩]
    exact hf a
  | error e =>
    rw [(hx e).mp rfl]
    exact FailsBy.error e

theorem findSome?_cons (offence? : α → Option ε) (a : α) (xs : List α) :
    (a :: xs).findSome? offence? = (offence? a).or ((xs.findSome? offence?).or none) := by
  rw [List.findSome?_cons, Option.or_none]
  cases offence? a with
  | none => rfl
  | some e => rfl

/-- Of the elements of a list the first that fails decides. -/
theorem mapM {f : α → Except ε β} {offence? : α → Option ε} (h : ∀ a, FailsBy (f a) (offence? a))
    (xs : List α) : FailsBy (xs.mapM f) (xs.findSome? offence?) := by
  induction xs with
  | nil => exact FailsBy.ok []
  | cons a xs ih =>
    rw [List.mapM_cons, findSome?_cons]
    exact (h a).bind fun b => ih.bind fun bs => FailsBy.ok (b :: bs)

end FailsBy

theorem failure?_eq_some_iff {ε α : Type} {x : Except ε α} {e : ε} :
    failure? x = some e ↔ x = .error e :=
  (FailsBy.own x e).symm

theorem failure?_eq_none_iff {ε α : Type} {x : Except ε α} :
    failure? x = none ↔ ∃ a, x = .ok a :=
  (FailsBy.own x).exists_ok_iff.symm

theorem exists_error_iff_not_ok {ε α : Type} {x : Except ε α} :
    (∃ e, x = .error e) ↔ ¬ ∃ a, x = .ok a := by
  cases x with
  | ok a => simp
  | error e => simp

namespace FailsBy

variable {ε α β γ : Type} {f : α → Except ε β} {x : Except ε γ} {xs : List α}

/-- What fails by the first failure in a list succeeds iff every element does. -/
theorem exists_ok_iff_forall (h : FailsBy x (xs.findSome? fun a => failure? (f a))) :
    (∃ r, x = .ok r) ↔ ∀ a ∈ xs, ∃ b, f a = .ok b := by
  rw [h.exists_ok_iff, List.findSome?_eq_none_iff]
  simp only [failure?_eq_none_iff]

/-- What fails by the first failure in a list fails at one element, with all before it in order. -/
theorem eq_error_iff_first (h : FailsBy x (xs.findSome? fun a => failure? (f a))) {e : ε} :
    x = .error e ↔
      ∃ pre a post, xs = pre ++ a :: post ∧ (∀ b ∈ pre, ∃ r, f b = .ok r) ∧ f a = .error e := by
  rw [h e, List.findSome?_eq_some_iff]
  simp only [failure?_eq_some_iff, failure?_eq_none_iff]
  constructor
  · rintro ⟨pre, a, post, hsplit, ha, hpre⟩
    exact ⟨pre, a, post, hsplit, hpre, ha⟩
  · rintro ⟨pre, a, post, hsplit, hpre, ha⟩
    exact ⟨pre, a, post, hsplit, ha, hpre⟩

end FailsBy

end NameIndex
