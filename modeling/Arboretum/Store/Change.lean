import Arboretum.Fault

/-!
# Changes that may fail

A change of a state either succeeds or ends with a fault, and leaves a state behind in both cases.
Most changes happen whole or not at all; a change made of several steps keeps the steps before
the one that failed.
-/

namespace Arboretum

/-- The outcome of a change and the state that it leaves. -/
abbrev Changed (σ : Type) := Except Fault Unit × σ

namespace Changed

variable {σ ι : Type}

/-- **A change that happens whole or not at all.** -/
def whole (old : σ) : Except Fault σ → Changed σ
  | .ok new => (.ok (), new)
  | .error f => (.error f, old)

/-- **Steps in turn**, up to the first that fails. -/
def inTurn (step : ι → σ → Changed σ) : List ι → σ → Changed σ
  | [], s => (.ok (), s)
  | x :: xs, s =>
    match step x s with
    | (.ok _, t) => inTurn step xs t
    | (.error f, t) => (.error f, t)

/-- Steps of two lists in turn are those of the first and then, unless one failed, of the second. -/
theorem inTurn_append (step : ι → σ → Changed σ) (xs ys : List ι) (s : σ) :
    inTurn step (xs ++ ys) s =
      match inTurn step xs s with
      | (.ok _, t) => inTurn step ys t
      | (.error f, t) => (.error f, t) := by
  induction xs generalizing s with
  | nil => rfl
  | cons x xs ih =>
    rw [List.cons_append, inTurn, inTurn]
    rcases step x s with ⟨_ | _, t⟩
    · rfl
    · exact ih t

theorem inTurn_singleton (step : ι → σ → Changed σ) (x : ι) (s : σ) :
    inTurn step [x] s = step x s := by
  rw [inTurn]
  rcases step x s with ⟨_ | _, t⟩ <;> rfl

end Changed

end Arboretum
