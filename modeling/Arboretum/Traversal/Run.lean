import Arboretum.Traversal.Basic

/-!
# Running a traversal

Who runs a traversal answers for three things: the stores, the registries and the token.  `advance`
runs to the next thing handed out and keeps the rest of the program for later; `run` runs to the
end and shows each thing to a visitor, whose refusal ends the run.
-/

namespace Arboretum.Traversal

variable {m : Type → Type} {Out α : Type}

/-- The answers that a run needs from its surroundings. -/
structure Surroundings (m : Type → Type) where
  /-- the answer of a store -/
  ask : Store → (c : Call) → m (Except Fault c.Answer)
  /-- a registry by its number -/
  registry : Nat → m Registry
  /-- the reason why the run was cancelled, if it was -/
  cancelled : m (Option String)

/-- How far a run has come. -/
inductive Progress (Out α : Type) where
  | finished (a : α)
  | failed (f : Fault)
  | spent
  | paused (x : Out) (rest : Traversal Out α)

/-- **Running to the next thing handed out.** -/
@[specialize] def advance [Monad m] (s : Surroundings m) :
    Traversal Out α → m (Progress Out α)
  | .done a => pure (.finished a)
  | .fail f => pure (.failed f)
  | .spent => pure .spent
  | .check next => do
    match ← s.cancelled with
    | some reason => pure (.failed (.cancelled reason))
    | none => next.advance s
  | .routes number next => do
    let g ← s.registry number
    (next g).advance s
  | .ask store call next => do
    let answer ← s.ask store call
    (next answer).advance s
  | .emit x rest => pure (.paused x rest)

/-- How a run ends. -/
inductive Outcome (α : Type) where
  | finished (a : α)
  | failed (f : Fault)
  | spent

/-- **Running to the end**: the visitor sees each thing as it is handed out, and may end the run
with a fault of its own. -/
@[specialize] def run [Monad m] (s : Surroundings m) (visit : Out → m (Option Fault)) :
    Traversal Out α → m (Outcome α)
  | .done a => pure (.finished a)
  | .fail f => pure (.failed f)
  | .spent => pure .spent
  | .check next => do
    match ← s.cancelled with
    | some reason => pure (.failed (.cancelled reason))
    | none => next.run s visit
  | .routes number next => do
    let g ← s.registry number
    (next g).run s visit
  | .ask store call next => do
    let answer ← s.ask store call
    (next answer).run s visit
  | .emit x rest => do
    match ← visit x with
    | some f => pure (.failed f)
    | none => rest.run s visit

end Arboretum.Traversal
