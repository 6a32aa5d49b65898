import Arboretum.Fault
import Arboretum.Registry
import Arboretum.Store.Call

/-!
# Traversals

A traversal is a program over stores, written down before it runs.  It can ask a store, look at a
registry as it is at that moment, check whether it was cancelled, and hand out something it has
found; after each of these it goes on with what it got.  Because the program is data, a run can be
suspended wherever something is handed out, and the same program can be run over the stores of
this library or over any others.

A traversal that repeats a step without a bound known beforehand carries a budget, and is `spent`
when the budget is used up.
-/

namespace Arboretum

/-- A program that hands out things of type `Out` and ends with an `α`. -/
inductive Traversal (Out α : Type) where
  /-- the end, with a result -/
  | done (a : α)
  /-- the end, with a fault -/
  | fail (f : Fault)
  /-- the end of the budget -/
  | spent
  /-- going on unless the run was cancelled -/
  | check (next : Traversal Out α)
  /-- looking at a registry, by its number -/
  | routes (registry : Nat) (next : Registry → Traversal Out α)
  /-- asking a store -/
  | ask (store : Store) (call : Call) (next : Except Fault call.Answer → Traversal Out α)
  /-- handing something out -/
  | emit (x : Out) (next : Traversal Out α)

namespace Traversal

variable {Out Found α β : Type}

/-! ## 1. One after the other -/

/-- **Going on** with what a traversal ends with. -/
def bind : Traversal Out α → (α → Traversal Out β) → Traversal Out β
  | .done a, f => f a
  | .fail fault, _ => .fail fault
  | .spent, _ => .spent
  | .check next, f => .check (next.bind f)
  | .routes registry next, f => .routes registry fun g => (next g).bind f
  | .ask store call next, f => .ask store call fun answer => (next answer).bind f
  | .emit x next, f => .emit x (next.bind f)

instance : Monad (Traversal Out) where
  pure := .done
  bind := bind

/-- Going on with nothing more to do changes nothing. -/
theorem bind_done (t : Traversal Out α) : t.bind .done = t := by
  induction t with
  | done a => rfl
  | fail f => rfl
  | spent => rfl
  | check next ih => rw [bind, ih]
  | routes registry next ih => rw [bind]; exact congrArg _ (funext ih)
  | ask store call next ih => rw [bind]; exact congrArg _ (funext ih)
  | emit x next ih => rw [bind, ih]

/-- **Going on twice is going on with both in turn.** -/
theorem bind_assoc {γ : Type} (t : Traversal Out α) (f : α → Traversal Out β)
    (g : β → Traversal Out γ) : (t.bind f).bind g = t.bind fun a => (f a).bind g := by
  induction t with
  | done a => rfl
  | fail f => rfl
  | spent => rfl
  | check next ih => exact congrArg _ ih
  | routes registry next ih => exact congrArg _ (funext ih)
  | ask store call next ih => exact congrArg _ (funext ih)
  | emit x next ih => exact congrArg _ ih

instance : LawfulMonad (Traversal Out) :=
  LawfulMonad.mk' (Traversal Out) bind_done (fun _ _ => rfl) bind_assoc

/-- Traversals for every element of a list, in order. -/
def forEach (f : α → Traversal Out Unit) : List α → Traversal Out Unit
  | [] => .done ()
  | x :: xs => (f x).bind fun _ => forEach f xs

/-- The same, with the results in a list. -/
def forEachCollect (f : α → Traversal Out β) : List α → Traversal Out (List β)
  | [] => .done []
  | x :: xs => (f x).bind fun y => (forEachCollect f xs).bind fun ys => .done (y :: ys)

/-! ## 2. Steps -/

/-- Stops here if the run was cancelled. -/
def checked : Traversal Out Unit := .check (.done ())

/-- Hands something out. -/
def give (x : Out) : Traversal Out Unit := .emit x (.done ())

/-- A registry as it is now. -/
def registry (number : Nat) : Traversal Out Registry := .routes number .done

/-- A result, or the fault in its place. -/
def ofExcept : Except Fault α → Traversal Out α
  | .ok a => .done a
  | .error f => .fail f

/-- Asks a store and passes its fault on as it is. -/
def plain (s : Store) (c : Call) : Traversal Out c.Answer := .ask s c ofExcept

/-- **A call of a run**: not once it is cancelled, and with faults reported as a run reports
them, together with the path that the call is about. -/
def call (s : Store) (path : String) (c : Call) : Traversal Out c.Answer :=
  .check (.ask s c fun
    | .ok a => .done a
    | .error f => .fail (f.reported c.operation s path))

/-! ## 3. Gathering -/

/-- **A traversal that keeps what another one hands out**, the latest first, on top of what is
kept already. -/
def gather (kept : List Found) : Traversal Found α → Traversal Out (List Found × α)
  | .done a => .done (kept, a)
  | .fail f => .fail f
  | .spent => .spent
  | .check next => .check (gather kept next)
  | .routes registry next => .routes registry fun g => gather kept (next g)
  | .ask store call next => .ask store call fun answer => gather kept (next answer)
  | .emit x next => gather (x :: kept) next

end Traversal

end Arboretum
