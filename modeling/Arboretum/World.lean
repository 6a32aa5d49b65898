import Arboretum.Copying
import Arboretum.Glob
import Arboretum.Removal
import Arboretum.Signals
import Arboretum.Store.Storage
import Arboretum.Traversal.Run

/-!
# A world to run in

The surroundings of a run over the stores of this library: what the stores hold, the registries by
number, the signals, and the time.  In a world every traversal is a function: from the world before
to the world after.
-/

namespace Arboretum

/-- What a run finds around it, and how many numbers are given to stores, tables and registries. -/
structure World where
  storage : Storage
  registries : Numbered Registry
  signals : Signals
  now : Int
  numbers : Nat

namespace World

/-! ## 1. Numbers and registries -/

/-- The common registry at the start: its home store is the disk. -/
def firstRegistry : Registry :=
  Registry.fresh ⟨0, Path.hostMount, .disk⟩ ⟨1, Store.voidMount, .void⟩

/-- **The world at the start**: a disk, empty stores, the common registry, no signals. -/
def initial (disk : Disk) : World :=
  ⟨⟨[], [], disk⟩, [(commonRegistry, firstRegistry)], .initial, 0, 2⟩

/-- A number for a new store, table or registry. -/
def newNumber (w : World) : Nat × World := (w.numbers, { w with numbers := w.numbers + 1 })

/-- The registry of a number; an unknown number counts as the common registry at the start. -/
def registry (w : World) (number : Nat) : Registry :=
  (w.registries.get? number).getD firstRegistry

/-- The world with one registry changed. -/
def changeRegistry (w : World) (number : Nat) (how : Registry → Registry) : World :=
  { w with registries := w.registries.set number (how (w.registry number)) }

/-- A new registry with a given home store, or with one of its own on the disk. -/
def newRegistry (w : World) (home : Option Store) : Nat × World :=
  let (number, w) := w.newNumber
  let (void, w) := w.newNumber
  let (own, w) := w.newNumber
  let home := home.getD ⟨own, Path.hostMount, .disk⟩
  let g := Registry.fresh home ⟨void, Store.voidMount, .void⟩
  (number, { w with registries := w.registries.set number g })

/-! ## 2. Running -/

/-- The answer to a call of a store, and the world afterwards. -/
def ask (w : World) (s : Store) (c : Call) : Except Fault c.Answer × World :=
  match w.storage.ask s c with
  | (answer, storage) => (answer, { w with storage })

/-- The reason why a token is cancelled, if it is; without a token a run is never cancelled. -/
def cancelled (w : World) : Option Nat → Option String
  | none => none
  | some token =>
    if w.signals.isCancelled w.now token then some (w.signals.reason w.now token) else none

/-- **The surroundings** of a run that listens to a token. -/
def surroundings (token : Option Nat) : Traversal.Surroundings (StateM World) where
  ask s c := fun w => w.ask s c
  registry number := fun w => (w.registry number, w)
  cancelled := fun w => (w.cancelled token, w)

/-- **Running a traversal in a world**: how it ends, everything that it handed out, and the world
after it. -/
def run {Out α : Type} (w : World) (token : Option Nat) (t : Traversal Out α) :
    Traversal.Outcome (List Out × α) × World :=
  match Traversal.run (surroundings token) (fun _ => pure none) (gathered t) w with
  | (.finished (found, a), w) => (.finished (found.reverse, a), w)
  | (.failed f, w) => (.failed f, w)
  | (.spent, w) => (.spent, w)
where
  /-- The traversal with everything that it hands out in its result. -/
  gathered (t : Traversal Out α) : Traversal Empty (List Out × α) := Traversal.gather [] t

end World

end Arboretum
