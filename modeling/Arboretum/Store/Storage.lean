import Arboretum.Store.Call
import Arboretum.Store.Disk
import Arboretum.Store.Memory
import Arboretum.Store.Table

/-!
# What all stores hold

The trees in memory, the tables and the one disk, each under its number, and the answer to any
call of any store: it depends on what the store keeps, and it changes nothing but that.  Joining
paths needs no storage at all.
-/

namespace Arboretum

/-! ## 1. Numbered things -/

/-- Things under numbers, the latest change first. -/
abbrev Numbered (α : Type) := List (Nat × α)

namespace Numbered

variable {α : Type}

/-- The thing under a number. -/
def get? (n : Nat) : Numbered α → Option α
  | [] => none
  | (m, a) :: rest => if m = n then some a else get? n rest

/-- The things with one put under a number. -/
def set (n : Nat) (a : α) : Numbered α → Numbered α
  | [] => [(n, a)]
  | (m, b) :: rest => if m = n then (n, a) :: rest else (m, b) :: set n a rest

/-- What was put under a number is found there, and nothing else changes. -/
theorem get?_set (n m : Nat) (a : α) (things : Numbered α) :
    (things.set n a).get? m = if n = m then some a else things.get? m := by
  induction things with
  | nil => simp [set, get?]
  | cons thing rest ih =>
    obtain ⟨k, b⟩ := thing
    by_cases hk : k = n
    · subst hk
      by_cases hm : k = m <;> simp [set, get?, hm]
    · by_cases hm : k = m
      · subst hm
        simp [set, get?, hk, Ne.symm hk]
      · simp [set, get?, hk, hm, ih]

end Numbered

/-! ## 2. Storage -/

/-- What all stores hold. -/
structure Storage where
  memories : Numbered MemoryTree
  tables : Numbered Table
  disk : Disk

namespace Storage

/-- The tree of a memory store; a new one is empty. -/
def memory (st : Storage) (id : Nat) : MemoryTree := (st.memories.get? id).getD .empty

/-- The rows of a table; a new one is empty. -/
def table (st : Storage) (number : Nat) : Table := (st.tables.get? number).getD []

/-- The storage with the tree of a memory store replaced. -/
def setMemory (st : Storage) (id : Nat) (t : MemoryTree) : Storage :=
  { st with memories := st.memories.set id t }

/-- The storage with the rows of a table replaced. -/
def setTable (st : Storage) (number : Nat) (t : Table) : Storage :=
  { st with tables := st.tables.set number t }

/-- The storage with the disk replaced. -/
def setDisk (st : Storage) (d : Disk) : Storage := { st with disk := d }

end Storage

/-! ## 3. Joining -/

/-- The first part of a virtual path without the mount in front of it. -/
def Store.withoutMount (s : Store) : List String → List String
  | [] => []
  | first :: others =>
    match Path.after? s.mount.toList first.toList with
    | some rest => String.ofList rest :: others
    | none => first :: others

/-- The fault of a call of a store that the library does not keep. -/
def Store.elsewhere (s : Store) : Fault := .foreign "RuntimeError" (s.label ++ " is kept elsewhere")

/-- **Joining** the parts of a path by the rules of a store. -/
def Store.join (s : Store) (parts : List String) : Except Fault String :=
  match s.kind with
  | .memory | .table _ _ => .ok (Path.join (s.withoutMount parts))
  | .disk => .ok (Path.hostJoin parts)
  | .void => .error (.voidStore .join s ("/".intercalate parts))
  | .outside _ _ => .error s.elsewhere

/-! ## 4. Answers -/

namespace Storage

/-- The answer of a memory store. -/
def askMemory (st : Storage) (s : Store) : (c : Call) → Except Fault c.Answer × Storage
  | .list path hints => ((st.memory s.id).list path hints, st)
  | .stat path => (.ok ((st.memory s.id).stat path), st)
  | .join parts => (s.join parts, st)
  | .read path => ((st.memory s.id).read path, st)
  | .write path data => settle (.whole (st.memory s.id) ((st.memory s.id).write path data))
  | .makeDir path parents => settle ((st.memory s.id).makeDir path parents)
  | .remove path => settle (.whole (st.memory s.id) ((st.memory s.id).remove path))
where
  /-- The changed tree, back in its place. -/
  settle (changed : Changed MemoryTree) : Except Fault Unit × Storage :=
    (changed.1, st.setMemory s.id changed.2)

/-- The answer of a store that keeps a space of a table. -/
def askTable (st : Storage) (s : Store) (number : Nat) (space : String) :
    (c : Call) → Except Fault c.Answer × Storage
  | .list path hints => ((st.table number).list space path hints, st)
  | .stat path => (.ok ((st.table number).stat space path), st)
  | .join parts => (s.join parts, st)
  | .read path => ((st.table number).read space path, st)
  | .write path data => settle (.whole (st.table number) ((st.table number).write space path data))
  | .makeDir path parents => settle ((st.table number).makeDir space path parents)
  | .remove path => settle (.whole (st.table number) ((st.table number).remove space path))
where
  /-- The changed rows, back in their place. -/
  settle (changed : Changed Table) : Except Fault Unit × Storage :=
    (changed.1, st.setTable number changed.2)

/-- The answer of a store on the disk. -/
def askDisk (st : Storage) (s : Store) : (c : Call) → Except Fault c.Answer × Storage
  | .list path hints => (st.disk.list path hints, st)
  | .stat path => (st.disk.stat path, st)
  | .join parts => (s.join parts, st)
  | .read path => (st.disk.read path, st)
  | .write path data => settle (.whole st.disk (st.disk.write path data))
  | .makeDir path parents => settle (st.disk.makeDir path parents)
  | .remove path => settle (.whole st.disk (st.disk.remove path))
where
  /-- The changed disk, back in its place. -/
  settle (changed : Changed Disk) : Except Fault Unit × Storage :=
    (changed.1, st.setDisk changed.2)

/-- **The answer to a call of a store**, and the storage afterwards. -/
def ask (st : Storage) (s : Store) (c : Call) : Except Fault c.Answer × Storage :=
  match s.kind with
  | .memory => st.askMemory s c
  | .table number space => st.askTable s number space c
  | .disk => st.askDisk s c
  | .void => (.error (.voidStore c.operation s c.path), st)
  | .outside _ _ => (.error s.elsewhere, st)

end Storage

end Arboretum
