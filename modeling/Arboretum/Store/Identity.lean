import Arboretum.Text.Quoted

/-!
# What a store is called

A store keeps a file tree.  This file holds what is known about a store without looking into it:
who it is, the **mount** (the text in front of the addresses that belong to it), how it keeps its
tree and which operations it offers.
-/

namespace Arboretum

/-! ## 1. Operations -/

/-- The operations on a store. -/
inductive Operation where
  | list
  | stat
  | join
  | read
  | write
  | makeDir
  | remove
deriving DecidableEq, Repr

/-- The name of an operation in messages. -/
def Operation.name : Operation → String
  | .list => "list_dir"
  | .stat => "stat"
  | .join => "join_clean"
  | .read => "read_bytes"
  | .write => "write_bytes"
  | .makeDir => "make_dir"
  | .remove => "remove"

/-- The operations that a store may offer on top of listing, stat and joining. -/
inductive Ability where
  | read
  | write
  | makeDir
  | remove
deriving DecidableEq, Repr

/-- What a store lacks when it lacks an ability, as messages word it. -/
def Ability.activity : Ability → String
  | .read => "reading"
  | .write => "writing"
  | .makeDir => "creating directories"
  | .remove => "removal"

/-! ## 2. Stores -/

/-- How a store keeps its tree. -/
inductive StoreKind where
  /-- a tree in memory -/
  | memory
  /-- the rows of one space in a numbered table, which several stores may share -/
  | table (table : Nat) (space : String)
  /-- the host's disk -/
  | disk
  /-- nowhere: the store of addresses that belong to no store -/
  | void
  /-- outside this library: whoever runs a program answers for it; it has a name of its own and
  only the abilities listed -/
  | outside (label : String) (abilities : List Ability)
deriving DecidableEq, Repr

/-- A store: its number, its mount and its kind. -/
structure Store where
  id : Nat
  mount : String
  kind : StoreKind
deriving DecidableEq, Repr

namespace Store

/-- The text that opens the mounts of memory stores. -/
def memoryScheme : String := "mem://"

/-- The text that opens the mounts of table stores. -/
def tableScheme : String := "db://"

/-- The mount of the void store. -/
def voidMount : String := "invalid://"

/-- The readable name of the store's kind. -/
def label (s : Store) : String :=
  match s.kind with
  | .memory => "memory file system"
  | .table _ _ => "database file system"
  | .disk => "local file system"
  | .void => "invalid file system"
  | .outside label _ => label

/-- The mount of a store without the text that opens it. -/
def mountName (s : Store) (scheme : String) : String :=
  String.ofList (s.mount.toList.drop scheme.length)

/-- How a store is shown. -/
def describe (s : Store) : String :=
  match s.kind with
  | .memory => "MemoryBackend(name=" ++ Text.quote (s.mountName memoryScheme) ++ ")"
  | .table _ space => "DatabaseBackend(name=" ++ Text.quote space ++ ")"
  | .disk => "LocalBackend()"
  | .void => "InvalidBackend()"
  | .outside label _ => label

/-- **The store offers an ability.** -/
def offers (s : Store) (a : Ability) : Bool :=
  match s.kind with
  | .outside _ abilities => abilities.contains a
  | _ => true

end Store

end Arboretum
