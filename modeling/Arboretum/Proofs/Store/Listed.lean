import Arboretum.Proofs.Store.Losing
import Arboretum.Proofs.Store.Rows

/-!
# What a listing consists of

A listing without hints, whatever the path, is read off what the store keeps: off a folder of the
tree in memory (`MemoryTree.folder_of_list`), off the rows below the path (`Table.rows_of_list`), or
off a folder of the disk, with links settled (`Disk.folder_of_list`).  Where what the store keeps came
about properly (`Storage.Proper`), a listing is in name order (`Proper.ordered_list`).
-/

namespace Arboretum

/-! ## 1. Rising names -/

/-- A rising forest lists its names in rising order. -/
theorem Forest.Rising.pairwise {α : Type} {f : Forest α} (h : f.Rising) :
    f.toList.Pairwise fun a b => a.1 < b.1 := by
  induction f using induction_before with
  | empty => exact .nil
  | before name node rest ih =>
    obtain ⟨hlt, -, hrest⟩ := rising_before.1 h
    rw [toList_before]
    exact .cons hlt (ih hrest)

/-! ## 2. Trees in memory -/

/-- **A listing in memory** is that of a folder. -/
theorem MemoryTree.folder_of_list {t : MemoryTree} {path : String} {entries : List Entry}
    (h : t.list path [] = .ok entries) :
    ∃ inside, t.at? (Path.names path) = some (.folder inside) ∧
      entries = Storage.entriesOf inside := by
  unfold list lookup at h
  split at h
  · cases h
  · cases h
  · next inside hat =>
    refine ⟨inside, hat, ?_⟩
    rw [← Except.ok.inj h]
    exact List.filter_eq_self.2 fun _ _ => rfl

/-! ## 3. Tables -/

/-- **A listing of a table**: the rows below the clean path, which is the root's or a directory's. -/
theorem Table.rows_of_list {t : Table} {space path : String} {entries : List Entry}
    (h : t.list space path [] = .ok entries) :
    (Path.clean path = Path.root ∨
      ∃ row, t.find? space (Path.clean path) = some row ∧ row.isDirectory = true) ∧
    entries = ((t.below space (Path.clean path)).mergeSort
      fun a b => decide (a.name ≤ b.name)).map fun row => ⟨row.name, row.isDirectory⟩ := by
  have hentries : t.entries space (Path.clean path) [] =
      ((t.below space (Path.clean path)).mergeSort fun a b => decide (a.name ≤ b.name)).map
        fun row => ⟨row.name, row.isDirectory⟩ := by
    have hall : ((t.below space (Path.clean path)).filter fun row => Pattern.Like.passes [] row.name) =
        t.below space (Path.clean path) := List.filter_eq_self.2 fun _ _ => rfl
    rw [Table.entries, hall]
  unfold list at h
  dsimp only at h
  rw [hentries] at h
  split at h
  · next hroot => exact ⟨.inl hroot, (Except.ok.inj h).symm⟩
  · split at h
    · cases h
    · next row hrow =>
      split at h
      · next hd => exact ⟨.inr ⟨row, hrow, hd⟩, (Except.ok.inj h).symm⟩
      · cases h

/-! ## 4. Disks -/

namespace Disk

variable {d : Disk} {path : String} {entries : List Entry}

/-- What a folder says about one of its names. -/
def offerOf : String × Node DiskLeaf → Offer
  | (name, .folder _) => .known ⟨name, true⟩
  | (name, .leaf (.file _)) => .known ⟨name, false⟩
  | (name, .leaf (.link _)) => .link name

theorem name_offerOf (x : String × Node DiskLeaf) : (offerOf x).name = x.1 := by
  rcases x with ⟨name, (data | target) | inside⟩ <;> rfl

/-- **A listing of the disk**: the path leads to a directory, and each name of its folder is
settled. -/
theorem folder_of_list (h : d.list path [] = .ok entries) :
    ∃ names, d.locate (orHere path) = .ok (.directory names) ∧
      ((∃ inside, d.root.at? names = some (.folder inside) ∧
        entries = (inside.toList.map offerOf).filterMap (d.settle path)) ∨
      ((∀ inside, d.root.at? names ≠ some (.folder inside)) ∧ entries = [])) := by
  unfold list at h
  cases ho : d.offers path [] with
  | error f =>
    rw [ho] at h
    cases h
  | ok offers =>
    rw [ho] at h
    unfold Disk.offers at ho
    dsimp only at ho
    split at ho
    · cases ho
    · cases ho
    · cases ho
    · next names hlocate =>
      refine ⟨names, hlocate, ?_⟩
      split at ho
      · next inside hat =>
        refine .inl ⟨inside, hat, ?_⟩
        have hall : ∀ os : List Offer, (os.filter fun o => Pattern.Shell.passes [] o.name) = os :=
          fun os => List.filter_eq_self.2 fun _ _ => rfl
        rw [hall] at ho
        rw [← Except.ok.inj h, ← Except.ok.inj ho]
        refine congrArg (fun f => (inside.toList.map f).filterMap (d.settle path)) (funext fun x => ?_)
        rcases x with ⟨name, (data | target) | deeper⟩ <;> rfl
      · next hno =>
        refine .inr ⟨fun inside hat => hno inside hat, ?_⟩
        rw [← Except.ok.inj h, ← Except.ok.inj ho]
        rfl

end Disk

/-! ## 5. Order -/

namespace Storage

/-- **What a store keeps came about properly**: a tree in memory and a table by the calls of the
stores, whatever they were, and on the disk the names are plain and rise. -/
structure Proper (s : Store) (st : Storage) : Prop where
  memory : s.kind = .memory → Grown s st
  table : ∀ number space, s.kind = .table number space → Filled number st
  disk : s.kind = .disk → st.disk.Sound

variable {s : Store} {st : Storage} {path : String} {entries : List Entry}

/-- **A store that answers a listing** keeps a tree in memory, a space of a table, or the disk. -/
theorem of_ask_list (h : (st.ask s (.list path [])).1 = .ok entries) :
    (s.kind = .memory ∧ (st.memory s.id).list path [] = .ok entries) ∨
    (∃ number space, s.kind = .table number space ∧
      (st.table number).list space path [] = .ok entries) ∨
    (s.kind = .disk ∧ st.disk.list path [] = .ok entries) := by
  cases hk : s.kind with
  | memory =>
    rw [ask_memory hk, askMemory] at h
    dsimp only at h
    exact .inl ⟨rfl, h⟩
  | table number space =>
    rw [ask_table hk, askTable] at h
    dsimp only at h
    exact .inr (.inl ⟨number, space, rfl, h⟩)
  | disk =>
    simp only [ask, hk, askDisk] at h
    exact .inr (.inr ⟨rfl, h⟩)
  | void =>
    rw [ask, hk] at h
    cases h
  | outside label abilities =>
    rw [ask, hk] at h
    cases h

/-- **Listings are in name order.** -/
theorem Proper.ordered_list (hp : Proper s st) (h : (st.ask s (.list path [])).1 = .ok entries) :
    entries.Pairwise fun a b => a.name ≤ b.name := by
  obtain ⟨hk, h⟩ | ⟨number, space, hk, h⟩ | ⟨hk, h⟩ := of_ask_list h
  · obtain ⟨inside, hat, rfl⟩ := MemoryTree.folder_of_list h
    have hrising : inside.Rising := ((hp.memory hk).rising hk).of_at? hat
    unfold entriesOf
    rw [List.pairwise_map]
    exact hrising.pairwise.imp fun {a b} hlt => String.not_lt.1 (String.lt_asymm hlt)
  · rw [(Table.rows_of_list h).2, List.pairwise_map]
    exact (List.pairwise_mergeSort Table.name_le_trans Table.name_le_total _).imp
      fun {a b} hle => of_decide_eq_true hle
  · obtain ⟨names, -, ⟨inside, hat, rfl⟩ | ⟨-, rfl⟩⟩ := Disk.folder_of_list h
    · have hrising : inside.Rising := (hp.disk hk).rising.of_at? hat
      rw [List.pairwise_filterMap, List.pairwise_map]
      refine hrising.pairwise.imp fun {a b} hlt e he e' he' => ?_
      rw [Disk.name_of_settle st.disk path he, Disk.name_of_settle st.disk path he',
        Disk.name_offerOf, Disk.name_offerOf]
      exact String.not_lt.1 (String.lt_asymm hlt)
    · exact .nil

end Storage

end Arboretum
