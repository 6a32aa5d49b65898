import Arboretum.Proofs.Registry.Places
import Arboretum.Proofs.Store.Changing

/-!
# What a write changes

A write that is answered, at whatever path and in whatever state, leaves its file at one place, its
**target**, and every other place as it was (`ask_read_of_write`, `ask_stat_of_write`).  Neither the
tree in memory has to be orderly for this nor the table sound.

A table cleans the path once, wherever it uses it, so the target is the clean path.  A store in
memory cleans the path of the directory once more on the way to it, and a stat cleans the path
twice.  Cleaning trims blanks, so all three mean the same place exactly if neither the directory's
path nor the clean path ends in a blank (`target_eq_clean_iff`, `seen_eq_clean_iff`).
-/

namespace Arboretum

/-! ## 1. Places -/

namespace Store

variable {s : Store} {path : String}

/-- A store in memory or in a table. -/
def KeepsFiles (s : Store) : Prop :=
  s.kind = .memory ∨ ∃ number space, s.kind = .table number space

/-- **The place where a write leaves its file**, as a path of plain names. -/
def target (s : Store) (path : String) : String :=
  match s.kind with
  | .memory => Path.ofNames (Path.names (Path.parent path) ++ [Path.name path])
  | _ => Path.clean path

/-- The place that a stat looks at. -/
def seen (s : Store) (path : String) : String :=
  match s.kind with
  | .memory => Path.clean (Path.clean path)
  | _ => Path.clean path

theorem target_memory (hk : s.kind = .memory) {above : List String} {n : String}
    (hns : Path.names path = above ++ [n]) :
    s.target path = Path.ofNames (Path.placeIn above n) := by
  unfold target Path.placeIn
  rw [hk, Path.parent_of_names hns, Path.name_of_names hns]

theorem target_of_ne_memory (hk : s.kind ≠ .memory) : s.target path = Path.clean path := by
  unfold target
  split
  · next h => exact absurd h hk
  · rfl

theorem seen_memory (hk : s.kind = .memory) : s.seen path = Path.clean (Path.clean path) := by
  unfold seen
  rw [hk]

theorem seen_of_ne_memory (hk : s.kind ≠ .memory) : s.seen path = Path.clean path := by
  unfold seen
  split
  · next h => exact absurd h hk
  · rfl

/-- The names on the way to a target are plain. -/
theorem arePlain_placeIn {above : List String} {n : String} (hns : Path.names path = above ++ [n]) :
    Path.ArePlain (Path.placeIn above n) := by
  intro m hm
  rcases List.mem_append.1 hm with hm | hm
  · exact Path.isPlain_of_mem_names hm
  · exact Path.isPlain_of_mem_names (hns ▸ List.mem_append_right above hm)

/-- **A write goes to its own clean path** exactly if, in memory, the path of the directory does not
end in a blank. -/
theorem target_eq_clean_iff (hne : Path.names path ≠ []) : s.target path = Path.clean path ↔
    (s.kind = .memory → Text.endsBlank (Path.parent path).toList = false) := by
  by_cases hk : s.kind = .memory
  · rcases List.eq_nil_or_concat (Path.names path) with hnil | ⟨above, n, hns⟩
    · exact absurd hnil hne
    · rw [List.concat_eq_append] at hns
      have hplain : Path.ArePlain (above ++ [n]) := hns ▸ Path.arePlain_names path
      rw [target_memory hk hns, Path.clean_eq_ofNames path, hns,
        Path.ofNames_inj_of_plain (arePlain_placeIn hns) hplain, Path.parent_of_names hns,
        ← Path.names_ofNames_iff fun m hm => hplain m (List.mem_append_left _ hm)]
      exact ⟨fun h _ => List.append_cancel_right h, fun h => congrArg (· ++ [n]) (h hk)⟩
  · exact ⟨fun _ h => absurd h hk, fun _ => target_of_ne_memory hk⟩

/-- **A stat looks at the clean path** exactly if, in memory, that path does not end in a blank. -/
theorem seen_eq_clean_iff : s.seen path = Path.clean path ↔
    (s.kind = .memory → Text.endsBlank (Path.clean path).toList = false) := by
  by_cases hk : s.kind = .memory
  · rw [seen_memory hk, Path.clean_clean_iff]
    exact ⟨fun h _ => h, fun h => h hk⟩
  · exact ⟨fun _ h => absurd h hk, fun _ => seen_of_ne_memory hk⟩

/-- A write's target is the clean path of some text. -/
theorem exists_clean_eq_target (hne : Path.names path ≠ []) :
    ∃ q, Path.clean q = s.target path := by
  by_cases hk : s.kind = .memory
  · rcases List.eq_nil_or_concat (Path.names path) with hnil | ⟨above, n, hns⟩
    · exact absurd hnil hne
    · rw [List.concat_eq_append] at hns
      rw [target_memory hk hns]
      exact Path.exists_clean_eq_ofNames (arePlain_placeIn hns)
  · exact ⟨path, (target_of_ne_memory hk).symm⟩

end Store

/-! ## 2. Trees in memory -/

namespace MemoryTree

variable {t t' : MemoryTree} {path : String} {data : ByteArray}

/-- What is read is what the view shows. -/
theorem read_of_view (t : MemoryTree) (path : String) : t.read path =
    match t.view (Path.names path) with
    | none => .error (.fileMissing path)
    | some .directory => .error (.isDirectory path)
    | some (.file data) => .ok data := by
  unfold read lookup Forest.view
  rcases t.at? (Path.names path) with _ | _ | _ <;> rfl

/-- What is known of a place is what the view shows at the path cleaned twice. -/
theorem stat_of_view (t : MemoryTree) (path : String) : t.stat path =
    (t.view (Path.names (Path.clean path))).map fun x =>
      ⟨Path.clean path, Path.name (Path.clean path), x.isDirectory, x.size?, true⟩ := by
  unfold stat lookup Forest.view
  dsimp only
  generalize Path.name (Path.clean path) = n
  generalize t.at? (Path.names (Path.clean path)) = node
  rcases node with _ | _ | _ <;> rfl

/-- **A write in memory** leaves its file where the path of the directory leads, in any tree. -/
theorem of_write (h : t.write path data = .ok t') :
    ∃ above n, Path.names path = above ++ [n] ∧
      t'.view = t.view.put (Path.placeIn above n) (some (.file data)) := by
  unfold write at h
  cases hh : t.holder path with
  | error f =>
    rw [hh] at h
    cases h
  | ok held =>
    obtain ⟨above, inside, n⟩ := held
    obtain ⟨outer, hns, habove, hat⟩ := of_holder hh
    rw [hh] at h
    refine ⟨outer, n, hns, ?_⟩
    have hfile : ∀ g, inside.find? n ≠ some (.folder g) := by
      intro g hg
      dsimp only at h
      rw [hg] at h
      cases h
    have hresult : t' = t.change (Forest.put n (.leaf data)) above := by
      dsimp only at h
      rcases hf : inside.find? n with _ | _ | g
      · rw [hf] at h
        exact (Except.ok.inj h).symm
      · rw [hf] at h
        exact (Except.ok.inj h).symm
      · exact absurd hf (hfile g)
    rw [hresult, Path.placeIn, ← habove]
    exact Forest.view_change hat (Forest.view_put_eq
      (Forest.view_below_find? fun g hg => absurd hg (hfile g)) fun _ _ => rfl)

end MemoryTree

/-! ## 3. Tables -/

/-- **A write to a table** leaves a row of its file under the clean path, which is not the root, and
keeps what is found under every other path; in any table. -/
theorem Table.of_write {t t' : Table} {space path : String} {data : ByteArray}
    (h : t.write space path data = .ok t') :
    Path.names path ≠ [] ∧ ∃ row : Row, row.isDirectory = false ∧ row.content = data ∧
      row.size = data.size ∧ ∀ q, t'.find? space q =
        if q = Path.clean path then some row else t.find? space q := by
  unfold write at h
  dsimp only at h
  cases hh : t.holder space (Path.clean path) with
  | error f =>
    rw [hh] at h
    cases h
  | ok held =>
    obtain ⟨above, n⟩ := held
    rw [hh] at h
    dsimp only at h
    constructor
    · intro hnil
      rw [Path.clean_eq_ofNames, hnil, Path.ofNames_nil, holder_root] at hh
      cases hh
    · cases hf : t.find? space (Path.clean path) with
      | none =>
        rw [hf] at h
        obtain rfl := Except.ok.inj h
        refine ⟨⟨space, Path.clean path, above, n, false, data, data.size⟩, rfl, rfl, rfl, ?_⟩
        intro q
        rw [find?, List.find?_append, ← find?]
        by_cases hq : q = Path.clean path
        · rw [if_pos hq, hq, hf]
          simp
        · rw [if_neg hq, List.find?_cons_of_neg (by simp [Ne.symm hq]), List.find?_nil,
            Option.or_none]
      | some row =>
        rw [hf] at h
        dsimp only at h
        cases hd : row.isDirectory with
        | true =>
          rw [hd] at h
          cases h
        | false =>
          rw [hd] at h
          obtain rfl := Except.ok.inj h
          refine ⟨{ row with content := data, size := data.size }, hd, rfl, rfl, fun q => ?_⟩
          rw [find?_refill]
          by_cases hq : q = Path.clean path
          · rw [if_pos hq, hq, hf]
            simp [(of_find?_eq_some hf).2.2]
          · rw [if_neg hq]
            cases hfq : t.find? space q with
            | none => rfl
            | some other =>
              have hother : other.path ≠ Path.clean path := (of_find?_eq_some hfq).2.2 ▸ hq
              simp [hother]

/-! ## 4. Stores -/

namespace Storage

variable {st : Storage} {s : Store} {path : String} {data : ByteArray}

/-- A write to a store in memory. -/
theorem of_write_memory (hk : s.kind = .memory)
    (h : (st.ask s (.write path data)).1 = .ok ()) :
    ∃ above n, Path.names path = above ++ [n] ∧
      ((st.ask s (.write path data)).2.memory s.id).view =
        (st.memory s.id).view.put (Path.placeIn above n) (some (.file data)) := by
  rw [ask_memory hk] at h ⊢
  simp only [askMemory, askMemory.settle, memory_setMemory] at h ⊢
  cases hw : (st.memory s.id).write path data with
  | error f =>
    rw [hw] at h
    cases h
  | ok t' =>
    exact MemoryTree.of_write hw

/-- A write to a store in a table. -/
theorem of_write_table {number : Nat} {space : String} (hk : s.kind = .table number space)
    (h : (st.ask s (.write path data)).1 = .ok ()) :
    Path.names path ≠ [] ∧ ∃ row : Row, row.isDirectory = false ∧ row.content = data ∧
      row.size = data.size ∧
      ∀ q, ((st.ask s (.write path data)).2.table number).find? space q =
        if q = Path.clean path then some row else (st.table number).find? space q := by
  rw [ask_table hk] at h ⊢
  simp only [askTable, askTable.settle, table_setTable] at h ⊢
  cases hw : (st.table number).write space path data with
  | error f =>
    rw [hw] at h
    cases h
  | ok t' =>
    exact Table.of_write hw

/-- A write that is answered is not one to the root. -/
theorem names_ne_nil_of_write (hs : s.KeepsFiles) (h : (st.ask s (.write path data)).1 = .ok ()) :
    Path.names path ≠ [] := by
  rcases hs with hk | ⟨number, space, hk⟩
  · obtain ⟨above, n, hns, -⟩ := of_write_memory hk h
    rw [hns]
    simp
  · exact (of_write_table hk h).1

/-- **What is read after a write**: the written bytes at every path that cleans to the target, and
at every other path what was read before, a fault included. -/
theorem ask_read_of_write (hs : s.KeepsFiles) (h : (st.ask s (.write path data)).1 = .ok ())
    (q : String) : ((st.ask s (.write path data)).2.ask s (.read q)).1 =
      if Path.clean q = s.target path then .ok data else (st.ask s (.read q)).1 := by
  rcases hs with hk | ⟨number, space, hk⟩
  · obtain ⟨above, n, hns, hview⟩ := of_write_memory hk h
    have hplace : Path.clean q = s.target path ↔ Path.names q = Path.placeIn above n := by
      rw [Store.target_memory hk hns, Path.clean_eq_ofNames]
      exact Path.ofNames_inj_of_plain (Path.arePlain_names q) (Store.arePlain_placeIn hns)
    rw [ask_memory hk, ask_memory hk (.read q)]
    simp only [askMemory, MemoryTree.read_of_view, hview, hplace]
    by_cases hq : Path.names q = Path.placeIn above n
    · rw [if_pos hq, hq, View.put_self]
    · rw [if_neg hq, View.put_of_ne _ hq]
  · obtain ⟨-, row, hfile, hcontent, -, hfind⟩ := of_write_table hk h
    rw [Store.target_of_ne_memory (by rw [hk]; simp), ask_table hk, ask_table hk (.read q)]
    simp only [askTable, Table.read, hfind]
    by_cases hq : Path.clean q = Path.clean path
    · simp [hq, hfile, hcontent]
    · simp [hq]

/-- **What is known after a write**: a file of the written size wherever a stat looks at the target,
and everywhere else what was known before. -/
theorem ask_stat_of_write (hs : s.KeepsFiles) (h : (st.ask s (.write path data)).1 = .ok ())
    (q : String) :
    if s.seen q = s.target path then
      ∃ info, ((st.ask s (.write path data)).2.ask s (.stat q)).1 = .ok (some info) ∧
        info.isDirectory = false ∧ info.size = some data.size
    else ((st.ask s (.write path data)).2.ask s (.stat q)).1 = (st.ask s (.stat q)).1 := by
  rcases hs with hk | ⟨number, space, hk⟩
  · obtain ⟨above, n, hns, hview⟩ := of_write_memory hk h
    have hplace : s.seen q = s.target path ↔
        Path.names (Path.clean q) = Path.placeIn above n := by
      rw [Store.target_memory hk hns, Store.seen_memory hk, Path.clean_eq_ofNames (Path.clean q)]
      exact Path.ofNames_inj_of_plain (Path.arePlain_names _) (Store.arePlain_placeIn hns)
    rw [ask_memory hk, ask_memory hk (.stat q)]
    simp only [askMemory, MemoryTree.stat_of_view, hview, hplace]
    generalize Path.names (Path.clean q) = place, Path.name (Path.clean q) = m
    by_cases hq : place = Path.placeIn above n
    · rw [if_pos hq, hq, View.put_self]
      exact ⟨⟨Path.clean q, m, false, some data.size, true⟩, rfl, rfl, rfl⟩
    · rw [if_neg hq, View.put_of_ne _ hq]
  · obtain ⟨hne, row, hfile, -, hsize, hfind⟩ := of_write_table hk h
    have hroot : Path.clean path ≠ Path.root := fun he => hne (Path.names_eq_nil_of_clean he)
    have hm : s.kind ≠ .memory := by rw [hk]; simp
    rw [Store.target_of_ne_memory hm, Store.seen_of_ne_memory hm, ask_table hk,
      ask_table hk (.stat q)]
    simp only [askTable, Table.stat, hfind]
    generalize Path.clean q = there, Path.clean path = target at hroot ⊢
    by_cases hq : there = target
    · simp [hq, hroot, hfile, hsize]
    · simp [hq]

/-- **A write is read back, and nothing else changes**, at the target of the write.  If the store is
a table, or neither the path of the directory nor the clean path ends in a blank, then the target is
the clean path and a stat looks there, so the written path reads the bytes and is a file of their
size.  Otherwise, in memory, the one or the other fails: the file lies at another clean path, or a
stat looks past it. -/
theorem write_read_back (hs : s.KeepsFiles) (h : (st.ask s (.write path data)).1 = .ok ()) :
    let after := (st.ask s (.write path data)).2
    ((s.kind = .memory → Text.endsBlank (Path.parent path).toList = false ∧
        Text.endsBlank (Path.clean path).toList = false) →
      (after.ask s (.read path)).1 = .ok data ∧
      (∃ info, (after.ask s (.stat path)).1 = .ok (some info) ∧ info.isDirectory = false ∧
        info.size = some data.size) ∧
      ∀ q, Path.clean q ≠ Path.clean path →
        (after.ask s (.read q)).1 = (st.ask s (.read q)).1) ∧
    (∀ q, (after.ask s (.read q)).1 =
      if Path.clean q = s.target path then .ok data else (st.ask s (.read q)).1) ∧
    (∀ q, if s.seen q = s.target path then
        ∃ info, (after.ask s (.stat q)).1 = .ok (some info) ∧ info.isDirectory = false ∧
          info.size = some data.size
      else (after.ask s (.stat q)).1 = (st.ask s (.stat q)).1) ∧
    (s.target path = Path.clean path ↔
      (s.kind = .memory → Text.endsBlank (Path.parent path).toList = false)) ∧
    (s.seen path = Path.clean path ↔
      (s.kind = .memory → Text.endsBlank (Path.clean path).toList = false)) ∧
    ∃ q, Path.clean q = s.target path := by
  intro after
  have hne := names_ne_nil_of_write hs h
  have hread := ask_read_of_write hs h
  have hstat := ask_stat_of_write hs h
  refine ⟨fun hblank => ?_, hread, hstat, Store.target_eq_clean_iff hne, Store.seen_eq_clean_iff,
    Store.exists_clean_eq_target hne⟩
  have htarget : s.target path = Path.clean path :=
    (Store.target_eq_clean_iff hne).2 fun hk => (hblank hk).1
  have hseen : s.seen path = s.target path :=
    (Store.seen_eq_clean_iff.2 fun hk => (hblank hk).2).trans htarget.symm
  refine ⟨?_, ?_, fun q hq => ?_⟩
  · rw [hread path, if_pos htarget.symm]
  · have hpath := hstat path
    rwa [if_pos hseen] at hpath
  · rw [hread q, if_neg fun he => hq (he.trans htarget)]

/-- Writing `/b /y` to a store in memory with a directory `/b`: the file is read at `/b/y`, and at
the path that was written there is none. -/
theorem write_read_back_small :
    let s : Store := ⟨2, "mem://a", .memory⟩
    let data : ByteArray := ⟨#[1]⟩
    let after := (World.small.storage.ask s (.write "/b /y" data)).2
    s.KeepsFiles ∧ (World.small.storage.ask s (.write "/b /y" data)).1 = .ok () ∧
      (after.ask s (.read "/b/y")).1 = .ok data ∧
      (after.ask s (.read "/b /y")).1 = .error (.fileMissing "/b /y") := by
  intro s data after
  have hs : s.KeepsFiles := .inl rfl
  have hw : (World.small.storage.ask s (.write "/b /y" data)).1 = .ok () := rfl
  obtain ⟨-, hread, -⟩ := write_read_back hs hw
  have hthere : Path.clean "/b/y" = s.target "/b /y" := by decide +kernel
  have hother : Path.clean "/b /y" ≠ s.target "/b /y" := by decide +kernel
  refine ⟨hs, hw, ?_, ?_⟩
  · rw [hread "/b/y", if_pos hthere]
  · rw [hread "/b /y", if_neg hother]
    rfl

end Storage

end Arboretum
