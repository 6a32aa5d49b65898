import Arboretum.Proofs.Store.Refinement
import Arboretum.Proofs.Store.Spaces

/-!
# Trees that stores were built with

Whatever the stores around it do, a store in memory or in a table that started empty and was only
changed at tidy paths (`Storage.Built`) holds an orderly tree (`Built.exists_holds`): in memory the
tree itself, in a table a space that represents it.  From then on what the store answers is read off
the tree (`Holds.answer`), and looking changes nothing (`ask_of_look`).
-/

namespace Arboretum

/-! ## 1. Building -/

/-- The call may change what a store holds. -/
def Call.changes : Call → Bool
  | .write _ _ => true
  | .makeDir _ _ => true
  | .remove _ => true
  | _ => false

/-- Two stores that keep one tree: the same memory, or the same space of the same table. -/
def Store.SharesTree (t s : Store) : Prop := t.kind = s.kind ∧ (s.kind = .memory → t.id = s.id)

namespace Storage

variable {st : Storage} {s t : Store} {f : MemoryTree}

/-- Nothing was put into a store yet. -/
def IsBare (st : Storage) (s : Store) : Prop :=
  match s.kind with
  | .memory => st.memory s.id = .empty
  | .table number space => ∀ row ∈ st.table number, row.space ≠ space
  | _ => False

/-- **A tree was built** in a store: it started empty, whoever shares it changed it at tidy paths
only, and everything else may have been done to all other stores. -/
inductive Built (s : Store) : Storage → Prop
  | bare {st : Storage} (h : st.IsBare s) : Built s st
  | ask {st : Storage} (h : Built s st) (t : Store) (c : Call)
    (hc : t.SharesTree s → c.changes = true → c.IsTidy) : Built s (st.ask t c).2
  | add {st : Storage} (h : Built s st) (id : Nat) (items : List (String × Option ByteArray))
    (hi : s.kind = .memory → id = s.id → ∀ item ∈ items, Path.Tidy item.1) :
    Built s (st.setMemory id ((st.memory id).add items).2)

/-- **A store holds a tree.** -/
def Holds (st : Storage) (s : Store) (f : MemoryTree) : Prop :=
  match s.kind with
  | .memory => st.memory s.id = f ∧ f.Orderly
  | .table number space => (st.table number).Represents space f
  | _ => False

theorem holds_memory (hk : s.kind = .memory) :
    st.Holds s f ↔ st.memory s.id = f ∧ f.Orderly := by
  unfold Holds
  rw [hk]

theorem holds_table {number : Nat} {space : String} (hk : s.kind = .table number space) :
    st.Holds s f ↔ (st.table number).Represents space f := by
  unfold Holds
  rw [hk]

/-- Only memories and tables hold trees. -/
theorem Holds.kind (h : st.Holds s f) :
    s.kind = .memory ∨ ∃ number space, s.kind = .table number space := by
  unfold Holds at h
  cases hk : s.kind with
  | memory => exact .inl rfl
  | table number space => exact .inr ⟨number, space, rfl⟩
  | disk => rw [hk] at h; exact h.elim
  | void => rw [hk] at h; exact h.elim
  | outside label abilities => rw [hk] at h; exact h.elim

theorem Holds.orderly (h : st.Holds s f) : f.Orderly := by
  rcases h.kind with hk | ⟨number, space, hk⟩
  · exact ((holds_memory hk).1 h).2
  · exact ((holds_table hk).1 h).orderly

/-! ## 2. Looking -/

/-- **Looking changes nothing.** -/
theorem ask_of_look (st : Storage) (t : Store) {c : Call} (hc : c.changes = false) :
    (st.ask t c).2 = st := by
  unfold ask
  cases t.kind with
  | memory => cases c <;> first | rfl | cases hc
  | table number space => cases c <;> first | rfl | cases hc
  | disk => cases c <;> first | rfl | cases hc
  | void => rfl
  | outside label abilities => rfl

/-- **What a store answers is read off the tree that it holds.** -/
theorem Holds.answer (h : st.Holds s f) {c : Call} (hc : c.IsTidy) (hal : f.view.Allows c) :
    ∃ a, (st.ask s c).1 = .ok a ∧ f.view.Reports c a := by
  rcases h.kind with hk | ⟨number, space, hk⟩
  · obtain ⟨rfl, ho⟩ := (holds_memory hk).1 h
    rw [ask_memory hk]
    obtain ⟨a, ha, hr, -⟩ := (askMemory_follows (s := s) hc ho).1.answered hal
    exact ⟨a, ha, hr⟩
  · have hrep := (holds_table hk).1 h
    rw [ask_table hk]
    obtain ⟨a, ha, hr, -⟩ :=
      (askTable_follows (s := s) hc hrep.sound).1.answered (hrep.view_eq ▸ hal)
    exact ⟨a, ha, hrep.view_eq ▸ hr⟩

/-- **Stat** finds what stands in the tree. -/
theorem Holds.ask_stat (h : st.Holds s f) {place : List String} (hn : Path.AreNames place) :
    ∃ info : Option Info, st.ask s (.stat (Path.ofNames place)) = (.ok info, st) ∧
      info.map Info.isDirectory = (f.at? place).map Node.isFolder := by
  have htidy := Path.tidy_ofNames hn
  obtain ⟨info, ha, hr⟩ := h.answer (c := .stat (Path.ofNames place)) htidy trivial
  have hlook := st.ask_of_look s (c := .stat (Path.ofNames place)) rfl
  refine ⟨info, Prod.ext ha hlook, ?_⟩
  have hr : info.map Info.untimed =
      (f.view (Path.names (Path.ofNames place))).map (View.infoOf (Path.ofNames place)) := hr
  rw [Path.names_ofNames hn] at hr
  calc info.map Info.isDirectory
      = (info.map Info.untimed).map Info.isDirectory := by
        rw [Option.map_map]
        rfl
    _ = (f.view place).map Thing.isDirectory := by
        rw [hr, Option.map_map]
        rfl
    _ = (f.at? place).map Node.isFolder := by
        rw [Forest.view, Option.map_map]
        exact congrArg (Option.map · (f.at? place)) (funext Node.isDirectory_thing)

/-- A stat of a place where a node stands tells whether it is a directory. -/
theorem Holds.ask_stat_of_at? (h : st.Holds s f) {place : List String} (hn : Path.AreNames place)
    {node : Node ByteArray} (hat : f.at? place = some node) :
    ∃ info : Info, st.ask s (.stat (Path.ofNames place)) = (.ok (some info), st) ∧
      info.isDirectory = node.isFolder := by
  obtain ⟨info, hask, hinfo⟩ := h.ask_stat hn
  rw [hat] at hinfo
  obtain ⟨info, rfl, hdir⟩ := Option.map_eq_some_iff.1 hinfo
  exact ⟨info, hask, hdir⟩

/-- **Reading** a file brings its content. -/
theorem Holds.ask_read (h : st.Holds s f) {place : List String} (hn : Path.AreNames place)
    {data : ByteArray} (hv : f.view place = some (.file data)) :
    st.ask s (.read (Path.ofNames place)) = (.ok data, st) := by
  have hnames := Path.names_ofNames hn
  have htidy : Call.IsTidy (.read (Path.ofNames place)) := Path.tidy_ofNames hn
  have hthere : f.view (Path.names (Path.ofNames place)) = some (.file data) := by
    rw [hnames]
    exact hv
  have hal : f.view.Allows (.read (Path.ofNames place)) := ⟨data, hthere⟩
  obtain ⟨found, ha, hr⟩ := h.answer htidy hal
  have hr : f.view (Path.names (Path.ofNames place)) = some (.file found) := hr
  rw [hnames, hv] at hr
  cases hr
  exact Prod.ext ha (st.ask_of_look s rfl)

/-- The entries of a directory of a tree, in the order of the tree. -/
def entriesOf (inside : Forest ByteArray) : List Entry :=
  inside.toList.map fun (name, node) => ⟨name, node.isFolder⟩

/-- **Listing** a directory reads it off the tree. -/
theorem Holds.ask_list (h : st.Holds s f) {place : List String} (hn : Path.AreNames place)
    {inside : Forest ByteArray} (ha : f.at? place = some (.folder inside)) :
    st.ask s (.list (Path.ofNames place) []) = (.ok (entriesOf inside), st) := by
  have htidy := Path.tidy_ofNames hn
  have hnames := Path.names_ofNames hn
  have hd : f.view (Path.names (Path.ofNames place)) = some .directory := by
    rw [hnames]
    exact Forest.view_eq_directory_iff.2 ⟨inside, ha⟩
  obtain ⟨entries, hok, hr⟩ := h.answer (c := .list (Path.ofNames place) []) ⟨htidy, rfl⟩ hd
  have hr : f.view.IsListing (Path.names (Path.ofNames place)) entries := hr
  rw [hnames] at hr
  have hlook := st.ask_of_look s (c := .list (Path.ofNames place) []) rfl
  rw [hr.unique (MemoryTree.isListing_toList h.orderly ha)] at hok
  exact Prod.ext hok hlook

/-! ## 3. What others do -/

theorem memory_setMemory_of_ne {id other : Nat} (hne : id ≠ other) (tree : MemoryTree) :
    (st.setMemory id tree).memory other = st.memory other := by
  rw [memory, setMemory, Numbered.get?_set, if_neg hne]
  rfl

theorem table_setTable_of_ne {number other : Nat} (hne : number ≠ other) (rows : Table) :
    (st.setTable number rows).table other = st.table other := by
  rw [table, setTable, Numbered.get?_set, if_neg hne]
  rfl

/-- A memory changes its own tree at most. -/
theorem askMemory_storage (st : Storage) (t : Store) (c : Call) :
    (st.askMemory t c).2 = st ∨ ∃ tree, (st.askMemory t c).2 = st.setMemory t.id tree := by
  cases c with
  | list path hints => exact .inl rfl
  | stat path => exact .inl rfl
  | join parts => exact .inl rfl
  | read path => exact .inl rfl
  | write path data => exact .inr ⟨_, rfl⟩
  | makeDir path parents => exact .inr ⟨_, rfl⟩
  | remove path => exact .inr ⟨_, rfl⟩

/-- A table changes its own rows at most, -/
theorem askTable_storage (st : Storage) (t : Store) (number : Nat) (space : String) (c : Call) :
    (st.askTable t number space c).2 = st ∨
      ∃ rows, (st.askTable t number space c).2 = st.setTable number rows := by
  cases c with
  | list path hints => exact .inl rfl
  | stat path => exact .inl rfl
  | join parts => exact .inl rfl
  | read path => exact .inl rfl
  | write path data => exact .inr ⟨_, rfl⟩
  | makeDir path parents => exact .inr ⟨_, rfl⟩
  | remove path => exact .inr ⟨_, rfl⟩

/-- and of them those of its own space. -/
theorem rows_askTable (st : Storage) (t : Store) (number : Nat) {other space : String}
    (hne : other ≠ space) (c : Call) :
    ((st.askTable t number other c).2.table number).rows space =
      (st.table number).rows space := by
  cases c with
  | list path hints => rfl
  | stat path => rfl
  | join parts => rfl
  | read path => rfl
  | write path data =>
    simp only [askTable, askTable.settle, table_setTable]
    exact Changed.look_whole (fun t => Table.rows t space) fun _ h => Table.rows_write hne h
  | makeDir path parents =>
    simp only [askTable, askTable.settle, table_setTable]
    exact Table.rows_makeDir hne _ path parents
  | remove path =>
    simp only [askTable, askTable.settle, table_setTable]
    exact Changed.look_whole (fun t => Table.rows t space) fun _ h => Table.rows_remove hne h

/-- The disk changes itself at most. -/
theorem askDisk_storage (st : Storage) (t : Store) (c : Call) :
    ∃ disk, (st.askDisk t c).2 = { st with disk } := by
  cases c with
  | list path hints => exact ⟨st.disk, rfl⟩
  | stat path => exact ⟨st.disk, rfl⟩
  | join parts => exact ⟨st.disk, rfl⟩
  | read path => exact ⟨st.disk, rfl⟩
  | write path data => exact ⟨_, rfl⟩
  | makeDir path parents => exact ⟨_, rfl⟩
  | remove path => exact ⟨_, rfl⟩

/-- **No other store changes a tree in memory.** -/
theorem memory_ask (st : Storage) {t : Store} {id : Nat} (hne : t.kind = .memory → t.id ≠ id)
    (c : Call) : (st.ask t c).2.memory id = st.memory id := by
  cases hk : t.kind with
  | memory =>
    rw [ask_memory hk]
    rcases st.askMemory_storage t c with he | ⟨tree, he⟩
    · rw [he]
    · rw [he, memory_setMemory_of_ne (hne hk)]
  | table number space =>
    rw [ask_table hk]
    rcases st.askTable_storage t number space c with he | ⟨rows, he⟩
    · rw [he]
    · rw [he]
      rfl
  | disk =>
    obtain ⟨disk, he⟩ := st.askDisk_storage t c
    have hask : (st.ask t c).2 = { st with disk } := by rw [ask, hk, ← he]
    rw [hask]
    rfl
  | void => rw [ask, hk]
  | outside label abilities => rw [ask, hk]

/-- **No other store changes the rows of a space.** -/
theorem rows_ask (st : Storage) {t : Store} {number : Nat} {space : String}
    (hne : t.kind ≠ .table number space) (c : Call) :
    ((st.ask t c).2.table number).rows space = (st.table number).rows space := by
  cases hk : t.kind with
  | memory =>
    rw [ask_memory hk]
    rcases st.askMemory_storage t c with he | ⟨tree, he⟩
    · rw [he]
    · rw [he]
      rfl
  | table other space' =>
    rw [ask_table hk]
    by_cases hn : other = number
    · subst hn
      have hspace : space' ≠ space := fun he => hne (he ▸ hk)
      exact st.rows_askTable t other hspace c
    · rcases st.askTable_storage t other space' c with he | ⟨rows, he⟩
      · rw [he]
      · rw [he, table_setTable_of_ne hn]
  | disk =>
    obtain ⟨disk, he⟩ := st.askDisk_storage t c
    have hask : (st.ask t c).2 = { st with disk } := by rw [ask, hk, ← he]
    rw [hask]
    rfl
  | void => rw [ask, hk]
  | outside label abilities => rw [ask, hk]

/-- A store holds the tree as long as what it is kept in stays as it is. -/
theorem Holds.of_same {st' : Storage} (h : st.Holds s f)
    (hm : s.kind = .memory → st'.memory s.id = st.memory s.id)
    (ht : ∀ number space, s.kind = .table number space →
      (st'.table number).rows space = (st.table number).rows space) : st'.Holds s f := by
  rcases h.kind with hk | ⟨number, space, hk⟩
  · rw [holds_memory hk] at h ⊢
    rw [hm hk]
    exact h
  · rw [holds_table hk] at h ⊢
    obtain ⟨hsound, hview⟩ := h.sound.of_rows_eq (ht number space hk)
    exact ⟨hsound, h.orderly, hview.trans h.view_eq⟩

/-! ## 4. Every tree that was built is held -/

/-- **One call keeps a store holding a tree**, whoever makes it. -/
theorem Holds.exists_holds_ask (h : st.Holds s f) (t : Store) (c : Call)
    (hc : t.SharesTree s → c.changes = true → c.IsTidy) : ∃ f', (st.ask t c).2.Holds s f' := by
  by_cases hshare : t.SharesTree s ∧ c.changes = true
  · obtain ⟨hshare, hchanges⟩ := hshare
    have htidy := hc hshare hchanges
    obtain ⟨hkind, hid⟩ := hshare
    rcases h.kind with hk | ⟨number, space, hk⟩
    · obtain ⟨-, ho⟩ := (holds_memory hk).1 h
      have hkt : t.kind = .memory := hkind.trans hk
      have hstep : ((st.askMemory t c).2.memory t.id).Orderly := by
        refine (askMemory_follows htidy ?_).2
        rw [hid hk]
        exact ((holds_memory hk).1 h).1 ▸ ho
      rw [ask_memory hkt]
      exact ⟨_, (holds_memory hk).2 ⟨rfl, hid hk ▸ hstep⟩⟩
    · have hrep := (holds_table hk).1 h
      have hkt : t.kind = .table number space := hkind.trans hk
      -- The tree is kept in a memory aside, and gets the same call.
      let aside : Storage := ⟨[(0, f)], [], st.disk⟩
      have hstart : (st.table number).Represents space (aside.memory 0) := hrep
      have hstep := (represents_ask (s := ⟨0, "", .memory⟩) rfl hkt hstart htidy).2
      exact ⟨_, (holds_table hk).2 hstep⟩
  · refine ⟨f, ?_⟩
    cases hchanges : c.changes with
    | false =>
      rw [ask_of_look st t hchanges]
      exact h
    | true =>
      have hno : ¬ t.SharesTree s := fun hs => hshare ⟨hs, hchanges⟩
      refine h.of_same (fun hk => ?_) fun number space hk => ?_
      · exact st.memory_ask (fun hkt hid => hno ⟨hkt.trans hk.symm, fun _ => hid⟩) c
      · refine st.rows_ask (fun hkt => hno ⟨hkt.trans hk.symm, fun hm => ?_⟩) c
        rw [hk] at hm
        cases hm

/-- Making a directory with its parents keeps a tree orderly. -/
theorem orderly_makeDir {tree : MemoryTree} (ht : tree.Orderly) {path : String}
    (hp : Path.Tidy path) {made : Changed MemoryTree} (hm : tree.makeDir path true = made) :
    made.2.Orderly := by
  have hmake := MemoryTree.makeDir_parents ht hp
  by_cases hal : tree.view.CanMakeAll (Path.names path)
  · obtain ⟨new, hn, ho, -⟩ := hmake.1 hal
    rw [hn] at hm
    exact hm ▸ ho
  · obtain ⟨f, hf⟩ := hmake.2 hal
    rw [hf] at hm
    exact hm ▸ ht

/-- Adding a file or a directory keeps a tree orderly. -/
theorem orderly_addOne {tree : MemoryTree} (ht : tree.Orderly) {item : String × Option ByteArray}
    (hi : Path.Tidy item.1) {added : Changed MemoryTree}
    (ha : MemoryTree.addOne item tree = added) : added.2.Orderly := by
  obtain ⟨path, data⟩ := item
  cases data with
  | none => exact orderly_makeDir ht hi ha
  | some data =>
    unfold MemoryTree.addOne at ha
    dsimp only at ha
    rcases hm : tree.makeDir (Path.parent path) true with ⟨_ | _, made⟩
    · have hmade := orderly_makeDir ht (Path.tidy_parent hi) hm
      rw [hm] at ha
      exact ha ▸ hmade
    · have hmade : made.Orderly := orderly_makeDir ht (Path.tidy_parent hi) hm
      rw [hm] at ha
      dsimp only at ha
      by_cases hal : made.view.CanWrite (Path.names path)
      · obtain ⟨written, hw, ho, -⟩ := MemoryTree.write_eq hmade hi hal data
        rw [hw] at ha
        exact ha ▸ ho
      · obtain ⟨f, hf⟩ := MemoryTree.write_error hi hal data
        rw [hf] at ha
        exact ha ▸ hmade

/-- Adding items keeps a store holding a tree. -/
theorem Holds.exists_holds_add (h : st.Holds s f) (id : Nat)
    (items : List (String × Option ByteArray))
    (hi : s.kind = .memory → id = s.id → ∀ item ∈ items, Path.Tidy item.1) :
    ∃ f', (st.setMemory id ((st.memory id).add items).2).Holds s f' := by
  by_cases hown : s.kind = .memory ∧ id = s.id
  · obtain ⟨hk, rfl⟩ := hown
    obtain ⟨rfl, ho⟩ := (holds_memory hk).1 h
    generalize ha : (st.memory s.id).add items = added
    have hadded : added.2.Orderly :=
      Changed.inTurn_keeps (P := Forest.Orderly)
        (fun item hm _ ht _ => orderly_addOne ht (hi hk rfl item hm)) ho ha
    exact ⟨added.2, (holds_memory hk).2 ⟨memory_setMemory st s.id added.2, hadded⟩⟩
  · refine ⟨f, h.of_same (fun hk => ?_) fun number space hk => rfl⟩
    exact memory_setMemory_of_ne (fun he => hown ⟨hk, he⟩) _

/-- **A store that a tree was built in holds a tree.**  By induction on what was done. -/
theorem Built.exists_holds (h : Built s st) : ∃ f, st.Holds s f := by
  induction h with
  | @bare st h =>
    unfold IsBare at h
    unfold Holds
    cases hk : s.kind with
    | memory =>
      rw [hk] at h
      exact ⟨.empty, h, trivial⟩
    | table number space =>
      rw [hk] at h
      exact ⟨.empty, Table.represents_empty h⟩
    | disk => rw [hk] at h; exact h.elim
    | void => rw [hk] at h; exact h.elim
    | outside label abilities => rw [hk] at h; exact h.elim
  | ask _ t c hc ih =>
    obtain ⟨f, hf⟩ := ih
    exact hf.exists_holds_ask t c hc
  | add _ id items hi ih =>
    obtain ⟨f, hf⟩ := ih
    exact hf.exists_holds_add id items hi

end Storage

end Arboretum
