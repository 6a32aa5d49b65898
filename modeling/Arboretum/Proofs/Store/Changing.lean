import Arboretum.Proofs.Store.Building
import Arboretum.Proofs.Traversal.Steps

/-!
# One tree changes, all else stays

A call of a store changes the tree of the store at most (`changedOnly_ask`): whatever a store keeps
that does not share the tree is as it was.  An allowed call changes the tree as the view foresees,
whether the tree is kept in memory or in a table (`Holds.ask_change`).

A path that is not tidy is cleaned again on the way to its directory.  So removing at any path
empties the place that the directory's path and the last name lead to, or changes nothing
(`Holds.ask_remove`); and what a store knows of any path, or lists there, stands in its tree
(`Holds.of_stat`, `Holds.of_list`).

A run that ends well and changes one tree leaves a view (`Record.Leaves`); such runs are put
together with `leaves_call_bind` and `Leaves.bind`.
-/

namespace Arboretum

namespace Storage

variable {st st' st'' : Storage} {s t : Store} {f f' : MemoryTree}

/-! ## 1. What other stores keep -/

/-- A store keeps the same in both. -/
def SameFor (t : Store) (st st' : Storage) : Prop :=
  match t.kind with
  | .memory => st'.memory t.id = st.memory t.id
  | .table number space => (st'.table number).rows space = (st.table number).rows space
  | .disk => st'.disk = st.disk
  | .void => True
  | .outside _ _ => True

theorem SameFor.refl (t : Store) (st : Storage) : SameFor t st st := by
  unfold SameFor
  split <;> trivial

theorem SameFor.trans (h : SameFor t st st') (h' : SameFor t st' st'') : SameFor t st st'' := by
  unfold SameFor at *
  cases hk : t.kind with
  | memory =>
    rw [hk] at h h'
    exact Eq.trans h' h
  | table number space =>
    rw [hk] at h h'
    exact Eq.trans h' h
  | disk =>
    rw [hk] at h h'
    exact Eq.trans h' h
  | void => trivial
  | outside label abilities => trivial

/-- **Nothing changed but the tree of a store.** -/
def ChangedOnly (s : Store) (st st' : Storage) : Prop :=
  ∀ t : Store, ¬ t.SharesTree s → SameFor t st st'

theorem ChangedOnly.refl (s : Store) (st : Storage) : ChangedOnly s st st := fun t _ => .refl t st

theorem ChangedOnly.trans (h : ChangedOnly s st st') (h' : ChangedOnly s st' st'') :
    ChangedOnly s st st'' := fun t ht => (h t ht).trans (h' t ht)

/-- Only a store on the disk changes the disk. -/
theorem disk_ask (st : Storage) (hne : s.kind ≠ .disk) (c : Call) : (st.ask s c).2.disk = st.disk := by
  cases hk : s.kind with
  | memory =>
    rw [ask_memory hk]
    rcases st.askMemory_storage s c with he | ⟨tree, he⟩ <;> rw [he]
    rfl
  | table number space =>
    rw [ask_table hk]
    rcases st.askTable_storage s number space c with he | ⟨rows, he⟩ <;> rw [he]
    rfl
  | disk => exact absurd hk hne
  | void => rw [ask, hk]
  | outside label abilities => rw [ask, hk]

/-- **A call of a store changes nothing but the tree of the store.** -/
theorem changedOnly_ask (st : Storage) (s : Store) (c : Call) : ChangedOnly s st (st.ask s c).2 := by
  intro t ht
  unfold SameFor
  cases hk : t.kind with
  | memory =>
    exact st.memory_ask (fun hs hid => ht ⟨hk.trans hs.symm, fun _ => hid.symm⟩) c
  | table number space =>
    refine st.rows_ask (fun hs => ht ⟨hk.trans hs.symm, fun hm => ?_⟩) c
    rw [hs] at hm
    cases hm
  | disk =>
    refine st.disk_ask (fun hs => ht ⟨hk.trans hs.symm, fun hm => ?_⟩) c
    rw [hs] at hm
    cases hm
  | void => trivial
  | outside label abilities => trivial

/-- A store holds its tree as long as only other trees change. -/
theorem Holds.of_changedOnly (h : st.Holds t f) (ht : ¬ t.SharesTree s)
    (hc : ChangedOnly s st st') : st'.Holds t f := by
  have hsame := hc t ht
  refine h.of_same (fun hk => ?_) fun number space hk => ?_
  · unfold SameFor at hsame
    rwa [hk] at hsame
  · unfold SameFor at hsame
    rwa [hk] at hsame

/-- Stores that share a tree hold the same. -/
theorem Holds.of_sharesTree (h : st.Holds s f) (ht : t.SharesTree s) : st.Holds t f := by
  obtain ⟨hkind, hid⟩ := ht
  rcases h.kind with hk | ⟨number, space, hk⟩
  · rw [holds_memory hk] at h
    rw [holds_memory (hkind.trans hk), hid hk]
    exact h
  · rw [holds_table hk] at h
    rw [holds_table (hkind.trans hk)]
    exact h

/-- A store holds one tree only, as far as the view goes. -/
theorem Holds.view_unique (h : st.Holds s f) (h' : st.Holds s f') : f.view = f'.view := by
  rcases h.kind with hk | ⟨number, space, hk⟩
  · rw [holds_memory hk] at h h'
    rw [← h.1, ← h'.1]
  · rw [holds_table hk] at h h'
    rw [← h.view_eq, ← h'.view_eq]

/-! ## 2. Allowed calls -/

/-- **An allowed call** is answered, and it changes the tree of its store as the view foresees and
nothing else. -/
theorem Holds.ask_change (h : st.Holds s f) {c : Call} (hc : c.IsTidy) (hal : f.view.Allows c) :
    ∃ a st' f', st.ask s c = (.ok a, st') ∧ f.view.Reports c a ∧ st'.Holds s f' ∧
      f'.view = f.view.after c ∧ ChangedOnly s st st' := by
  obtain ⟨f', hf'⟩ := h.exists_holds_ask s c fun _ _ => hc
  obtain ⟨a, ha, hreports⟩ := h.answer hc hal
  refine ⟨a, (st.ask s c).2, f', Prod.ext ha rfl, hreports, hf', ?_, st.changedOnly_ask s c⟩
  rcases h.kind with hk | ⟨number, space, hk⟩
  · obtain ⟨rfl, ho⟩ := (holds_memory hk).1 h
    rw [ask_memory hk, holds_memory hk] at hf'
    obtain ⟨-, -, -, hview⟩ := (askMemory_follows (s := s) hc ho).1.answered hal
    rw [← hf'.1, hview]
  · rw [ask_table hk, holds_table hk] at hf'
    rw [holds_table hk] at h
    obtain ⟨-, -, -, hview⟩ :=
      (askTable_follows (s := s) hc h.sound).1.answered (h.view_eq ▸ hal)
    rw [← hf'.view_eq, hview, h.view_eq]

/-- A call that is not allowed is refused. -/
theorem Holds.ask_refused (h : st.Holds s f) {c : Call} (hc : c.IsTidy) (hal : ¬ f.view.Allows c) :
    ∃ fault, (st.ask s c).1 = .error fault := by
  rcases h.kind with hk | ⟨number, space, hk⟩
  · obtain ⟨rfl, ho⟩ := (holds_memory hk).1 h
    rw [ask_memory hk]
    exact ((askMemory_follows (s := s) hc ho).1.refused hal).1
  · rw [holds_table hk] at h
    rw [ask_table hk]
    exact ((askTable_follows (s := s) hc h.sound).1.refused (h.view_eq ▸ hal)).1

end Storage

/-! ## 3. At any path -/

/-- The place that the path of a directory and a name lead to. -/
def Path.placeIn (above : List String) (name : String) : List String :=
  Path.names (Path.ofNames above) ++ [name]

/-- What a tree in memory lists, at whatever path, stands below the place. -/
theorem MemoryTree.of_list {t : MemoryTree} (ht : t.Orderly) {path : String} {hints : List String}
    {entries : List Entry} (h : t.list path hints = .ok entries) {e : Entry} (he : e ∈ entries) :
    t.view (Path.names path ++ [e.name]) ≠ none := by
  by_cases hd : t.view (Path.names path) = some .directory
  · obtain ⟨all, hl, hlist⟩ := list_eq ht hd
    obtain rfl := Except.ok.inj ((hlist hints).symm.trans h)
    obtain ⟨x, hx, -⟩ := (hl.mem_iff e).1 (List.mem_of_mem_filter he)
    rw [hx]
    exact Option.some_ne_none x
  · obtain ⟨fault, hf⟩ := list_error hd hints
    rw [hf] at h
    cases h

/-- **Removing from a tree in memory**, at whatever path, empties one place. -/
theorem MemoryTree.of_remove {t t' : MemoryTree} {path : String} (ht : t.Orderly)
    (h : t.remove path = .ok t') :
    ∃ above name, Path.names path = above ++ [name] ∧ t.view (Path.placeIn above name) ≠ none ∧
      t'.Orderly ∧ t'.view = t.view.put (Path.placeIn above name) none := by
  unfold remove at h
  cases hh : t.holder path with
  | error f =>
    rw [hh] at h
    cases h
  | ok held =>
    obtain ⟨above, inside, name⟩ := held
    obtain ⟨outer, hns, habove, ha⟩ := of_holder hh
    rw [hh] at h
    dsimp only at h
    refine ⟨outer, name, hns, ?_⟩
    rw [Path.placeIn, ← habove]
    have hi := (Forest.orderly_of_at? ht ha).1
    rcases hf : inside.find? name with _ | node
    · rw [hf] at h
      cases h
    · have hthere : t.view (above ++ [name]) ≠ none := by
        rw [view_of_at? ha, hf]
        exact Option.some_ne_none _
      have hempty : ∀ g, inside.find? name = some (.folder g) → g = .empty := by
        intro g hg
        rw [hg] at h
        rcases Forest.eq_empty_or_before g with rfl | ⟨m, x, rest, rfl⟩
        · rfl
        · cases x <;> cases h
      have hresult : t' = t.change (Forest.erase name) above := by
        cases node with
        | leaf data =>
          rw [hf] at h
          exact (Except.ok.inj h).symm
        | folder g =>
          obtain rfl := hempty g hf
          rw [hf] at h
          exact (Except.ok.inj h).symm
      rw [hresult]
      exact ⟨hthere, change_eq ht ha (Forest.orderly_erase hi name)
        (Forest.view_erase_eq hi (Forest.view_below_find? hempty))⟩

/-- A row is found at names only. -/
theorem Table.Sound.areNames_of_find? {t : Table} {space path : String} (ht : t.Sound space)
    {row : Row} (hf : t.find? space (Path.clean path) = some row) :
    Path.AreNames (Path.names path) := by
  obtain ⟨hm, hs, hp⟩ := of_find?_eq_some hf
  obtain ⟨above, hstands⟩ := ht.placed row hm hs
  rw [hstands.path, Path.clean_eq_ofNames] at hp
  rw [← (Path.ofNames_inj_of_plain (Path.arePlain_of_areNames hstands.names)
    (Path.arePlain_names path)).1 hp]
  exact hstands.names

/-- What a table lists, at whatever path, stands below the place. -/
theorem Table.Sound.of_list {t : Table} {space path : String} (ht : t.Sound space)
    {hints : List String} {entries : List Entry} (h : t.list space path hints = .ok entries)
    {e : Entry} (he : e ∈ entries) : t.view space (Path.names path ++ [e.name]) ≠ none := by
  have hn : Path.AreNames (Path.names path) := by
    unfold list at h
    dsimp only at h
    by_cases hroot : Path.clean path = Path.root
    · rw [Path.names_eq_nil_of_clean hroot]
      exact Path.areNames_nil
    · rw [if_neg hroot] at h
      cases hf : t.find? space (Path.clean path) with
      | none =>
        rw [hf] at h
        cases h
      | some row => exact ht.areNames_of_find? hf
  have htidy := Path.tidy_ofNames hn
  have hclean : t.list space (Path.ofNames (Path.names path)) hints = .ok entries := by
    rw [← h, list, list, Path.clean_ofNames hn, Path.clean_eq_ofNames path]
  by_cases hd : t.view space (Path.names (Path.ofNames (Path.names path))) = some .directory
  · obtain ⟨all, hl, hlist⟩ := ht.list_eq htidy hd
    obtain rfl := Except.ok.inj ((hlist hints).symm.trans hclean)
    obtain ⟨x, hx, -⟩ := (hl.mem_iff e).1 (List.mem_of_mem_filter he)
    rw [Path.names_ofNames hn] at hx
    rw [hx]
    exact Option.some_ne_none x
  · obtain ⟨fault, hf⟩ := list_error htidy hd hints
    rw [hf] at hclean
    cases hclean

/-- What a table knows of a place, at whatever path, is there. -/
theorem Table.Sound.of_stat {t : Table} {space path : String} (ht : t.Sound space) {info : Info}
    (h : t.stat space path = some info) : t.view space (Path.names path) ≠ none := by
  unfold stat at h
  dsimp only at h
  by_cases hroot : Path.clean path = Path.root
  · rw [Path.names_eq_nil_of_clean hroot, view_nil]
    exact Option.some_ne_none _
  · rw [if_neg hroot] at h
    obtain ⟨row, hf, -⟩ := Option.map_eq_some_iff.1 h
    have hn := ht.areNames_of_find? hf
    have hne : Path.names path ≠ [] := by
      intro hnil
      rw [Path.clean_eq_ofNames, hnil] at hroot
      exact hroot rfl
    rw [Path.clean_eq_ofNames] at hf
    rw [view_of_areNames hne hn, hf]
    exact Option.some_ne_none _

/-- **What is removed from a table** stands at names: the row has exactly the clean path. -/
theorem Table.of_remove {t t' : Table} {space path : String} (ht : t.Sound space)
    (h : t.remove space path = .ok t') : Path.AreNames (Path.names path) ∧
      t.remove space (Path.ofNames (Path.names path)) = .ok t' := by
  have hn : Path.AreNames (Path.names path) := by
    rw [remove] at h
    cases hf : t.find? space (Path.clean path) with
    | none =>
      rw [hf] at h
      cases h
    | some row => exact ht.areNames_of_find? hf
  refine ⟨hn, ?_⟩
  rw [← h, remove, remove, Path.clean_ofNames hn, Path.clean_eq_ofNames path]

namespace Storage

variable {st : Storage} {s : Store} {f : MemoryTree}

/-- **What a store knows of a place** is there: it cleans the path before it looks, -/
theorem Holds.of_stat (h : st.Holds s f) {path : String} {info : Info}
    (ha : (st.ask s (.stat path)).1 = .ok (some info)) :
    f.view (Path.names (Path.clean path)) ≠ none := by
  rcases h.kind with hk | ⟨number, space, hk⟩
  · obtain ⟨hm, -⟩ := (holds_memory hk).1 h
    rw [ask_memory hk] at ha
    simp only [askMemory, hm, Except.ok.injEq, MemoryTree.stat, Option.map_eq_some_iff] at ha
    obtain ⟨node, hat, -⟩ := ha
    intro hnone
    rw [Forest.view_eq_none_iff] at hnone
    rw [MemoryTree.lookup, hnone] at hat
    cases hat
  · have hrep := (holds_table hk).1 h
    rw [ask_table hk] at ha
    simp only [askTable] at ha
    have hthere := hrep.sound.of_stat (Except.ok.inj ha)
    rw [hrep.view_eq] at hthere
    rwa [Path.clean_eq_ofNames, Path.names_ofNames (Forest.areNames_of_view h.orderly hthere)]

/-- and what it lists is there as well. -/
theorem Holds.of_list (h : st.Holds s f) {path : String} {hints : List String}
    {entries : List Entry} (ha : (st.ask s (.list path hints)).1 = .ok entries) {e : Entry}
    (he : e ∈ entries) : f.view (Path.names path ++ [e.name]) ≠ none := by
  rcases h.kind with hk | ⟨number, space, hk⟩
  · obtain ⟨hm, ho⟩ := (holds_memory hk).1 h
    rw [ask_memory hk] at ha
    simp only [askMemory, hm] at ha
    exact MemoryTree.of_list ho ha he
  · have hrep := (holds_table hk).1 h
    rw [ask_table hk] at ha
    simp only [askTable] at ha
    rw [← hrep.view_eq]
    exact hrep.sound.of_list ha he

/-- **Removing at any path** empties the place that the path's directory and its last name lead to,
or it changes nothing. -/
theorem Holds.ask_remove (h : st.Holds s f) (path : String) :
    ∃ f', (st.ask s (.remove path)).2.Holds s f' ∧ (f'.view = f.view ∨
      ∃ above name, Path.names path = above ++ [name] ∧ f.view (Path.placeIn above name) ≠ none ∧
        f'.view = f.view.put (Path.placeIn above name) none) := by
  rcases h.kind with hk | ⟨number, space, hk⟩
  · obtain ⟨hm, ho⟩ := (holds_memory hk).1 h
    rw [ask_memory hk]
    simp only [holds_memory hk, askMemory, askMemory.settle, memory_setMemory, hm]
    cases hr : MemoryTree.remove f path with
    | error fault => exact ⟨f, ⟨rfl, ho⟩, .inl rfl⟩
    | ok f' =>
      obtain ⟨above, name, hns, hthere, ho', hview⟩ := MemoryTree.of_remove ho hr
      exact ⟨f', ⟨rfl, ho'⟩, .inr ⟨above, name, hns, hthere, hview⟩⟩
  · have hrep := (holds_table hk).1 h
    cases hr : (st.table number).remove space path with
    | error fault =>
      refine ⟨f, ?_, .inl rfl⟩
      rw [ask_table hk]
      simp only [holds_table hk, askTable, askTable.settle, table_setTable, hr]
      exact hrep
    | ok rows =>
      obtain ⟨hn, hsame⟩ := Table.of_remove hrep.sound hr
      have hnames := Path.names_ofNames hn
      have htidy : Call.IsTidy (.remove (Path.ofNames (Path.names path))) := Path.tidy_ofNames hn
      have hask : (st.ask s (.remove path)).2 =
          (st.ask s (.remove (Path.ofNames (Path.names path)))).2 := by
        rw [ask_table hk, ask_table hk]
        simp only [askTable, hr, hsame]
      have hal : f.view.CanRemove (Path.names (Path.ofNames (Path.names path))) := by
        by_contra hno
        obtain ⟨⟨fault, hfault⟩, -⟩ := (askTable_follows (s := s) htidy
          hrep.sound).1.refused (hrep.view_eq ▸ hno)
        simp only [askTable, askTable.settle, hsame] at hfault
        cases hfault
      obtain ⟨_, st', f', hst, -, hf', hview, -⟩ := h.ask_change htidy hal
      rw [hask, hst]
      refine ⟨f', hf', .inr ?_⟩
      rw [hnames] at hal
      rcases List.eq_nil_or_concat (Path.names path) with hnil | ⟨above, name, hns⟩
      · exact absurd hnil hal.1
      · rw [List.concat_eq_append] at hns
        have hplace : Path.placeIn above name = Path.names path := by
          rw [Path.placeIn, Path.names_ofNames (Path.areNames_append.1 (hns ▸ hn)).1, hns]
        refine ⟨above, name, hns, ?_⟩
        rw [hplace]
        exact ⟨hal.2.1, hview.trans (by rw [View.after, hnames])⟩

end Storage

/-! ## 4. Runs that change one tree -/

variable {Out : Type} {w : World} {token : Option Nat} {s : Store} {f : MemoryTree} {v v' : View}

/-- **A run ends well and leaves a view** in a store: it hands nothing out, and it changes nothing
but the tree of the store, which has the view afterwards. -/
def Record.Leaves (r : Record Out Unit) (w : World) (s : Store) (v : View) : Prop :=
  ∃ st f, r = ⟨.finished (), [], { w with storage := st }⟩ ∧ st.Holds s f ∧ f.view = v ∧
    Storage.ChangedOnly s w.storage st

/-- Doing nothing leaves the view as it is. -/
theorem Record.leaves_done (hf : w.storage.Holds s f) :
    (w.record token (.done () : Traversal Out Unit)).Leaves w s f.view :=
  ⟨w.storage, f, rfl, hf, rfl, .refl s _⟩

/-- **A run and what comes after it.** -/
theorem Record.Leaves.bind {t : Traversal Out Unit} (h : (w.record token t).Leaves w s v)
    {next : Unit → Traversal Out Unit}
    (hnext : ∀ st f, st.Holds s f → f.view = v → Storage.ChangedOnly s w.storage st →
      (World.record { w with storage := st } token (next ())).Leaves { w with storage := st } s v') :
    (w.record token (t.bind next)).Leaves w s v' := by
  obtain ⟨st, f, hr, hf, hv, hchanged⟩ := h
  obtain ⟨st', f', hr', hf', hv', hchanged'⟩ := hnext st f hf hv hchanged
  refine ⟨st', f', ?_, hf', hv', hchanged.trans hchanged'⟩
  rw [World.record_bind_of_finished w token hr, hr']
  rfl

/-- **An allowed call and what comes after it.** -/
theorem Record.leaves_call_bind (hc : w.cancelled token = none) (hf : w.storage.Holds s f)
    {c : Call} (htidy : c.IsTidy) (hal : f.view.Allows c) (path : String)
    {next : c.Answer → Traversal Out Unit}
    (hnext : ∀ a st f', f.view.Reports c a → st.Holds s f' → f'.view = f.view.after c →
      Storage.ChangedOnly s w.storage st →
      (World.record { w with storage := st } token (next a)).Leaves { w with storage := st } s v) :
    (w.record token ((Traversal.call s path c).bind next)).Leaves w s v := by
  obtain ⟨a, st, f', hask, hreports, hf', hview, hchanged⟩ := hf.ask_change htidy hal
  obtain ⟨st', f'', hr, hf'', hv, hchanged'⟩ := hnext a st f' hreports hf' hview hchanged
  refine ⟨st', f'', ?_, hf'', hv, hchanged.trans hchanged'⟩
  rw [World.record_call_of_ok hc (World.ask_of_changed hask), hr]

end Arboretum
