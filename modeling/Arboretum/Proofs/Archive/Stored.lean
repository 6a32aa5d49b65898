import Arboretum.Archive.Filing
import Arboretum.Proofs.Archive.Collected
import Arboretum.Proofs.Store.Changing

/-!
# What is collected is stored

Storing goes from item to item: the directory of a file is made with the missing ones above it, and
the file is written there.  A store that holds some files and the directories above them
(`Shelved`) lets both happen, as no file lies below another one, and holds one file more afterwards
(`Shelved.store`).  By induction none of the tree's files is skipped, and all of them are there when
the turn comes to the items behind them (`IsOpen.storeAll_append`).  A stray file ends the storing with
the fault of its path, which cannot be encoded (`IsOpen.storeStray_eq`).
-/

namespace Arboretum

variable {Out : Type} {w : World} {token : Option Nat} {s : Store} {f : MemoryTree}

/-! ## 1. Changing the place of a handle -/

/-- **An allowed call** that is passed on as it is. -/
theorem Storage.Holds.record_plain (hf : w.storage.Holds s f) {c : Call} (htidy : c.IsTidy)
    (hal : f.view.Allows c) :
    ∃ a st f', w.record token (Traversal.plain s c : Traversal Out c.Answer) =
        ⟨.finished a, [], { w with storage := st }⟩ ∧
      st.Holds s f' ∧ f'.view = f.view.after c ∧ Storage.ChangedOnly s w.storage st := by
  obtain ⟨a, st, f', hask, -, hf', hview, hchanged⟩ := hf.ask_change htidy hal
  exact ⟨a, st, f', World.record_plain_of_ok (World.ask_of_changed hask), hf', hview, hchanged⟩

namespace Handle.LeadsTo

variable {h : Handle} {place : List String}

/-- **Making the directory of a handle** with those above it. -/
theorem leaves_makeDir (hl : h.LeadsTo w s place) (hf : w.storage.Holds s f)
    (hal : f.view.CanMakeAll place) :
    (w.record token (h.makeDir true : Traversal Out Unit)).Leaves w s (f.view.makeAll place) := by
  have hnames := Path.names_ofNames hl.names
  have htidy : Call.IsTidy (.makeDir (Path.ofNames place) true) := Path.tidy_ofNames hl.names
  have hal : f.view.CanMakeAll (Path.names (Path.ofNames place)) := by rwa [hnames]
  obtain ⟨a, st, f', hr, hf', hview, hchanged⟩ :=
    hf.record_plain htidy hal
  refine ⟨st, f', ?_, hf', ?_, hchanged⟩
  · unfold makeDir
    refine (hl.record_resolve_bind _).trans ?_
    dsimp only
    rw [require_of_isMounted hl.mounted]
    exact hr
  · rw [hview, View.after, hnames]

/-- **Writing the file of a handle.** -/
theorem leaves_write (hl : h.LeadsTo w s place) (hf : w.storage.Holds s f)
    (hal : f.view.CanWrite place) (data : ByteArray) :
    (w.record token (h.write data : Traversal Out Unit)).Leaves w s
      (f.view.put place (some (.file data))) := by
  have hnames := Path.names_ofNames hl.names
  have htidy : Call.IsTidy (.write (Path.ofNames place) data) := Path.tidy_ofNames hl.names
  have hal : f.view.CanWrite (Path.names (Path.ofNames place)) := by rwa [hnames]
  obtain ⟨a, st, f', hr, hf', hview, hchanged⟩ :=
    hf.record_plain htidy hal
  refine ⟨st, f', ?_, hf', ?_, hchanged⟩
  · unfold write
    refine (hl.record_resolve_bind _).trans ?_
    dsimp only
    rw [require_of_isMounted hl.mounted]
    exact hr
  · rw [hview, View.after, hnames]

end Handle.LeadsTo

/-- A run that leaves a view ends well. -/
theorem Record.Leaves.run_eq {t : Traversal Out Unit} {v : View}
    (h : (w.record token t).Leaves w s v) :
    ∃ st f, w.run token t = (.finished ([], ()), { w with storage := st }) ∧ st.Holds s f ∧
      f.view = v ∧ Storage.ChangedOnly s w.storage st := by
  obtain ⟨st, f, hr, hf, hv, hchanged⟩ := h
  exact ⟨st, f, by rw [World.run_eq_of_record, hr], hf, hv, hchanged⟩

/-- A mounted store does not change the disk. -/
theorem Storage.ChangedOnly.disk_eq {st st' : Storage} (h : ChangedOnly s st st')
    (hs : s.IsMounted) : st'.disk = st.disk := by
  have hnot : ¬ Store.SharesTree ⟨0, Path.hostMount, .disk⟩ s := by
    rintro ⟨hkind, -⟩
    cases hs <;> cases hkind
  exact h _ hnot

namespace Archive

/-! ## 2. A shelf, file by file -/

/-- **A shelf with some files of the disk on it**: the files are there as the disk has them below a
directory, with the directories above them, and nothing else is. -/
structure Shelved (d : Disk) (directory : String) (v : View) (files : List (List String)) : Prop where
  stored : ∀ names ∈ files, ∃ data, d.read (pathBelow directory names) = .ok data ∧
    v names = some (.file data)
  folders : ∀ ns, v ns = some .directory ↔
    ns = [] ∨ ∃ names ∈ files, ns <+: names ∧ ns ≠ names
  only : ∀ ns data, v ns = some (.file data) → ns ∈ files

variable {d : Disk} {directory : String} {v : View} {files : List (List String)}
  {names : List String} {items : List Item}

/-- What stands on a shelf are the places of the files and those above them. -/
theorem Shelved.ne_none_iff (h : Shelved d directory v files) {ns : List String} :
    v ns ≠ none ↔ ns = [] ∨ ∃ names ∈ files, ns <+: names := by
  constructor
  · intro hne
    rcases hx : v ns with _ | _ | data
    · exact absurd hx hne
    · exact ((h.folders ns).1 hx).imp_right fun ⟨names, hm, hp, _⟩ => ⟨names, hm, hp⟩
    · exact .inr ⟨ns, h.only ns data hx, List.prefix_refl _⟩
  · rintro (rfl | ⟨names, hm, hp⟩)
    · rw [(h.folders []).2 (.inl rfl)]
      exact Option.some_ne_none _
    · by_cases he : ns = names
      · obtain ⟨data, -, hfile⟩ := h.stored names hm
        rw [he, hfile]
        exact Option.some_ne_none _
      · rw [(h.folders ns).2 (.inr ⟨names, hm, hp, he⟩)]
        exact Option.some_ne_none _

/-- On an empty shelf there is only the root. -/
theorem shelved_nil (hroot : v [] = some .directory) (hnone : ∀ ns, ns ≠ [] → v ns = none) :
    Shelved d directory v [] where
  stored _ hm := absurd hm List.not_mem_nil
  folders ns := by
    constructor
    · intro hdir
      by_contra hne
      rw [hnone ns fun he => hne (.inl he)] at hdir
      cases hdir
    · rintro (rfl | ⟨_, hm, -⟩)
      · exact hroot
      · exact absurd hm List.not_mem_nil
  only ns data hfile := by
    by_cases hne : ns = []
    · rw [hne, hroot] at hfile
      cases hfile
    · rw [hnone ns hne] at hfile
      cases hfile

/-- **No file is in the way** of a directory that no file is on the way to. -/
theorem Shelved.canMakeAll (h : Shelved d directory v files) {above : List String}
    (hfree : ∀ names ∈ files, ¬ names <+: above) : v.CanMakeAll above :=
  fun ms hp data hfile => hfree ms (h.only ms data hfile) hp

/-- No file is on the way to the directory of the next one. -/
theorem Storable.not_prefix_above {above : List String} {n : String}
    (h : Storable d directory ((files ++ [above ++ [n]]).map .named)) :
    ∀ other ∈ files, ¬ other <+: above := by
  intro other hm hp
  have he := h.apart other (List.mem_map_of_mem (List.mem_append_left _ hm)) (above ++ [n])
    (List.mem_map_of_mem List.mem_concat_self) (hp.trans (List.prefix_append above [n]))
  exact View.not_prefix_above above n (he ▸ hp)

section Step

variable (h : Shelved d directory v files) {above : List String} {n : String}
  (hstorable : Storable d directory ((files ++ [above ++ [n]]).map .named))
include h hstorable

/-- **The next file can be written** when its directory is there, -/
theorem Shelved.canWrite : (v.makeAll above).CanWrite (above ++ [n]) := by
  refine View.canWrite_append.2 ⟨if_pos (List.prefix_refl above), fun hdir => ?_⟩
  rw [View.makeAll, if_neg (View.not_prefix_above above n), h.folders] at hdir
  rcases hdir with hnil | ⟨other, hm, hp, hne⟩
  · exact absurd hnil (by simp)
  · exact hne (hstorable.apart _ (List.mem_map_of_mem List.mem_concat_self) other
      (List.mem_map_of_mem (List.mem_append_left _ hm)) hp)

/-- and **one file more** is on the shelf then. -/
theorem Shelved.store {data : ByteArray}
    (hread : d.read (pathBelow directory (above ++ [n])) = .ok data) :
    Shelved d directory ((v.makeAll above).put (above ++ [n]) (some (.file data)))
      (files ++ [above ++ [n]]) where
  stored other hm := by
    by_cases he : other = above ++ [n]
    · subst he
      exact ⟨data, hread, View.put_self _ _ _⟩
    · have hm : other ∈ files :=
        (List.mem_append.1 hm).resolve_right fun hm => he (List.mem_singleton.1 hm)
      obtain ⟨data', hread', hfile⟩ := h.stored other hm
      refine ⟨data', hread', ?_⟩
      rw [View.put_of_ne _ he, View.makeAll, if_neg (hstorable.not_prefix_above other hm), hfile]
  folders ns := by
    have hnew : (∃ other ∈ files ++ [above ++ [n]], ns <+: other ∧ ns ≠ other) ↔
        (∃ other ∈ files, ns <+: other ∧ ns ≠ other) ∨ ns <+: above := by
      have hlast : ns <+: above ++ [n] ∧ ns ≠ above ++ [n] ↔ ns <+: above := by
        rw [List.prefix_concat_iff]
        constructor
        · rintro ⟨he | hp, hne⟩
          · exact absurd he hne
          · exact hp
        · intro hp
          refine ⟨.inr hp, ?_⟩
          rintro rfl
          exact View.not_prefix_above above n hp
      simp only [List.mem_append, List.mem_singleton, or_and_right, exists_or, exists_eq_left, hlast]
    rw [hnew]
    by_cases he : ns = above ++ [n]
    · rw [he, View.put_self]
      refine ⟨fun hdir => (by cases hdir), fun hthere => ?_⟩
      refine absurd ?_ (h.canWrite hstorable).2
      rw [View.makeAll]
      split
      · rfl
      · next hout =>
        rw [h.folders]
        exact hthere.imp_right fun hor => hor.resolve_right hout
    · rw [View.put_of_ne _ he, View.makeAll]
      split
      · next hp => exact ⟨fun _ => .inr (.inr hp), fun _ => rfl⟩
      · next hout =>
        rw [h.folders]
        exact ⟨fun hor => hor.imp_right .inl,
          fun hor => hor.imp_right fun hor => hor.resolve_right hout⟩
  only ns data' hfile := by
    by_cases he : ns = above ++ [n]
    · exact he ▸ List.mem_concat_self
    · rw [View.put_of_ne _ he, View.makeAll] at hfile
      split at hfile
      · cases hfile
      · exact List.mem_append_left _ (h.only ns data' hfile)

end Step

/-! ## 3. In turn -/

section InTurn

variable {α β : Type} {act : α → World → Except Fault β × World} {as : List α} {a : α}
  {w' w'' : World}

/-- After a member that goes well the next ones have their turn, -/
theorem each_cons_of_ok {b : β} {rest : Except Fault (List β)} (h : act a w = (.ok b, w'))
    (hrest : each act as w' = (rest, w'')) : each act (a :: as) w = (rest.map (b :: ·), w'') := by
  rw [each, h]
  dsimp only
  rw [hrest]
  cases rest <;> rfl

/-- after one that fails none has. -/
theorem each_cons_of_error {f : Fault} (h : act a w = (.error f, w')) :
    each act (a :: as) w = (.error f, w') := by
  rw [each, h]

/-- After several that go well a failure is that of the rest. -/
theorem each_append_of_error {bs : List β} {rest : List α} {f : Fault}
    (h : each act as w = (.ok bs, w')) (hrest : each act rest w' = (.error f, w'')) :
    each act (as ++ rest) w = (.error f, w'') := by
  induction as generalizing w bs with
  | nil =>
    cases h
    exact hrest
  | cons a as ih =>
    rcases hact : act a w with ⟨fault | b, w₁⟩
    · rw [each_cons_of_error hact] at h
      cases h
    · rcases htail : each act as w₁ with ⟨fault | others, w₂⟩
      · rw [each_cons_of_ok hact htail] at h
        cases h
      · rw [each_cons_of_ok hact htail] at h
        cases h
        exact each_cons_of_ok hact (ih htail)

end InTurn

/-! ## 4. Storing -/

/-- The handle of a place of a store, by the common registry. -/
def handleOf (w : World) (s : Store) (names : List String) : Handle :=
  ⟨(w.registry commonRegistry).address s (Path.ofNames names), none⟩

/-- **A store is open for a shelf**: it is registered under the mount of the shelf, with no mount
below it. -/
structure IsOpen (w : World) (shelf : Shelf) (s : Store) : Prop where
  kept : (w.registry commonRegistry).Kept
  mounted : s.IsMounted
  mount : s.mount = shelf.mount
  registered : (s.mount, s) ∈ (w.registry commonRegistry).mounts
  alone : (w.registry commonRegistry).Alone s
  ne_home : s ≠ (w.registry commonRegistry).home

/-- Which stores are open does not depend on what stores hold. -/
theorem IsOpen.with_storage {shelf : Shelf} (hopen : IsOpen w shelf s) (st : Storage) :
    IsOpen { w with storage := st } shelf s :=
  ⟨hopen.kept, hopen.mounted, hopen.mount, hopen.registered, hopen.alone, hopen.ne_home⟩

variable {shelf : Shelf} (hopen : IsOpen w shelf s)
include hopen

/-- The mount of the shelf with a slash behind it leads to the root of the store. -/
theorem IsOpen.place_root :
    (w.registry commonRegistry).place (shelf.mount ++ "/") = (s, Path.root) := by
  have hplace := hopen.alone.place_mount_append hopen.kept.toFiled hopen.mounted hopen.registered
    Path.areNames_nil
  rw [Path.ofNames_nil, hopen.mount] at hplace
  exact hplace

/-- The handle of a place leads there. -/
theorem IsOpen.leadsTo (hn : Path.AreNames names) : (handleOf w s names).LeadsTo w s names := by
  have hroot : (⟨shelf.mount ++ "/", none⟩ : Handle).LeadsTo w s [] :=
    ⟨hopen.kept, hopen.mounted, hopen.alone, Path.areNames_nil, hopen.place_root⟩
  exact hroot.of_address hn rfl rfl

/-- **The target of an item** is its place in the store. -/
theorem IsOpen.run_targetOf (hne : names ≠ []) (hn : Path.AreNames names) :
    w.run none (targetOf shelf names) = (.finished ([], handleOf w s names), w) := by
  have hroot := hopen.leadsTo Path.areNames_nil
  have hmade : w.record none (Handle.ofAddress (shelf.mount ++ "/") none : Traversal Empty Handle) =
      ⟨.finished (handleOf w s []), [], w⟩ := by
    have hresolve : w.record none ((w.registry commonRegistry).resolve (shelf.mount ++ "/") :
        Traversal Empty (Store × String)) =
          ⟨.finished ((w.registry commonRegistry).place (shelf.mount ++ "/")), [], w⟩ := by
      rw [hopen.place_root]
      exact Registry.record_resolve_of_place w none hopen.place_root (.inl hopen.mounted)
    refine (Handle.record_ofAddress_of_resolve w none none hresolve).trans ?_
    have htext : (w.registry commonRegistry).canonicalText (shelf.mount ++ "/") =
        (w.registry commonRegistry).address s Path.root := by
      rw [Registry.canonicalText, hopen.place_root,
        if_neg (hopen.kept.ne_void (.inl hopen.mounted))]
    exact congrArg (fun uri => (⟨.finished ⟨uri, none⟩, [], w⟩ : Record Empty Handle)) htext
  have hjoined : s.joined (Path.ofNames [] :: names) = Path.ofNames names :=
    hopen.mounted.joined_names (Path.arePlain_of_areNames Path.areNames_nil) hn hne
  have hrecord : w.record none (targetOf shelf names) =
      ⟨.finished (handleOf w s names), [], w⟩ := by
    unfold targetOf
    refine (World.record_bind_of_finished w none hmade _).trans ?_
    rw [Record.behind_nil, Handle.record_join w none (.inl hopen.mounted) hroot.place_eq, hjoined]
    rfl
  rw [World.run_eq_of_record, hrecord]

/-- **Making the directory of a target.** -/
theorem IsOpen.leaves_makeRoom (hf : w.storage.Holds s f) (hn : Path.AreNames names)
    (hal : f.view.CanMakeAll names.dropLast) :
    (w.record none (makeRoom (handleOf w s names))).Leaves w s (f.view.makeAll names.dropLast) := by
  have hparent : w.record none ((handleOf w s names).parent : Traversal Empty Handle) = _ :=
    (hopen.leadsTo hn).record_parent
  have hrest : w.record none (makeRoom (handleOf w s names)) =
      w.record none ((handleOf w s names.dropLast).makeDir true : Traversal Empty Unit) :=
    World.record_bind_of_finished w none hparent _
  have habove : Path.AreNames names.dropLast := fun n hm => hn n (List.mem_of_mem_dropLast hm)
  rw [hrest]
  exact (hopen.leadsTo habove).leaves_makeDir hf hal

/-- **Storing one file** goes well, and puts it on the shelf. -/
theorem IsOpen.storeFile_eq (hf : w.storage.Holds s f) (hdisk : w.storage.disk = d)
    (h : Shelved d directory f.view files)
    (hstorable : Storable d directory ((files ++ [names]).map .named)) :
    ∃ st f', storeFile w (handleOf w s names) (pathBelow directory names) =
        (.ok (), { w with storage := st }) ∧ st.Holds s f' ∧
      Shelved d directory f'.view (files ++ [names]) ∧ Storage.ChangedOnly s w.storage st := by
  have hm : Item.named names ∈ (files ++ [names]).map Item.named :=
    List.mem_map_of_mem List.mem_concat_self
  have hn : Path.AreNames names := hstorable.names _ hm
  obtain ⟨data, hread⟩ := hstorable.readable names hm
  obtain ⟨above, n, rfl⟩ : ∃ above n, names = above ++ [n] :=
    ⟨_, _, (List.dropLast_append_getLast (hstorable.ne_nil _ hm)).symm⟩
  have hfree : f.view.CanMakeAll (above ++ [n]).dropLast := by
    rw [List.dropLast_concat]
    exact h.canMakeAll hstorable.not_prefix_above
  obtain ⟨st, f₁, hrun, hf₁, hview, hchanged⟩ := (hopen.leaves_makeRoom hf hn hfree).run_eq
  rw [List.dropLast_concat] at hview
  have hwrite : (World.record { w with storage := st } none
      ((handleOf w s (above ++ [n])).write data : Traversal Empty Unit)).Leaves
        { w with storage := st } s (f₁.view.put (above ++ [n]) (some (.file data))) :=
    ((hopen.leadsTo hn).with_storage st).leaves_write hf₁ (hview ▸ h.canWrite hstorable) data
  obtain ⟨st', f₂, hrun', hf₂, hview', hchanged'⟩ := hwrite.run_eq
  have hsame : st.disk = d := (hchanged.disk_eq hopen.mounted).trans hdisk
  refine ⟨st', f₂, ?_, hf₂, ?_, hchanged.trans hchanged'⟩
  · unfold storeFile
    rw [hrun]
    dsimp only
    rw [hsame, hread]
    dsimp only
    rw [hrun']
  · rw [hview', hview]
    exact h.store hstorable hread

/-- Storing one item of the tree. -/
theorem IsOpen.storeItem_eq (hf : w.storage.Holds s f) (hdisk : w.storage.disk = d)
    (h : Shelved d directory f.view files)
    (hstorable : Storable d directory ((files ++ [names]).map .named)) :
    ∃ st f', storeItem directory shelf (.named names) w = (.ok none, { w with storage := st }) ∧
      st.Holds s f' ∧ Shelved d directory f'.view (files ++ [names]) ∧
      Storage.ChangedOnly s w.storage st := by
  have hm : Item.named names ∈ (files ++ [names]).map Item.named :=
    List.mem_map_of_mem List.mem_concat_self
  obtain ⟨st, f', hstore, hkept⟩ := hopen.storeFile_eq hf hdisk h hstorable
  have htarget : w.run none (targetOf shelf (Item.named names).shownNames) = _ :=
    hopen.run_targetOf (hstorable.ne_nil _ hm) (hstorable.names _ hm)
  refine ⟨st, f', ?_, hkept⟩
  unfold storeItem
  rw [htarget]
  dsimp only [Item.shownNames]
  rw [hstore]

/-- **Storing files in turn skips none**, and puts all of them on the shelf.  By induction on the
files. -/
theorem IsOpen.each_storeItem (hf : w.storage.Holds s f) (hdisk : w.storage.disk = d)
    {stored : List (List String)} (h : Shelved d directory f.view stored)
    (hstorable : Storable d directory ((stored ++ files).map .named)) :
    ∃ st f', each (storeItem directory shelf) (files.map .named) w =
        (.ok (files.map fun _ => none), { w with storage := st }) ∧
      st.Holds s f' ∧ Shelved d directory f'.view (stored ++ files) ∧
      Storage.ChangedOnly s w.storage st := by
  induction files generalizing w f stored with
  | nil =>
    refine ⟨w.storage, f, rfl, hf, ?_, .refl s _⟩
    rwa [List.append_nil]
  | cons names rest ih =>
    rw [List.append_cons] at hstorable ⊢
    have hfirst : Storable d directory ((stored ++ [names]).map .named) :=
      hstorable.mono (List.map_subset _ (List.subset_append_left _ _))
    obtain ⟨st, f₁, hstore, hf₁, hshelved, hchanged⟩ := hopen.storeItem_eq hf hdisk h hfirst
    have hsame : st.disk = d := (hchanged.disk_eq hopen.mounted).trans hdisk
    obtain ⟨st', f₂, hrest, hf₂, hshelved', hchanged'⟩ :=
      ih (w := { w with storage := st }) (hopen.with_storage st) hf₁ hsame hshelved hstorable
    refine ⟨st', f₂, ?_, hf₂, hshelved', hchanged.trans hchanged'⟩
    exact each_cons_of_ok hstore hrest

/-- **A stray file cannot be stored**: where there is room for its directory, the fault is that its
path cannot be encoded. -/
theorem IsOpen.storeItem_stray (hf : w.storage.Holds s f) (h : Shelved d directory f.view files)
    {place : Stray} (hn : Path.AreNames place.shownNames)
    (hroom : place.isHeld = true → ∀ names ∈ files, ¬ names <+: place.shownNames.dropLast) :
    ∃ w', storeItem directory shelf (.stray place) w =
      (.error (unencodable (Sign.slash :: place.path)), w') := by
  have htarget : w.run none (targetOf shelf (Item.stray place).shownNames) = _ :=
    hopen.run_targetOf place.shownNames_ne_nil hn
  obtain ⟨w', hstore⟩ : ∃ w', storeStray w shelf (handleOf w s place.shownNames) place =
      (unencodable (Sign.slash :: place.path), w') := by
    unfold storeStray
    by_cases hheld : place.isHeld = true
    · obtain ⟨st, _, hrun, -⟩ := (hopen.leaves_makeRoom hf hn (h.canMakeAll (hroom hheld))).run_eq
      exact ⟨_, by rw [if_pos hheld, hrun]⟩
    · exact ⟨w, if_neg hheld⟩
  refine ⟨w', ?_⟩
  unfold storeItem
  rw [htarget]
  dsimp only [Item.shownNames]
  rw [hstore]

/-- **Storing items puts all of them on an empty shelf** and skips none, or ends with the fault of a
stray one. -/
theorem IsOpen.storeAll_cases (hf : w.storage.Holds s f) (hdisk : w.storage.disk = d)
    (h : Shelved d directory f.view []) (hstorable : Storable d directory items) :
    (hasStray items = false ∧ ∃ st f',
      storeAll directory shelf items w = (.ok [], { w with storage := st }) ∧ st.Holds s f' ∧
      Shelved d directory f'.view (items.filterMap Item.named?) ∧
      Storage.ChangedOnly s w.storage st) ∨
    (hasStray items = true ∧ ∃ fault w', storeAll directory shelf items w = (.error fault, w') ∧
      fault.label = "UnicodeEncodeError") := by
  unfold storeAll
  rcases named_or_stray items with ⟨hnone, he⟩ | ⟨hsome, files, place, rest, rfl⟩
  · generalize items.filterMap Item.named? = files at he ⊢
    subst he
    obtain ⟨st, f', hstore, hf', hshelved, hchanged⟩ := hopen.each_storeItem hf hdisk h hstorable
    refine .inl ⟨hnone, st, f', ?_, hf', hshelved, hchanged⟩
    rw [hstore]
    dsimp only
    rw [List.filterMap_map, List.filterMap_eq_nil_iff.2]
    exact fun _ _ => rfl
  · have hfiles : Storable d directory (([] ++ files).map .named) :=
      hstorable.mono (List.subset_append_left _ _)
    obtain ⟨st, f', hstore, hf', hshelved, -⟩ := hopen.each_storeItem hf hdisk h hfiles
    have hplace : Item.stray place ∈ files.map Item.named ++ .stray place :: rest :=
      List.mem_append_right _ List.mem_cons_self
    obtain ⟨w', hends⟩ := (hopen.with_storage st).storeItem_stray hf' hshelved
      (hstorable.names _ hplace) fun hheld names hm => hstorable.room place hplace hheld names
        (List.mem_append_left _ (List.mem_map_of_mem hm))
    refine .inr ⟨hsome, unencodable (Sign.slash :: place.path), w', ?_, rfl⟩
    rw [each_append_of_error hstore (each_cons_of_error hends)]

end Archive

end Arboretum
