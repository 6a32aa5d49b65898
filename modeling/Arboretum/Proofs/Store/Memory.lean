import Arboretum.Proofs.Tree.Forest
import Arboretum.Store.Memory

/-!
# What a tree in memory does

Every operation of a tree in memory, on tidy paths, does what the view of the tree says
(`View.Allows`, `View.after`, `View.Reports`), and it keeps the tree orderly.  One lemma for each
operation: it succeeds when the view allows it, with the change that the view foresees, and else
it fails.
-/

namespace Arboretum.MemoryTree

variable {t : MemoryTree} {path : String}

/-! ## 1. Looking up -/

/-- Looking up a path of names. -/
theorem lookup_ofNames {ns : List String} (h : Path.AreNames ns) :
    t.lookup (Path.ofNames ns) = t.at? ns := by
  rw [lookup, Path.names_ofNames h]

/-- Cleaning a tidy path finds the same. -/
theorem lookup_clean (hp : Path.Tidy path) : t.lookup (Path.clean path) = t.lookup path := by
  rw [lookup, lookup, Path.names_clean hp]

theorem ne_empty_of_isName {n : String} (h : Path.IsName n) : n ≠ "" := by
  rintro rfl
  exact h.1.ne_nil rfl

theorem holder_of_names_nil (h : Path.names path = []) :
    t.holder path = .error (.rootDirectory path) := by
  simp [holder, Path.split_of_names_nil h]

/-- **The holder of a tidy path** is the directory of its names but the last. -/
theorem holder_eq {above : List String} {n : String} {inside : Forest ByteArray}
    (hp : Path.Tidy path) (h : Path.names path = above ++ [n])
    (ha : t.at? above = some (.folder inside)) : t.holder path = .ok (above, inside, n) := by
  obtain ⟨hns, hn⟩ := Path.areNames_append_singleton.1 (h ▸ Path.areNames_names hp)
  simp [holder, Path.split_of_names h, ne_empty_of_isName hn, lookup_ofNames hns, ha,
    Path.names_ofNames hns]

/-- **The holder of any path** is the directory that the path of all its names but the last leads
to. -/
theorem of_holder {above : List String} {inside : Forest ByteArray} {n : String}
    (h : t.holder path = .ok (above, inside, n)) :
    ∃ outer, Path.names path = outer ++ [n] ∧ above = Path.names (Path.ofNames outer) ∧
      t.at? above = some (.folder inside) := by
  rcases List.eq_nil_or_concat (Path.names path) with hns | ⟨outer, m, hns⟩
  · rw [holder_of_names_nil hns] at h
    cases h
  · rw [List.concat_eq_append] at hns
    rw [holder, Path.split_of_names hns] at h
    dsimp only at h
    split at h
    · cases h
    · unfold lookup at h
      rcases ha : t.at? (Path.names (Path.ofNames outer)) with _ | _ | found
      · rw [ha] at h
        cases h
      · rw [ha] at h
        cases h
      · rw [ha] at h
        obtain ⟨habove, hrest⟩ := Prod.mk.inj (Except.ok.inj h)
        obtain ⟨hinside, hname⟩ := Prod.mk.inj hrest
        exact ⟨outer, hname ▸ hns, habove.symm, habove ▸ hinside ▸ ha⟩

/-- Without a directory above there is no holder. -/
theorem holder_error {above : List String} {n : String} (hp : Path.Tidy path)
    (h : Path.names path = above ++ [n]) (ha : t.view above ≠ some .directory) :
    ∃ f, t.holder path = .error f := by
  obtain ⟨hns, hn⟩ := Path.areNames_append_singleton.1 (h ▸ Path.areNames_names hp)
  rw [Ne, Forest.view_eq_directory_iff] at ha
  simp only [holder, Path.split_of_names h, ne_empty_of_isName hn, lookup_ofNames hns, if_false]
  rcases hat : t.at? above with _ | _ | inside
  · exact ⟨_, rfl⟩
  · exact ⟨_, rfl⟩
  · exact absurd ⟨inside, hat⟩ ha

/-- The last name of a path, seen from the directory above it. -/
theorem view_of_at? {above : List String} {inside : Forest ByteArray}
    (ha : t.at? above = some (.folder inside)) (n : String) :
    t.view (above ++ [n]) = (inside.find? n).map Node.thing := by
  rw [Forest.view_append, ha]
  exact inside.view_singleton n

/-! ## 2. Reading -/

/-- The entries of an orderly directory are its listing. -/
theorem isListing_toList (ht : t.Orderly) {place : List String} {inside : Forest ByteArray}
    (ha : t.at? place = some (.folder inside)) :
    t.view.IsListing place (inside.toList.map fun (name, node) => ⟨name, node.isFolder⟩) where
  sorted := List.pairwise_map.2 (Forest.pairwise_toList (Forest.orderly_of_at? ht ha).1)
  mem_iff e := by
    rw [view_of_at? ha]
    constructor
    · intro h
      obtain ⟨⟨name, node⟩, hm, rfl⟩ := List.mem_map.1 h
      rw [Forest.mem_toList_iff (Forest.orderly_of_at? ht ha).1] at hm
      exact ⟨node.thing, by rw [hm]; rfl, node.isDirectory_thing.symm⟩
    · rintro ⟨x, hx, he⟩
      obtain ⟨node, hn, rfl⟩ := Option.map_eq_some_iff.1 hx
      refine List.mem_map.2 ⟨(e.name, node), Forest.mem_toList_of_find? hn, ?_⟩
      rw [node.isDirectory_thing] at he
      exact congrArg (Entry.mk e.name) he.symm

/-- **Listing** succeeds on directories, with their listing narrowed by the hints. -/
theorem list_eq (ht : t.Orderly) (hd : t.view (Path.names path) = some .directory) :
    ∃ entries, t.view.IsListing (Path.names path) entries ∧ ∀ hints,
      t.list path hints = .ok (entries.filter fun e => Pattern.Shell.passes hints e.name) := by
  obtain ⟨inside, ha⟩ := Forest.view_eq_directory_iff.1 hd
  refine ⟨_, isListing_toList ht ha, fun hints => ?_⟩
  simp only [list, lookup, ha]

theorem list_error (hd : t.view (Path.names path) ≠ some .directory) (hints : List String) :
    ∃ f, t.list path hints = .error f := by
  rw [Ne, Forest.view_eq_directory_iff] at hd
  rcases ha : t.at? (Path.names path) with _ | _ | inside
  · exact ⟨_, by simp only [list, lookup, ha]; rfl⟩
  · exact ⟨_, by simp only [list, lookup, ha]; rfl⟩
  · exact absurd ⟨inside, ha⟩ hd

/-- **Stat** reports what stands at the place. -/
theorem untimed_stat (hp : Path.Tidy path) :
    (t.stat path).map Info.untimed = (t.view (Path.names path)).map (View.infoOf path) := by
  have hn : Path.name (Path.clean path) = Path.name path := by
    rcases List.eq_nil_or_concat (Path.names path) with h | ⟨ns, n, h⟩
    · rw [Path.name_of_names_nil h, Path.name_of_names_nil ((Path.names_clean hp).trans h)]
    · rw [List.concat_eq_append] at h
      rw [Path.name_of_names h, Path.name_of_names ((Path.names_clean hp).trans h)]
  have hl := lookup_clean (t := t) hp
  unfold stat
  dsimp only
  rw [hl, hn, lookup, Forest.view, Option.map_map, Option.map_map]
  refine congrFun (congrArg Option.map (funext fun node => ?_)) _
  cases node <;> simp [Info.untimed, View.infoOf, Node.thing, Thing.isDirectory, Thing.size?]

/-- **Reading** succeeds on files, with their content, -/
theorem read_eq {data : ByteArray} (h : t.view (Path.names path) = some (.file data)) :
    t.read path = .ok data := by
  rw [Forest.view_eq_file_iff] at h
  simp only [read, lookup, h]

/-- and on nothing else. -/
theorem read_error (h : ∀ data, t.view (Path.names path) ≠ some (.file data)) :
    ∃ f, t.read path = .error f := by
  rcases ha : t.at? (Path.names path) with _ | data | inside
  · exact ⟨_, by simp only [read, lookup, ha]; rfl⟩
  · exact absurd (Forest.view_eq_file_iff.2 ha) (h data)
  · exact ⟨_, by simp only [read, lookup, ha]; rfl⟩

/-! ## 3. Changing -/

/-- A changed tree: orderly, with one place changed. -/
theorem change_eq (ht : t.Orderly) {above : List String} {inside : Forest ByteArray}
    (ha : t.at? above = some (.folder inside)) {how : Forest ByteArray → Forest ByteArray}
    {n : String} {x : Option Thing} (ho : (how inside).Orderly)
    (hv : (how inside).view = inside.view.put [n] x) :
    (t.change how above).Orderly ∧ (t.change how above).view = t.view.put (above ++ [n]) x :=
  ⟨Forest.orderly_change ht ha ho, Forest.view_change ha hv⟩

/-- **Writing** succeeds when the view allows it, and changes the one place. -/
theorem write_eq (ht : t.Orderly) (hp : Path.Tidy path) (h : t.view.CanWrite (Path.names path))
    (data : ByteArray) : ∃ t', t.write path data = .ok t' ∧ t'.Orderly ∧
      t'.view = t.view.put (Path.names path) (some (.file data)) := by
  obtain ⟨⟨above, n, hns, hd⟩, hne⟩ := h
  obtain ⟨inside, ha⟩ := Forest.view_eq_directory_iff.1 hd
  have hn := (Path.areNames_append_singleton.1 (hns ▸ Path.areNames_names hp)).2
  have hi := (Forest.orderly_of_at? ht ha).1
  rw [hns, view_of_at? ha] at hne
  have hnf : ∀ g, inside.find? n ≠ some (.folder g) := fun g hg => hne (by rw [hg]; rfl)
  refine ⟨t.change (Forest.put n (.leaf data)) above, ?_, ?_⟩
  · rw [write, holder_eq hp hns ha]
    dsimp only
    rcases hf : inside.find? n with _ | _ | g
    · rfl
    · rfl
    · exact absurd hf (hnf g)
  · rw [hns]
    refine change_eq ht ha (Forest.orderly_put hi hn trivial) ?_
    exact Forest.view_put_eq (Forest.view_below_find? fun g hg => absurd hg (hnf g)) fun _ _ => rfl

theorem write_error (hp : Path.Tidy path) (h : ¬ t.view.CanWrite (Path.names path))
    (data : ByteArray) : ∃ f, t.write path data = .error f := by
  rcases List.eq_nil_or_concat (Path.names path) with hns | ⟨above, n, hns⟩
  · exact ⟨_, by rw [write, holder_of_names_nil hns]⟩
  · rw [List.concat_eq_append] at hns
    by_cases hd : t.view above = some .directory
    · obtain ⟨inside, ha⟩ := Forest.view_eq_directory_iff.1 hd
      rw [hns, View.canWrite_append, view_of_at? ha, not_and_not_right] at h
      obtain ⟨node, hf, hx⟩ := Option.map_eq_some_iff.1 (h hd)
      cases node with
      | leaf data => cases hx
      | folder g =>
        refine ⟨.isDirectory path, ?_⟩
        rw [write, holder_eq hp hns ha]
        dsimp only
        rw [hf]
    · obtain ⟨f, hf⟩ := holder_error hp hns hd
      exact ⟨f, by rw [write, hf]⟩

/-- **Making one directory** succeeds when the view allows it, and changes the one place. -/
theorem makeOne_eq (ht : t.Orderly) (hp : Path.Tidy path) (h : t.view.CanMake (Path.names path)) :
    ∃ t', t.makeOne path = .ok t' ∧ t'.Orderly ∧
      t'.view = t.view.put (Path.names path) (some .directory) := by
  obtain ⟨⟨above, n, hns, hd⟩, hne⟩ := h
  obtain ⟨inside, ha⟩ := Forest.view_eq_directory_iff.1 hd
  have hn := (Path.areNames_append_singleton.1 (hns ▸ Path.areNames_names hp)).2
  have hi := (Forest.orderly_of_at? ht ha).1
  rw [hns, view_of_at? ha, Option.map_eq_none_iff] at hne
  refine ⟨t.change (Forest.put n (.folder .empty)) above, ?_, ?_⟩
  · rw [makeOne, holder_eq hp hns ha]
    dsimp only
    rw [hne]
    rfl
  · rw [hns]
    refine change_eq ht ha (Forest.orderly_put hi hn trivial) ?_
    refine Forest.view_put_eq (Forest.view_below_find? fun g hg => ?_) fun _ _ => rfl
    rw [hne] at hg
    cases hg

theorem makeOne_error (hp : Path.Tidy path) (h : ¬ t.view.CanMake (Path.names path)) :
    ∃ f, t.makeOne path = .error f := by
  rcases List.eq_nil_or_concat (Path.names path) with hns | ⟨above, n, hns⟩
  · exact ⟨_, by rw [makeOne, holder_of_names_nil hns]⟩
  · rw [List.concat_eq_append] at hns
    by_cases hd : t.view above = some .directory
    · obtain ⟨inside, ha⟩ := Forest.view_eq_directory_iff.1 hd
      rw [hns, View.canMake_append, view_of_at? ha, Option.map_eq_none_iff] at h
      have hs : (inside.find? n).isSome := Option.isSome_iff_ne_none.2 fun hf => h ⟨hd, hf⟩
      refine ⟨.alreadyExists path, ?_⟩
      rw [makeOne, holder_eq hp hns ha]
      exact if_pos hs
    · obtain ⟨f, hf⟩ := holder_error hp hns hd
      exact ⟨f, by rw [makeOne, hf]⟩

/-- What one level of a directory and its parents does. -/
theorem makesLevel (ht : t.Orderly) {place : List String} (hn : Path.AreNames place) :
    View.MakesLevel Forest.view Forest.Orderly makeLevel t place := by
  have hp := Path.tidy_ofNames hn
  have hns := Path.names_ofNames hn
  refine ⟨fun h => ?_, fun h => ?_, fun hd h => ?_⟩
  · obtain ⟨inside, ha⟩ := Forest.view_eq_directory_iff.1 h
    rw [makeLevel, lookup_ofNames hn, ha]
  · obtain ⟨t', h1, h2, h3⟩ := makeOne_eq ht hp (hns.symm ▸ h)
    refine ⟨t', ?_, h2, hns ▸ h3⟩
    rw [makeLevel, lookup_ofNames hn, Forest.view_eq_none_iff.1 h.2, h1]
    rfl
  · obtain ⟨f, hf⟩ := makeOne_error (t := t) hp (hns.symm ▸ h)
    rw [Ne, Forest.view_eq_directory_iff] at hd
    rw [makeLevel, lookup_ofNames hn]
    rcases ha : t.at? place with _ | _ | inside
    · exact ⟨f, by rw [hf]; rfl⟩
    · exact ⟨f, by rw [hf]; rfl⟩
    · exact absurd ⟨inside, ha⟩ hd

/-- Which levels are made. -/
theorem findsLevels (t : MemoryTree) :
    View.FindsLevels Forest.view (fun t => MemoryTree.missingLevels t) t where
  one depth place hn h := by
    cases depth with
    | zero => rfl
    | succ depth =>
      have hns := Path.names_ofNames hn
      rcases List.eq_nil_or_concat place with rfl | ⟨above, n, rfl⟩
      · have hparent : Path.parent (Path.ofNames []) = Path.ofNames [] :=
          Path.parent_of_names_nil hns
        simp [missingLevels, hparent]
      · rw [List.concat_eq_append] at h hn hns ⊢
        have ha : (t.lookup (Path.ofNames above)).isNone = false := by
          rw [lookup_ofNames (Path.areNames_append.1 hn).1, Option.isNone_eq_false_iff,
            Option.isSome_iff_ne_none]
          exact fun hf => h above n rfl (Forest.view_eq_none_iff.2 hf)
        simp [missingLevels, Path.parent_of_names hns, ha]
  more depth above n hn hv := by
    have hna := (Path.areNames_append.1 hn).1
    have hne : Path.ofNames above ≠ Path.ofNames (above ++ [n]) := by
      rw [Ne, Path.ofNames_inj hna hn]
      simp
    have ha : (t.lookup (Path.ofNames above)).isNone = true := by
      rw [lookup_ofNames hna, Forest.view_eq_none_iff.1 hv]
      rfl
    simp [missingLevels, Path.parent_of_names (Path.names_ofNames hn), hne, ha,
      Path.clean_ofNames hna]

/-- **Making a directory with its parents** succeeds when no file is in the way. -/
theorem makeDir_parents (ht : t.Orderly) (hp : Path.Tidy path) :
    (t.view.CanMakeAll (Path.names path) →
      ∃ t', t.makeDir path true = (.ok (), t') ∧ t'.Orderly ∧
        t'.view = t.view.makeAll (Path.names path)) ∧
    (¬ t.view.CanMakeAll (Path.names path) → ∃ f, t.makeDir path true = (.error f, t)) := by
  have hn := Path.areNames_names hp
  simp only [makeDir, Path.clean_eq_ofNames path, if_true]
  exact View.inTurn_levels (findsLevels t) (fun s place hs hn => makesLevel hs hn) ht t.isTree_view
    _ hn _ (Path.length_le_length_ofNames hn)

/-- **Making one directory** as an operation. -/
theorem makeDir_eq (ht : t.Orderly) (hp : Path.Tidy path) (h : t.view.CanMake (Path.names path)) :
    ∃ t', t.makeDir path false = (.ok (), t') ∧ t'.Orderly ∧
      t'.view = t.view.put (Path.names path) (some .directory) := by
  have hn := Path.areNames_names hp
  have hc := Path.names_clean hp
  have htidy : Path.Tidy (Path.clean path) := Path.clean_eq_ofNames path ▸ Path.tidy_ofNames hn
  obtain ⟨t', h1, h2, h3⟩ := makeOne_eq ht htidy (hc.symm ▸ h)
  refine ⟨t', ?_, h2, hc ▸ h3⟩
  simp only [makeDir, Bool.false_eq_true, if_false, h1]
  rfl

theorem makeDir_error (hp : Path.Tidy path) (h : ¬ t.view.CanMake (Path.names path)) :
    ∃ f, t.makeDir path false = (.error f, t) := by
  have hn := Path.areNames_names hp
  have hc := Path.names_clean hp
  have htidy : Path.Tidy (Path.clean path) := Path.clean_eq_ofNames path ▸ Path.tidy_ofNames hn
  obtain ⟨f, hf⟩ := makeOne_error (t := t) htidy (hc.symm ▸ h)
  refine ⟨f, ?_⟩
  simp only [makeDir, Bool.false_eq_true, if_false, hf]
  rfl

/-- **Removing** succeeds when the view allows it, and empties the one place. -/
theorem remove_eq (ht : t.Orderly) (hp : Path.Tidy path) (h : t.view.CanRemove (Path.names path)) :
    ∃ t', t.remove path = .ok t' ∧ t'.Orderly ∧ t'.view = t.view.put (Path.names path) none := by
  obtain ⟨hne, hsome, hnone⟩ := h
  rcases List.eq_nil_or_concat (Path.names path) with hns | ⟨above, n, hns⟩
  · exact absurd hns hne
  · rw [List.concat_eq_append] at hns
    rw [hns] at hsome hnone
    obtain ⟨inside, ha⟩ := Forest.view_eq_directory_iff.1 (t.isTree_view.above above n hsome)
    have hi := (Forest.orderly_of_at? ht ha).1
    rw [view_of_at? ha] at hsome
    -- A directory that may be removed is empty: its first entry would stand below it.
    have hempty : ∀ g, inside.find? n = some (.folder g) → g = .empty := by
      intro g hg
      rcases Forest.eq_empty_or_before g with rfl | ⟨m, node, rest, rfl⟩
      · rfl
      · have hm := hnone m
        rw [List.append_assoc, Forest.view_append, ha] at hm
        change inside.view (n :: [m]) = none at hm
        rw [Forest.view_cons, hg] at hm
        change (node.before m rest).view [m] = none at hm
        rw [Forest.view_singleton, Forest.find?_before, if_pos rfl] at hm
        cases hm
    refine ⟨t.change (Forest.erase n) above, ?_, ?_⟩
    · rw [remove, holder_eq hp hns ha]
      dsimp only
      rcases hf : inside.find? n with _ | _ | g
      · exact absurd (by rw [hf]; rfl) hsome
      · rfl
      · rw [hempty g hf]
    · rw [hns]
      exact change_eq ht ha (Forest.orderly_erase hi n)
        (Forest.view_erase_eq hi (Forest.view_below_find? hempty))

theorem remove_error (hp : Path.Tidy path) (h : ¬ t.view.CanRemove (Path.names path)) :
    ∃ f, t.remove path = .error f := by
  rcases List.eq_nil_or_concat (Path.names path) with hns | ⟨above, n, hns⟩
  · exact ⟨_, by rw [remove, holder_of_names_nil hns]⟩
  · rw [List.concat_eq_append] at hns
    by_cases hd : t.view above = some .directory
    · obtain ⟨inside, ha⟩ := Forest.view_eq_directory_iff.1 hd
      rw [remove, holder_eq hp hns ha]
      dsimp only
      have hbelow : ∀ node, inside.find? n = some node →
          (∀ m, node.view [m] = none) → t.view.CanRemove (Path.names path) := by
        intro node hf hv
        rw [hns]
        have hthere : t.view (above ++ [n]) ≠ none := by
          rw [view_of_at? ha, hf]
          exact Option.some_ne_none _
        refine ⟨by simp, hthere, fun m => ?_⟩
        rw [List.append_assoc, Forest.view_append, ha]
        change inside.view (n :: [m]) = none
        rw [Forest.view_cons, hf]
        exact hv m
      rcases hf : inside.find? n with _ | _ | _ | _ | _
      · exact ⟨_, rfl⟩
      · exact absurd (hbelow _ hf fun _ => rfl) h
      · exact absurd (hbelow _ hf fun _ => rfl) h
      · exact ⟨_, rfl⟩
      · exact ⟨_, rfl⟩
    · obtain ⟨f, hf⟩ := holder_error hp hns hd
      exact ⟨f, by rw [remove, hf]⟩

end Arboretum.MemoryTree
