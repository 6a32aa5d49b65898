import Arboretum.Proofs.Listing.Bounded
import Arboretum.Proofs.Store.Changing
import Arboretum.Proofs.Walk.Exact

/-!
# Removing removes exactly a subtree

The walk hands out every entry below a directory and no directory after its entries have been
handed out; so in the reverse order each entry goes before the directory that holds it, and no
removal meets a directory that is not empty or an entry that is gone (`leaves_removals`).  Removing
an entry leaves the tree without the subtree (`leaves_removeAll`), and removing the entries of a
directory leaves it without the subtrees of those whose names pass (`leaves_removeEntries`).
-/

namespace Arboretum.Removal

open Walk (Sight Visit visits)

variable {Out : Type} {w : World} {token : Option Nat} {h : Handle} {s : Store} {f : MemoryTree}
  {place : List String} {inside : Forest ByteArray}

/-! ## 1. One entry -/

/-- The call that removes at a place. -/
theorem leaves_remove (hc : w.cancelled token = none) (hn : Path.AreNames place)
    (hf : w.storage.Holds s f) (hr : f.view.CanRemove place) :
    (w.record token (Traversal.call s (Path.ofNames place) (.remove (Path.ofNames place)) :
      Traversal Out Unit)).Leaves w s (f.view.put place none) := by
  have hnames := Path.names_ofNames hn
  have htidy : Call.IsTidy (.remove (Path.ofNames place)) := Path.tidy_ofNames hn
  have hal : f.view.CanRemove (Path.names (Path.ofNames place)) := by rwa [hnames]
  rw [← Traversal.bind_done (Traversal.call s (Path.ofNames place) _)]
  refine Record.leaves_call_bind hc hf htidy hal _ fun _ st f' _ hf' hview _ => ?_
  have hafter : f'.view = f.view.put place none := by
    rw [hview, View.after, hnames]
  rw [← hafter]
  exact Record.leaves_done hf'

/-- **Removing at the place of a handle**, a file or an empty directory. -/
theorem leaves_removeThrough (hc : w.cancelled token = none) (hl : h.LeadsTo w s place)
    (hf : w.storage.Holds s f) (hr : f.view.CanRemove place) :
    (w.record token (removeThrough s h : Traversal Out Unit)).Leaves w s
      (f.view.put place none) := by
  have hrun : w.record token (removeThrough s h : Traversal Out Unit) =
      w.record token (Traversal.call s (Path.ofNames place) (.remove (Path.ofNames place))) :=
    hl.record_resolve_bind _
  rw [hrun]
  exact leaves_remove hc hl.names hf hr

/-- **Removing one after the other** what may be removed in this order. -/
theorem leaves_removals (hc : w.cancelled token = none) {sights : List Sight} {visit : Sight → Visit}
    (hlead : ∀ x ∈ sights, (visit x).1.LeadsTo w s x.1) (hf : w.storage.Holds s f)
    (hr : f.view.Removable (sights.map Prod.fst)) :
    (w.record token (Traversal.forEach (fun v : Visit => removeThrough s v.1) (sights.map visit) :
      Traversal Out Unit)).Leaves w s (f.view.without (sights.map Prod.fst)) := by
  induction sights generalizing w f with
  | nil =>
    exact Record.leaves_done hf
  | cons x sights ih =>
    obtain ⟨hfirst, hrest⟩ := hr
    rw [List.map_cons, List.map_cons, View.without_cons]
    refine (leaves_removeThrough hc (hlead x List.mem_cons_self) hf hfirst).bind
      fun st f' hf' hv _ => ?_
    rw [← hv] at hrest ⊢
    exact ih hc (fun y hy => (hlead y (List.mem_cons_of_mem x hy)).with_storage st) hf' hrest

/-! ## 2. One subtree -/

/-- The visit of a place, as a walk from the handle hands it out. -/
def visitAt (w : World) (h : Handle) (s : Store) (x : Sight) : Visit :=
  (⟨(w.registry h.registryNumber).address s (Path.ofNames x.1), some h.registryNumber⟩, x.2)

/-- A walk without patterns hands out everything below the directory. -/
theorem expected_all (w : World) (h : Handle) (s : Store) (place : List String)
    (inside : Forest ByteArray) :
    Walk.expected w h s place [] true inside = (visits place inside).map (visitAt w h s) := by
  have hall : ((visits place inside).filter fun x =>
      (true || !x.2.isDirectory) && Pattern.passes [] x.2.name) = visits place inside :=
    List.filter_eq_self.2 fun _ _ => rfl
  unfold Walk.expected
  rw [hall]
  rfl

/-- **Removing a file** is removing it at its place. -/
theorem record_removeAll_leaf (hc : w.cancelled token = none) (hl : h.LeadsTo w s place)
    (hf : w.storage.Holds s f) {data : ByteArray} (hat : f.at? place = some (.leaf data))
    (budget : Nat) :
    w.record token (removeAll budget h : Traversal Out Unit) =
      w.record token (Traversal.call s (Path.ofNames place) (.remove (Path.ofNames place))) := by
  obtain ⟨info, hask, hfile⟩ := hf.ask_stat_of_at? hl.names hat
  unfold removeAll
  refine (hl.record_resolve_bind _).trans ?_
  dsimp only
  rw [Handle.require_of_isMounted hl.mounted]
  refine (World.record_call_of_ok hc (World.ask_of_storage hask) _).trans ?_
  dsimp only
  rw [hfile]
  rfl

/-- **Removing a directory** is removing everything below it, the last visit first, and then the
directory at its place. -/
theorem record_removeAll_folder (hc : w.cancelled token = none) (hl : h.LeadsTo w s place)
    (hf : w.storage.Holds s f) (hat : f.at? place = some (.folder inside)) {budget : Nat}
    (hb : inside.count ≤ budget) :
    w.record token (removeAll budget h : Traversal Out Unit) =
      w.record token ((Traversal.forEach (fun v : Visit => removeThrough s v.1)
        ((visits place inside).reverse.map (visitAt w h s))).bind fun _ =>
          Traversal.call s (Path.ofNames place) (.remove (Path.ofNames place))) := by
  obtain ⟨info, hask, hfolder⟩ := hf.ask_stat_of_at? hl.names hat
  have hwalk : w.record token (Walk.run budget h.registryNumber h [] true) =
      ⟨.finished (), (visits place inside).map (visitAt w h s), w⟩ := by
    rw [← expected_all]
    exact Walk.record_run hc hl.mounted hf hl.names hat hl.record_resolve hb
  have hgather : w.record token (Traversal.gather [] (Walk.run budget h.registryNumber h [] true) :
      Traversal Out (List Visit × Unit)) =
      ⟨.finished ((visits place inside).reverse.map (visitAt w h s), ()), [], w⟩ := by
    rw [World.record_gather, hwalk, List.map_reverse]
    dsimp only
    rw [List.append_nil]
  unfold removeAll
  refine (hl.record_resolve_bind _).trans ?_
  dsimp only
  rw [Handle.require_of_isMounted hl.mounted]
  refine (World.record_call_of_ok hc (World.ask_of_storage hask) _).trans ?_
  dsimp only
  rw [hfolder]
  exact World.record_bind_of_finished w token hgather _

/-- Everything below a directory may be removed in the reverse order of the visits. -/
theorem removable_visits (ho : f.Orderly) (hat : f.at? place = some (.folder inside)) :
    f.view.Removable ((visits place inside).reverse.map Prod.fst) := by
  have hinside := (Forest.orderly_of_at? ho hat).1
  have hview : ∀ rel, f.view (place ++ rel) = inside.view rel :=
    Forest.view_append_of_at? hat
  have hmem : ∀ ns, ns ∈ (visits place inside).reverse.map Prod.fst ↔
      ∃ rel, rel ≠ [] ∧ ns = place ++ rel ∧ inside.view rel ≠ none := by
    intro ns
    rw [List.map_reverse, List.mem_reverse]
    exact Walk.mem_visits_iff hinside
  refine View.removable_of_below_first (fun p hp => ?_) (fun p hp => ?_) ?_ fun p hp n hn => ?_
  · obtain ⟨rel, hne, rfl, -⟩ := (hmem p).1 hp
    simp [hne]
  · obtain ⟨rel, -, rfl, hv⟩ := (hmem p).1 hp
    rwa [hview]
  · rw [List.map_reverse, List.pairwise_reverse]
    exact Walk.pairwise_visits hinside place
  · obtain ⟨rel, -, rfl, -⟩ := (hmem p).1 hp
    rw [List.append_assoc, hview] at hn
    exact (hmem _).2 ⟨rel ++ [n], by simp, List.append_assoc _ _ _, hn⟩

/-- **Removing an entry with everything below it** leaves the tree without the subtree. -/
theorem leaves_removeAll (hc : w.cancelled token = none) (hl : h.LeadsTo w s place)
    (hf : w.storage.Holds s f) (hne : place ≠ []) (hthere : f.view place ≠ none) {budget : Nat}
    (hb : f.count ≤ budget) :
    (w.record token (removeAll budget h : Traversal Out Unit)).Leaves w s (f.view.prune place) := by
  obtain ⟨node, hat⟩ : ∃ node, f.at? place = some node :=
    Option.ne_none_iff_exists'.1 fun hnone => hthere (Forest.view_eq_none_iff.2 hnone)
  cases node with
  | leaf data =>
    have hfile : f.view place ≠ some .directory := by
      rw [Forest.view, hat]
      intro he
      cases he
    have hbelow : ∀ n, f.view (place ++ [n]) = none := f.isTree_view.none_below hfile
    -- Nothing is below a file, so the place is the whole subtree.
    have hprune : f.view.put place none = f.view.prune place := by
      have hnothing : ∀ ns, ns ∈ ([] : List (List String)) ↔
          ∃ rel, rel ≠ [] ∧ ns = place ++ rel ∧ f.view ns ≠ none := by
        refine fun ns => ⟨fun hm => absurd hm List.not_mem_nil, ?_⟩
        rintro ⟨rel, hrel, rfl, hv⟩
        have hdir := f.isTree_view.directory_of_prefix (List.prefix_append place rel)
          (fun he => hrel (List.self_eq_append_right.1 he)) hv
        exact absurd hdir hfile
      exact View.without_eq_prune hnothing
    rw [record_removeAll_leaf hc hl hf hat, ← hprune]
    exact leaves_remove hc hl.names hf ⟨hne, hthere, hbelow⟩
  | folder inside =>
    have hinside := (Forest.orderly_of_at? hf.orderly hat).1
    have hview : ∀ rel, f.view (place ++ rel) = inside.view rel :=
      Forest.view_append_of_at? hat
    have hcount : inside.count ≤ budget := by
      refine Nat.le_trans (Forest.count_le_of_view hf.orderly hinside place ?_) hb
      exact fun ns hv => by rwa [hview]
    have hmem : ∀ ns, ns ∈ (visits place inside).reverse.map Prod.fst ↔
        ∃ rel, rel ≠ [] ∧ ns = place ++ rel ∧ f.view ns ≠ none := by
      intro ns
      rw [List.map_reverse, List.mem_reverse, Walk.mem_visits_iff hinside]
      constructor
      · rintro ⟨rel, hrel, rfl, hv⟩
        exact ⟨rel, hrel, rfl, by rwa [hview]⟩
      · rintro ⟨rel, hrel, rfl, hv⟩
        exact ⟨rel, hrel, rfl, by rwa [hview] at hv⟩
    have hlead : ∀ x ∈ (visits place inside).reverse, (visitAt w h s x).1.LeadsTo w s x.1 := by
      intro x hx
      obtain ⟨rel, -, he, hv⟩ := (hmem x.1).1 (List.mem_map_of_mem hx)
      exact hl.of_address (Forest.areNames_of_view hf.orderly hv) rfl rfl
    rw [record_removeAll_folder hc hl hf hat hcount, ← View.without_eq_prune hmem]
    refine (leaves_removals hc hlead hf (removable_visits hf.orderly hat)).bind
      fun st f' hf' hv _ => ?_
    have hr : f'.view.CanRemove place := hv ▸ View.canRemove_without hne hthere hmem
    rw [← hv]
    exact leaves_remove hc hl.names hf' hr

/-! ## 3. The entries of a directory -/

/-- **Removing some entries of a directory**, one after the other. -/
theorem leaves_removeEach (hc : w.cancelled token = none) (hl : h.LeadsTo w s place)
    (hf : w.storage.Holds s f) {names : List String} (hd : names.Nodup)
    (hthere : ∀ n ∈ names, f.view (place ++ [n]) ≠ none) {budget : Nat} (hb : f.count ≤ budget) :
    (w.record token (Traversal.forEach (fun n => (h.join [n]).bind (removeAll budget)) names :
      Traversal Out Unit)).Leaves w s (f.view.pruneEntries place (· ∈ names)) := by
  induction names generalizing w f with
  | nil =>
    have hnone : f.view.pruneEntries place (· ∈ ([] : List String)) = f.view := by
      funext ns
      refine if_neg fun hany => ?_
      cases hn : ns[place.length]? <;> simp [hn] at hany
    rw [hnone]
    exact Record.leaves_done hf
  | cons n names ih =>
    obtain ⟨hnot, hd⟩ := List.nodup_cons.1 hd
    have hn := Forest.areNames_of_view hf.orderly (hthere n List.mem_cons_self)
    have hname := (Path.areNames_append_singleton.1 hn).2
    have hfirst : (w.record token ((h.join [n]).bind (removeAll budget) :
        Traversal Out Unit)).Leaves w s (f.view.prune (place ++ [n])) := by
      rw [hl.record_join_bind hname]
      exact leaves_removeAll hc (hl.below hname) hf (by simp) (hthere n List.mem_cons_self) hb
    rw [← View.pruneEntries_prune]
    refine hfirst.bind fun st f' hf' hv _ => ?_
    have hkept : ∀ m ∈ names, f'.view (place ++ [m]) ≠ none := by
      intro m hm
      have hother : ¬ place ++ [n] <+: place ++ [m] :=
        Forest.not_prefix_of_ne (List.prefix_refl _) (List.prefix_refl _) fun he => hnot (he ▸ hm)
      rw [hv, View.prune, if_neg hother]
      exact hthere m (List.mem_cons_of_mem n hm)
    have hcount : f'.count ≤ f.count := by
      refine Forest.count_le_of_view hf.orderly hf'.orderly [] fun ns hne => ?_
      rw [hv, View.prune] at hne
      split at hne
      · exact absurd rfl hne
      · exact hne
    rw [← hv]
    exact ih hc (hl.with_storage st) hf' hd hkept (Nat.le_trans hcount hb)

/-- **Removing the entries of a directory whose names pass** leaves the tree without them and
without everything below them. -/
theorem leaves_removeEntries (hc : w.cancelled token = none) (hl : h.LeadsTo w s place)
    (hf : w.storage.Holds s f) (hdir : f.view place = some .directory) {patterns : List String}
    {segments : List Pattern.Segment} (hp : Listing.readNames patterns = .ok segments)
    {budget : Nat} (hb : f.count ≤ budget) :
    (w.record token (removeEntries budget h patterns : Traversal Out Unit)).Leaves w s
      (f.view.pruneEntries place (Pattern.passes segments)) := by
  obtain ⟨inside, hat⟩ := Forest.view_eq_directory_iff.1 hdir
  have hinside := (Forest.orderly_of_at? hf.orderly hat).1
  let kept := (inside.toList.map Prod.fst).filter (Pattern.passes segments)
  have hnames : ((Storage.entriesOf inside).filter fun e => Pattern.passes segments e.name).map
      Entry.name = kept := by
    unfold kept Storage.entriesOf
    rw [List.filter_map, List.filter_map, List.map_map]
    rfl
  have hmem : ∀ n, n ∈ kept ↔ f.view (place ++ [n]) ≠ none ∧ Pattern.passes segments n = true := by
    intro n
    rw [List.mem_filter, Forest.mem_names_iff hinside hat]
  have hd : kept.Nodup := (Forest.nodup_names hinside).filter _
  have hview : f.view.pruneEntries place (Pattern.passes segments) =
      f.view.pruneEntries place (· ∈ kept) := by
    refine View.pruneEntries_congr f.isTree_view fun n hn => ?_
    have hiff := hmem n
    cases hpass : Pattern.passes segments n with
    | true => exact (decide_eq_true (hiff.2 ⟨hn, hpass⟩)).symm
    | false =>
      refine (decide_eq_false fun hm => ?_).symm
      rw [hpass] at hiff
      exact Bool.false_ne_true (hiff.1 hm).2
  have hrun : w.record token (removeEntries budget h patterns : Traversal Out Unit) =
      w.record token (Traversal.forEach (fun n => (h.join [n]).bind (removeAll budget)) kept) := by
    unfold removeEntries
    refine (World.record_bind_of_finished w token (Listing.record_bounded hc hl hf hat hp) _).trans ?_
    rw [← hnames, Traversal.forEach_map]
    rfl
  rw [hrun, hview]
  exact leaves_removeEach hc hl hf hd (fun n hn => ((hmem n).1 hn).1) hb

/-! ## 4. Whole removals -/

/-- **Removal is complete and exact.**  A handle resolves to a tidy path of a store in memory or in
a table; no mount begins with the mount of the store and a slash, whatever other stores there are,
and the tree of the store was built at tidy paths.  Then removing an entry other than the root ends
well and leaves the tree without the subtree at the path; and removing the entries of a directory
whose names pass any readable patterns ends well and leaves the tree without the subtrees of exactly
these entries.  Neither changes anything but the tree.  The budget of the walks is at least the
number of entries. -/
theorem removal_exact (w : World) (token : Option Nat) (hc : w.cancelled token = none) (h : Handle)
    (hg : (w.registry h.registryNumber).Grown) (s : Store) (path : String) (hs : s.IsMounted)
    (halone : (w.registry h.registryNumber).Alone s)
    (hresolve : w.record token (h.resolve : Traversal Out (Store × String)) =
      ⟨.finished (s, path), [], w⟩)
    (ht : Path.Tidy path) (hb : w.storage.Built s) :
    ∃ f, w.storage.Holds s f ∧ ∀ budget, f.count ≤ budget →
      (Path.names path ≠ [] → f.view (Path.names path) ≠ none →
        ∃ st f', w.run token (removeAll budget h : Traversal Out Unit) =
            (.finished ([], ()), { w with storage := st }) ∧
          st.Holds s f' ∧ f'.view = f.view.prune (Path.names path) ∧
          Storage.ChangedOnly s w.storage st) ∧
      (f.view (Path.names path) = some .directory → ∀ patterns segments,
        Listing.readNames patterns = .ok segments →
        ∃ st f', w.run token (removeEntries budget h patterns : Traversal Out Unit) =
            (.finished ([], ()), { w with storage := st }) ∧
          st.Holds s f' ∧
          f'.view = f.view.pruneEntries (Path.names path) (Pattern.passes segments) ∧
          Storage.ChangedOnly s w.storage st) := by
  obtain ⟨f, hf⟩ := hb.exists_holds
  have hl := Handle.leadsTo_of_record hg hs halone hresolve ht
  refine ⟨f, hf, fun budget hbudget => ⟨fun hne hthere => ?_, fun hdir patterns segments hp => ?_⟩⟩
  · obtain ⟨st, f', hr, hf', hv, hchanged⟩ : (w.record token (removeAll budget h :
        Traversal Out Unit)).Leaves w s _ := leaves_removeAll hc hl hf hne hthere hbudget
    exact ⟨st, f', by rw [World.run_eq_of_record, hr], hf', hv, hchanged⟩
  · obtain ⟨st, f', hr, hf', hv, hchanged⟩ : (w.record token (removeEntries budget h patterns :
        Traversal Out Unit)).Leaves w s _ := leaves_removeEntries hc hl hf hdir hp hbudget
    exact ⟨st, f', by rw [World.run_eq_of_record, hr], hf', hv, hchanged⟩

/-- A directory goes with the file in it; only the root is left. -/
theorem removal_exact_small :
    ∃ st f, World.small.run none (removeAll 2 ⟨"mem://a/b", none⟩ : Traversal Empty Unit) =
        (.finished ([], ()), { World.small with storage := st }) ∧
      st.Holds ⟨2, "mem://a", .memory⟩ f ∧ f.view ["b"] = none ∧ f.view ["b", "x"] = none ∧
      f.view [] = some .directory := by
  have hplace : (World.small.registry commonRegistry).place "mem://a/b" =
      (⟨2, "mem://a", .memory⟩, "/b") := by decide +kernel
  obtain ⟨f, hf, hrun⟩ := @removal_exact Empty World.small none rfl ⟨"mem://a/b", none⟩
    World.reachable_small.grown ⟨2, "mem://a", .memory⟩ "/b" (.memory 2 "a") (by decide +kernel)
    (World.record_resolve_small hplace) (by decide) World.built_small
  obtain rfl : World.small.storage.memory 2 = f := hf.1
  have hnames : Path.names "/b" = ["b"] := by decide +kernel
  have hremoved := (hrun 2 (by decide +kernel)).1
  rw [hnames] at hremoved
  obtain ⟨st, f', hr, hf', hv, -⟩ := hremoved (by decide) (Option.some_ne_none _)
  exact ⟨st, f', hr, hf', by rw [hv]; rfl, by rw [hv]; rfl, by rw [hv]; rfl⟩

end Arboretum.Removal
