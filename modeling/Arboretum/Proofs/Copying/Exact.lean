import Arboretum.Proofs.Listing.Bounded
import Arboretum.Proofs.Store.Changing
import Arboretum.Proofs.Tree.Subtrees

/-!
# Copying lays a tree over another one

Copying leaves the destination with the source laid over it (`View.copied`): by induction on the
depth, a directory is made with its parents, and then each child is laid over it in turn
(`leaves_copyEach`).  What is written below one child disturbs neither the entries that are still to
be copied, because the source lies apart from the destination, nor the places of the other
children.
-/

namespace Arboretum.Copying

variable {Out : Type} {w : World} {token : Option Nat} {source target : Handle} {s t : Store}
  {f d : MemoryTree} {ps qs : List String}

/-! ## 1. Where a tree may be copied -/

/-- **A source fits a place of a view**: it is there; below the place it meets no entry of the other
kind; no file is above the place; and a file has a directory to go to. -/
structure Fits (src v : View) (qs : List String) : Prop where
  there : src [] ≠ none
  kinds : ∀ rel x y, src rel = some x → v (qs ++ rel) = some y → x.isDirectory = y.isDirectory
  free : ∀ above, above <+: qs → above ≠ qs → ∀ data, v above ≠ some (.file data)
  parent : ∀ data, src [] = some (.file data) → ∀ above n, qs = above ++ [n] → v above ≠ none

/-- A file may be written where it fits. -/
theorem Fits.canWrite {src v : View} (h : Fits src v qs) (hv : v.IsTree) {data : ByteArray}
    (hfile : src [] = some (.file data)) : v.CanWrite qs := by
  have hnot : v qs ≠ some .directory := by
    intro hd
    have hkinds := h.kinds [] _ _ hfile (by rwa [List.append_nil])
    cases hkinds
  rcases List.eq_nil_or_concat qs with rfl | ⟨above, n, rfl⟩
  · exact absurd hv.root hnot
  · rw [List.concat_eq_append] at *
    have hthere := h.parent data hfile above n rfl
    have hfree := h.free above (List.prefix_append _ _) (by simp)
    rcases hx : v above with _ | _ | data'
    · exact absurd hx hthere
    · exact ⟨⟨above, n, rfl, hx⟩, hnot⟩
    · exact absurd hx (hfree data')

/-- A directory may be made where it fits. -/
theorem Fits.canMakeAll {src v : View} (h : Fits src v qs) (hdir : src [] = some .directory) :
    v.CanMakeAll qs := by
  intro above hp data hv
  by_cases he : above = qs
  · have hkinds := h.kinds [] _ _ hdir (by rw [List.append_nil, ← he]; exact hv)
    cases hkinds
  · exact h.free above hp he data hv

/-- **What a copy leaves elsewhere** is everything as it was, but that the missing directories above
a copied directory are there. -/
theorem Fits.copied_elsewhere {src v : View} (h : Fits src v qs) {ns : List String}
    (hns : ∀ rel, ns = qs ++ rel → src rel = none) :
    v.copied qs src ns = v ns ∨ src [] = some .directory ∧ ns <+: qs ∧ v ns = none ∧
      v.copied qs src ns = some .directory := by
  rcases View.copied_of_none hns with hsame | ⟨hdir, hp, hmade⟩
  · exact .inl hsame
  · have hne : ns ≠ qs := fun he => h.there (hns [] (by rw [he, List.append_nil]))
    rcases hx : v ns with _ | _ | data
    · exact .inr ⟨hdir, hp, rfl, hmade⟩
    · exact .inl hmade
    · exact absurd hx (h.free ns hp hne data)

/-- **A child fits its place** in a directory where the entries below have the same kinds. -/
theorem fits_child {src v : View} (hv : v.IsTree) (hd : v qs = some .directory) {n : String}
    (hthere : src [n] ≠ none)
    (hkinds : ∀ rel x y, src (n :: rel) = some x → v (qs ++ n :: rel) = some y →
      x.isDirectory = y.isDirectory) : Fits (src.below [n]) v (qs ++ [n]) where
  there := hthere
  kinds rel x y hx hy := hkinds rel x y hx (by rwa [List.append_cons])
  free above hp hne data hfile := by
    have hp := (List.prefix_concat_iff.1 hp).resolve_left hne
    have hdir := View.canMakeAll_of_directory hv hd
    exact hdir above hp data hfile
  parent data _ above m he := by
    obtain ⟨rfl, -⟩ := List.append_inj' he rfl
    rw [hd]
    exact Option.some_ne_none _

/-! ## 2. The source meanwhile -/

/-- **A source lies apart from a destination**: in another tree, or neither place is at or below the
other. -/
def Apart (s t : Store) (ps qs : List String) : Prop :=
  s.SharesTree t → ¬ ps <+: qs ∧ ¬ qs <+: ps

/-- Nothing of the source is at or below the destination, -/
theorem Apart.not_prefix_below (h : Apart s t ps qs) (hs : s.SharesTree t) {under : List String}
    (hu : qs <+: under) (rel : List String) : ¬ under <+: ps ++ rel := by
  intro hp
  rcases List.prefix_or_prefix_of_prefix (List.prefix_append ps rel) (hu.trans hp) with hps | hqs
  · exact (h hs).1 hps
  · exact (h hs).2 hqs

/-- nor above it. -/
theorem Apart.not_prefix_above (h : Apart s t ps qs) (hs : s.SharesTree t) (rel : List String) :
    ¬ ps ++ rel <+: qs :=
  fun hp => (h hs).1 ((List.prefix_append ps rel).trans hp)

/-- The entries lie apart as well. -/
theorem Apart.child (h : Apart s t ps qs) (n m : String) : Apart s t (ps ++ [n]) (qs ++ [m]) := by
  intro hs
  refine ⟨fun hp => ?_, h.not_prefix_below hs (List.prefix_append qs [m]) [n]⟩
  rcases List.prefix_concat_iff.1 hp with he | hp
  · obtain ⟨rfl, -⟩ := List.append_inj' he rfl
    exact (h hs).1 (List.prefix_refl _)
  · exact h.not_prefix_above hs [n] hp

theorem sharesTree_symm {s t : Store} (h : s.SharesTree t) : t.SharesTree s :=
  ⟨h.1.symm, fun hk => (h.2 (h.1.symm.trans hk)).symm⟩

/-- **A source apart from a change stays as it is**: in another tree, or below a place of the same
tree where nothing changed. -/
theorem exists_source {st st' : Storage} {src : View} (hf : st.Holds s f)
    (hsrc : f.view.below ps = src) (hd : st.Holds t d) {d' : MemoryTree} (hd' : st'.Holds t d')
    (hchanged : Storage.ChangedOnly t st st')
    (hsame : s.SharesTree t → ∀ rel, d'.view (ps ++ rel) = d.view (ps ++ rel)) :
    ∃ f', st'.Holds s f' ∧ f'.view.below ps = src := by
  by_cases hshare : s.SharesTree t
  · refine ⟨d', hd'.of_sharesTree hshare, funext fun rel => ?_⟩
    have hview : d.view = f.view := hd.view_unique (hf.of_sharesTree (sharesTree_symm hshare))
    rw [← hsrc, ← hview]
    exact hsame hshare rel
  · exact ⟨f, hf.of_changedOnly hshare hchanged, hsrc⟩

/-! ## 3. A file -/

/-- **Copying a file** is writing what it holds. -/
theorem record_copyAll_leaf (hc : w.cancelled token = none) (hl : source.LeadsTo w s ps)
    (ht : target.LeadsTo w t qs) (hf : w.storage.Holds s f) {data : ByteArray}
    (hat : f.at? ps = some (.leaf data)) (depth : Nat) :
    w.record token (copyAll (depth + 1) source target : Traversal Out Unit) =
      w.record token (Traversal.call t (Path.ofNames qs) (.write (Path.ofNames qs) data)) := by
  obtain ⟨info, hask, hfile⟩ := hf.ask_stat_of_at? hl.names hat
  have hread := hf.ask_read hl.names (Forest.view_eq_file_iff.2 hat)
  unfold copyAll
  refine (hl.record_resolve_bind _).trans ?_
  refine (ht.record_resolve_bind _).trans ?_
  dsimp only
  rw [Handle.require_of_isMounted hl.mounted, Handle.require_of_isMounted ht.mounted]
  refine (World.record_call_of_ok hc (World.ask_of_storage hask) _).trans ?_
  dsimp only
  rw [hfile]
  exact World.record_call_of_ok hc (World.ask_of_storage hread) _

/-- It lays the file over the destination. -/
theorem leaves_copyAll_leaf (hc : w.cancelled token = none) (hl : source.LeadsTo w s ps)
    (ht : target.LeadsTo w t qs) (hf : w.storage.Holds s f) (hd : w.storage.Holds t d)
    {data : ByteArray} (hat : f.at? ps = some (.leaf data))
    (hfit : Fits (f.view.below ps) d.view qs) (depth : Nat) :
    (w.record token (copyAll (depth + 1) source target : Traversal Out Unit)).Leaves w t
      (d.view.copied qs (f.view.below ps)) := by
  have hnames := Path.names_ofNames ht.names
  have hfile : f.view.below ps [] = some (.file data) := by
    rw [View.below, List.append_nil, Forest.view, hat]
    rfl
  have hbelow : ∀ n ns, f.view.below ps (n :: ns) = none := by
    intro n ns
    rw [View.below, Forest.view_append, hat]
    rfl
  have htidy : Call.IsTidy (.write (Path.ofNames qs) data) := Path.tidy_ofNames ht.names
  have hal : d.view.CanWrite (Path.names (Path.ofNames qs)) := by
    rw [hnames]
    exact hfit.canWrite d.isTree_view hfile
  have hnot : f.view.below ps [] ≠ some .directory := by
    rw [hfile]
    intro he
    cases he
  rw [record_copyAll_leaf hc hl ht hf hat, ← Traversal.bind_done (Traversal.call t _ _)]
  refine Record.leaves_call_bind hc hd htidy hal _ fun _ st d' _ hd' hview _ => ?_
  have hafter : d'.view = d.view.copied qs (f.view.below ps) := by
    rw [hview, View.after, hnames, View.put_file_eq_overlay hfile hbelow,
      View.copied_of_ne_directory _ _ hnot]
  rw [← hafter]
  exact Record.leaves_done hd'

/-! ## 4. A directory -/

/-- **Copies at a depth go well**: wherever a source fits that is no deeper and lies apart, the
destination is left with the source laid over it. -/
def GoesWell (Out : Type) (token : Option Nat) (s t : Store) (depth : Nat) : Prop :=
  ∀ {w : World} {source target : Handle} {f d : MemoryTree} {ps qs : List String},
    w.cancelled token = none → source.LeadsTo w s ps → target.LeadsTo w t qs →
    w.storage.Holds s f → w.storage.Holds t d → Fits (f.view.below ps) d.view qs →
    (∀ rel, f.view (ps ++ rel) ≠ none → rel.length < depth) → Apart s t ps qs →
    (w.record token (copyAll depth source target : Traversal Out Unit)).Leaves w t
      (d.view.copied qs (f.view.below ps))

/-- Copying one entry of a directory to the entry of the same name. -/
def copyEntry (depth : Nat) (source target : Handle) (name : String) : Traversal Out Unit :=
  (source.join [name]).bind fun below => (target.join [name]).bind (copyAll depth below)

/-- **Copying entries of a directory**, one after the other, lays each of them over the entry of the
same name.  The source looks the same before each of them, and what was laid over other entries does
not matter for the next one. -/
theorem leaves_copyEach {depth : Nat} (hgoes : GoesWell Out token s t depth)
    (hc : w.cancelled token = none) (hl : source.LeadsTo w s ps) (ht : target.LeadsTo w t qs)
    (hf : w.storage.Holds s f) (hd : w.storage.Holds t d) {src : View}
    (hsrc : f.view.below ps = src) (hdir : d.view qs = some .directory) {names : List String}
    (hnodup : names.Nodup) (hthere : ∀ n ∈ names, src [n] ≠ none)
    (hkinds : ∀ n ∈ names, ∀ rel x y, src (n :: rel) = some x → d.view (qs ++ n :: rel) = some y →
      x.isDirectory = y.isDirectory)
    (hdepth : ∀ rel, src rel ≠ none → rel.length < depth + 1) (hapart : Apart s t ps qs) :
    (w.record token (Traversal.forEach (copyEntry depth source target) names :
      Traversal Out Unit)).Leaves w t (d.view.overlayAll qs src names) := by
  induction names generalizing w f d with
  | nil => exact Record.leaves_done hd
  | cons n names ih =>
    obtain ⟨hnot, hnodup⟩ := List.nodup_cons.1 hnodup
    have hhere : f.view (ps ++ [n]) ≠ none := by
      have hn := hthere n List.mem_cons_self
      rwa [← hsrc] at hn
    have hname := (Path.areNames_append_singleton.1 (Forest.areNames_of_view hf.orderly hhere)).2
    have hchild : f.view.below (ps ++ [n]) = src.below [n] := by
      rw [← hsrc, View.below_below]
    have hfit : Fits (src.below [n]) d.view (qs ++ [n]) :=
      fits_child d.isTree_view hdir (hthere n List.mem_cons_self) (hkinds n List.mem_cons_self)
    have hfirst : (w.record token (copyEntry depth source target n : Traversal Out Unit)).Leaves w t
        (d.view.overlay (qs ++ [n]) (src.below [n])) := by
      unfold copyEntry
      rw [hl.record_join_bind hname, ht.record_join_bind hname,
        ← View.copied_eq_overlay d.isTree_view hdir hfit.there, ← hchild]
      refine hgoes hc (hl.below hname) (ht.below hname) hf hd (hchild ▸ hfit) (fun rel hrel => ?_)
        (hapart.child n n)
      have hlt := hdepth (n :: rel) (by rwa [← hsrc, View.below, List.append_cons])
      exact Nat.lt_of_succ_lt_succ hlt
    refine hfirst.bind fun st d' hd' hview hchanged => ?_
    obtain ⟨f', hf', hsrc'⟩ := exists_source hf hsrc hd hd' hchanged fun hs rel => by
      rw [hview]
      exact View.overlay_elsewhere
        (hapart.not_prefix_below hs (List.prefix_append qs [n]) rel) _
    have hother : ∀ m ∈ names, ∀ rel, d'.view (qs ++ m :: rel) = d.view (qs ++ m :: rel) := by
      intro m hm rel
      rw [hview]
      refine View.overlay_elsewhere ?_ _
      have hm' : qs ++ [m] <+: qs ++ m :: rel := ⟨rel, (List.append_cons qs m rel).symm⟩
      exact Forest.not_prefix_of_ne (List.prefix_refl _) hm' fun he => hnot (he ▸ hm)
    have hdir' : d'.view qs = some .directory := by
      rw [hview, View.overlay_elsewhere, hdir]
      exact View.not_prefix_above qs n
    have hnext := ih (w := { w with storage := st }) hc (hl.with_storage st) (ht.with_storage st)
      hf' hd' hsrc' hdir' hnodup
      (fun m hm => hthere m (List.mem_cons_of_mem n hm)) fun m hm rel x y hx hy =>
        hkinds m (List.mem_cons_of_mem n hm) rel x y hx (hother m hm rel ▸ hy)
    rw [hview] at hnext
    exact hnext

/-- **Copying a directory** makes the destination a directory and then copies the entries. -/
theorem record_copyAll_folder (hc : w.cancelled token = none) (hl : source.LeadsTo w s ps)
    (ht : target.LeadsTo w t qs) (hf : w.storage.Holds s f) {inside : Forest ByteArray}
    (hat : f.at? ps = some (.folder inside)) (depth : Nat) :
    w.record token (copyAll (depth + 1) source target : Traversal Out Unit) =
      w.record token ((Traversal.call t (Path.ofNames qs) (.makeDir (Path.ofNames qs) true)).bind
        fun _ => (Listing.bounded source (-1) []).bind
          (Traversal.forEach fun entry : Entry => copyEntry depth source target entry.name)) := by
  obtain ⟨info, hask, hfolder⟩ := hf.ask_stat_of_at? hl.names hat
  conv_lhs => unfold copyAll
  refine (hl.record_resolve_bind _).trans ?_
  refine (ht.record_resolve_bind _).trans ?_
  dsimp only
  rw [Handle.require_of_isMounted hl.mounted, Handle.require_of_isMounted ht.mounted]
  refine (World.record_call_of_ok hc (World.ask_of_storage hask) _).trans ?_
  dsimp only
  rw [hfolder, Handle.require_of_isMounted ht.mounted]
  rfl

/-- It lays the directory over the destination. -/
theorem leaves_copyAll_folder {depth : Nat} (hgoes : GoesWell Out token s t depth)
    (hc : w.cancelled token = none) (hl : source.LeadsTo w s ps) (ht : target.LeadsTo w t qs)
    (hf : w.storage.Holds s f) (hd : w.storage.Holds t d) {inside : Forest ByteArray}
    (hat : f.at? ps = some (.folder inside)) (hfit : Fits (f.view.below ps) d.view qs)
    (hdepth : ∀ rel, f.view (ps ++ rel) ≠ none → rel.length < depth + 1) (hapart : Apart s t ps qs) :
    (w.record token (copyAll (depth + 1) source target : Traversal Out Unit)).Leaves w t
      (d.view.copied qs (f.view.below ps)) := by
  have hnames := Path.names_ofNames ht.names
  have hfolder : f.view.below ps [] = some .directory := by
    rw [View.below, List.append_nil]
    exact Forest.view_eq_directory_iff.2 ⟨inside, hat⟩
  have htidy : Call.IsTidy (.makeDir (Path.ofNames qs) true) := Path.tidy_ofNames ht.names
  have hal : d.view.CanMakeAll (Path.names (Path.ofNames qs)) := by
    rw [hnames]
    exact hfit.canMakeAll hfolder
  rw [record_copyAll_folder hc hl ht hf hat, View.copied_of_directory _ _ hfolder]
  refine Record.leaves_call_bind hc hd htidy hal _ fun _ st d' _ hd' hview hchanged => ?_
  have hview : d'.view = d.view.makeAll qs := by rw [hview, View.after, hnames]
  obtain ⟨f', hf', hsrc⟩ := exists_source hf rfl hd hd' hchanged fun hs rel => by
    rw [hview, View.makeAll, if_neg (hapart.not_prefix_above hs rel)]
  have hdir : f'.view ps = some .directory := by
    rw [← hfolder, ← hsrc, View.below, List.append_nil]
  obtain ⟨inside', hat'⟩ := Forest.view_eq_directory_iff.1 hdir
  have hinside := (Forest.orderly_of_at? hf'.orderly hat').1
  have hmem : ∀ n, n ∈ inside'.toList.map Prod.fst ↔ f.view.below ps [n] ≠ none := by
    intro n
    rw [Forest.mem_names_iff hinside hat', ← hsrc]
    rfl
  have hall : ∀ n ns, f.view.below ps (n :: ns) ≠ none → n ∈ inside'.toList.map Prod.fst := by
    intro n ns hne
    rw [Forest.mem_names_iff hinside hat']
    intro hnone
    rw [← hsrc, View.below, List.append_cons] at hne
    exact hne (f'.isTree_view.none_of_prefix (List.prefix_append _ ns) hnone)
  have hhere : d'.view qs = some .directory := by
    rw [hview, View.makeAll, if_pos (List.prefix_refl _)]
  have hkinds : ∀ n ∈ inside'.toList.map Prod.fst, ∀ rel x y, f.view.below ps (n :: rel) = some x →
      d'.view (qs ++ n :: rel) = some y → x.isDirectory = y.isDirectory := by
    intro n _ rel x y hx hy
    have hlong : ¬ qs ++ n :: rel <+: qs := fun hp => by
      have hle : qs.length + (rel.length + 1) ≤ qs.length := by simpa using hp.length_le
      omega
    rw [hview, View.makeAll, if_neg hlong] at hy
    exact hfit.kinds (n :: rel) x y hx hy
  have hnone : Listing.readNames [] = .ok [] := rfl
  have hbounded : World.record { w with storage := st } token
      (Listing.bounded source (-1) [] : Traversal Out (List Entry)) = _ :=
    Listing.record_bounded (w := { w with storage := st }) hc (hl.with_storage st) hf' hat' hnone
  have hnames : ((Storage.entriesOf inside').filter fun e => Pattern.passes [] e.name).map
      Entry.name = inside'.toList.map Prod.fst := by
    have hkept : ((Storage.entriesOf inside').filter fun e => Pattern.passes [] e.name) =
        Storage.entriesOf inside' := List.filter_eq_self.2 fun _ _ => rfl
    rw [hkept, Storage.entriesOf, List.map_map]
    rfl
  rw [World.record_bind_of_finished _ token hbounded, Record.behind_nil, ← hview,
    ← View.overlay_children hhere hfolder hall, ← hnames, ← Traversal.forEach_map]
  rw [← hnames] at hmem hkinds
  exact leaves_copyEach (w := { w with storage := st }) hgoes hc (hl.with_storage st)
    (ht.with_storage st) hf' hd' hsrc hhere
    (hnames ▸ Forest.nodup_names hinside) (fun n hn => (hmem n).1 hn) hkinds hdepth hapart

/-! ## 5. Whole copies -/

/-- **Copies go well at every depth.**  By induction on the depth. -/
theorem goesWell (depth : Nat) : GoesWell Out token s t depth := by
  induction depth with
  | zero =>
    intro w source target f d ps qs _ _ _ _ _ hfit hdepth
    have hthere : f.view (ps ++ []) ≠ none := hfit.there
    exact absurd (hdepth [] hthere) (Nat.not_lt_zero _)
  | succ depth ih =>
    intro w source target f d ps qs hc hl ht hf hd hfit hdepth hapart
    have hthere : f.at? ps ≠ none := by
      intro hnone
      refine hfit.there ?_
      rw [View.below, List.append_nil]
      exact Forest.view_eq_none_iff.2 hnone
    rcases hat : f.at? ps with _ | data | inside
    · exact absurd hat hthere
    · exact leaves_copyAll_leaf hc hl ht hf hd hat hfit depth
    · exact leaves_copyAll_folder ih hc hl ht hf hd hat hfit hdepth hapart

/-- **Copying is lossless and touches nothing else.**  Two handles resolve to tidy paths of stores
in memory or in tables; no mount begins with the mount of one of them and a slash, whatever other
stores there are, their trees were built at tidy paths, and the stores have different trees or
neither path is at or below the other.  When the source fits its destination, then copying ends well
at every depth that is more than the number of entries, and afterwards
* whatever stood at and below the source stands at and below the destination;
* everything else in the tree of the destination is as it was, but that the missing directories
  above a copied directory are there, and all of them are;
* the tree of the source is as it was outside the destination, in the same sense;
* no other tree has changed. -/
theorem copy_lossless (w : World) (token : Option Nat) (hc : w.cancelled token = none)
    (source target : Handle) (hg : (w.registry source.registryNumber).Grown)
    (hg' : (w.registry target.registryNumber).Grown) (s t : Store) (p q : String)
    (hs : s.IsMounted) (ht : t.IsMounted) (halone : (w.registry source.registryNumber).Alone s)
    (halone' : (w.registry target.registryNumber).Alone t)
    (hresolve : w.record token (source.resolve : Traversal Out (Store × String)) =
      ⟨.finished (s, p), [], w⟩)
    (hresolve' : w.record token (target.resolve : Traversal Out (Store × String)) =
      ⟨.finished (t, q), [], w⟩)
    (hp : Path.Tidy p) (hq : Path.Tidy q) (hb : w.storage.Built s) (hb' : w.storage.Built t)
    (hapart : Apart s t (Path.names p) (Path.names q)) :
    ∃ f d, w.storage.Holds s f ∧ w.storage.Holds t d ∧
      (Fits (f.view.below (Path.names p)) d.view (Path.names q) → ∀ depth, f.count < depth →
        ∃ st f' d', w.run token (copyAll depth source target : Traversal Out Unit) =
            (.finished ([], ()), { w with storage := st }) ∧
          st.Holds s f' ∧ st.Holds t d' ∧
          (∀ rel, f.view (Path.names p ++ rel) ≠ none →
            d'.view (Path.names q ++ rel) = f.view (Path.names p ++ rel)) ∧
          (∀ ns, (∀ rel, ns = Path.names q ++ rel → f.view (Path.names p ++ rel) = none) →
            d'.view ns = d.view ns ∨ f.view (Path.names p) = some .directory ∧
              ns <+: Path.names q ∧ d.view ns = none ∧ d'.view ns = some .directory) ∧
          (f.view (Path.names p) = some .directory →
            ∀ ns, ns <+: Path.names q → d'.view ns = some .directory) ∧
          (∀ ns, ¬ (s.SharesTree t ∧ Path.names q <+: ns) →
            f'.view ns = f.view ns ∨ s.SharesTree t ∧ f.view (Path.names p) = some .directory ∧
              ns <+: Path.names q ∧ f.view ns = none ∧ f'.view ns = some .directory) ∧
          Storage.ChangedOnly t w.storage st) := by
  obtain ⟨f, hf⟩ := hb.exists_holds
  obtain ⟨d, hd⟩ := hb'.exists_holds
  have hl := Handle.leadsTo_of_record hg hs halone hresolve hp
  have hl' := Handle.leadsTo_of_record hg' ht halone' hresolve' hq
  have hroot : f.view.below (Path.names p) [] = f.view (Path.names p) := by
    rw [View.below, List.append_nil]
  refine ⟨f, d, hf, hd, fun hfit depth hdepth => ?_⟩
  have hdeep : ∀ rel, f.view (Path.names p ++ rel) ≠ none → rel.length < depth := by
    intro rel hrel
    have hle := Forest.length_le_count hrel
    rw [List.length_append] at hle
    omega
  obtain ⟨st, d', hr, hd', hv, hchanged⟩ : (w.record token (copyAll depth source target :
      Traversal Out Unit)).Leaves w t _ := goesWell depth hc hl hl' hf hd hfit hdeep hapart
  have hrun : w.run token (copyAll depth source target : Traversal Out Unit) =
      (.finished ([], ()), { w with storage := st }) := by
    rw [World.run_eq_of_record, hr]
  have hcopied : ∀ rel, f.view (Path.names p ++ rel) ≠ none →
      d'.view (Path.names q ++ rel) = f.view (Path.names p ++ rel) := fun rel hrel => by
    have hthere : f.view.below (Path.names p) rel ≠ none := hrel
    rw [hv]
    exact View.copied_append hthere
  have helsewhere : ∀ ns, (∀ rel, ns = Path.names q ++ rel → f.view (Path.names p ++ rel) = none) →
      d'.view ns = d.view ns ∨ f.view (Path.names p) = some .directory ∧
        ns <+: Path.names q ∧ d.view ns = none ∧ d'.view ns = some .directory := by
    intro ns hns
    rw [hv, ← hroot]
    exact hfit.copied_elsewhere hns
  have habove : f.view (Path.names p) = some .directory →
      ∀ ns, ns <+: Path.names q → d'.view ns = some .directory := by
    intro hdir ns hns
    rw [hv]
    exact View.copied_of_prefix (hroot.trans hdir) hns
  by_cases hshare : s.SharesTree t
  · have hsame : d.view = f.view := hd.view_unique (hf.of_sharesTree (sharesTree_symm hshare))
    refine ⟨st, d', d', hrun, hd'.of_sharesTree hshare, hd', hcopied, helsewhere, habove,
      fun ns hns => ?_, hchanged⟩
    have hout : ∀ rel, ns = Path.names q ++ rel → f.view (Path.names p ++ rel) = none :=
      fun rel he => absurd ⟨hshare, rel, he.symm⟩ hns
    have hsaid := helsewhere ns hout
    rw [hsame] at hsaid
    exact hsaid.imp_right fun h => ⟨hshare, h⟩
  · exact ⟨st, f, d', hrun, hf.of_changedOnly hshare hchanged, hd', hcopied, helsewhere, habove,
      fun ns _ => .inl rfl, hchanged⟩

theorem fits_small : Fits ((World.small.storage.memory 2).view.below ["b"])
    (World.small.storage.memory 2).view ["c"] where
  there := Option.some_ne_none _
  kinds rel x y _ hy := by cases hy
  free above hp hne data hfile := by
    rcases List.prefix_concat_iff.1 (show above <+: [] ++ ["c"] from hp) with he | hp
    · exact hne he
    · obtain rfl := List.prefix_nil.1 hp
      cases hfile
  parent data hfile := by cases hfile

/-- A directory is copied beside itself, with the file in it. -/
theorem copy_lossless_small :
    ∃ st f, World.small.run none (copyAll 3 ⟨"mem://a/b", none⟩ ⟨"mem://a/c", none⟩ :
        Traversal Empty Unit) = (.finished ([], ()), { World.small with storage := st }) ∧
      st.Holds ⟨2, "mem://a", .memory⟩ f ∧ f.view ["c"] = some .directory ∧
      f.view ["c", "x"] = some (.file .empty) ∧ f.view ["b", "x"] = some (.file .empty) := by
  have hsource : (World.small.registry commonRegistry).place "mem://a/b" =
      (⟨2, "mem://a", .memory⟩, "/b") := by decide +kernel
  have htarget : (World.small.registry commonRegistry).place "mem://a/c" =
      (⟨2, "mem://a", .memory⟩, "/c") := by decide +kernel
  have hb : Path.names "/b" = ["b"] := by decide +kernel
  have hc : Path.names "/c" = ["c"] := by decide +kernel
  obtain ⟨f, d, hf, hd, hrun⟩ := @copy_lossless Empty World.small none rfl
    ⟨"mem://a/b", none⟩ ⟨"mem://a/c", none⟩ World.reachable_small.grown World.reachable_small.grown
    ⟨2, "mem://a", .memory⟩ ⟨2, "mem://a", .memory⟩ "/b" "/c" (.memory 2 "a") (.memory 2 "a")
    (by decide +kernel) (by decide +kernel) (World.record_resolve_small hsource)
    (World.record_resolve_small htarget) (by decide) (by decide) World.built_small
    World.built_small fun _ => by rw [hb, hc]; decide
  obtain rfl : World.small.storage.memory 2 = f := hf.1
  obtain rfl : World.small.storage.memory 2 = d := hd.1
  rw [hb, hc] at hrun
  obtain ⟨st, f', d', hr, -, hd', hcopied, helsewhere, -⟩ := 
    hrun fits_small 3 (by decide +kernel)
  have hkept := helsewhere ["b", "x"] fun rel he => by
    have hhead := List.head_eq_of_cons_eq he
    exact absurd hhead (by decide)
  refine ⟨st, d', hr, hd', hcopied [] (Option.some_ne_none _), hcopied ["x"] (Option.some_ne_none _),
    ?_⟩
  rcases hkept with hsame | ⟨-, hp, -⟩
  · exact hsame
  · exact absurd hp (by decide)

end Arboretum.Copying
