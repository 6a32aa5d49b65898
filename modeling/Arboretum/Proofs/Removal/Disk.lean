import Mathlib.Logic.Relation
import Arboretum.Proofs.Removal.Frame
import Arboretum.Proofs.Store.Losing

/-!
# Removing directories on the disk

A walk decides by what a path leads to, so it goes on behind a link to a directory; and what it finds
there is removed, too.  `Disk.Enters` says which directories it can come to.  Removing everything at
a handle loses the place of the handle and entries of these directories, and nothing else, wherever
the run is stopped (`removal_confined`).  If no link in the directory leads to a directory elsewhere,
that is the place and what it contains.  But a link that does leads the removal out of the directory
(`not_confined_linked`).

That is no more than one invariant of the removal: whatever set of directories the walk does not
leave, the removal does not leave it either (`along_removeAll_confined`).  What the walk hands out is
held by such directories (`Disk.HeldBy`); losing entries leads a path nowhere else, so each of them is
still held by them when its turn comes.
-/

namespace Arboretum

open Disk (Names moves fieldsOf start)

/-! ## 1. Where a walk can come to -/

namespace Disk

variable {d : Disk} {dirs : List String → Prop} {path : String} {place : List String}

/-- **From a directory one enters another one** by the name of an entry, links followed. -/
def Enters (d : Disk) (dir next : List String) : Prop := ∃ name, Names name ∧ d.Leads dir [name] next

/-- Directories that one does not leave by entering. -/
def Closed (d : Disk) (dirs : List String → Prop) : Prop :=
  ∀ dir next, dirs dir → d.Enters dir next → dirs next

/-- **A place and all below it** are closed, unless a link in one of these directories leads to a
directory elsewhere. -/
theorem closed_of_links (hlinks : ∀ dir name next, place <+: dir → d.IsLinkAt (dir ++ [name]) →
    d.Leads dir [name] next → place <+: next) : d.Closed (place <+: ·) := by
  rintro dir next hdir ⟨name, hname, hleads⟩
  rcases hleads.of_name hname with ⟨-, rfl⟩ | ⟨target, hat, -⟩
  · exact hdir.trans (List.prefix_append _ _)
  · exact hlinks dir name next hdir ⟨target, hat⟩ hleads

/-- The place itself, and whatever stands in one of the directories. -/
def Within (dirs : List String → Prop) (place ns : List String) : Prop :=
  ns = place ∨ ∃ dir name, dirs dir ∧ ns = dir ++ [name]

/-- The directory that a normal path leads to, if it leads to one, is one of these. -/
def LeadsInto (d : Disk) (dirs : List String → Prop) (path : String) : Prop :=
  Path.IsNormal path.toList ∧
    ∀ dir, d.Leads (start d.cwd path) (moves (fieldsOf path)) dir → dirs dir

/-- The directory that holds the last name of a normal path, if there is one, is one of these. -/
def HeldBy (d : Disk) (dirs : List String → Prop) (path : String) : Prop :=
  Path.IsNormal path.toList ∧ ∃ fs name, moves (fieldsOf path) = fs ++ [name] ∧ Names name ∧
    ∀ dir, d.Leads (start d.cwd path) fs dir → dirs dir

/-- What is held by closed directories leads into them. -/
theorem HeldBy.leadsInto (h : d.HeldBy dirs path) (hclosed : d.Closed dirs) :
    d.LeadsInto dirs path := by
  obtain ⟨hnormal, fs, name, hmoves, hname, hdirs⟩ := h
  refine ⟨hnormal, fun dir hleads => ?_⟩
  rw [hmoves] at hleads
  obtain ⟨between, hfs, hlast⟩ := hleads.exists_between
  exact hclosed between dir (hdirs between hfs) ⟨name, hname, hlast⟩

/-- A path one name below is held where the path leads to. -/
theorem LeadsInto.heldBy_name (h : d.LeadsInto dirs path) {name : String}
    (hn : Path.IsPlain name.toList) : d.HeldBy dirs (Path.hostJoin [path, name]) := by
  obtain ⟨hnormal, hdirs⟩ := h
  have hbelow := Path.hostJoin_name hnormal hn
  have hstart : start d.cwd (Path.hostJoin [path, name]) = start d.cwd path :=
    if_congr hbelow.rooted_iff rfl rfl
  refine ⟨hbelow.normal, moves (fieldsOf path), name, ?_, names_of_isPlain hn, ?_⟩
  · rw [moves_fieldsOf, moves_fieldsOf, hbelow.steps_eq, List.map_append, List.map_singleton,
      String.ofList_toList]
  · rw [hstart]
    exact hdirs

/-- A normal path without links leads to its place. -/
theorem leadsInto_of_free (hnormal : Path.IsNormal path.toList)
    (hfree : ∀ ns, ns <+: d.placeOf path → ¬ d.IsLinkAt ns) (hplace : dirs (d.placeOf path)) :
    d.LeadsInto dirs path :=
  ⟨hnormal, fun _ hleads => hleads.eq_placeOf hnormal hfree ▸ hplace⟩

end Disk

namespace Removal

variable {Out : Type} {J : Out → Prop} {w w' : World} {h : Handle} {s : Store} {path : String}
  {dirs : List String → Prop} {gone : List String → Prop} {d : Disk}

/-! ## 2. The store on the disk -/

/-- Normal paths are paths of a store on the disk, and it leaves them alone. -/
theorem joined_of_isNormal (hk : s.kind = .disk) (hn : Path.IsNormal path.toList) :
    s.IsPath path ∧ s.joined [path] = path := by
  have hjoined : s.joined [path] = path := by
    rw [Store.joined_of_disk hk]
    show String.ofList (Path.hostJoinChars [path.toList]) = path
    rw [Path.hostJoinChars_of_isNormal hn, String.ofList_toList]
  refine ⟨⟨fun he => ?_, [path], hjoined.symm⟩, hjoined⟩
  subst he
  exact hn.ne_nil rfl

/-- In a sound registry only the home store is on the disk. -/
theorem eq_home_of_place {g : Registry} {uri : String} (hg : g.Sound) (hk : s.kind = .disk)
    (hplace : g.place uri = (s, path)) : s = g.home ∧ s.IsPath path := by
  obtain ⟨hknows, hpath⟩ := hg.of_place hplace (by rw [hk]; exact nofun)
  refine ⟨hknows.resolve_right fun ⟨_, hmounted⟩ => ?_, hpath⟩
  cases hmounted <;> cases hk

/-- The disk after a removal. -/
theorem lost_ask_remove (hk : s.kind = .disk) (hlost : d.Lost gone w'.storage.disk)
    (hin : ∀ fs name above, moves (fieldsOf path) = fs ++ [name] → Names name →
      d.Leads (start d.cwd path) fs above → gone (above ++ [name])) :
    d.Lost gone (w'.ask s (.remove path)).2.storage.disk := by
  have hdisk : (w'.ask s (.remove path)).2.storage.disk =
      (Changed.whole w'.storage.disk (w'.storage.disk.remove path)).2 := by
    show (w'.storage.ask s (.remove path)).2.disk = _
    unfold Storage.ask
    rw [hk]
    rfl
  rw [hdisk]
  cases hremove : w'.storage.disk.remove path with
  | error f => exact hlost
  | ok d' => exact hlost.remove hremove hin

/-- What a walk on the disk meets below a path of closed directories is held by them. -/
theorem heldBy_of_meets (hs : s.IsHome) (hk : s.kind = .disk) (hp : w.storage.disk.root.Plain)
    (hleads : w.storage.disk.LeadsInto dirs path) {below : String}
    (hm : Walk.Meets w s path below) : w.storage.disk.HeldBy dirs below := by
  obtain ⟨entries, hlist, e, he, hjoin⟩ := hm
  have hask : w.storage.disk.list path [] = .ok entries := by
    rw [← hlist]
    show _ = (w.storage.ask s (.list path [])).1
    unfold Storage.ask
    rw [hk]
    rfl
  have hbelow : below = Path.hostJoin [path, e.name] := by
    rw [hs.ask_join] at hjoin
    exact (Except.ok.inj hjoin).symm.trans (Store.joined_of_disk hk _)
  rw [hbelow]
  exact hleads.heldBy_name (Disk.isPlain_of_list hp hask he)

/-! ## 3. Along a removal -/

/-- **All changes since a world stay on the disk, at a place or in some directories**, and entries
only get lost there. -/
structure Confined (w : World) (s : Store) (dirs : List String → Prop) (place : List String)
    (w' : World) : Prop extends OnlyChanged w s w' where
  disk : w.storage.disk.Lost (Disk.Within dirs place) w'.storage.disk

/-- Removing at a path that is held by the directories keeps to them. -/
theorem Confined.remove {place : List String} (hk : s.kind = .disk)
    (h : Confined w s dirs place w') (hheld : w.storage.disk.HeldBy dirs path) :
    Confined w s dirs place (w'.ask s (.remove path)).2 := by
  obtain ⟨-, gs, last, hsplit, -, hdirs⟩ := hheld
  refine ⟨h.toOnlyChanged.ask _, lost_ask_remove hk h.disk fun fs name above hmoves hname hleads => ?_⟩
  obtain ⟨rfl, hlast⟩ := List.append_inj' (hmoves.symm.trans hsplit) rfl
  exact .inr ⟨above, name, hdirs above hleads, rfl⟩

/-- **Removing everything on the disk** loses the place of the handle and entries of the directories
that the walk can come to, as long as no link stands at the place or above it. -/
theorem along_removeAll_confined (hg : (w.registry h.registryNumber).Sound) (hk : s.kind = .disk)
    (hplace : (w.registry h.registryNumber).place h.uri = (s, path))
    (hd : w.storage.disk.Sound)
    (hfree : ∀ ns, ns <+: w.storage.disk.placeOf path → ¬ w.storage.disk.IsLinkAt ns)
    (hclosed : w.storage.disk.Closed dirs) (hdirs : dirs (w.storage.disk.placeOf path))
    (budget : Nat) :
    (removeAll budget h : Traversal Out Unit).Along
      (Confined w s dirs (w.storage.disk.placeOf path)) J
      (fun _ => Confined w s dirs (w.storage.disk.placeOf path)) w := by
  obtain ⟨hhome, hpath⟩ := eq_home_of_place hg hk hplace
  have hs : s.IsHome := hhome ▸ hg.home
  have hnormal := Store.isNormal_of_isPath hk hpath
  have hstart : Confined w s dirs (w.storage.disk.placeOf path) w :=
    ⟨.refl w s, .refl hd.rising _⟩
  refine along_removeAll (w.storage.disk.HeldBy dirs) hg hplace hstart ?_ ?_ ?_ ?_ budget
  · exact fun below hm => heldBy_of_meets hs hk hd.plain
      (Disk.leadsInto_of_free hnormal hfree hdirs) hm
  · exact fun q hq below hm => heldBy_of_meets hs hk hd.plain (hq.leadsInto hclosed) hm
  · intro q hq w' hw'
    obtain ⟨hq', hjoined⟩ := joined_of_isNormal hk hq.1
    have hback : (w'.registry h.registryNumber).place
        ((w.registry h.registryNumber).address s q) = (s, q) := by
      rw [hw'.registry, hhome, Registry.place_home hg.home (hhome ▸ hq'), ← hhome, hjoined]
    have hg' : (w'.registry h.registryNumber).Sound := by rwa [hw'.registry]
    refine (Handle.along_resolve (Q := fun place w'' => place = (s, q) ∧ w' = w'')
      (h := ⟨_, some h.registryNumber⟩) hg' ⟨hback, rfl⟩).bind ?_
    rintro _ _ ⟨rfl, rfl⟩
    exact along_remove hw' (hw'.remove hk hq)
  · intro info _ w' hw'
    refine ⟨hw'.toOnlyChanged.ask _, lost_ask_remove hk hw'.disk ?_⟩
    intro fs name above hmoves hname hleads
    exact .inl (hleads.eq_placeOf_above hnormal hfree hmoves hname)

/-! ## 4. Whole removals -/

/-- **What removing everything on the disk loses**, wherever the run is stopped.  A handle resolves
to a path of the disk, in a registry that came about by registering, and no link stands at the place
of the path or above it.

* Nothing changes but the disk, and it loses the place and entries of directories that one comes to
  from the place by entering entries, links followed.
* If every link in the directory that leads to a directory leads to one at the place or below, then
  nothing changes but the place and what is contained in it. -/
theorem removal_confined (w : World) (token : Option Nat) (h : Handle)
    (hg : (w.registry h.registryNumber).Reachable) (s : Store) (hk : s.kind = .disk)
    (path : String) (hresolve : w.record token (h.resolve : Traversal Out (Store × String)) =
      ⟨.finished (s, path), [], w⟩) (hd : w.storage.disk.Sound)
    (hfree : ∀ ns, ns <+: w.storage.disk.placeOf path → ¬ w.storage.disk.IsLinkAt ns)
    (budget : Nat) (stops : Nat → Option String) :
    let d := w.storage.disk
    let place := d.placeOf path
    let after := w.interrupted stops (removeAll budget h : Traversal Out Unit)
    Confined w s (Relation.ReflTransGen d.Enters place) place after ∧
      ((∀ dir name next, place <+: dir → d.IsLinkAt (dir ++ [name]) → d.Leads dir [name] next →
          place <+: next) →
        OnlyChanged w s after ∧
          ∀ ns, ¬ place <+: ns → after.storage.disk.root.outline ns = d.root.outline ns) := by
  intro d place after
  have hsound := hg.sound
  rw [h.record_resolve w token hsound, Record.finished_eq_iff] at hresolve
  have hconfined : ∀ dirs : List String → Prop, d.Closed dirs → dirs place →
      Confined w s dirs place after := by
    intro dirs hclosed hdirs
    have halong : (removeAll budget h : Traversal Out Unit).Along _ (fun _ => True) _ w :=
      along_removeAll_confined hsound hk hresolve hd hfree hclosed hdirs budget
    exact halong.interrupted (fun _ _ hw => hw) stops
  refine ⟨hconfined _ (fun dir next hdir henters => hdir.tail henters) .refl, fun hlinks => ?_⟩
  have hbelow := hconfined _ (Disk.closed_of_links hlinks) (List.prefix_refl place)
  refine ⟨hbelow.toOnlyChanged, fun ns hns => (hbelow.disk.outline ns).resolve_right ?_⟩
  rintro ⟨-, rfl | ⟨dir, name, hdir, rfl⟩⟩
  · exact hns (List.prefix_refl _)
  · exact hns (hdir.trans (List.prefix_append dir [name]))

/-- A directory with a file and a link to it, and a file elsewhere on the disk. -/
def linked (target : String) : World :=
  World.initial ⟨.folder "d" (.leaf "l" (.link target) (.leaf "x" (.file .empty) .empty))
    (.folder "out" (.leaf "k" (.file .empty) .empty) .empty), []⟩

/-- The link to the file is the only link in the directory, and leads to no directory. -/
theorem not_leads_linked {dir next : List String} {name : String} (hdir : ["d"] <+: dir)
    (hlink : (linked "x").storage.disk.IsLinkAt (dir ++ [name])) :
    ¬ (linked "x").storage.disk.Leads dir [name] next := by
  obtain ⟨rest, rfl⟩ := hdir
  obtain ⟨target, hat⟩ := hlink
  obtain ⟨inside, hfolder, hfind⟩ := Forest.exists_folder_above (Forest.at?_of_outline hat)
  have hleaves : ((Forest.leaf "l" (.link "x") (.leaf "x" (.file .empty) .empty)).at? rest :
      Option (Node DiskLeaf)) = some (.folder inside) := hfolder
  cases rest with
  | cons first rest =>
    obtain ⟨g, hg, -⟩ := Forest.at?_cons_eq_folder hleaves
    unfold Forest.find? Forest.find? Forest.find? at hg
    split at hg
    · cases hg
    · split at hg <;> cases hg
  | nil =>
    cases hleaves
    unfold Forest.find? Forest.find? Forest.find? at hfind
    split at hfind
    · next hname =>
      subst hname
      intro hleads
      rcases hleads.of_name (by decide) with ⟨hat, -⟩ | ⟨target, hat, hnext⟩
      · cases hat
      · cases hat
        have hstart : start (["d"] ++ []) "x" = ["d"] := by decide
        have hfields : fieldsOf "x" = ["x"] := by decide
        rw [hstart, hfields] at hnext
        rcases hnext.of_name (by decide) with ⟨hat, -⟩ | ⟨target, hat, -⟩ <;> cases hat
    · split at hfind <;> cases hfind

/-- A removal that is stopped at its fifth check leaves everything but the directory. -/
theorem removal_confined_linked :
    let stops : Nat → Option String := fun checks => if checks = 4 then some "stopped" else none
    let after := (linked "x").interrupted stops (removeAll 9 ⟨"d", none⟩ : Traversal Empty Unit)
    ∀ ns, ¬ ["d"] <+: ns →
      after.storage.disk.root.outline ns = (linked "x").storage.disk.root.outline ns := by
  intro stops after
  have hg : ((linked "x").registry commonRegistry).Reachable := .fresh (.inr ⟨rfl, rfl⟩) rfl
  have hplace : ((linked "x").registry commonRegistry).place "d" =
      (⟨0, "file://", .disk⟩, "d") := by decide +kernel
  have hresolve : (linked "x").record none ((⟨"d", none⟩ : Handle).resolve :
      Traversal Empty (Store × String)) = ⟨.finished (⟨0, "file://", .disk⟩, "d"), [], linked "x"⟩ := by
    rw [← hplace]
    exact Handle.record_resolve (linked "x") none hg.sound
  have hd : (linked "x").storage.disk.Sound := {
    plain := .folder (by decide) (.leaf (by decide) (.leaf (by decide) .empty))
      (.folder (by decide) (.leaf (by decide) .empty) .empty)
    rising := .folder (by decide) (.leaf (by decide) (.leaf (by decide) .empty))
      (.folder (by decide) (.leaf (by decide) .empty) .empty) }
  have hpath : (linked "x").storage.disk.placeOf "d" = ["d"] := by decide +kernel
  have hfree : ∀ ns, ns <+: (linked "x").storage.disk.placeOf "d" →
      ¬ (linked "x").storage.disk.IsLinkAt ns := by
    rw [hpath]
    rintro ns hns ⟨target, hat⟩
    rcases List.prefix_cons_iff.1 hns with rfl | ⟨rest, rfl, hrest⟩
    · cases hat
    · rw [List.prefix_nil.1 hrest] at hat
      cases hat
  obtain ⟨-, hconfined⟩ := removal_confined (linked "x") none ⟨"d", none⟩ hg ⟨0, "file://", .disk⟩
    rfl "d" hresolve hd hfree 9 stops
  rw [hpath] at hconfined
  exact (hconfined fun dir name next hdir hlink hleads =>
    absurd hleads (not_leads_linked hdir hlink)).2

/-- **Through a link the removal leaves the directory**: what the link leads to is removed as well. -/
theorem not_confined_linked :
    let d := (linked "../out").storage.disk
    let after := (linked "../out").run none (removeAll 9 ⟨"d", none⟩ : Traversal Empty Unit)
    d.placeOf "d" = ["d"] ∧ (d.root.outline ["out", "k"]).isSome = true ∧
      (after.2.storage.disk.root.outline ["out", "k"]).isNone = true := by
  refine ⟨?_, ?_, ?_⟩
  · decide +kernel
  · decide +kernel
  · decide +kernel

end Removal

end Arboretum
