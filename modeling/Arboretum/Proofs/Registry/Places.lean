import Arboretum.Proofs.Registry.Canonical
import Arboretum.Proofs.Store.Building
import Arboretum.Proofs.Traversal.Steps

/-!
# Where handles lead

A handle that resolves to a store leads to a place of it, said by the names on the way
(`Handle.LeadsTo`).  While no mount begins with the mount of the store and a slash
(`Registry.Alone`), the address of every path of the store leads back to the store; so a handle
may be joined with names and resolved again as often as one likes (`LeadsTo.record_join`,
`LeadsTo.below`).
-/

namespace Arboretum

variable {Out : Type} {w : World} {token : Option Nat}

/-! ## 1. Paths by names -/

namespace Store

variable {s : Store} {path : String}

/-- Joining names to a path of a mounted store. -/
theorem IsMounted.joined_names (hs : s.IsMounted) {place rel : List String}
    (hn : Path.ArePlain place) (hr : Path.AreNames rel) (hne : rel ≠ []) :
    s.joined (Path.ofNames place :: rel) = Path.ofNames (place ++ rel) := by
  have hhead : (Path.ofNames place).toList.head? = some '/' := by
    rw [Path.toList_ofNames]
    rfl
  rw [hs.joined_eq, hs.withoutMount_of_slash hhead, Path.join_names hn hr hne]

/-- Joining one name. -/
theorem IsMounted.joined_name (hs : s.IsMounted) {place : List String} (hn : Path.ArePlain place)
    {name : String} (hname : Path.IsName name) :
    s.joined [Path.ofNames place, name] = Path.ofNames (place ++ [name]) :=
  hs.joined_names hn (Path.areNames_singleton.2 hname) (List.cons_ne_nil _ _)

/-- Joining two dots. -/
theorem IsMounted.joined_above (hs : s.IsMounted) {place : List String} (hn : Path.ArePlain place) :
    s.joined [Path.ofNames place, ".."] = Path.ofNames place.dropLast := by
  have hhead : (Path.ofNames place).toList.head? = some '/' := by
    rw [Path.toList_ofNames]
    rfl
  rw [hs.joined_eq, hs.withoutMount_of_slash hhead, Path.join_above hn]

/-- A path of names is one of every mounted store. -/
theorem IsMounted.isPath_ofNames (hs : s.IsMounted) {ns : List String} (hn : Path.AreNames ns) :
    s.IsPath (Path.ofNames ns) := by
  have hhead : (Path.ofNames ns).toList.head? = some '/' := by
    rw [Path.toList_ofNames]
    rfl
  have hjoined : s.joined [Path.ofNames ns] = Path.ofNames ns := by
    rw [hs.joined_eq, hs.withoutMount_of_slash hhead, Path.join_singleton, Path.clean_ofNames hn]
  exact hjoined ▸ hs.isPath [Path.ofNames ns]

/-- A mounted store leaves a path of names as it is. -/
theorem IsMounted.joined_ofNames (hs : s.IsMounted) {ns : List String} (hn : Path.AreNames ns) :
    s.joined [Path.ofNames ns] = Path.ofNames ns := by
  rw [hs.joined_singleton (hs.isPath_ofNames hn), Path.clean_ofNames hn]

/-- The root is a path of every mounted store, which leaves it as it is. -/
theorem IsMounted.joined_root (hs : s.IsMounted) : s.joined [Path.root] = Path.root := by
  rw [← Path.ofNames_nil]
  exact hs.joined_ofNames Path.areNames_nil

theorem IsMounted.isPath_root (hs : s.IsMounted) : s.IsPath Path.root :=
  hs.joined_root ▸ hs.isPath [Path.root]

/-- A mounted store takes nothing for its root. -/
theorem IsMounted.joined_empty (hs : s.IsMounted) : s.joined [""] = Path.root := by
  have hsame : s.withoutMount [""] = [""] := by
    obtain ⟨c, cs, -, -, hmount, -, -⟩ := hs.mount_eq
    unfold withoutMount
    dsimp only
    rw [hmount]
    rfl
  rw [hs.joined_eq, hsame]
  rfl

/-- A path of a mounted store that is tidy consists of names. -/
theorem IsMounted.ofNames_names (hs : s.IsMounted) {parts : List String}
    (ht : Path.Tidy (s.joined parts)) :
    Path.AreNames (Path.names (s.joined parts)) ∧
      Path.ofNames (Path.names (s.joined parts)) = s.joined parts := by
  obtain ⟨text, he⟩ := hs.exists_clean (hs.isPath parts)
  rw [he] at ht ⊢
  have hn := Path.areNames_of_tidy_clean ht
  rw [Path.clean_eq_ofNames text, Path.names_ofNames hn]
  exact ⟨hn, rfl⟩

end Store

/-! ## 2. Addresses of places -/

namespace Registry

variable {g : Registry} {s : Store} {path uri : String}

/-- An address without a path leads to the void store. -/
theorem eq_void_of_route (h : g.route uri = (s, none)) : s = g.void := by
  unfold route at h
  split at h
  · exact (Prod.mk.inj h).1.symm
  · split at h
    · cases (Prod.mk.inj h).2
    · split at h
      · exact (Prod.mk.inj h).1.symm
      · cases (Prod.mk.inj h).2

/-- **An address that resolves to a store** other than the void one is led to it, and the store has
joined the path. -/
theorem route_of_record_resolve (hs : s ≠ g.void)
    (h : w.record token (g.resolve uri : Traversal Out (Store × String)) =
      ⟨.finished (s, path), [], w⟩) :
    ∃ parts, g.route uri = (s, some parts) ∧ (w.ask s (.join parts)).1 = .ok path := by
  unfold resolve at h
  rcases hroute : g.route uri with ⟨t, _ | parts⟩
  · rw [hroute] at h
    have hpair := Traversal.Outcome.finished.inj (congrArg Record.outcome h)
    obtain rfl : t = s := (Prod.mk.inj hpair).1
    exact absurd (eq_void_of_route hroute) hs
  · rw [hroute] at h
    have hstep : (w.record token (Traversal.ask t (.join parts) fun
        | .ok path => .done (t, path)
        | .error f => .fail f : Traversal Out (Store × String))) = ⟨.finished (s, path), [], w⟩ := by
      rw [← h]
      refine congrArg (fun next => w.record token (Traversal.ask t (.join parts) next)) ?_
      funext answer
      cases answer <;> rfl
    rw [World.record_ask] at hstep
    cases ha : (w.ask t (.join parts)).1 with
    | error f =>
      rw [ha] at hstep
      cases congrArg Record.outcome hstep
    | ok joined =>
      rw [ha] at hstep
      have hpair := Traversal.Outcome.finished.inj (congrArg Record.outcome hstep)
      obtain ⟨rfl, rfl⟩ := Prod.mk.inj hpair
      exact ⟨parts, rfl, ha⟩

/-- **An address that resolves to a mounted store** belongs to the store, and leads to the path that
the store has joined. -/
theorem of_record_resolve (hv : g.void.kind = .void) (hs : s.IsMounted)
    (h : w.record token (g.resolve uri : Traversal Out (Store × String)) =
      ⟨.finished (s, path), [], w⟩) :
    g.owner uri = s ∧ ∃ parts, path = s.joined parts ∧ g.place uri = (s, s.joined parts) := by
  have hvoid : s ≠ g.void := by
    rintro rfl
    generalize g.void = v at hv hs
    cases hs <;> cases hv
  obtain ⟨parts, hroute, ha⟩ := route_of_record_resolve hvoid h
  rw [Store.IsHome.ask_join w (.inl hs)] at ha
  have howner := g.fst_route uri
  rw [hroute] at howner
  refine ⟨howner.symm, parts, (Except.ok.inj ha).symm, ?_⟩
  unfold place
  rw [hroute]

/-- Different places of a store have different addresses. -/
theorem address_ofNames_inj {ns ms : List String} (hn : Path.AreNames ns) (hm : Path.AreNames ms) :
    g.address s (Path.ofNames ns) = g.address s (Path.ofNames ms) ↔ ns = ms := by
  rw [← Path.ofNames_inj hn hm]
  unfold address
  split
  · exact Iff.rfl
  · exact String.append_right_inj s.mount

/-- **No mount lies below a store**: none begins with the mount of the store and a slash. -/
def Alone (g : Registry) (s : Store) : Prop :=
  ∀ entry ∈ g.mounts, ¬ s.mount.toList ++ ['/'] <+: entry.1.toList

instance (g : Registry) (s : Store) : Decidable (g.Alone s) :=
  inferInstanceAs (Decidable (∀ _ ∈ _, ¬ _))

/-- No longer mount is in front of what stands behind the mount and a slash. -/
theorem Alone.length_le (h : g.Alone s) {rest : String} (hr : rest.toList.head? = some '/')
    {entry : String × Store} (hm : entry ∈ g.mounts)
    (hsome : (behind? entry.1 (s.mount ++ rest)).isSome = true) :
    entry.1.length ≤ s.mount.length := by
  refine Nat.not_lt.1 fun hlt => ?_
  obtain ⟨more, hmore⟩ := Option.isSome_iff_exists.1 hsome
  obtain ⟨below, hbelow⟩ := List.head?_eq_some_iff.1 hr
  have haddress : entry.1.toList ++ more.toList = s.mount.toList ++ ['/'] ++ below := by
    rw [← (behind?_eq_some_iff.1 hmore).1, String.toList_append, hbelow, List.append_assoc]
    rfl
  refine h entry hm (List.prefix_of_prefix_length_le (List.prefix_append _ below)
    (haddress ▸ List.prefix_append _ more.toList) ?_)
  rw [List.length_append, String.length_toList, String.length_toList]
  exact hlt

/-- A longer mount over a path begins with the mount of the store and a slash. -/
theorem Alone.not_overlaid (h : g.Alone s) (hs : s.IsMounted) (hp : s.IsPath path) :
    ¬ g.Overlaid s path := by
  rintro ⟨-, entry, hm, hlt, hsome⟩
  obtain ⟨text, htext⟩ := hs.exists_clean hp
  exact Nat.not_lt.2 (h.length_le (htext ▸ Path.head?_clean text) hm hsome) hlt

/-- **The mount of a store leads to its root**, -/
theorem Filed.place_mount (hg : g.Filed) (hs : s.IsMounted) (hm : (s.mount, s) ∈ g.mounts) :
    g.place s.mount = (s, Path.root) := by
  have hbehind : behind? s.mount s.mount = some "" :=
    behind?_eq_some_iff.2 ⟨(List.append_nil _).symm, .inl rfl⟩
  have hfind := hg.find?_eq_some hm hbehind fun entry _ hsome => by
    obtain ⟨more, hmore⟩ := Option.isSome_iff_exists.1 hsome
    have hlen := congrArg List.length (behind?_eq_some_iff.1 hmore).1
    rw [List.length_append, String.length_toList, String.length_toList] at hlen
    omega
  have hscheme := hasScheme_mount hs ""
  rw [String.append_empty] at hscheme
  have hne : s.mount ≠ "" := fun he => by rw [he] at hscheme; cases hscheme
  have hroute : g.route s.mount = (s, some [if s = g.home ∧ "" = "" then "/" else ""]) := by
    unfold route
    rw [if_neg hne, hscheme, hfind]
    rfl
  have hjoined : s.joined [if s = g.home ∧ "" = "" then "/" else ""] = Path.root := by
    split
    · exact hs.joined_root
    · exact hs.joined_empty
  unfold place
  rw [hroute]
  exact congrArg (Prod.mk s) hjoined

/-- **and with a path of names behind it to the place of the path.** -/
theorem Alone.place_mount_append (h : g.Alone s) (hg : g.Filed) (hs : s.IsMounted)
    (hm : (s.mount, s) ∈ g.mounts) {ns : List String} (hn : Path.AreNames ns) :
    g.place (s.mount ++ Path.ofNames ns) = (s, Path.ofNames ns) := by
  have hhead : (Path.ofNames ns).toList.head? = some '/' := by
    rw [Path.toList_ofNames]
    rfl
  have hbehind : behind? s.mount (s.mount ++ Path.ofNames ns) = some (Path.ofNames ns) :=
    behind?_eq_some_iff.2 ⟨String.toList_append, .inr (.inl hhead)⟩
  have hfind := hg.find?_eq_some hm hbehind fun entry he hsome => h.length_le hhead he hsome
  have hscheme := hasScheme_mount hs (Path.ofNames ns)
  have hne : s.mount ++ Path.ofNames ns ≠ "" := fun he => by rw [he] at hscheme; cases hscheme
  have hpath : Path.ofNames ns ≠ "" := fun he => by rw [he] at hhead; cases hhead
  have hroute : g.route (s.mount ++ Path.ofNames ns) = (s, some [Path.ofNames ns]) := by
    unfold route
    rw [if_neg hne, hscheme, hfind]
    dsimp only
    rw [if_neg fun he : s = g.home ∧ Path.ofNames ns = "" => hpath he.2]
    rfl
  unfold place
  rw [hroute]
  exact congrArg (Prod.mk s) (hs.joined_ofNames hn)

end Registry

/-! ## 3. Handles -/

namespace Handle

variable {h : Handle} {s : Store} {place : List String}

/-- A mounted store has every ability. -/
theorem require_of_isMounted (hs : s.IsMounted) (a : Ability) :
    (require s a : Traversal Out Unit) = .done () := by
  cases hs <;> rfl

/-- The handle of an entry in a directory of a store, by the registry of another handle. -/
def entry (h : Handle) (w : World) (s : Store) (place : List String) (name : String) : Handle :=
  ⟨(w.registry h.registryNumber).address s (Path.ofNames (place ++ [name])), h.registry⟩

/-- **A handle leads to a place of a store** below which no mount lies. -/
structure LeadsTo (h : Handle) (w : World) (s : Store) (place : List String) : Prop where
  kept : (w.registry h.registryNumber).Kept
  mounted : s.IsMounted
  alone : (w.registry h.registryNumber).Alone s
  names : Path.AreNames place
  place_eq : (w.registry h.registryNumber).place h.uri = (s, Path.ofNames place)

/-- A handle that resolves to a tidy path leads to its place. -/
theorem leadsTo_of_record {path : String} (hg : (w.registry h.registryNumber).Grown)
    (hs : s.IsMounted) (ha : (w.registry h.registryNumber).Alone s)
    (hresolve : w.record token (h.resolve : Traversal Out (Store × String)) =
      ⟨.finished (s, path), [], w⟩) (ht : Path.Tidy path) : h.LeadsTo w s (Path.names path) := by
  have hresolve : w.record token ((w.registry h.registryNumber).resolve h.uri :
      Traversal Out (Store × String)) = ⟨.finished (s, path), [], w⟩ := hresolve
  obtain ⟨-, parts, rfl, hplace⟩ := Registry.of_record_resolve hg.kept.void hs hresolve
  obtain ⟨hn, hpath⟩ := hs.ofNames_names ht
  exact ⟨hg.kept, hs, ha, hn, hplace.trans (by rw [hpath])⟩

namespace LeadsTo

/-- Resolving the handle. -/
theorem record_resolve (hl : h.LeadsTo w s place) :
    w.record token (h.resolve : Traversal Out (Store × String)) =
      ⟨.finished (s, Path.ofNames place), [], w⟩ :=
  h.record_resolve_of_place w token hl.place_eq (.inl hl.mounted)

/-- Going on from where the handle leads. -/
theorem record_resolve_bind {β : Type} (hl : h.LeadsTo w s place)
    (next : Store × String → Traversal Out β) :
    w.record token (h.resolve.bind next) = w.record token (next (s, Path.ofNames place)) := by
  rw [World.record_bind_of_finished w token hl.record_resolve, Record.behind_nil]

theorem knows (hl : h.LeadsTo w s place) : (w.registry h.registryNumber).Knows s :=
  hl.kept.knows_of_place hl.place_eq hl.mounted

/-- Where handles lead does not depend on what stores hold. -/
theorem with_storage (hl : h.LeadsTo w s place) (st : Storage) :
    h.LeadsTo { w with storage := st } s place :=
  ⟨hl.kept, hl.mounted, hl.alone, hl.names, hl.place_eq⟩

/-- **The address of a place of the store leads there.** -/
theorem of_address (hl : h.LeadsTo w s place) {names : List String} (hn : Path.AreNames names)
    {there : Handle} (hr : there.registryNumber = h.registryNumber)
    (hu : there.uri = (w.registry h.registryNumber).address s (Path.ofNames names)) :
    there.LeadsTo w s names := by
  have hpath := hl.mounted.isPath_ofNames hn
  have hback := hl.kept.place_address hl.knows (.inl hl.mounted) hpath
    (hl.alone.not_overlaid hl.mounted hpath)
  rw [hl.mounted.joined_ofNames hn, ← hu, ← hr] at hback
  exact ⟨hr ▸ hl.kept, hl.mounted, hr ▸ hl.alone, hn, hback⟩

/-- **Joining a name** ends with the handle of the entry, -/
theorem record_join (hl : h.LeadsTo w s place) {name : String} (hn : Path.IsName name) :
    w.record token (h.join [name] : Traversal Out Handle) =
      ⟨.finished (h.entry w s place name), [], w⟩ := by
  have hjoin := hl.mounted.joined_name (Path.arePlain_of_areNames hl.names) hn
  rw [Handle.record_join w token (.inl hl.mounted) hl.place_eq, hjoin]
  rfl

/-- from which a run goes on, -/
theorem record_join_bind {β : Type} (hl : h.LeadsTo w s place) {name : String}
    (hn : Path.IsName name) (next : Handle → Traversal Out β) :
    w.record token ((h.join [name]).bind next) = w.record token (next (h.entry w s place name)) := by
  rw [World.record_bind_of_finished w token (hl.record_join hn), Record.behind_nil]

/-- and that handle leads to the entry. -/
theorem below (hl : h.LeadsTo w s place) {name : String} (hn : Path.IsName name) :
    (h.entry w s place name).LeadsTo w s (place ++ [name]) :=
  hl.of_address (Path.areNames_append_singleton.2 ⟨hl.names, hn⟩) rfl rfl

/-- **The directory above** is one name shorter; the root stays. -/
theorem record_parent (hl : h.LeadsTo w s place) :
    w.record token (h.parent : Traversal Out Handle) =
      ⟨.finished ⟨(w.registry h.registryNumber).address s (Path.ofNames place.dropLast),
        h.registry⟩, [], w⟩ := by
  have habove := hl.mounted.joined_above (Path.arePlain_of_areNames hl.names)
  rw [parent, Handle.record_join w token (.inl hl.mounted) hl.place_eq, habove]

end LeadsTo

end Handle

/-! ## 4. A small world -/

/-- A store in memory with a directory and a file in it. -/
def World.small : World :=
  let s : Store := ⟨2, "mem://a", .memory⟩
  let w := (World.initial ⟨.empty, []⟩).changeRegistry commonRegistry (·.register s)
  let w := (w.ask s (.makeDir "/b" false)).2
  (w.ask s (.write "/b/x" .empty)).2

theorem World.built_small : World.small.storage.Built ⟨2, "mem://a", .memory⟩ := by
  have hbare : (World.initial ⟨.empty, []⟩).storage.Built ⟨2, "mem://a", .memory⟩ := .bare rfl
  refine (hbare.ask ⟨2, "mem://a", .memory⟩ (.makeDir "/b" false) fun _ _ => ?_).ask
    ⟨2, "mem://a", .memory⟩ (.write "/b/x" .empty) fun _ _ => ?_
  · decide
  · decide

theorem World.reachable_small : (World.small.registry commonRegistry).Reachable :=
  (Registry.Reachable.fresh (.inr ⟨rfl, rfl⟩) rfl).register (.memory 2 "a")

/-- An address of the store in memory resolves to its place. -/
theorem World.record_resolve_small {uri path : String}
    (hp : (World.small.registry commonRegistry).place uri = (⟨2, "mem://a", .memory⟩, path)) :
    World.small.record none (Handle.resolve ⟨uri, none⟩ : Traversal Out (Store × String)) =
      ⟨.finished (⟨2, "mem://a", .memory⟩, path), [], World.small⟩ := by
  rw [← hp]
  exact Handle.record_resolve World.small none World.reachable_small.sound

end Arboretum
