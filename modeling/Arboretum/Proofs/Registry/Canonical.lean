import Arboretum.Proofs.Path.Host
import Arboretum.Proofs.Path.Parts
import Arboretum.Proofs.Registry.Routing
import Arboretum.Proofs.Traversal.Recording

/-!
# Whether a canonical address leads back

An address leads to a store and a clean path of it, its place (`Registry.place`), and the address
of that place is the canonical form.  Whoever uses the canonical form later is led by the longest
mount again, this time on the cleaned text.  So the canonical form leads back exactly if no longer
mount lies over it (`Registry.Overlaid`) and the store finds nothing to trim from the path
(`Sound.place_joined_iff`).  `Handle.keeps_place_iff` says what that means for handles, made of
addresses and made by joining.
-/

namespace Arboretum

variable {Out : Type} (w : World) (token : Option Nat)

/-! ## 1. Paths of a store -/

namespace Store

variable {s : Store}

/-- The path that a store joins from parts. -/
def joined (s : Store) (parts : List String) : String :=
  match s.kind with
  | .disk => Path.hostJoin parts
  | _ => Path.join (s.withoutMount parts)

theorem IsMounted.joined_eq (h : s.IsMounted) (parts : List String) :
    s.joined parts = Path.join (s.withoutMount parts) := by
  cases h <;> rfl

theorem joined_of_disk (hk : s.kind = .disk) (parts : List String) :
    s.joined parts = Path.hostJoin parts := by
  unfold joined
  rw [hk]

/-- **A home store and a mounted store join**, whatever the parts. -/
theorem IsHome.join_eq (h : s.IsHome) (parts : List String) : s.join parts = .ok (s.joined parts) := by
  rcases h with h | ⟨hk, -⟩
  · cases h <;> rfl
  · unfold join joined
    rw [hk]

/-- A store on the disk joins as the host does. -/
theorem ask_join_of_disk (hk : s.kind = .disk) (parts : List String) :
    w.ask s (.join parts) = (.ok (Path.hostJoin parts), w) := by
  unfold World.ask Storage.ask Storage.askDisk join
  rw [hk]

/-- Asking such a store to join changes nothing. -/
theorem IsHome.ask_join (h : s.IsHome) (parts : List String) :
    w.ask s (.join parts) = (.ok (s.joined parts), w) := by
  rcases h with h | ⟨hk, -⟩
  · cases h <;> rfl
  · rw [joined_of_disk hk]
    exact ask_join_of_disk w hk parts

/-- Joining as a step of a run. -/
theorem IsHome.record_join (h : s.IsHome) (parts : List String) :
    w.record token (Traversal.plain s (.join parts) : Traversal Out String) =
      ⟨.finished (s.joined parts), [], w⟩ := by
  unfold Traversal.plain
  rw [World.record_ask, h.ask_join]
  rfl

/-- A mount is not in front of a path. -/
theorem IsMounted.withoutMount_of_slash (h : s.IsMounted) {path : String}
    (hp : path.toList.head? = some '/') (others : List String) :
    s.withoutMount (path :: others) = path :: others := by
  obtain ⟨c, cs, -, -, hm, hc, -⟩ := h.mount_eq
  have hnone : Path.after? s.mount.toList path.toList = none := by
    cases ha : Path.after? s.mount.toList path.toList with
    | none => rfl
    | some rest =>
      rw [Path.after?_eq_some_iff.1 ha, hm] at hp
      exact absurd (Option.some.inj hp) hc
  unfold withoutMount
  dsimp only
  rw [hnone]

/-- **A path of a store**: what it joins from some parts, unless that is nothing. -/
def IsPath (s : Store) (path : String) : Prop := path ≠ "" ∧ ∃ parts, path = s.joined parts

variable {path : String}

/-- The paths of a mounted store are clean. -/
theorem IsMounted.exists_clean (h : s.IsMounted) (hp : s.IsPath path) :
    ∃ text, path = Path.clean text := by
  obtain ⟨-, parts, rfl⟩ := hp
  rw [h.joined_eq, Path.join_eq_clean]
  exact ⟨_, rfl⟩

/-- The paths of a store on the disk are normal. -/
theorem isNormal_of_isPath (hk : s.kind = .disk) (hp : s.IsPath path) :
    Path.IsNormal path.toList := by
  obtain ⟨hne, parts, rfl⟩ := hp
  rw [joined_of_disk hk] at hne ⊢
  unfold Path.hostJoin at hne ⊢
  rw [String.toList_ofList]
  exact (Path.hostJoinChars_cases _).resolve_left fun hnil => hne (by rw [hnil])

/-- A mounted store cleans a path that it is asked to join. -/
theorem IsMounted.joined_singleton (h : s.IsMounted) (hp : s.IsPath path) :
    s.joined [path] = Path.clean path := by
  obtain ⟨text, ht⟩ := h.exists_clean hp
  have hhead : path.toList.head? = some '/' := ht ▸ Path.head?_clean text
  rw [h.joined_eq, h.withoutMount_of_slash hhead, Path.join_singleton]

/-- A mounted store joins a path from any parts. -/
theorem IsMounted.isPath (h : s.IsMounted) (parts : List String) : s.IsPath (s.joined parts) := by
  refine ⟨fun he => ?_, parts, rfl⟩
  rw [h.joined_eq, Path.join_eq_clean] at he
  have hhead := Path.head?_clean (Path.jointText (s.withoutMount parts))
  rw [he] at hhead
  cases hhead

/-- A home store joins a path from a part that is not empty. -/
theorem IsHome.isPath (h : s.IsHome) {part : String} (hp : part ≠ "") :
    s.IsPath (s.joined [part]) := by
  rcases h with h | ⟨hk, -⟩
  · exact h.isPath [part]
  · refine ⟨?_, [part], rfl⟩
    rw [joined_of_disk hk]
    exact Path.hostJoin_ne_empty hp

/-- No scheme stands in a path of a store. -/
theorem IsHome.no_scheme (h : s.IsHome) (hp : s.IsPath path) : Address.hasScheme path = false := by
  rcases h with h | ⟨hk, -⟩
  · obtain ⟨text, rfl⟩ := h.exists_clean hp
    rw [Bool.eq_false_iff, Ne, Address.hasScheme_iff]
    rintro ⟨front, rest, he⟩
    exact (Path.isNormal_clean text).no_mark front rest he
  · obtain ⟨-, parts, rfl⟩ := hp
    rw [joined_of_disk hk]
    exact Path.hasScheme_hostJoin parts

/-- **What a store makes of its own path**: the same path, unless the store trims and there is a
blank at the end. -/
theorem IsHome.joined_singleton_iff (h : s.IsHome) (hp : s.IsPath path) :
    s.joined [path] = path ↔ s.kind = .disk ∨ Text.endsBlank path.toList = false := by
  rcases h with h | ⟨hk, -⟩
  · have hkind : s.kind ≠ .disk := by cases h <;> exact nofun
    obtain ⟨text, ht⟩ := h.exists_clean hp
    rw [h.joined_singleton hp, ht, Path.clean_clean_iff]
    exact ⟨.inr, fun hor => hor.resolve_left hkind⟩
  · obtain ⟨-, parts, rfl⟩ := hp
    rw [joined_of_disk hk, joined_of_disk hk, Path.hostJoin_hostJoin]
    exact ⟨fun _ => .inl hk, fun _ => rfl⟩

/-- A store leaves a path alone that it joined from a part without blanks. -/
theorem IsHome.joined_joined (h : s.IsHome) {part : String}
    (hb : ∀ c ∈ part.toList, Text.isBlank c = false) : s.joined [s.joined [part]] = s.joined [part] := by
  rcases h with h | ⟨hk, -⟩
  · have hpath := h.isPath [part]
    rw [h.joined_singleton hpath, h.joined_eq, Path.join_eq_clean]
    refine Path.clean_clean (Path.tidy_of_no_blank fun c hc => ?_)
    rcases Path.mem_jointText hc with rfl | ⟨p, hp, hc⟩
    · exact Text.isBlank_slash
    · unfold withoutMount at hp
      dsimp only at hp
      split at hp
      · next rest hr =>
        rw [List.mem_singleton.1 hp, String.toList_ofList] at hc
        have hmem : c ∈ part.toList := by
          rw [Path.after?_eq_some_iff.1 hr]
          exact List.mem_append_right _ hc
        exact hb c hmem
      · rw [List.mem_singleton.1 hp] at hc
        exact hb c hc
  · rw [joined_of_disk hk, joined_of_disk hk]
    exact Path.hostJoin_hostJoin [part]

end Store

/-! ## 2. Places -/

namespace Registry

variable {g : Registry} {s : Store} {path uri : String}

/-- **The place of an address**: its store, and the path that the store joins. -/
def place (g : Registry) (uri : String) : Store × String :=
  match g.route uri with
  | (s, none) => (s, "")
  | (s, some parts) => (s, s.joined parts)

/-- The address of the place of an address. -/
def canonicalText (g : Registry) (uri : String) : String :=
  if (g.place uri).1 = g.void then uri else g.address (g.place uri).1 (g.place uri).2

/-- The store that an address leads to is the owner of the address. -/
theorem fst_route (g : Registry) (uri : String) : (g.route uri).1 = g.owner uri := by
  unfold route owner
  split
  · rfl
  · split
    · rfl
    · cases g.find? uri <;> rfl

theorem fst_place (g : Registry) (uri : String) : (g.place uri).1 = g.owner uri := by
  rw [← fst_route]
  unfold place
  rcases g.route uri with ⟨s, _ | parts⟩ <;> rfl

/-- A store of the registry: the home store, or a mounted one that stands under its mount. -/
def Knows (g : Registry) (s : Store) : Prop :=
  s = g.home ∨ (s.mount, s) ∈ g.mounts ∧ s.IsMounted

theorem Sound.isHome_of_knows (hg : g.Sound) (hs : g.Knows s) : s.IsHome := by
  rcases hs with rfl | ⟨-, h⟩
  · exact hg.home
  · exact .inl h

theorem Kept.ne_void (hg : g.Kept) (hs : s.IsHome) : s ≠ g.void := by
  rintro rfl
  rcases hs with h | ⟨hk, -⟩
  · have hv := hg.void
    generalize g.void = v at h hv
    cases h <;> cases hv
  · rw [hg.void] at hk
    cases hk

/-- **Where an address leads**: to the void store without a path, or to a store of the registry
with a part that it joins to a path. -/
theorem Sound.route_cases (hg : g.Sound) (uri : String) :
    g.route uri = (g.void, none) ∨
      ∃ s part, g.Knows s ∧ s.IsPath (s.joined [part]) ∧
        (∀ c ∈ part.toList, c = '/' ∨ c ∈ uri.toList) ∧ g.route uri = (s, some [part]) := by
  unfold route
  by_cases hempty : uri = ""
  · rw [if_pos hempty]
    exact .inl rfl
  · rw [if_neg hempty]
    cases hscheme : Address.hasScheme uri with
    | false =>
      exact .inr ⟨g.home, uri, .inl rfl, hg.home.isPath hempty, fun _ hc => .inr hc, rfl⟩
    | true =>
      rw [if_neg (by simp)]
      cases hf : g.find? uri with
      | none => exact .inl rfl
      | some found =>
        obtain ⟨s, rest⟩ := found
        obtain ⟨hm, hb, hs⟩ := hg.mem_of_find? hf
        refine .inr ⟨s, _, ?_, ?_, ?_, rfl⟩
        · exact hs.imp_right fun h => ⟨hm, h⟩
        · rcases hs with rfl | h
          · refine hg.home.isPath ?_
            split
            · exact fun he => nomatch he
            · next hne => exact fun he => hne ⟨rfl, he⟩
          · exact h.isPath _
        · intro c hc
          split at hc
          · exact .inl (List.mem_singleton.1 hc)
          · refine .inr ?_
            rw [(behind?_eq_some_iff.1 hb).1]
            exact List.mem_append_right _ hc

/-- The place of an address: nowhere, or a path of a store of the registry. -/
theorem Sound.place_cases (hg : g.Sound) (uri : String) :
    g.place uri = (g.void, "") ∨ ∃ s part, g.Knows s ∧ s.IsPath (s.joined [part]) ∧
      (∀ c ∈ part.toList, c = '/' ∨ c ∈ uri.toList) ∧ g.place uri = (s, s.joined [part]) := by
  unfold place
  rcases hg.route_cases uri with h | ⟨s, part, hs, hp, hc, h⟩
  · rw [h]
    exact .inl rfl
  · rw [h]
    exact .inr ⟨s, part, hs, hp, hc, rfl⟩

/-- An address that does not lead to a void store leads to a path of a store of the registry. -/
theorem Sound.of_place (hg : g.Sound) (h : g.place uri = (s, path)) (hk : s.kind ≠ .void) :
    g.Knows s ∧ s.IsPath path := by
  rcases hg.place_cases uri with hvoid | ⟨t, part, ht, hpath, -, hp⟩
  · obtain ⟨rfl, -⟩ := Prod.mk.inj (hvoid.symm.trans h)
    exact absurd hg.void hk
  · obtain ⟨rfl, rfl⟩ := Prod.mk.inj (hp.symm.trans h)
    exact ⟨ht, hpath⟩

/-- A mounted store that an address leads to is a store of the registry. -/
theorem Kept.knows_of_place (hg : g.Kept) (h : g.place uri = (s, path)) (hs : s.IsMounted) :
    g.Knows s := by
  have howner : g.owner uri = s := (g.fst_place uri).symm.trans (congrArg Prod.fst h)
  have hvoid : g.void ≠ s := (hg.ne_void (.inl hs)).symm
  unfold owner at howner
  split at howner
  · exact absurd howner hvoid
  · split at howner
    · exact .inl howner.symm
    · cases hf : g.find? uri with
      | none =>
        rw [hf] at howner
        exact absurd howner hvoid
      | some found =>
        obtain ⟨t, rest⟩ := found
        rw [hf] at howner
        obtain rfl : t = s := howner
        obtain ⟨mount, hm, -⟩ := Registry.mem_of_find? hf
        have hown : t.mount = mount := hg.own (mount, t) hm
        exact .inr ⟨hown ▸ hm, hs⟩

/-- **Resolving an address of a store that joins** ends with its place, and changes nothing. -/
theorem record_resolve_of_place (h : g.place uri = (s, path)) (hs : s.IsHome) :
    w.record token (g.resolve uri : Traversal Out (Store × String)) =
      ⟨.finished (s, path), [], w⟩ := by
  unfold place at h
  unfold resolve
  rcases hroute : g.route uri with ⟨t, _ | parts⟩
  · rw [hroute] at h
    exact congrArg (fun found => (⟨.finished found, [], w⟩ : Record Out (Store × String))) h
  · rw [hroute] at h
    obtain ⟨rfl, rfl⟩ := Prod.mk.inj h
    have hjoin : w.record token (Traversal.plain t (.join parts) : Traversal Out String) =
        ⟨.finished (t.joined parts), [], w⟩ := hs.record_join w token parts
    exact World.record_bind_of_finished w token hjoin _

/-- **Resolving an address** ends with its place. -/
theorem Sound.record_resolve (hg : g.Sound) (uri : String) :
    w.record token (g.resolve uri : Traversal Out (Store × String)) =
      ⟨.finished (g.place uri), [], w⟩ := by
  rcases hg.route_cases uri with h | ⟨s, part, hs, -, -, h⟩
  · unfold resolve place
    rw [h]
    rfl
  · have hplace : g.place uri = (s, s.joined [part]) := by
      unfold place
      rw [h]
    rw [hplace]
    exact record_resolve_of_place w token hplace (hg.isHome_of_knows hs)

/-- **The canonical form of an address** that resolves to its place is the address of that. -/
theorem record_canonical (h : w.record token (g.resolve uri : Traversal Out (Store × String)) =
      ⟨.finished (g.place uri), [], w⟩) :
    w.record token (g.canonical uri : Traversal Out String) =
      ⟨.finished (g.canonicalText uri), [], w⟩ := by
  unfold canonical
  exact World.record_bind_of_finished w token h _

/-! ## 3. Longer mounts -/

/-- **A longer mount lies over a path** of a store: it claims the address of the path for another
store. -/
def Overlaid (g : Registry) (s : Store) (path : String) : Prop :=
  s ≠ g.home ∧ ∃ entry ∈ g.mounts, s.mount.length < entry.1.length ∧
    (behind? entry.1 (s.mount ++ path)).isSome = true

instance (g : Registry) (s : Store) (path : String) : Decidable (g.Overlaid s path) :=
  inferInstanceAs (Decidable (_ ∧ ∃ entry ∈ _, _))

/-- The place of an address that a mount claims. -/
theorem place_of_find? {t : Store} {more : String} (hu : Address.hasScheme uri = true)
    (hf : g.find? uri = some (t, more)) :
    (g.place uri).1 = t ∧ (t ≠ g.home → g.place uri = (t, t.joined [more])) := by
  have hne : uri ≠ "" := by
    rintro rfl
    cases hu
  unfold place route
  rw [if_neg hne, hu, hf]
  refine ⟨rfl, fun ht => ?_⟩
  dsimp only
  rw [if_neg fun h : t = g.home ∧ more = "" => ht h.1]
  rfl

/-- An address behind a mount names a scheme. -/
theorem hasScheme_mount (hs : s.IsMounted) (path : String) :
    Address.hasScheme (s.mount ++ path) = true := by
  obtain ⟨-, -, front, rest, -, -, hmark⟩ := hs.mount_eq
  refine Address.hasScheme_iff.2 ⟨front, rest ++ path.toList, ?_⟩
  rw [String.toList_append, hmark, List.append_assoc]

/-- A path of the home store is its own address, and leads back. -/
theorem place_home (hh : g.home.IsHome) (hp : g.home.IsPath path) :
    g.place (g.address g.home path) = (g.home, g.home.joined [path]) := by
  have haddress : g.address g.home path = path := if_pos rfl
  have hroute : g.route path = (g.home, some [path]) := by
    unfold route
    rw [if_neg hp.1, hh.no_scheme hp]
    rfl
  rw [haddress]
  unfold place
  rw [hroute]

/-- **The address of a path leads back to the store**, for it to join the path again, unless a
longer mount lies over it. -/
theorem Kept.place_address (hg : g.Kept) (hs : g.Knows s) (hh : s.IsHome) (hp : s.IsPath path)
    (hnot : ¬ g.Overlaid s path) : g.place (g.address s path) = (s, s.joined [path]) := by
  by_cases hhome : s = g.home
  · subst hhome
    exact place_home hh hp
  · obtain ⟨hm, hmounted⟩ := hs.resolve_left hhome
    obtain ⟨text, htext⟩ := hmounted.exists_clean hp
    have hhead : path.toList.head? = some '/' := htext ▸ Path.head?_clean text
    have hbehind : behind? s.mount (s.mount ++ path) = some path :=
      behind?_eq_some_iff.2 ⟨String.toList_append, .inr (.inl hhead)⟩
    have hlongest : ∀ entry ∈ g.mounts, (behind? entry.1 (s.mount ++ path)).isSome = true →
        entry.1.length ≤ s.mount.length := fun entry he hsome =>
      Nat.not_lt.1 fun hlt => hnot ⟨hhome, entry, he, hlt, hsome⟩
    have hfind := hg.find?_eq_some hm hbehind hlongest
    have haddress : g.address s path = s.mount ++ path := if_neg hhome
    rw [haddress]
    exact (place_of_find? (hasScheme_mount hmounted path) hfind).2 hhome

/-- **An address that leads back to the store** of its path has no longer mount over it. -/
theorem Sound.not_overlaid (hg : g.Sound) (hs : g.Knows s)
    (h : (g.place (g.address s path)).1 = s) : ¬ g.Overlaid s path := by
  rintro ⟨hhome, ⟨m, t⟩, hmt, hlt, hsome⟩
  have haddress : g.address s path = s.mount ++ path := if_neg hhome
  have hmounted := (hs.resolve_left hhome).2
  obtain ⟨⟨found, more⟩, hf⟩ := Option.isSome_iff_exists.1 (find?_isSome hmt hsome)
  have hplace := (place_of_find? (hasScheme_mount hmounted path) hf).1
  rw [haddress, hplace] at h
  subst h
  obtain ⟨mount, hmem, -, hmax⟩ := Registry.mem_of_find? hf
  have hown : found.mount = mount := (hg.owner (mount, found) hmem).1
  have hle := hmax (m, t) hmt hsome
  rw [← hown] at hle
  exact Nat.not_lt.2 hle hlt

/-- No mount lies over the void store. -/
theorem not_overlaid_void (g : Registry) : ¬ g.Overlaid g.void "" := by
  rintro ⟨-, entry, -, hlt, hsome⟩
  obtain ⟨rest, hr⟩ := Option.isSome_iff_exists.1 hsome
  have hlen := congrArg List.length (behind?_eq_some_iff.1 hr).1
  rw [String.append_empty, List.length_append, String.length_toList, String.length_toList] at hlen
  omega

/-- **The canonical form of an address leads where the address leads**, exactly if no longer mount
lies over the place. -/
theorem Sound.place_canonicalText_iff (hg : g.Sound)
    (hb : ∀ c ∈ uri.toList, Text.isBlank c = false) :
    g.place (g.canonicalText uri) = g.place uri ↔
      ¬ g.Overlaid (g.place uri).1 (g.place uri).2 := by
  unfold canonicalText
  rcases hg.place_cases uri with h | ⟨s, part, hs, hp, hc, h⟩
  · rw [if_pos (by rw [h]), h]
    exact ⟨fun _ => g.not_overlaid_void, fun _ => rfl⟩
  · have hhome := hg.isHome_of_knows hs
    have hne := hg.kept.ne_void hhome
    have hpart : ∀ c ∈ part.toList, Text.isBlank c = false := by
      intro c hm
      rcases hc c hm with rfl | hm
      · exact Text.isBlank_slash
      · exact hb c hm
    rw [h, if_neg hne]
    constructor
    · intro hback
      exact hg.not_overlaid hs (by rw [hback])
    · intro hnot
      rw [hg.kept.place_address hs hhome hp hnot, hhome.joined_joined hpart]

/-- The address of a path that a mounted store joined leads back to it, exactly if no longer mount
lies over it and there is no blank at its end. -/
theorem Sound.place_joined_iff (hg : g.Sound) (hs : g.Knows s) (hm : s.IsMounted)
    (parts : List String) :
    g.place (g.address s (s.joined parts)) = (s, s.joined parts) ↔
      ¬ g.Overlaid s (s.joined parts) ∧ Text.endsBlank (s.joined parts).toList = false := by
  have hp := hm.isPath parts
  have hkind : s.kind ≠ .disk := by cases hm <;> exact nofun
  have hkeep := (Store.IsHome.joined_singleton_iff (.inl hm) hp).trans (or_iff_right hkind)
  rw [← hkeep]
  constructor
  · intro hback
    have hnot := hg.not_overlaid hs (by rw [hback])
    rw [hg.kept.place_address hs (.inl hm) hp hnot] at hback
    exact ⟨hnot, (Prod.mk.inj hback).2⟩
  · rintro ⟨hnot, hsame⟩
    rw [hg.kept.place_address hs (.inl hm) hp hnot, hsame]

end Registry

/-! ## 4. Handles -/

namespace Handle

variable {h : Handle} {s : Store} {path : String}

/-- Resolving a handle. -/
theorem record_resolve (hg : (w.registry h.registryNumber).Sound) :
    w.record token (h.resolve : Traversal Out (Store × String)) =
      ⟨.finished ((w.registry h.registryNumber).place h.uri), [], w⟩ := by
  unfold resolve
  exact hg.record_resolve w token h.uri

/-- Resolving a handle of a store that joins. -/
theorem record_resolve_of_place (hplace : (w.registry h.registryNumber).place h.uri = (s, path))
    (hs : s.IsHome) : w.record token (h.resolve : Traversal Out (Store × String)) =
      ⟨.finished (s, path), [], w⟩ := by
  unfold resolve
  exact Registry.record_resolve_of_place w token hplace hs

/-- Making a handle of an address that resolves to its place takes the canonical form. -/
theorem record_ofAddress_of_resolve (registry : Option Nat) {uri : String}
    (h : w.record token ((w.registry (registry.getD commonRegistry)).resolve uri :
      Traversal Out (Store × String)) =
        ⟨.finished ((w.registry (registry.getD commonRegistry)).place uri), [], w⟩) :
    w.record token (ofAddress uri registry : Traversal Out Handle) =
      ⟨.finished ⟨(w.registry (registry.getD commonRegistry)).canonicalText uri, registry⟩, [], w⟩ := by
  unfold ofAddress
  by_cases hempty : uri = ""
  · subst hempty
    have hcanonical : (w.registry (registry.getD commonRegistry)).canonicalText "" = "" := if_pos rfl
    rw [if_pos rfl, hcanonical]
    rfl
  · rw [if_neg hempty]
    exact World.record_bind_of_finished w token (Registry.record_canonical w token h) _

/-- Making a handle of an address takes the canonical form. -/
theorem record_ofAddress (registry : Option Nat)
    (hg : (w.registry (registry.getD commonRegistry)).Sound) (uri : String) :
    w.record token (ofAddress uri registry : Traversal Out Handle) =
      ⟨.finished ⟨(w.registry (registry.getD commonRegistry)).canonicalText uri, registry⟩, [], w⟩ :=
  record_ofAddress_of_resolve w token registry (hg.record_resolve w token uri)

/-- **Joining** ends with the address of the joined path. -/
theorem record_join (hs : s.IsHome)
    (hplace : (w.registry h.registryNumber).place h.uri = (s, path)) (parts : List String) :
    w.record token (h.join parts : Traversal Out Handle) =
      ⟨.finished ⟨(w.registry h.registryNumber).address s (s.joined (path :: parts)), h.registry⟩,
        [], w⟩ := by
  have hresolve : w.record token (h.resolve : Traversal Out (Store × String)) =
      ⟨.finished (s, path), [], w⟩ := h.record_resolve_of_place w token hplace hs
  unfold join
  refine (World.record_bind_of_finished w token hresolve _).trans ?_
  have hjoin : w.record token (Traversal.plain s (.join (path :: parts)) : Traversal Out String) =
      ⟨.finished (s.joined (path :: parts)), [], w⟩ := hs.record_join w token (path :: parts)
  refine (congrArg (Record.behind []) (World.record_bind_of_finished w token hjoin _)).trans ?_
  rfl

end Handle

/-- Two records that end well and hand nothing out differ in the result only. -/
theorem Record.finished_eq_iff {α : Type} {a b : α} :
    (⟨.finished a, [], w⟩ : Record Out α) = ⟨.finished b, [], w⟩ ↔ a = b := by
  constructor
  · intro h
    exact Traversal.Outcome.finished.inj (congrArg Record.outcome h)
  · rintro rfl
    rfl

/-- **When a handle keeps its place.**  In a registry that came about by registering and
unregistering stores, an address without blanks leads to a store and a path.  Its canonical form
leads there again, and the handle of the address resolves there, exactly if no longer mount lies
over the path.  A handle that was joined resolves to the joined path of the same store exactly if,
besides, that path does not end in a blank. -/
theorem Handle.keeps_place_iff (number : Option Nat)
    (hg : (w.registry (number.getD commonRegistry)).Reachable) :
    let g := w.registry (number.getD commonRegistry)
    (∀ uri : String, (∀ c ∈ uri.toList, Text.isBlank c = false) → ∃ s path,
      w.record token (g.resolve uri : Traversal Out (Store × String)) =
        ⟨.finished (s, path), [], w⟩ ∧
      (w.record token (g.canonical uri >>= g.resolve : Traversal Out (Store × String)) =
        ⟨.finished (s, path), [], w⟩ ↔ ¬ g.Overlaid s path) ∧
      (w.record token (Handle.ofAddress uri number >>= Handle.resolve :
          Traversal Out (Store × String)) =
        ⟨.finished (s, path), [], w⟩ ↔ ¬ g.Overlaid s path)) ∧
    (∀ (h : Handle) (s : Store) (path name : String), h.registry = number → s.IsMounted →
      w.record token (h.resolve : Traversal Out (Store × String)) =
        ⟨.finished (s, path), [], w⟩ →
      ∃ joined, s.join [path, name] = .ok joined ∧
        (w.record token (h.join [name] >>= Handle.resolve : Traversal Out (Store × String)) =
          ⟨.finished (s, joined), [], w⟩ ↔
            ¬ g.Overlaid s joined ∧ Text.endsBlank joined.toList = false)) := by
  have hsound := hg.sound
  intro g
  constructor
  · intro uri hb
    have hback := hsound.place_canonicalText_iff hb
    refine ⟨(g.place uri).1, (g.place uri).2, hsound.record_resolve w token uri, ?_, ?_⟩
    · have hrun : w.record token (g.canonical uri >>= g.resolve : Traversal Out (Store × String)) =
          ⟨.finished (g.place (g.canonicalText uri)), [], w⟩ := by
        refine (World.record_bind_of_finished w token
          (Registry.record_canonical w token (hsound.record_resolve w token uri)) _).trans ?_
        rw [Record.behind_nil]
        exact hsound.record_resolve w token _
      rw [hrun, Record.finished_eq_iff]
      exact hback
    · have hrun : w.record token (Handle.ofAddress uri number >>= Handle.resolve :
          Traversal Out (Store × String)) = ⟨.finished (g.place (g.canonicalText uri)), [], w⟩ := by
        refine (World.record_bind_of_finished w token
          (Handle.record_ofAddress w token number hsound uri) _).trans ?_
        rw [Record.behind_nil]
        exact Handle.record_resolve w token hsound
      rw [hrun, Record.finished_eq_iff]
      exact hback
  · intro h s path name hnumber hm hresolve
    subst hnumber
    rw [h.record_resolve w token hsound, Record.finished_eq_iff] at hresolve
    have hhome : s.IsHome := .inl hm
    refine ⟨s.joined [path, name], hhome.join_eq _, ?_⟩
    have hrun : w.record token (h.join [name] >>= Handle.resolve : Traversal Out (Store × String)) =
        ⟨.finished (g.place (g.address s (s.joined [path, name]))), [], w⟩ := by
      refine (World.record_bind_of_finished w token
        (h.record_join w token hhome hresolve [name]) _).trans ?_
      rw [Record.behind_nil]
      exact Handle.record_resolve w token hsound
    rw [hrun, Record.finished_eq_iff]
    exact hsound.place_joined_iff (hsound.kept.knows_of_place hresolve hm) hm [path, name]

/-- Two memory stores, the mount of one below the mount of the other. -/
def World.nested : World :=
  ((World.initial ⟨.empty, []⟩).changeRegistry commonRegistry
    (·.register ⟨2, "mem://a", .memory⟩)).changeRegistry commonRegistry
    (·.register ⟨3, "mem://a/b", .memory⟩)

/-- An address that leads to the outer store while its canonical form leads to the inner one, and
a name that joins to such an address. -/
theorem Handle.keeps_place_iff_nested :
    let g := World.nested.registry commonRegistry
    let outer : Store := ⟨2, "mem://a", .memory⟩
    g.Reachable ∧
      World.nested.record none (g.resolve "mem://a//b" : Traversal Empty (Store × String)) =
        ⟨.finished (outer, "/b"), [], World.nested⟩ ∧
      World.nested.record none (g.canonical "mem://a//b" >>= g.resolve :
          Traversal Empty (Store × String)) ≠ ⟨.finished (outer, "/b"), [], World.nested⟩ ∧
      World.nested.record none (Handle.join ⟨"mem://a/", none⟩ ["b"] >>= Handle.resolve :
          Traversal Empty (Store × String)) ≠ ⟨.finished (outer, "/b"), [], World.nested⟩ := by
  intro g outer
  have hfirst : World.firstRegistry.Reachable := .fresh (.inr ⟨rfl, rfl⟩) rfl
  have hg : g.Reachable := (hfirst.register (.memory 2 "a")).register (.memory 3 "a/b")
  have hplace : g.place "mem://a//b" = (outer, "/b") := by decide +kernel
  have hroot : g.place "mem://a/" = (outer, "/") := by decide +kernel
  have hover : g.Overlaid outer "/b" := by decide +kernel
  have hplain : ("mem://a//b".toList.all fun c => !Text.isBlank c) = true := by decide +kernel
  have hresolve : World.nested.record none (g.resolve "mem://a//b" :
      Traversal Empty (Store × String)) = ⟨.finished (outer, "/b"), [], World.nested⟩ := by
    rw [hg.sound.record_resolve World.nested none, hplace]
  have hbase : World.nested.record none (Handle.resolve ⟨"mem://a/", none⟩ :
      Traversal Empty (Store × String)) = ⟨.finished (outer, "/"), [], World.nested⟩ := by
    rw [← hroot]
    exact Handle.record_resolve World.nested none hg.sound
  obtain ⟨haddress, hjoin⟩ := @Handle.keeps_place_iff Empty World.nested none none hg
  refine ⟨hg, hresolve, fun hback => ?_, fun hback => ?_⟩
  · obtain ⟨s, path, hsame, hiff, -⟩ := haddress "mem://a//b" fun c hc => by
      simpa using List.all_eq_true.1 hplain c hc
    have hpair := (Record.finished_eq_iff World.nested).1 (hresolve.symm.trans hsame)
    obtain ⟨rfl, rfl⟩ := Prod.mk.inj hpair
    exact hiff.1 hback hover
  · obtain ⟨joined, hj, hiff⟩ := hjoin ⟨"mem://a/", none⟩ outer "/" "b" rfl (.memory 2 "a") hbase
    have hb : outer.join ["/", "b"] = .ok "/b" := by decide +kernel
    rw [hb] at hj
    obtain rfl := Except.ok.inj hj
    exact (hiff.1 hback).1 hover

end Arboretum
