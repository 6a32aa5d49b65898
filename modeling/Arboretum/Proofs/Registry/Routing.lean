import Mathlib.Data.List.Nodup
import Arboretum.Registry

/-!
# Routing by the longest mount

The owner of an address with a scheme is found by a fold over the mounts.  What the fold finds is
a candidate, and no candidate has a longer mount (`mem_of_find?`); something is found as soon as
there is a candidate (`find?_isSome`).  In a registry that came about by registering and unregistering
stores, whatever they are (`Registry.Grown`), each store stands under its own mount and no mount
stands there twice; so the longest mount determines its store (`find?_eq_some_iff`).  Where the
stores besides are mounted ones (`Registry.Reachable`), every address is led to a store that joins.
-/

namespace Arboretum

namespace Registry

/-! ## 1. Candidates -/

/-- **A mount owns an address** with a rest behind it: it stands in front and ends at a
boundary. -/
theorem behind?_eq_some_iff {mount uri rest : String} :
    behind? mount uri = some rest ↔ uri.toList = mount.toList ++ rest.toList ∧
      (rest.toList = [] ∨ rest.toList.head? = some '/' ∨ mount.toList.getLast? = some '/' ∨
        mount.toList.getLast? = some ':') := by
  unfold behind?
  cases ha : Path.after? mount.toList uri.toList with
  | none =>
    refine ⟨fun h => (nomatch h), fun h => ?_⟩
    obtain ⟨h, -⟩ := h
    rw [Path.after?_eq_some_iff.2 h] at ha
    cases ha
  | some behind =>
    have hu := Path.after?_eq_some_iff.1 ha
    dsimp only
    constructor
    · intro h
      split at h
      · next hb =>
        obtain rfl := Option.some.inj h
        rw [String.toList_ofList]
        exact ⟨hu, hb⟩
      · cases h
    · rintro ⟨h, hb⟩
      have he : behind = rest.toList := List.append_cancel_left (hu.symm.trans h)
      rw [he, if_pos hb, String.ofList_toList]

/-- The rest of an address behind a mount. -/
abbrev Found := String × Store × String

/-- One mount as a candidate for an address. -/
def candidate? (uri : String) (entry : String × Store) : Option Found :=
  (behind? entry.1 uri).map fun rest => (entry.1, entry.2, rest)

/-- The fold behind `find?`. -/
def best? (uri : String) (mounts : List (String × Store)) (best : Option Found) : Option Found :=
  mounts.foldl (fun best entry => longer best (candidate? uri entry)) best

theorem find?_eq_best? (g : Registry) (uri : String) :
    g.find? uri = (best? uri g.mounts none).map fun (_, s, rest) => (s, rest) := rfl

theorem longer_eq_some {a b : Option Found} {c : Found} (h : longer a b = some c) :
    a = some c ∨ b = some c := by
  cases a with
  | none => exact .inr h
  | some a =>
    cases b with
    | none => exact .inl h
    | some b =>
      unfold longer at h
      dsimp only at h
      split at h
      · exact .inr h
      · exact .inl h

/-- The longer of two finds is at least as long as both. -/
theorem le_of_longer {a b : Option Found} {c : Found} (h : longer a b = some c) {d : Found}
    (hd : a = some d ∨ b = some d) : d.1.length ≤ c.1.length := by
  cases a with
  | none =>
    have hb : b = some c := h
    rcases hd with hd | hd
    · cases hd
    · rw [hb] at hd
      obtain rfl := Option.some.inj hd
      exact Nat.le_refl _
  | some a =>
    cases b with
    | none =>
      have ha : some a = some c := h
      rcases hd with hd | hd
      · rw [ha] at hd
        obtain rfl := Option.some.inj hd
        exact Nat.le_refl _
      · cases hd
    | some b =>
      unfold longer at h
      dsimp only at h
      split at h
      · next hlt =>
        obtain rfl := Option.some.inj h
        rcases hd with hd | hd
        · obtain rfl := Option.some.inj hd
          exact Nat.le_of_lt hlt
        · obtain rfl := Option.some.inj hd
          exact Nat.le_refl _
      · next hle =>
        obtain rfl := Option.some.inj h
        rcases hd with hd | hd
        · obtain rfl := Option.some.inj hd
          exact Nat.le_refl _
        · obtain rfl := Option.some.inj hd
          exact Nat.not_lt.1 hle

theorem longer_isSome {a b : Option Found} (h : a.isSome = true ∨ b.isSome = true) :
    (longer a b).isSome = true := by
  cases a with
  | none => exact h.elim (fun h => nomatch h) id
  | some a =>
    cases b with
    | none => rfl
    | some b =>
      unfold longer
      dsimp only
      split <;> rfl

/-- What the fold finds comes from the start or from a mount. -/
theorem mem_of_best? {uri : String} {mounts : List (String × Store)} {best : Option Found}
    {c : Found} (h : best? uri mounts best = some c) :
    best = some c ∨ ∃ entry ∈ mounts, candidate? uri entry = some c := by
  induction mounts generalizing best with
  | nil => exact .inl h
  | cons entry mounts ih =>
    rcases ih h with hl | ⟨e, he, hc⟩
    · rcases longer_eq_some hl with hb | hc
      · exact .inl hb
      · exact .inr ⟨entry, List.mem_cons_self, hc⟩
    · exact .inr ⟨e, List.mem_cons_of_mem entry he, hc⟩

/-- Nothing that the fold has seen is longer than what it finds. -/
theorem le_of_best? {uri : String} {mounts : List (String × Store)} {best : Option Found}
    {c : Found} (h : best? uri mounts best = some c) {d : Found}
    (hd : best = some d ∨ ∃ entry ∈ mounts, candidate? uri entry = some d) :
    d.1.length ≤ c.1.length := by
  induction mounts generalizing best d with
  | nil =>
    have hb : best = some c := h
    rcases hd with hd | ⟨e, he, -⟩
    · rw [hb] at hd
      obtain rfl := Option.some.inj hd
      exact Nat.le_refl _
    · exact absurd he List.not_mem_nil
  | cons entry mounts ih =>
    have hrest : best? uri mounts (longer best (candidate? uri entry)) = some c := h
    have hfirst : best = some d ∨ candidate? uri entry = some d → d.1.length ≤ c.1.length := by
      intro hb
      have hsome : (longer best (candidate? uri entry)).isSome = true :=
        longer_isSome (hb.imp (fun h => by rw [h]; rfl) fun h => by rw [h]; rfl)
      obtain ⟨l, hl⟩ := Option.isSome_iff_exists.1 hsome
      exact Nat.le_trans (le_of_longer hl hb) (ih hrest (.inl hl))
    rcases hd with hb | ⟨e, he, hc⟩
    · exact hfirst (.inl hb)
    · rcases List.mem_cons.1 he with rfl | he
      · exact hfirst (.inr hc)
      · exact ih hrest (.inr ⟨e, he, hc⟩)

theorem best?_isSome {uri : String} {mounts : List (String × Store)} {best : Option Found}
    (h : best.isSome = true ∨ ∃ entry ∈ mounts, (candidate? uri entry).isSome = true) :
    (best? uri mounts best).isSome = true := by
  induction mounts generalizing best with
  | nil => exact h.elim id fun ⟨e, he, _⟩ => absurd he List.not_mem_nil
  | cons entry mounts ih =>
    refine ih ?_
    rcases h with hb | ⟨e, he, hc⟩
    · exact .inl (longer_isSome (.inl hb))
    · rcases List.mem_cons.1 he with rfl | he
      · exact .inl (longer_isSome (.inr hc))
      · exact .inr ⟨e, he, hc⟩

/-! ## 2. The owner -/

variable {g : Registry} {uri : String}

/-- **What is found is a candidate.** -/
theorem mem_of_find? {s : Store} {rest : String} (h : g.find? uri = some (s, rest)) :
    ∃ mount, (mount, s) ∈ g.mounts ∧ behind? mount uri = some rest ∧
      ∀ entry ∈ g.mounts, (behind? entry.1 uri).isSome = true →
        entry.1.length ≤ mount.length := by
  rw [find?_eq_best?] at h
  obtain ⟨⟨mount, s', rest'⟩, hb, he⟩ := Option.map_eq_some_iff.1 h
  obtain ⟨rfl, rfl⟩ := Prod.mk.inj he
  rcases mem_of_best? hb with hn | ⟨⟨m, t⟩, hm, hc⟩
  · cases hn
  · obtain ⟨rest, hr, hf⟩ := Option.map_eq_some_iff.1 hc
    cases hf
    refine ⟨m, hm, hr, fun e he hs => ?_⟩
    obtain ⟨r, hr⟩ := Option.isSome_iff_exists.1 hs
    have hcand : candidate? uri e = some (e.1, e.2, r) := by
      rw [candidate?, hr]
      rfl
    exact le_of_best? hb (.inr ⟨e, he, hcand⟩)

/-- Something is found as soon as there is a candidate. -/
theorem find?_isSome {entry : String × Store} (hm : entry ∈ g.mounts)
    (h : (behind? entry.1 uri).isSome = true) : (g.find? uri).isSome = true := by
  rw [find?_eq_best?, Option.isSome_map]
  refine best?_isSome (.inr ⟨entry, hm, ?_⟩)
  rw [candidate?, Option.isSome_map]
  exact h

/-- What is registered under a mount is one of the stores. -/
theorem mem_of_get? {s : Store} {mount : String} (h : g.get? mount = some s) :
    (mount, s) ∈ g.mounts := by
  obtain ⟨entry, hf, rfl⟩ := Option.map_eq_some_iff.1 h
  have hmount := List.find?_some hf
  rw [← of_decide_eq_true hmount]
  exact List.mem_of_find?_eq_some hf

/-- Two mounts of equal length in front of one address are the same. -/
theorem mount_eq_of_length_eq {m n : String} (hm : (behind? m uri).isSome = true)
    (hn : (behind? n uri).isSome = true) (hl : m.length = n.length) : m = n := by
  obtain ⟨r, hr⟩ := Option.isSome_iff_exists.1 hm
  obtain ⟨t, ht⟩ := Option.isSome_iff_exists.1 hn
  have he := (behind?_eq_some_iff.1 hr).1.symm.trans (behind?_eq_some_iff.1 ht).1
  have hlen : m.toList.length = n.toList.length := by
    rw [String.length_toList, String.length_toList, hl]
  exact String.toList_inj.1 (List.append_inj_left he hlen)

/-- **Where no mount stands twice, the longest one decides**: what is found is the store under the
longest mount in front of the address. -/
theorem find?_eq_some_iff (hg : (g.mounts.map (·.1)).Nodup) {s : Store} {rest : String} :
    g.find? uri = some (s, rest) ↔ ∃ mount, (mount, s) ∈ g.mounts ∧ behind? mount uri = some rest ∧
      ∀ entry ∈ g.mounts, (behind? entry.1 uri).isSome = true → entry.1.length ≤ mount.length := by
  refine ⟨mem_of_find?, fun ⟨mount, hm, hb, hmax⟩ => ?_⟩
  have hs : (behind? mount uri).isSome = true := by rw [hb]; rfl
  obtain ⟨⟨t, r⟩, hf⟩ := Option.isSome_iff_exists.1 (find?_isSome hm hs)
  obtain ⟨mount', hm', hb', hmax'⟩ := mem_of_find? hf
  have hs' : (behind? mount' uri).isSome = true := by rw [hb']; rfl
  have hlength := Nat.le_antisymm (hmax (mount', t) hm' hs') (hmax' (mount, s) hm hs)
  obtain rfl := mount_eq_of_length_eq hs' hs hlength
  have hentry := List.inj_on_of_nodup_map hg hm' hm rfl
  rw [hf, (Prod.mk.inj hentry).2, Option.some.inj (hb'.symm.trans hb)]

/-- **Nothing is found** just where no mount stands in front. -/
theorem find?_eq_none_iff :
    g.find? uri = none ↔ ∀ entry ∈ g.mounts, behind? entry.1 uri = none := by
  constructor
  · intro hf entry hm
    by_contra hb
    have hsome := find?_isSome hm (Option.isSome_iff_ne_none.2 hb)
    rw [hf] at hsome
    cases hsome
  · intro h
    cases hf : g.find? uri with
    | none => rfl
    | some found =>
      obtain ⟨s, rest⟩ := found
      obtain ⟨mount, hm, hb, -⟩ := mem_of_find? hf
      rw [h _ hm] at hb
      cases hb

end Registry

/-! ## 3. Reachable registries -/

namespace Store

/-- **A store in memory or in a table**, mounted as such stores are: under the text of its kind
with a name behind it. -/
inductive IsMounted : Store → Prop
  | memory (id : Nat) (name : String) : IsMounted ⟨id, memoryScheme ++ name, .memory⟩
  | table (id number : Nat) (space : String) :
    IsMounted ⟨id, tableScheme ++ space, .table number space⟩

/-- The home store of a registry: the disk, or any mounted store. -/
def IsHome (s : Store) : Prop := s.IsMounted ∨ s.kind = .disk ∧ s.mount = Path.hostMount

/-- A mounted store's mount names a scheme, and starts with another character than a slash. -/
theorem IsMounted.mount_eq {s : Store} (h : s.IsMounted) :
    ∃ c cs front rest, s.mount.toList = c :: cs ∧ c ≠ '/' ∧
      s.mount.toList = front ++ Address.mark ++ rest := by
  cases h with
  | memory id name =>
    exact ⟨'m', ['e', 'm', ':', '/', '/'] ++ name.toList, ['m', 'e', 'm'], name.toList,
      String.toList_append, by decide, String.toList_append⟩
  | table id number space =>
    exact ⟨'d', ['b', ':', '/', '/'] ++ space.toList, ['d', 'b'], space.toList,
      String.toList_append, by decide, String.toList_append⟩

end Store

namespace Registry

/-- **The registries that come about in any way**: stores of every kind are registered and
unregistered. -/
inductive Grown : Registry → Prop
  | fresh (home : Store) {void : Store} (hv : void.kind = .void) : Grown (Registry.fresh home void)
  | register {g : Registry} (h : Grown g) (s : Store) : Grown (g.register s)
  | unregister {g : Registry} (h : Grown g) (s : Store) : Grown (g.unregister s)

/-- **The registries that come about** by registering and unregistering mounted stores. -/
inductive Reachable : Registry → Prop
  | fresh {home void : Store} (hh : home.IsHome) (hv : void.kind = .void) :
    Reachable (Registry.fresh home void)
  | register {g : Registry} (h : Reachable g) {s : Store} (hs : s.IsMounted) :
    Reachable (g.register s)
  | unregister {g : Registry} (h : Reachable g) (s : Store) : Reachable (g.unregister s)

/-- **Stores stand under their own mounts**, and no mount stands twice. -/
structure Filed (g : Registry) : Prop where
  own : ∀ entry ∈ g.mounts, entry.2.mount = entry.1
  unique : (g.mounts.map (·.1)).Nodup

/-- **What holds of every registry** all along: its stores are filed, and its void store keeps
nothing. -/
structure Kept (g : Registry) : Prop extends g.Filed where
  void : g.void.kind = .void

/-- **What holds of a registry** all along: every store but the home store is mounted and stands
under its own mount, and no mount stands twice. -/
structure Sound (g : Registry) : Prop where
  home : g.home.IsHome
  void : g.void.kind = .void
  owner : ∀ entry ∈ g.mounts, entry.2.mount = entry.1 ∧ (entry.2 = g.home ∨ entry.2.IsMounted)
  unique : (g.mounts.map (·.1)).Nodup

theorem mem_give {s : Store} {mounts : List (String × Store)} {entry : String × Store}
    (h : entry ∈ give s mounts) : entry = (s.mount, s) ∨ entry ∈ mounts := by
  induction mounts with
  | nil => exact .inl (List.mem_singleton.1 h)
  | cons first mounts ih =>
    obtain ⟨mount, owner⟩ := first
    rw [give] at h
    split at h
    · next he =>
      rcases List.mem_cons.1 h with rfl | h
      · exact .inl (by rw [he])
      · exact .inr (List.mem_cons_of_mem _ h)
    · rcases List.mem_cons.1 h with rfl | h
      · exact .inr List.mem_cons_self
      · exact (ih h).imp_right (List.mem_cons_of_mem _)

theorem nodup_give {s : Store} {mounts : List (String × Store)} (h : (mounts.map (·.1)).Nodup) :
    ((give s mounts).map (·.1)).Nodup := by
  induction mounts with
  | nil => simp [give]
  | cons first mounts ih =>
    obtain ⟨mount, owner⟩ := first
    rw [List.map_cons, List.nodup_cons] at h
    rw [give]
    split
    · rw [List.map_cons, List.nodup_cons]
      exact h
    · next hne =>
      rw [List.map_cons, List.nodup_cons]
      refine ⟨fun hm => ?_, ih h.2⟩
      obtain ⟨entry, he, hk⟩ := List.mem_map.1 hm
      rcases mem_give he with rfl | he
      · exact hne hk.symm
      · exact h.1 (List.mem_map.2 ⟨entry, he, hk⟩)

/-- Unregistering takes mounts away at most, -/
theorem sublist_unregister (g : Registry) (s : Store) :
    List.Sublist (g.unregister s).mounts g.mounts := by
  unfold unregister
  split
  · exact List.filter_sublist
  · exact List.Sublist.refl _

/-- and the home store and the void store stay. -/
theorem home_unregister (g : Registry) (s : Store) :
    (g.unregister s).home = g.home ∧ (g.unregister s).void = g.void := by
  unfold unregister
  split <;> exact ⟨rfl, rfl⟩

/-- **Every registry is kept so.**  By induction on how it came about. -/
theorem Grown.kept {g : Registry} (h : g.Grown) : g.Kept := by
  induction h with
  | fresh home hv =>
    refine ⟨⟨fun entry hm => ?_, by simp [Registry.fresh]⟩, hv⟩
    obtain rfl := List.mem_singleton.1 hm
    rfl
  | @register g _ s ih =>
    refine ⟨⟨fun entry hm => ?_, nodup_give ih.unique⟩, ih.void⟩
    rcases mem_give hm with rfl | hm
    · rfl
    · exact ih.own entry hm
  | @unregister g _ s ih =>
    have hsub := sublist_unregister g s
    refine ⟨⟨fun entry hm => ih.own entry (hsub.subset hm), ih.unique.sublist (hsub.map _)⟩, ?_⟩
    rw [(home_unregister g s).2]
    exact ih.void

/-- Mounted stores are stores. -/
theorem Reachable.grown {g : Registry} (h : g.Reachable) : g.Grown := by
  induction h with
  | @fresh home _ _ hv => exact .fresh home hv
  | @register _ _ s _ ih => exact ih.register s
  | unregister _ s ih => exact ih.unregister s

/-- **Every reachable registry is sound.**  By induction on how it came about. -/
theorem Reachable.sound {g : Registry} (h : g.Reachable) : g.Sound := by
  have hkept := h.grown.kept
  suffices hstores : g.home.IsHome ∧ ∀ entry ∈ g.mounts, entry.2 = g.home ∨ entry.2.IsMounted from
    ⟨hstores.1, hkept.void, fun entry hm => ⟨hkept.own entry hm, hstores.2 entry hm⟩, hkept.unique⟩
  clear hkept
  induction h with
  | fresh hh hv =>
    refine ⟨hh, fun entry hm => ?_⟩
    obtain rfl := List.mem_singleton.1 hm
    exact .inl rfl
  | register _ hs ih =>
    refine ⟨ih.1, fun entry hm => ?_⟩
    rcases mem_give hm with rfl | hm
    · exact .inr hs
    · exact ih.2 entry hm
  | @unregister g _ s ih =>
    rw [(home_unregister g s).1]
    exact ⟨ih.1, fun entry hm => ih.2 entry ((sublist_unregister g s).subset hm)⟩

theorem Sound.kept {g : Registry} (hg : g.Sound) : g.Kept :=
  ⟨⟨fun entry hm => (hg.owner entry hm).1, hg.unique⟩, hg.void⟩

/-- **The longest mount determines the store** that an address is led to. -/
theorem Filed.find?_eq_some {g : Registry} (hg : g.Filed) {uri : String} {s : Store}
    {rest : String} (hm : (s.mount, s) ∈ g.mounts) (hb : behind? s.mount uri = some rest)
    (hl : ∀ entry ∈ g.mounts, (behind? entry.1 uri).isSome = true →
      entry.1.length ≤ s.mount.length) : g.find? uri = some (s, rest) :=
  (find?_eq_some_iff hg.unique).2 ⟨s.mount, hm, hb, hl⟩

/-- The store that is found for an address stands under its own mount. -/
theorem Sound.mem_of_find? {g : Registry} (hg : g.Sound) {uri : String} {s : Store}
    {rest : String} (h : g.find? uri = some (s, rest)) :
    (s.mount, s) ∈ g.mounts ∧ behind? s.mount uri = some rest ∧ (s = g.home ∨ s.IsMounted) := by
  obtain ⟨mount, hm, hb, -⟩ := Registry.mem_of_find? h
  obtain ⟨he, hs⟩ := hg.owner (mount, s) hm
  dsimp only at he hs
  rw [he]
  exact ⟨hm, hb, hs⟩

end Registry

end Arboretum
