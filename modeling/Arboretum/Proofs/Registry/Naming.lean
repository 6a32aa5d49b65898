import Arboretum.Proofs.Registry.Places

/-!
# Equal handles, equal places

A handle is told from others by its address, the canonical form of the text that it was made of.
While no mount begins with another one and a slash, an address determines the place that it is the
address of (`Sound.address_inj`): where a mount stands in front of another one without a boundary,
as `mem://a` in front of `mem://ab`, the slash that opens every clean path keeps them apart, and a
path of the home store never holds the mark of a scheme.  So two handles are equal exactly if their texts
lead to the same place (`Handle.uri_eq_iff_same_place`).
-/

namespace Arboretum

namespace Registry

variable {g : Registry} {s t : Store} {p q : String}

/-! ## 1. Mounts and paths -/

/-- A mount determines its store. -/
theorem Sound.eq_of_mount_eq (hg : g.Sound) (hs : (s.mount, s) ∈ g.mounts)
    (ht : (t.mount, t) ∈ g.mounts) (h : s.mount = t.mount) : s = t := by
  have hinj := List.inj_on_of_nodup_map hg.unique hs ht h
  exact (Prod.mk.inj hinj).2

/-- What one mount has more than another one in front of it would open with the slash of a path. -/
theorem Alone.eq_nil_of_append (h : g.Alone s) (ht : (t.mount, t) ∈ g.mounts) {more : List Char}
    (hmount : t.mount.toList = s.mount.toList ++ more) (hp : p.toList.head? = some '/')
    (hpath : p.toList = more ++ q.toList) : more = [] := by
  cases more with
  | nil => rfl
  | cons c more =>
    rw [hpath] at hp
    obtain rfl : c = '/' := Option.some.inj hp
    refine absurd ?_ (h (t.mount, t) ht)
    exact ⟨more, by rw [hmount, List.append_assoc]; rfl⟩

/-- **A mount with a path behind it** is no other mount with a path behind it. -/
theorem Sound.mount_append_inj (hg : g.Sound) (hs : (s.mount, s) ∈ g.mounts)
    (ht : (t.mount, t) ∈ g.mounts) (halone : g.Alone s) (halone' : g.Alone t)
    (hp : p.toList.head? = some '/') (hq : q.toList.head? = some '/')
    (h : s.mount ++ p = t.mount ++ q) : s = t ∧ p = q := by
  have hchars : s.mount.toList ++ p.toList = t.mount.toList ++ q.toList := by
    rw [← String.toList_append, ← String.toList_append, h]
  have hmount : s.mount.toList = t.mount.toList := by
    rcases List.append_eq_append_iff.1 hchars with ⟨more, hm, hpath⟩ | ⟨more, hm, hpath⟩
    · rw [hm, halone.eq_nil_of_append ht hm hp hpath, List.append_nil]
    · rw [hm, halone'.eq_nil_of_append hs hm hq hpath, List.append_nil]
  rw [hmount] at hchars
  exact ⟨hg.eq_of_mount_eq hs ht (String.toList_inj.1 hmount),
    String.toList_inj.1 (List.append_cancel_left hchars)⟩

/-! ## 2. Addresses -/

/-- The address of a path of the home store is not one behind a mount. -/
theorem Sound.address_home_ne (hg : g.Sound) (hp : g.home.IsPath p) (ht : t.IsMounted) :
    p ≠ t.mount ++ q := by
  intro h
  have hscheme := hg.home.no_scheme hp
  rw [h, hasScheme_mount ht] at hscheme
  cases hscheme

/-- **An address determines its place**, if no mount begins with another one and a slash. -/
theorem Sound.address_inj (hg : g.Sound) (halone : ∀ entry ∈ g.mounts, g.Alone entry.2)
    (hs : g.Knows s) (ht : g.Knows t) (hp : s.IsPath p) (hq : t.IsPath q) :
    g.address s p = g.address t q ↔ (s, p) = (t, q) := by
  refine ⟨fun h => ?_, fun h => ?_⟩
  · unfold address at h
    by_cases hhome : s = g.home
    · subst hhome
      rw [if_pos rfl] at h
      by_cases hhome' : t = g.home
      · rw [if_pos hhome'] at h
        rw [h, hhome']
      · rw [if_neg hhome'] at h
        exact absurd h (hg.address_home_ne hp (ht.resolve_left hhome').2)
    · obtain ⟨hm, hmounted⟩ := hs.resolve_left hhome
      rw [if_neg hhome] at h
      by_cases hhome' : t = g.home
      · subst hhome'
        rw [if_pos rfl] at h
        exact absurd h.symm (hg.address_home_ne hq hmounted)
      · obtain ⟨hm', hmounted'⟩ := ht.resolve_left hhome'
        rw [if_neg hhome'] at h
        obtain ⟨text, hp⟩ := hmounted.exists_clean hp
        obtain ⟨text', hq⟩ := hmounted'.exists_clean hq
        have hs' : g.Alone s := halone (s.mount, s) hm
        have ht' : g.Alone t := halone (t.mount, t) hm'
        obtain ⟨rfl, rfl⟩ := hg.mount_append_inj hm hm' hs' ht' (hp ▸ Path.head?_clean text)
          (hq ▸ Path.head?_clean text') h
        rfl
  · obtain ⟨rfl, rfl⟩ := Prod.mk.inj h
    rfl

/-- **Two addresses have one canonical form** exactly if they lead to one place, unless one of them
leads to the void store. -/
theorem Sound.canonicalText_eq_iff (hg : g.Sound) (halone : ∀ entry ∈ g.mounts, g.Alone entry.2)
    {u v : String} (hu : (g.place u).1 ≠ g.void) (hv : (g.place v).1 ≠ g.void) :
    g.canonicalText u = g.canonicalText v ↔ g.place u = g.place v := by
  unfold canonicalText
  rw [if_neg hu, if_neg hv]
  rcases hg.place_cases u with h | ⟨s, part, hs, hp, -, h⟩
  · exact absurd (by rw [h]) hu
  · rcases hg.place_cases v with h' | ⟨t, part', ht, hq, -, h'⟩
    · exact absurd (by rw [h']) hv
    · rw [h, h']
      exact hg.address_inj halone hs ht hp hq

end Registry

/-! ## 3. Handles -/

variable {Out : Type} (w : World) (token : Option Nat)

/-- **Handles are equal exactly if they lead to the same place.**  In a registry that came about by
registering and unregistering stores, no mount begins with another one and a slash.  Two addresses
make two handles, and each of them resolves to a store and a path; unless one of the stores is the
void store, the handles have one address exactly if the stores and the paths are the same. -/
theorem Handle.uri_eq_iff_same_place (number : Option Nat)
    (hg : (w.registry (number.getD commonRegistry)).Reachable)
    (halone : ∀ entry ∈ (w.registry (number.getD commonRegistry)).mounts,
      (w.registry (number.getD commonRegistry)).Alone entry.2) (u v : String) :
    let g := w.registry (number.getD commonRegistry)
    ∃ (a b : Handle) (s t : Store) (p q : String),
      w.record token (Handle.ofAddress u number : Traversal Out Handle) = ⟨.finished a, [], w⟩ ∧
      w.record token (Handle.ofAddress v number : Traversal Out Handle) = ⟨.finished b, [], w⟩ ∧
      w.record token (g.resolve u : Traversal Out (Store × String)) = ⟨.finished (s, p), [], w⟩ ∧
      w.record token (g.resolve v : Traversal Out (Store × String)) = ⟨.finished (t, q), [], w⟩ ∧
      (s ≠ g.void → t ≠ g.void → (a.uri = b.uri ↔ s = t ∧ p = q)) := by
  intro g
  have hsound := hg.sound
  refine ⟨_, _, _, _, _, _, Handle.record_ofAddress w token number hsound u,
    Handle.record_ofAddress w token number hsound v, hsound.record_resolve w token u,
    hsound.record_resolve w token v, fun hs ht => ?_⟩
  rw [← Prod.ext_iff]
  exact hsound.canonicalText_eq_iff halone hs ht

/-- Two memory stores, the mount of one in front of the mount of the other without a boundary. -/
def World.beside : World :=
  ((World.initial ⟨.empty, []⟩).changeRegistry commonRegistry
    (·.register ⟨2, "mem://a", .memory⟩)).changeRegistry commonRegistry
    (·.register ⟨3, "mem://ab", .memory⟩)

/-- Two spellings of one place make one handle; the same path in the store beside it makes
another. -/
theorem Handle.uri_eq_iff_same_place_beside :
    let g := World.beside.registry commonRegistry
    g.Reachable ∧ (∀ entry ∈ g.mounts, g.Alone entry.2) ∧ ∃ a b c : Handle,
      World.beside.record none (Handle.ofAddress "mem://ab//c/." none : Traversal Empty Handle) =
        ⟨.finished a, [], World.beside⟩ ∧
      World.beside.record none (Handle.ofAddress "mem://ab/c" none : Traversal Empty Handle) =
        ⟨.finished b, [], World.beside⟩ ∧
      World.beside.record none (Handle.ofAddress "mem://a/c" none : Traversal Empty Handle) =
        ⟨.finished c, [], World.beside⟩ ∧ a.uri = b.uri ∧ b.uri ≠ c.uri := by
  intro g
  have hfresh : World.firstRegistry.Reachable := .fresh (.inr ⟨rfl, rfl⟩) rfl
  have hg : g.Reachable := (hfresh.register (.memory 2 "a")).register (.memory 3 "ab")
  have halone : ∀ entry ∈ g.mounts, g.Alone entry.2 := by decide +kernel
  have hfirst : g.place "mem://ab//c/." = (⟨3, "mem://ab", .memory⟩, "/c") := by decide +kernel
  have hsecond : g.place "mem://ab/c" = (⟨3, "mem://ab", .memory⟩, "/c") := by decide +kernel
  have hthird : g.place "mem://a/c" = (⟨2, "mem://a", .memory⟩, "/c") := by decide +kernel
  have hplace : ∀ {uri : String} {place : Store × String}, World.beside.record none
      (g.resolve uri : Traversal Empty (Store × String)) = ⟨.finished place, [], World.beside⟩ →
      g.place uri = place := fun h =>
    (Record.finished_eq_iff World.beside).1 ((hg.sound.record_resolve World.beside none _).symm.trans h)
  obtain ⟨a, b, s, t, p, q, ha, hb, hs, ht, hsame⟩ := @Handle.uri_eq_iff_same_place Empty
    World.beside none none hg halone "mem://ab//c/." "mem://ab/c"
  obtain ⟨b', c, t', r, q', o, hb', hc, ht', hr, hother⟩ := @Handle.uri_eq_iff_same_place Empty
    World.beside none none hg halone "mem://ab/c" "mem://a/c"
  obtain rfl := (Record.finished_eq_iff World.beside).1 (hb.symm.trans hb')
  obtain ⟨rfl, rfl⟩ := Prod.mk.inj (hfirst.symm.trans (hplace hs))
  obtain ⟨rfl, rfl⟩ := Prod.mk.inj (hsecond.symm.trans (hplace ht))
  obtain ⟨rfl, rfl⟩ := Prod.mk.inj (hsecond.symm.trans (hplace ht'))
  obtain ⟨rfl, rfl⟩ := Prod.mk.inj (hthird.symm.trans (hplace hr))
  refine ⟨hg, halone, a, b, c, ha, hb, hc, (hsame ?_ ?_).2 ⟨rfl, rfl⟩, fun he => ?_⟩
  · decide
  · decide
  · have hids := congrArg Store.id ((hother (by decide) (by decide)).1 he).1
    cases hids

end Arboretum
