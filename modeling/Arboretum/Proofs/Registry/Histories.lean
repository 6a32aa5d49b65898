import Mathlib.Data.List.Induction
import Arboretum.Proofs.Registry.Routing

/-!
# Routing after any history

A registry is changed by registering and unregistering stores of any kind, in any order.  Who owns a
mount can be told from the **acts** alone: the store that was registered under it last, unless it was
unregistered since (`Owns`).  One act changes the mounts of a registry as it changes the owners
(`Filed.mem_register_iff`, `Filed.mem_unregister_iff`), so the mounts are the owners after any acts
(`mem_mounts_after_iff`), whatever order they came to stand in; and an address goes to the owner of
the longest mount in front of it that ends at a boundary (`find?_after`).
-/

namespace Arboretum

namespace Registry

/-! ## 1. Acts and owners -/

/-- What may be done to a registry. -/
inductive Act where
  | register (s : Store)
  | unregister (s : Store)
deriving DecidableEq, Repr

/-- The registry after one act. -/
def act (g : Registry) : Act → Registry
  | .register s => g.register s
  | .unregister s => g.unregister s

/-- **The registry after some acts**, the first one first. -/
def after (g : Registry) (acts : List Act) : Registry := acts.foldl act g

/-- **A store owns a mount** after some acts: it was registered under it, no store was registered under
it since, and the store was not unregistered since. -/
def Owns (acts : List Act) (mount : String) (s : Store) : Prop :=
  ∃ earlier later, acts = earlier ++ .register s :: later ∧ s.mount = mount ∧
    (∀ t, .register t ∈ later → t.mount ≠ mount) ∧ .unregister s ∉ later

/-- **A mount stands in front of an address** with a rest behind it, and ends at a boundary: the rest is
empty or starts with a slash, or the mount ends in a slash or a colon. -/
def Fronts (mount uri rest : String) : Prop :=
  uri = mount ++ rest ∧ (rest = "" ∨ rest.toList.head? = some '/' ∨
    mount.toList.getLast? = some '/' ∨ mount.toList.getLast? = some ':')

section Owns

variable {acts : List Act} {mount : String} {s t : Store}

theorem not_owns_nil : ¬ Owns [] mount t := by
  rintro ⟨earlier, later, h, -⟩
  cases earlier <;> cases h

/-- **What the last act does to the owners**: it makes one, or it leaves one. -/
theorem owns_append_singleton_iff {last : Act} : Owns (acts ++ [last]) mount t ↔
    (last = .register t ∧ t.mount = mount) ∨
      (Owns acts mount t ∧ (∀ s, last = .register s → s.mount ≠ mount) ∧ last ≠ .unregister t) := by
  constructor
  · rintro ⟨earlier, later, he, hmount, hregister, hunregister⟩
    rcases List.eq_nil_or_concat' later with rfl | ⟨front, y, rfl⟩
    · obtain ⟨-, hlast⟩ := List.append_inj' he rfl
      exact .inl ⟨(List.cons.inj hlast).1, hmount⟩
    · rw [← List.cons_append, ← List.append_assoc] at he
      obtain ⟨hacts, hlast⟩ := List.append_inj' he rfl
      obtain rfl := (List.cons.inj hlast).1
      refine .inr ⟨⟨earlier, front, hacts, hmount, fun s hs => ?_, fun hs => ?_⟩, fun s hs => ?_, ?_⟩
      · exact hregister s (List.mem_append_left _ hs)
      · exact hunregister (List.mem_append_left _ hs)
      · exact hregister s (hs ▸ List.mem_append_right _ List.mem_cons_self)
      · exact fun hs => hunregister (hs ▸ List.mem_append_right _ List.mem_cons_self)
  · rintro (⟨rfl, hmount⟩ | ⟨⟨earlier, later, rfl, hmount, hregister, hunregister⟩, hl, hne⟩)
    · exact ⟨acts, [], rfl, hmount, nofun, nofun⟩
    · refine ⟨earlier, later ++ [last], by rw [List.append_assoc]; rfl, hmount, fun s hs => ?_,
        fun hs => ?_⟩
      · rcases List.mem_append.1 hs with hs | hs
        · exact hregister s hs
        · exact hl s (List.mem_singleton.1 hs).symm
      · rcases List.mem_append.1 hs with hs | hs
        · exact hunregister hs
        · exact hne (List.mem_singleton.1 hs).symm

/-- **Registering a store** makes it the owner of its mount. -/
theorem owns_register_iff : Owns (acts ++ [.register s]) mount t ↔
    (s.mount = mount ∧ t = s) ∨ (s.mount ≠ mount ∧ Owns acts mount t) := by
  rw [owns_append_singleton_iff]
  constructor
  · rintro (⟨he, hmount⟩ | ⟨hown, hne, -⟩)
    · obtain rfl := Act.register.inj he
      exact .inl ⟨hmount, rfl⟩
    · exact .inr ⟨hne s rfl, hown⟩
  · rintro (⟨hmount, rfl⟩ | ⟨hne, hown⟩)
    · exact .inl ⟨rfl, hmount⟩
    · exact .inr ⟨hown, fun u hu => Act.register.inj hu ▸ hne, nofun⟩

/-- **Unregistering a store** takes its mount from it. -/
theorem owns_unregister_iff :
    Owns (acts ++ [.unregister s]) mount t ↔ t ≠ s ∧ Owns acts mount t := by
  rw [owns_append_singleton_iff]
  constructor
  · rintro (⟨he, -⟩ | ⟨hown, -, hne⟩)
    · cases he
    · exact ⟨fun he => hne (congrArg Act.unregister he.symm), hown⟩
  · rintro ⟨hne, hown⟩
    exact .inr ⟨hown, nofun, fun he => hne (Act.unregister.inj he).symm⟩

end Owns

/-! ## 2. Mounts -/

section Filed

variable {g : Registry} {s t : Store} {mount : String}

/-- A mount has one owner. -/
theorem Filed.eq_of_mem (hg : g.Filed) (hs : (mount, s) ∈ g.mounts) (ht : (mount, t) ∈ g.mounts) :
    s = t :=
  (Prod.mk.inj (List.inj_on_of_nodup_map hg.unique hs ht rfl)).2

theorem Filed.get?_eq_some_iff (hg : g.Filed) : g.get? mount = some s ↔ (mount, s) ∈ g.mounts := by
  refine ⟨mem_of_get?, fun hm => ?_⟩
  cases hf : g.mounts.find? (·.1 = mount) with
  | none =>
    have hnone := List.find?_eq_none.1 hf (mount, s) hm
    exact absurd (decide_eq_true rfl) hnone
  | some entry =>
    obtain ⟨mount', u⟩ := entry
    have hkey := List.find?_some hf
    obtain rfl : mount' = mount := of_decide_eq_true hkey
    have hu := List.mem_of_find?_eq_some hf
    rw [get?, hf, hg.eq_of_mem hm hu]
    rfl

/-- A store that is given a mount stands there alone, and the others stand where they stood. -/
theorem mem_give_iff {mounts : List (String × Store)} (h : (mounts.map (·.1)).Nodup) :
    (mount, t) ∈ give s mounts ↔
      (s.mount = mount ∧ t = s) ∨ (s.mount ≠ mount ∧ (mount, t) ∈ mounts) := by
  induction mounts with
  | nil =>
    rw [give, List.mem_singleton]
    constructor
    · intro he
      obtain ⟨rfl, rfl⟩ := Prod.mk.inj he
      exact .inl ⟨rfl, rfl⟩
    · rintro (⟨rfl, rfl⟩ | ⟨-, hm⟩)
      · rfl
      · exact absurd hm List.not_mem_nil
  | cons first mounts ih =>
    obtain ⟨key, owner⟩ := first
    rw [List.map_cons, List.nodup_cons] at h
    have hkey : ∀ {u}, (key, u) ∉ mounts := fun hu => h.1 (List.mem_map.2 ⟨_, hu, rfl⟩)
    rw [give]
    split
    · next he =>
      subst he
      rw [List.mem_cons, List.mem_cons]
      constructor
      · rintro (hm | hm)
        · obtain ⟨rfl, rfl⟩ := Prod.mk.inj hm
          exact .inl ⟨rfl, rfl⟩
        · exact .inr ⟨fun he => hkey (he ▸ hm), .inr hm⟩
      · rintro (⟨rfl, rfl⟩ | ⟨hne, hm | hm⟩)
        · exact .inl rfl
        · exact absurd (Prod.mk.inj hm).1.symm hne
        · exact .inr hm
    · next hne =>
      rw [List.mem_cons, List.mem_cons, ih h.2]
      constructor
      · rintro (hm | hgiven | ⟨hother, hm⟩)
        · exact .inr ⟨fun he => hne (he.trans (Prod.mk.inj hm).1).symm, .inl hm⟩
        · exact .inl hgiven
        · exact .inr ⟨hother, .inr hm⟩
      · rintro (hgiven | ⟨hother, hm | hm⟩)
        · exact .inr (.inl hgiven)
        · exact .inl hm
        · exact .inr (.inr ⟨hother, hm⟩)

/-- **Registering changes the mounts** as it changes the owners, -/
theorem Filed.mem_register_iff (hg : g.Filed) : (mount, t) ∈ (g.register s).mounts ↔
    (s.mount = mount ∧ t = s) ∨ (s.mount ≠ mount ∧ (mount, t) ∈ g.mounts) :=
  mem_give_iff hg.unique

/-- A store that does not stand under its mount is unregistered without effect. -/
theorem Filed.unregister_eq_self (hg : g.Filed) (h : (s.mount, s) ∉ g.mounts) :
    g.unregister s = g :=
  if_neg fun hs => h (hg.get?_eq_some_iff.1 hs)

/-- and so does unregistering. -/
theorem Filed.mem_unregister_iff (hg : g.Filed) :
    (mount, t) ∈ (g.unregister s).mounts ↔ t ≠ s ∧ (mount, t) ∈ g.mounts := by
  by_cases hs : (s.mount, s) ∈ g.mounts
  · have hmounts : (g.unregister s).mounts = g.mounts.filter (·.1 ≠ s.mount) :=
      congrArg mounts (if_pos (hg.get?_eq_some_iff.2 hs))
    rw [hmounts, List.mem_filter, decide_eq_true_eq]
    constructor
    · rintro ⟨hm, hne⟩
      exact ⟨fun he => hne (he ▸ (hg.own _ hm).symm), hm⟩
    · rintro ⟨hne, hm⟩
      refine ⟨hm, fun he => hne ?_⟩
      have hkey : mount = s.mount := he
      subst hkey
      exact hg.eq_of_mem hm hs
  · rw [hg.unregister_eq_self hs]
    refine ⟨fun hm => ⟨fun he => hs ?_, hm⟩, fun h => h.2⟩
    subst he
    have hown : t.mount = mount := hg.own _ hm
    rwa [hown]

/-- **One act keeps the mounts in order.** -/
theorem Filed.act (hg : g.Filed) (a : Act) : (g.act a).Filed := by
  cases a with
  | register s =>
    refine ⟨fun entry hm => ?_, nodup_give hg.unique⟩
    rcases hg.mem_register_iff.1 hm with ⟨hmount, ht⟩ | ⟨-, hm⟩
    · rw [ht, hmount]
    · exact hg.own entry hm
  | unregister s =>
    have hsub := sublist_unregister g s
    exact ⟨fun entry hm => hg.own entry (hsub.subset hm), hg.unique.sublist (hsub.map _)⟩

end Filed

/-! ## 3. Histories -/

section Histories

variable (home void : Store) (acts : List Act)

theorem after_append_singleton (g : Registry) (a : Act) :
    g.after (acts ++ [a]) = (g.after acts).act a := by
  rw [after, List.foldl_append]
  rfl

/-- The home store and the void store stay. -/
theorem home_after (g : Registry) : (g.after acts).home = g.home ∧ (g.after acts).void = g.void := by
  induction acts using List.reverseRecOn with
  | nil => exact ⟨rfl, rfl⟩
  | append_singleton acts a ih =>
    rw [after_append_singleton, ← ih.1, ← ih.2]
    cases a with
    | register s => exact ⟨rfl, rfl⟩
    | unregister s => exact home_unregister (g.after acts) s

theorem filed_after : ((fresh home void).after acts).Filed := by
  induction acts using List.reverseRecOn with
  | nil =>
    refine ⟨fun entry hm => ?_, by simp [after, fresh]⟩
    obtain rfl := List.mem_singleton.1 hm
    rfl
  | append_singleton acts a ih =>
    rw [after_append_singleton]
    exact ih.act a

/-- **The mounts are the owners** after any acts; the home store counts as registered first.  By
induction on the acts, the last one at the end. -/
theorem mem_mounts_after_iff {mount : String} {s : Store} :
    (mount, s) ∈ ((fresh home void).after acts).mounts ↔ Owns (.register home :: acts) mount s := by
  induction acts using List.reverseRecOn generalizing mount s with
  | nil =>
    have hfirst : Owns ([] ++ [.register home]) mount s ↔ _ := owns_register_iff
    rw [List.nil_append] at hfirst
    rw [hfirst]
    show (mount, s) ∈ [(home.mount, home)] ↔ _
    rw [List.mem_singleton, Prod.mk.injEq]
    exact ⟨fun h => .inl ⟨h.1.symm, h.2⟩, fun h => h.elim (fun h => ⟨h.1.symm, h.2⟩)
      fun h => absurd h.2 not_owns_nil⟩
  | append_singleton acts a ih =>
    have hg := filed_after home void acts
    rw [after_append_singleton, ← List.cons_append]
    cases a with
    | register t => exact hg.mem_register_iff.trans (by rw [ih, owns_register_iff])
    | unregister t => exact hg.mem_unregister_iff.trans (by rw [ih, owns_unregister_iff])

end Histories

/-! ## 4. Routing -/

theorem behind?_eq_some_iff_fronts {mount uri rest : String} :
    behind? mount uri = some rest ↔ Fronts mount uri rest := by
  rw [behind?_eq_some_iff, Fronts, ← String.toList_append, String.toList_inj,
    String.toList_eq_nil_iff]

/-- **Routing in terms of the acts**: an address goes to the owner of the longest mount in front of it. -/
theorem find?_after_eq_some_iff (home void : Store) (acts : List Act) {uri rest : String} {s : Store} :
    ((fresh home void).after acts).find? uri = some (s, rest) ↔
      ∃ mount, Owns (.register home :: acts) mount s ∧ Fronts mount uri rest ∧
        ∀ mount' s' rest', Owns (.register home :: acts) mount' s' → Fronts mount' uri rest' →
          mount'.length ≤ mount.length := by
  rw [find?_eq_some_iff (filed_after home void acts).unique]
  refine exists_congr fun mount => and_congr (mem_mounts_after_iff home void acts)
    (and_congr behind?_eq_some_iff_fronts ⟨fun h mount' s' rest' hown hfronts => ?_, fun h => ?_⟩)
  · have hb := behind?_eq_some_iff_fronts.2 hfronts
    exact h (mount', s') ((mem_mounts_after_iff home void acts).2 hown) (by rw [hb]; rfl)
  · rintro ⟨mount', s'⟩ hm hs
    obtain ⟨rest', hb⟩ := Option.isSome_iff_exists.1 hs
    exact h mount' s' rest' ((mem_mounts_after_iff home void acts).1 hm)
      (behind?_eq_some_iff_fronts.1 hb)

theorem find?_after_eq_none_iff (home void : Store) (acts : List Act) {uri : String} :
    ((fresh home void).after acts).find? uri = none ↔
      ∀ mount s rest, Owns (.register home :: acts) mount s → ¬ Fronts mount uri rest := by
  rw [find?_eq_none_iff]
  constructor
  · intro h mount s rest hown hfronts
    have hnone := h (mount, s) ((mem_mounts_after_iff home void acts).2 hown)
    rw [behind?_eq_some_iff_fronts.2 hfronts] at hnone
    cases hnone
  · rintro h ⟨mount, s⟩ hm
    refine Option.eq_none_iff_forall_ne_some.2 fun rest hb => ?_
    exact h mount s rest ((mem_mounts_after_iff home void acts).1 hm)
      (behind?_eq_some_iff_fronts.1 hb)

/-- **Equal owners, equal routing.** -/
theorem find?_after_congr {home void home' void' : Store} {acts acts' : List Act}
    (h : ∀ mount s, Owns (.register home :: acts) mount s ↔ Owns (.register home' :: acts') mount s)
    (uri : String) :
    ((fresh home void).after acts).find? uri = ((fresh home' void').after acts').find? uri := by
  refine Option.ext fun ⟨s, rest⟩ => ?_
  rw [find?_after_eq_some_iff, find?_after_eq_some_iff]
  simp only [h]

/-- **An address goes to the owner of the longest mount in front of it that ends at a boundary**, after
any acts on a registry and for any stores; and it goes nowhere just where no owned mount stands in front.
So acts that leave the same owners route every address alike, and unregistering a store that does not
own its mount has no effect, then or later. -/
theorem find?_after (home void : Store) (acts : List Act) :
    let g := (fresh home void).after acts
    let Owner := Owns (.register home :: acts)
    (∀ uri s rest, g.find? uri = some (s, rest) ↔
      ∃ mount, Owner mount s ∧ Fronts mount uri rest ∧
        ∀ mount' s' rest', Owner mount' s' → Fronts mount' uri rest' →
          mount'.length ≤ mount.length) ∧
    (∀ uri, g.find? uri = none ↔ ∀ mount s rest, Owner mount s → ¬ Fronts mount uri rest) ∧
    (∀ home' void' acts',
      (∀ mount s, Owner mount s ↔ Owns (.register home' :: acts') mount s) →
      ∀ uri, let g' := (fresh home' void').after acts'
        g.find? uri = g'.find? uri ∧ (home = home' → void = void' →
          g.owner uri = g'.owner uri ∧ g.route uri = g'.route uri)) ∧
    (∀ s later, ¬ Owner s.mount s →
      (fresh home void).after (acts ++ .unregister s :: later) =
        (fresh home void).after (acts ++ later)) := by
  intro g Owner
  refine ⟨fun uri s rest => find?_after_eq_some_iff home void acts,
    fun uri => find?_after_eq_none_iff home void acts, fun home' void' acts' h uri => ?_,
    fun s later h => ?_⟩
  · have hfind : g.find? uri = ((fresh home' void').after acts').find? uri := find?_after_congr h uri
    refine ⟨hfind, ?_⟩
    rintro rfl rfl
    have hstay := home_after acts (fresh home void)
    have hstay' := home_after acts' (fresh home void)
    constructor
    · rw [owner, owner, hfind, hstay.1, hstay.2, hstay'.1, hstay'.2]
    · rw [route, route, hfind, hstay.1, hstay.2, hstay'.1, hstay'.2]
  · have hm : (s.mount, s) ∉ g.mounts := fun hm => h ((mem_mounts_after_iff home void acts).1 hm)
    have hself : g.unregister s = g := (filed_after home void acts).unregister_eq_self hm
    rw [after, after, List.foldl_append, List.foldl_append, List.foldl_cons]
    exact congrArg (List.foldl act · later) hself

/-- A store gives way to another one of its mount, and one is mounted below; it is unregistered too late
for that to matter, and the other two could have come in any order. -/
theorem find?_after_replaced :
    let home : Store := ⟨0, "file://", .disk⟩
    let void : Store := ⟨1, Store.voidMount, .void⟩
    let old : Store := ⟨2, "mem://x", .memory⟩
    let new : Store := ⟨3, "mem://x", .memory⟩
    let below : Store := ⟨4, "mem://x/y", .memory⟩
    let acts : List Act := [.register old, .register below, .register new]
    let g := (fresh home void).after acts
    g.find? "mem://x/yz" = some (new, "/yz") ∧ g.find? "mem://x/y/z" = some (below, "/z") ∧
      g.find? "mem://xyz" = none ∧
      g.find? "mem://x" = ((fresh home void).after [.register new, .register below]).find? "mem://x" ∧
      (fresh home void).after (acts ++ .unregister old :: []) = g := by
  intro home void old new below acts g
  have hown : ∀ {mount s}, (mount, s) ∈ g.mounts ↔ Owns (.register home :: acts) mount s :=
    mem_mounts_after_iff home void acts
  have hold : ¬ Owns (.register home :: acts) old.mount old := fun h => absurd (hown.2 h) (by decide)
  have hperm : g.mounts.Perm ((fresh home void).after [.register new, .register below]).mounts := by
    decide
  obtain ⟨-, -, hcongr, hlate⟩ := find?_after home void acts
  refine ⟨by decide, by decide, by decide, (hcongr home void [.register new, .register below]
    (fun mount s => ?_) "mem://x").1, (hlate old [] hold).trans ?_⟩
  · exact hown.symm.trans (hperm.mem_iff.trans (mem_mounts_after_iff home void _))
  · exact congrArg (fresh home void).after (List.append_nil acts)

end Registry

end Arboretum
