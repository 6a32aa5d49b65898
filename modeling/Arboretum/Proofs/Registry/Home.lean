import Arboretum.Proofs.Registry.Places

/-!
# Handles on the host's disk

The paths of a home store on the disk are their own addresses: no scheme can be read into them, so
every one leads back to the home store, which leaves it as it is (`record_resolve_home`).  A handle
that leads there may be joined in steps: joining parts and then others ends where joining all of them
at once ends (`Handle.join_in_steps`).  Nothing of this depends on what else is registered.
-/

namespace Arboretum

variable {Out : Type} (w : World) (token : Option Nat)

/-! ## 1. Resolving -/

namespace Registry

variable {g : Registry} {uri path : String}

/-- What the home store is asked to join is one part that is not empty. -/
theorem route_home_eq {parts : List String} (h : g.route uri = (g.home, some parts)) :
    ∃ part, parts = [part] ∧ part ≠ "" := by
  unfold route at h
  split at h
  · cases (Prod.mk.inj h).2
  · next hempty =>
    split at h
    · exact ⟨uri, (Option.some.inj (Prod.mk.inj h).2).symm, hempty⟩
    · split at h
      · cases (Prod.mk.inj h).2
      · next s rest _ =>
        obtain ⟨hs, hparts⟩ := Prod.mk.inj h
        refine ⟨_, (Option.some.inj hparts).symm, ?_⟩
        split
        · exact fun he => nomatch he
        · next hne => exact fun he => hne ⟨hs, he⟩

/-- A path that the host joins belongs to the home store. -/
theorem route_hostJoin {parts : List String} (h : Path.hostJoin parts ≠ "") :
    g.route (Path.hostJoin parts) = (g.home, some [Path.hostJoin parts]) := by
  unfold route
  rw [if_neg h, Path.hasScheme_hostJoin]
  rfl

/-- **A path of a home store on the disk leads back to itself.** -/
theorem record_resolve_home (hhome : g.home.kind = .disk) {parts : List String}
    (h : Path.hostJoin parts ≠ "") :
    w.record token (g.resolve (Path.hostJoin parts) : Traversal Out (Store × String)) =
      ⟨.finished (g.home, Path.hostJoin parts), [], w⟩ := by
  unfold resolve
  rw [route_hostJoin h]
  refine (World.record_ask w token g.home (.join [Path.hostJoin parts]) _).trans ?_
  rw [Store.ask_join_of_disk w hhome, Path.hostJoin_hostJoin]
  rfl

/-- **What resolves to a home store on the disk** was joined from a part that is not empty. -/
theorem eq_hostJoin_of_record_resolve (hhome : g.home.kind = .disk) (hvoid : g.void.kind = .void)
    (h : w.record token (g.resolve uri : Traversal Out (Store × String)) =
      ⟨.finished (g.home, path), [], w⟩) : ∃ part, part ≠ "" ∧ path = Path.hostJoin [part] := by
  have hne : g.home ≠ g.void := by
    intro he
    rw [he, hvoid] at hhome
    cases hhome
  obtain ⟨parts, hroute, ha⟩ := route_of_record_resolve hne h
  obtain ⟨part, rfl, hpart⟩ := route_home_eq hroute
  rw [Store.ask_join_of_disk w hhome] at ha
  exact ⟨part, hpart, (Except.ok.inj ha).symm⟩

end Registry

/-! ## 2. Joining -/

namespace Handle

variable {h : Handle} {path : String}

/-- A handle on a path of a home store on the disk resolves to it. -/
theorem record_resolve_home (hhome : (w.registry h.registryNumber).home.kind = .disk)
    {parts : List String} (huri : h.uri = Path.hostJoin parts) (hne : Path.hostJoin parts ≠ "") :
    w.record token (h.resolve : Traversal Out (Store × String)) =
      ⟨.finished ((w.registry h.registryNumber).home, Path.hostJoin parts), [], w⟩ := by
  show w.record token ((w.registry h.registryNumber).resolve h.uri : Traversal Out _) = _
  rw [huri]
  exact Registry.record_resolve_home w token hhome hne

/-- Joining onto a handle that leads to a home store on the disk. -/
theorem record_join_home (hhome : (w.registry h.registryNumber).home.kind = .disk)
    (hplace : w.record token (h.resolve : Traversal Out (Store × String)) =
      ⟨.finished ((w.registry h.registryNumber).home, path), [], w⟩) (parts : List String) :
    w.record token (h.join parts : Traversal Out Handle) =
      ⟨.finished ⟨Path.hostJoin (path :: parts), h.registry⟩, [], w⟩ := by
  unfold join
  refine (World.record_bind_of_finished w token hplace _).trans ?_
  rw [Record.behind_nil]
  refine (World.record_ask w token _ (.join (path :: parts)) _).trans ?_
  rw [Store.ask_join_of_disk w hhome]
  show (⟨.finished ⟨(w.registry h.registryNumber).address _ _, h.registry⟩, [], w⟩ :
    Record Out Handle) = _
  rw [Registry.address, if_pos rfl]

end Handle

/-- **Handles on the host's disk are joined in steps.**  In a registry with a home store on the disk,
whatever else is registered: joining parts and then others behind the result is joining all of them.
What is joined, unless it is empty, holds no two slashes side by side and resolves to itself in the
home store.  So a handle that leads to the home store, joined with parts and then with others, is the
handle joined with all of them. -/
theorem Handle.join_in_steps (number : Option Nat)
    (hhome : (w.registry (number.getD commonRegistry)).home.kind = .disk)
    (hvoid : (w.registry (number.getD commonRegistry)).void.kind = .void) :
    let g := w.registry (number.getD commonRegistry)
    (∀ a b : List String, ∃ q r, g.home.join a = .ok q ∧ g.home.join (q :: b) = .ok r ∧
      g.home.join (a ++ b) = .ok r) ∧
    (∀ (parts : List String) (q : String), g.home.join parts = .ok q → q ≠ "" →
      ¬ ['/', '/'] <:+: q.toList ∧
      w.record token (g.resolve q : Traversal Out (Store × String)) =
        ⟨.finished (g.home, q), [], w⟩) ∧
    (∀ (h : Handle) (path : String) (a b : List String), h.registry = number →
      w.record token (h.resolve : Traversal Out (Store × String)) =
        ⟨.finished (g.home, path), [], w⟩ →
      ∃ joined : Handle,
        w.record token (h.join (a ++ b) : Traversal Out Handle) = ⟨.finished joined, [], w⟩ ∧
        w.record token (h.join a >>= fun k => k.join b : Traversal Out Handle) =
          ⟨.finished joined, [], w⟩) := by
  intro g
  have hjoin : ∀ parts, g.home.join parts = .ok (Path.hostJoin parts) := by
    intro parts
    unfold Store.join
    rw [hhome]
  refine ⟨fun a b => ?_, fun parts q hq hne => ?_, fun h path a b hnumber hplace => ?_⟩
  · refine ⟨_, _, hjoin a, hjoin _, ?_⟩
    rw [hjoin, Path.hostJoin_join]
  · rw [hjoin] at hq
    obtain rfl := Except.ok.inj hq
    exact ⟨Path.no_double_slash_hostJoin parts, g.record_resolve_home w token hhome hne⟩
  · subst hnumber
    obtain ⟨part, hpart, rfl⟩ := g.eq_hostJoin_of_record_resolve w token hhome hvoid hplace
    refine ⟨_, Handle.record_join_home w token hhome hplace (a ++ b), ?_⟩
    refine (World.record_bind_of_finished w token
      (Handle.record_join_home w token hhome hplace a) _).trans ?_
    have hne : Path.hostJoin (Path.hostJoin [part] :: a) ≠ "" :=
      Path.hostJoin_cons_ne_empty (Path.hostJoin_ne_empty hpart) a
    obtain ⟨k, hk⟩ : ∃ k : Handle, k = ⟨Path.hostJoin (Path.hostJoin [part] :: a), h.registry⟩ :=
      ⟨_, rfl⟩
    have hhome' : (w.registry k.registryNumber).home.kind = .disk := by rw [hk]; exact hhome
    have hback : w.record token (k.resolve : Traversal Out (Store × String)) = _ :=
      Handle.record_resolve_home w token hhome' (by rw [hk]) hne
    have hthen := Handle.record_join_home w token hhome' hback b
    rw [hk] at hthen
    rw [Record.behind_nil, hthen, Path.hostJoin_join, List.cons_append]

/-- Joined in one step or in two: `..` climbs no higher than the root, and behind other parts the
text of an address is a name like any other. -/
theorem Handle.join_in_steps_climbing :
    let w := World.initial ⟨.empty, []⟩
    let g := w.registry commonRegistry
    let h : Handle := ⟨"file:///x/./y", none⟩
    g.home.kind = .disk ∧ g.void.kind = .void ∧
      w.record none (h.join ["..", "../..", "file://z"] : Traversal Empty Handle) =
        ⟨.finished ⟨"/file:/z", none⟩, [], w⟩ ∧
      w.record none (h.join ["..", "../.."] >>= fun k => k.join ["file://z"] :
        Traversal Empty Handle) = ⟨.finished ⟨"/file:/z", none⟩, [], w⟩ := by
  intro w g h
  have hroute : g.route h.uri = (g.home, some ["/x/./y"]) := by decide +kernel
  have hplace : w.record none (h.resolve : Traversal Empty (Store × String)) =
      ⟨.finished (g.home, Path.hostJoin ["/x/./y"]), [], w⟩ := by
    show w.record none (g.resolve h.uri : Traversal Empty (Store × String)) = _
    unfold Registry.resolve
    rw [hroute]
    rfl
  have hjoined : Path.hostJoin [Path.hostJoin ["/x/./y"], "..", "../..", "file://z"] = "/file:/z" := by
    decide +kernel
  obtain ⟨-, -, hsteps⟩ := @Handle.join_in_steps Empty w none none rfl rfl
  obtain ⟨joined, hall, hstep⟩ := hsteps h _ ["..", "../.."] ["file://z"] rfl hplace
  have hone : w.record none (h.join ["..", "../..", "file://z"] : Traversal Empty Handle) = _ :=
    Handle.record_join_home w none rfl hplace _
  rw [hjoined] at hone
  obtain rfl := (Record.finished_eq_iff w).1 (hall.symm.trans hone)
  exact ⟨rfl, rfl, hall, hstep⟩

end Arboretum
