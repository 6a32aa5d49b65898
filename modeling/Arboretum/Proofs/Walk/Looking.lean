import Arboretum.Proofs.Listing.Bounded
import Arboretum.Proofs.Traversal.Along

/-!
# Walks only look

Resolving and joining handles, listing directories and walking leave the world as it is, wherever
the run stops.  A walk hands out only places that it has met in listings: whatever holds of every
place that is joined to a directory of the walk and a name listed there holds of everything that
is handed out (`Walk.along_run`).
-/

namespace Arboretum

variable {Out : Type} {I : World → Prop} {J : Out → Prop} {w : World}

/-! ## 1. Handles -/

theorem Registry.Sound.along_resolve {g : Registry} (hg : g.Sound) (uri : String)
    {Q : Store × String → World → Prop} (hQ : Q (g.place uri) w) :
    (g.resolve uri : Traversal Out (Store × String)).Along I J Q w := by
  unfold Registry.place at hQ
  unfold Registry.resolve
  rcases hg.route_cases uri with h | ⟨s, part, hs, -, -, h⟩
  · rw [h] at hQ ⊢
    exact hQ
  · rw [h] at hQ ⊢
    have hjoin : w.ask s (.join [part]) = (.ok (s.joined [part]), w) :=
      (hg.isHome_of_knows hs).ask_join w [part]
    show Traversal.Along I J Q (Traversal.bind (Traversal.ofExcept _) _) (w.ask s (.join [part])).2
    rw [hjoin]
    exact hQ

namespace Handle

variable {h : Handle}

/-- **Resolving** ends with the place of the handle. -/
theorem along_resolve (hg : (w.registry h.registryNumber).Sound)
    {Q : Store × String → World → Prop} (hQ : Q ((w.registry h.registryNumber).place h.uri) w) :
    (h.resolve : Traversal Out (Store × String)).Along I J Q w :=
  hg.along_resolve h.uri hQ

/-- **Joining** ends with the handle of the joined path. -/
theorem along_join (hg : (w.registry h.registryNumber).Sound) {s : Store} {path : String}
    (hs : s.IsHome) (hplace : (w.registry h.registryNumber).place h.uri = (s, path))
    (parts : List String) {Q : Handle → World → Prop}
    (hQ : Q ⟨(w.registry h.registryNumber).address s (s.joined (path :: parts)), h.registry⟩ w) :
    (h.join parts : Traversal Out Handle).Along I J Q w := by
  refine (along_resolve (Q := fun place w' => place = (s, path) ∧ w = w') hg ⟨hplace, rfl⟩).bind ?_
  rintro _ _ ⟨rfl, rfl⟩
  have hjoin := hs.ask_join w (path :: parts)
  show Traversal.Along I J Q (Traversal.bind (Traversal.ofExcept _) _)
    (w.ask s (.join (path :: parts))).2
  rw [hjoin]
  exact hQ

end Handle

/-! ## 2. Listings -/

namespace Listing

/-- All entries of a directory are what the store lists. -/
theorem along_all (hI : I w) (s : Store) (path : String) (hints : List String)
    {Q : List Entry → World → Prop}
    (hQ : ∀ entries, (w.ask s (.list path hints)).1 = .ok entries → Q entries w) :
    (all s path hints : Traversal Out (List Entry)).Along I J Q w := by
  refine (Traversal.along_look (Q := fun entries w' =>
    (w.ask s (.list path hints)).1 = .ok entries ∧ w = w') rfl hI fun a ha => ⟨ha, rfl⟩).bind ?_
  rintro entries _ ⟨ha, rfl⟩
  exact (Traversal.along_checked (Q := fun _ => Eq w) hI rfl).bind
    fun _ _ he => he ▸ hQ entries ha

/-- An unbounded listing keeps what the store lists. -/
theorem along_bounded (hI : I w) {h : Handle} (hg : (w.registry h.registryNumber).Sound) {s : Store}
    {path : String} (hplace : (w.registry h.registryNumber).place h.uri = (s, path))
    (patterns : List String) {Q : List Entry → World → Prop}
    (hQ : ∀ hints entries kept, (w.ask s (.list path hints)).1 = .ok entries →
      (∀ e ∈ kept, e ∈ entries) → Q kept w) :
    (bounded h (-1) patterns : Traversal Out (List Entry)).Along I J Q w := by
  unfold bounded
  cases readNames patterns with
  | error f => exact hI
  | ok segments =>
    refine (Handle.along_resolve (Q := fun place w' => place = (s, path) ∧ w = w') hg
      ⟨hplace, rfl⟩).bind ?_
    rintro _ _ ⟨rfl, rfl⟩
    dsimp only
    rw [if_neg (by decide)]
    refine (Traversal.along_look (Q := fun entries w' =>
      (w.ask s (.list path (hints segments))).1 = .ok entries ∧ w = w') rfl hI
      fun a ha => ⟨ha, rfl⟩).bind ?_
    rintro entries _ ⟨ha, rfl⟩
    refine (Traversal.along_checked (Q := fun _ => Eq w) hI rfl).bind ?_
    rintro _ _ rfl
    refine hQ _ entries _ ha fun e he => ?_
    rw [offer_keep segments entries (.inl (by decide)), cut_of_room (.inl (by decide)),
      List.reverse_nil, List.nil_append] at he
    exact List.mem_of_mem_filter he

end Listing

/-! ## 3. Walks -/

namespace Walk

variable {settings : Settings} {Good : String → Prop}

/-- **What is joined to a directory of a walk** and a name listed there. -/
def Meets (w : World) (s : Store) (path below : String) : Prop :=
  ∃ entries, (w.ask s (.list path [])).1 = .ok entries ∧
    ∃ e ∈ entries, (w.ask s (.join [path, e.name])).1 = .ok below

/-- Everything that is handed out stands at a good path. -/
def HandsOut (settings : Settings) (Good : String → Prop) (v : Visit) : Prop :=
  ∃ path, Good path ∧ v.1 = settings.handle path

theorem along_visitDirectory {path : String}
    (hgood : ∀ below, Meets w settings.store path below → Good below) :
    (visitDirectory settings path).Along (Eq w) (HandsOut settings Good)
      (fun paths w' => (∀ below ∈ paths, Good below) ∧ w = w') w := by
  refine (Listing.along_all (Q := fun entries w' =>
    (w.ask settings.store (.list path [])).1 = .ok entries ∧ w = w') rfl _ _ _
    fun entries he => ⟨he, rfl⟩).bind ?_
  rintro entries _ ⟨hlist, rfl⟩
  refine Traversal.along_forEachCollect rfl ?_
  rintro entry hentry _ rfl
  refine (Traversal.along_checked (Q := fun _ => Eq w) rfl rfl).bind ?_
  rintro _ _ rfl
  refine (Traversal.along_look (Q := fun below w' => Good below ∧ w = w') rfl rfl
    fun below hb => ⟨hgood below ⟨entries, hlist, entry, hentry, hb⟩, rfl⟩).bind ?_
  rintro below _ ⟨hb, rfl⟩
  by_cases hw : settings.wants entry = true
  · rw [if_pos hw]
    exact ⟨⟨below, hb, rfl⟩, hb, rfl⟩
  · rw [if_neg hw]
    exact ⟨hb, rfl⟩

theorem along_workOff (hgood : ∀ path, Good path → ∀ below, Meets w settings.store path below →
    Good below) (budget : Nat) {agenda : List String} (ha : ∀ path ∈ agenda, Good path) :
    (workOff settings budget agenda).Along (Eq w) (HandsOut settings Good) (fun _ => Eq w)
      w := by
  induction budget generalizing agenda with
  | zero =>
    cases agenda with
    | nil => exact rfl
    | cons path later => exact rfl
  | succ budget ih =>
    cases agenda with
    | nil => exact rfl
    | cons path later =>
      have hlater : ∀ path ∈ later, Good path := fun p hp => ha p (List.mem_cons_of_mem path hp)
      refine (Traversal.along_checked (Q := fun _ => Eq w) rfl rfl).bind ?_
      rintro _ _ rfl
      refine (Traversal.along_look (Q := fun _ => Eq w) rfl rfl fun _ _ => rfl).bind ?_
      rintro (_ | info) _ rfl
      · exact ih hlater
      · dsimp only
        by_cases hd : info.isDirectory = true
        · rw [if_pos hd]
          refine (along_visitDirectory (hgood path (ha path List.mem_cons_self))).bind ?_
          rintro entries _ ⟨hentries, rfl⟩
          refine ih fun p hp => ?_
          rcases List.mem_append.1 hp with hp | hp
          · exact hentries p hp
          · exact hlater p hp
        · rw [if_neg hd]
          exact ih hlater

/-- **A walk leaves the world as it is**, and hands out good places only: those that it meets at
the path of its base are good, and so are those that it meets at good paths. -/
theorem along_run {h : Handle} (hg : (w.registry h.registryNumber).Sound) {s : Store}
    {path : String} (hplace : (w.registry h.registryNumber).place h.uri = (s, path))
    (hbase : ∀ below, Meets w s path below → Good below)
    (hgood : ∀ path, Good path → ∀ below, Meets w s path below → Good below) (budget number : Nat)
    (segments : List Pattern.Segment) (directories : Bool) :
    (run budget number h segments directories).Along (Eq w)
      (HandsOut ⟨number, (w.registry number).home, s, segments, directories⟩ Good)
      (fun _ => Eq w) w := by
  unfold run
  refine (Traversal.along_checked (Q := fun _ => Eq w) rfl rfl).bind ?_
  rintro _ _ rfl
  refine (Handle.along_resolve (Q := fun place w' => place = (s, path) ∧ w = w') hg
    ⟨hplace, rfl⟩).bind ?_
  rintro _ _ ⟨rfl, rfl⟩
  refine (Traversal.along_look (Q := fun _ => Eq w) rfl rfl fun _ _ => rfl).bind ?_
  rintro (_ | info) _ rfl
  · exact rfl
  · dsimp only
    split
    · exact rfl
    · refine (Traversal.along_checked (Q := fun _ => Eq w) rfl rfl).bind ?_
      rintro _ _ rfl
      refine (along_visitDirectory hbase).bind ?_
      rintro entries _ ⟨hentries, rfl⟩
      exact along_workOff hgood budget hentries

end Walk

end Arboretum
