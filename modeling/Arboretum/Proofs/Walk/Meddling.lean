import Arboretum.Proofs.Store.Changing
import Arboretum.Proofs.Traversal.Course
import Arboretum.Proofs.Walk.Ending

/-!
# Walks whose visitor meddles

A visitor may change the very tree that is walked: write, make and remove what it likes, at tidy
paths, and carry on where that fails (`Runner.Meddled`).  The paths on the agenda are then old ones.
But between the look at a path and the listing of its directory nobody else acts, so the listing
does not fail; and the places on the agenda lie apart from each other, so that no directory is listed
twice.

What a walk tells while an agenda is left (`Walk.Told`) is kept by each of its steps; there is one
lemma for each kind of step, and the run is by induction on the budget (`Walk.course_workOff`).  At
the end nothing of what the visitor did has shaken the walk (`Walk.unshaken_of_meddled`).
-/

namespace Arboretum

variable {σ Out : Type}

/-! ## 1. Meddling -/

/-- **A storage was reworked**: anything was asked of any store, but what shares the tree of the given
store was changed at tidy paths only. -/
def Storage.Reworked (s : Store) : Storage → Storage → Prop :=
  Relation.ReflTransGen fun st st' =>
    ∃ t c, (t.SharesTree s → c.changes = true → c.IsTidy) ∧ st' = (st.ask t c).2

/-- A store that holds a tree holds one after the storage was reworked. -/
theorem Storage.Reworked.exists_holds {s : Store} {st st' : Storage} (h : Storage.Reworked s st st')
    {f : MemoryTree} (hf : st.Holds s f) : ∃ f', st'.Holds s f' := by
  induction h with
  | refl => exact ⟨f, hf⟩
  | tail _ hstep ih =>
    obtain ⟨t, c, hc, rfl⟩ := hstep
    obtain ⟨f', hf'⟩ := ih
    exact hf'.exists_holds_ask t c hc

/-- **A runner whose visitor meddles** and never objects.  `look` shows the storage in each state; a
store that is only looked at answers from it and leaves it. -/
structure Runner.Meddled (r : Runner σ Out) (look : σ → Storage) (s : Store) : Prop where
  ask (x : σ) {c : Call} (hc : c.changes = false) :
    (r.ask x s c).1 = ((look x).ask s c).1 ∧ look (r.ask x s c).2 = look x
  visit (x : σ) (y : Out) :
    (r.visit x y).1 = none ∧ Storage.Reworked s (look x) (look (r.visit x y).2)

/-- A world whose visitor has calls made for each thing that it is handed, whatever comes of them. -/
def World.meddler (token : Option Nat) (deeds : Out → List (Store × Call)) : Runner World Out where
  ask w s c := w.ask s c
  registry w number := w.registry number
  cancelled w := w.cancelled token
  visit w y := (none, (deeds y).foldl (fun w deed => (w.ask deed.1 deed.2).2) w)

/-- Such a visitor meddles, if what it changes of the tree is at tidy paths. -/
theorem World.meddled_meddler (token : Option Nat) {deeds : Out → List (Store × Call)} {s : Store}
    (h : ∀ y, ∀ deed ∈ deeds y, deed.1.SharesTree s → deed.2.changes = true → deed.2.IsTidy) :
    (World.meddler token deeds).Meddled World.storage s where
  ask w c hc := ⟨rfl, congrArg World.storage (w.world_of_look s hc)⟩
  visit w y := by
    refine ⟨rfl, ?_⟩
    show Storage.Reworked s w.storage (World.storage (List.foldl _ w (deeds y)))
    have hy := h y
    generalize deeds y = done at hy
    induction done generalizing w with
    | nil => exact .refl
    | cons deed done ih =>
      refine .head ⟨deed.1, deed.2, hy deed List.mem_cons_self, rfl⟩ ?_
      exact ih (w.ask deed.1 deed.2).2 fun deed hd => hy deed (List.mem_cons_of_mem _ hd)

/-- A mounted store answers with what it joins. -/
theorem Store.IsMounted.answer_join {s : Store} (hs : s.IsMounted) (st : Storage)
    (parts : List String) : (st.ask s (.join parts)).1 = .ok (s.joined parts) := by
  cases hs <;> rfl

/-! ## 2. Places that lie apart -/

/-- Neither of two places lies below the other, nor are they the same. -/
def Path.Apart (a b : List String) : Prop := ¬ a <+: b ∧ ¬ b <+: a

/-- What lies below one of two places that lie apart lies apart from the other. -/
theorem Path.Apart.below {a a' b : List String} (h : Path.Apart a b) (ha : a <+: a') :
    Path.Apart a' b := by
  refine ⟨fun hb => h.1 (ha.trans hb), fun hb => ?_⟩
  rcases List.prefix_or_prefix_of_prefix ha hb with hab | hba
  · exact h.1 hab
  · exact h.2 hba

theorem Path.Apart.symm {a b : List String} (h : Path.Apart a b) : Path.Apart b a := ⟨h.2, h.1⟩

/-- Two entries of a directory lie apart. -/
theorem Path.apart_of_ne (a : List String) {m n : String} (h : m ≠ n) :
    Path.Apart (a ++ [m]) (a ++ [n]) := by
  have hnot : ∀ {m n : String}, m ≠ n → ¬ a ++ [m] <+: a ++ [n] := fun hne hp =>
    hne (List.cons.inj (List.append_cancel_left (hp.eq_of_length (by simp)))).1
  exact ⟨hnot h, hnot (Ne.symm h)⟩

namespace Walk

/-! ## 3. What a walk tells -/

/-- The store is asked to list the directory at a place. -/
def Lists (s : Store) (m : Moment σ Visit) (place : List String) : Prop :=
  m.step.call? = some (s, .list (Path.ofNames place) [])

/-- **A walk finds no directory** at a place: it looks there, but the tree has none. -/
def Misses (s : Store) (look : σ → Storage) (m : Moment σ Visit) (place : List String) : Prop :=
  m.step.call? = some (s, .stat (Path.ofNames place)) ∧
    ∃ f, (look m.before).Holds s f ∧ f.view place ≠ some .directory

/-- **A visit comes from a listing**: it is for an entry of the directory at the place that is listed,
and the tree has that entry there when it is. -/
def ComesFrom (settings : Settings) (look : σ → Storage) (v : Visit) (l : Moment σ Visit) : Prop :=
  ∃ place, Lists settings.store l place ∧ Path.AreNames (place ++ [v.2.name]) ∧
    v.1 = settings.handle (Path.ofNames (place ++ [v.2.name])) ∧
    ∃ f thing, (look l.before).Holds settings.store f ∧
      f.view (place ++ [v.2.name]) = some thing ∧ thing.isDirectory = v.2.isDirectory

/-- **What a walk tells while an agenda is left.**  The places on the agenda lie apart, and nothing at
or below them was listed yet; where no directory was found, none was listed, nor does any place on
the agenda lie above or below; and every visit comes from an earlier listing. -/
structure Told (settings : Settings) (look : σ → Storage) (agenda : List (List String))
    (ms : List (Moment σ Visit)) : Prop where
  names : ∀ a ∈ agenda, Path.AreNames a
  apart : agenda.Pairwise Path.Apart
  fresh : ∀ m ∈ ms, ∀ p, Path.AreNames p → Lists settings.store m p → ∀ a ∈ agenda, ¬ a <+: p
  spared : ∀ m ∈ ms, ∀ p, Path.AreNames p → Misses settings.store look m p →
    (∀ a ∈ agenda, Path.Apart a p) ∧ ∀ l ∈ ms, ¬ Lists settings.store l p
  shown : ∀ earlier m later, ms = earlier ++ m :: later → ∀ v verdict, m.step = .handed v verdict →
    ∃ l ∈ earlier, ComesFrom settings look v l

variable {settings : Settings} {look : σ → Storage} {s : Store} {agenda later : List (List String)}
  {ms : List (Moment σ Visit)} {m : Moment σ Visit} {a : List String}

/-- Nothing has happened yet. -/
theorem told_nil (ha : Path.AreNames a) : Told (σ := σ) settings look [a] [] where
  names b hb := List.mem_singleton.1 hb ▸ ha
  apart := List.pairwise_singleton _ a
  fresh m hm := absurd hm List.not_mem_nil
  spared m hm := absurd hm List.not_mem_nil
  shown earlier m later h := by simp at h

namespace Told

/-- **One more moment**, and an agenda below the one before: the moment lists or misses places of the
old agenda only, and none that the new one comes to. -/
theorem add (h : Told settings look agenda ms) {agenda' : List (List String)}
    (hnames : ∀ a ∈ agenda', Path.AreNames a) (hapart : agenda'.Pairwise Path.Apart)
    (hbelow : ∀ a' ∈ agenda', ∃ a ∈ agenda, a <+: a')
    (hlists : ∀ p, Path.AreNames p → Lists settings.store m p →
      p ∈ agenda ∧ ∀ a' ∈ agenda', ¬ a' <+: p)
    (hmisses : ∀ p, Path.AreNames p → Misses settings.store look m p →
      p ∈ agenda ∧ ∀ a' ∈ agenda', Path.Apart a' p)
    (hshown : ∀ v verdict, m.step = .handed v verdict → ∃ l ∈ ms, ComesFrom settings look v l) :
    Told settings look agenda' (ms ++ [m]) where
  names := hnames
  apart := hapart
  fresh m' hm' p hp hl a' ha' hprefix := by
    rcases List.mem_append.1 hm' with hm' | hm'
    · obtain ⟨a, ha, haa'⟩ := hbelow a' ha'
      exact h.fresh m' hm' p hp hl a ha (haa'.trans hprefix)
    · rw [List.mem_singleton.1 hm'] at hl
      exact (hlists p hp hl).2 a' ha' hprefix
  spared m' hm' p hp hmiss := by
    rcases List.mem_append.1 hm' with hm' | hm'
    · obtain ⟨hagenda, hunlisted⟩ := h.spared m' hm' p hp hmiss
      refine ⟨fun a' ha' => ?_, fun l hl hlp => ?_⟩
      · obtain ⟨a, ha, haa'⟩ := hbelow a' ha'
        exact (hagenda a ha).below haa'
      · rcases List.mem_append.1 hl with hl | hl
        · exact hunlisted l hl hlp
        · rw [List.mem_singleton.1 hl] at hlp
          exact (hagenda p (hlists p hp hlp).1).1 List.prefix_rfl
    · rw [List.mem_singleton.1 hm'] at hmiss
      obtain ⟨hmem, hagenda⟩ := hmisses p hp hmiss
      refine ⟨hagenda, fun l hl hlp => ?_⟩
      rcases List.mem_append.1 hl with hl | hl
      · exact h.fresh l hl p hp hlp p hmem List.prefix_rfl
      · rw [List.mem_singleton.1 hl, Lists, hmiss.1] at hlp
        cases hlp
  shown earlier m' later hsplit v verdict hv := by
    rcases List.eq_nil_or_concat later with rfl | ⟨later, m'', rfl⟩
    · obtain ⟨rfl, hm⟩ := List.append_inj' hsplit rfl
      exact hshown v verdict ((List.cons.inj hm).1 ▸ hv)
    · rw [List.concat_eq_append, ← List.cons_append, ← List.append_assoc] at hsplit
      exact h.shown earlier m' later (List.append_inj' hsplit rfl).1 v verdict hv

/-- The agenda may be forgotten. -/
theorem forget (h : Told settings look agenda ms) : Told settings look [] ms where
  names _ ha := absurd ha List.not_mem_nil
  apart := .nil
  fresh _ _ _ _ _ _ ha := absurd ha List.not_mem_nil
  spared m hm p hp hmiss :=
    ⟨fun _ ha => absurd ha List.not_mem_nil, (h.spared m hm p hp hmiss).2⟩
  shown := h.shown

/-- A moment that neither lists nor misses anything and hands out nothing. -/
theorem idle (h : Told settings look agenda ms) (hl : ∀ p, ¬ Lists settings.store m p)
    (hmiss : ∀ p, Path.AreNames p → ¬ Misses settings.store look m p)
    (hv : ∀ v verdict, m.step ≠ .handed v verdict) : Told settings look agenda (ms ++ [m]) :=
  h.add h.names h.apart (fun a ha => ⟨a, ha, List.prefix_rfl⟩) (fun p _ hp => absurd hp (hl p))
    (fun p hp hm => absurd hm (hmiss p hp)) fun v verdict hm => absurd hm (hv v verdict)

/-- **A visit** that comes from a listing. -/
theorem visited (h : Told settings look agenda ms) {v : Visit} {verdict : Option Fault}
    (hm : m.step = .handed v verdict) {l : Moment σ Visit} (hl : l ∈ ms)
    (hv : ComesFrom settings look v l) : Told settings look agenda (ms ++ [m]) := by
  have hcall : m.step.call? = none := by
    rw [hm]
    rfl
  refine h.add h.names h.apart (fun a ha => ⟨a, ha, List.prefix_rfl⟩) (fun p _ hp => ?_)
    (fun p _ hp => ?_) fun v' verdict' hm' => ?_
  · rw [Lists, hcall] at hp
    cases hp
  · rw [Misses, hcall] at hp
    cases hp.1
  · rw [hm] at hm'
    cases hm'
    exact ⟨l, hl, hv⟩

/-- **A look at the first place that finds no directory**: it is done with. -/
theorem missed (h : Told settings look (a :: later) ms)
    (hm : m.step.call? = some (settings.store, .stat (Path.ofNames a))) :
    Told settings look later (ms ++ [m]) := by
  obtain ⟨hfirst, hlater⟩ := List.pairwise_cons.1 h.apart
  refine h.add (fun b hb => h.names b (List.mem_cons_of_mem _ hb)) hlater
    (fun b hb => ⟨b, List.mem_cons_of_mem _ hb, List.prefix_rfl⟩) (fun p _ hp => ?_)
    (fun p hp hmiss => ?_) fun v verdict hv => ?_
  · rw [Lists, hm] at hp
    cases hp
  · have hcall := hmiss.1
    rw [hm] at hcall
    injection hcall with hcall
    injection hcall with _ hcall
    injection hcall with hpath
    obtain rfl := (Path.ofNames_inj (h.names a List.mem_cons_self) hp).1 hpath
    exact ⟨List.mem_cons_self, fun b hb => (hfirst b hb).symm⟩
  · rw [hv] at hm
    cases hm

/-- **The listing of the first place**: its entries come next. -/
theorem listed (h : Told settings look (a :: later) ms) (hm : Lists settings.store m a)
    {names : List String} (hnames : ∀ n ∈ names, Path.IsName n) (hnodup : names.Nodup) :
    Told settings look (names.map (fun n => a ++ [n]) ++ later) (ms ++ [m]) := by
  obtain ⟨hfirst, hlater⟩ := List.pairwise_cons.1 h.apart
  have ha := h.names a List.mem_cons_self
  refine h.add ?_ ?_ ?_ (fun p hp hlp => ?_) (fun p _ hmiss => ?_) fun v verdict hv => ?_
  · intro b hb
    rcases List.mem_append.1 hb with hb | hb
    · obtain ⟨n, hn, rfl⟩ := List.mem_map.1 hb
      exact Path.areNames_append_singleton.2 ⟨ha, hnames n hn⟩
    · exact h.names b (List.mem_cons_of_mem _ hb)
  · refine List.pairwise_append.2 ⟨?_, hlater, fun b hb b' hb' => ?_⟩
    · exact List.pairwise_map.2 (hnodup.imp fun hne => Path.apart_of_ne a hne)
    · obtain ⟨n, -, rfl⟩ := List.mem_map.1 hb
      exact (hfirst b' hb').below (List.prefix_append a [n])
  · intro b hb
    rcases List.mem_append.1 hb with hb | hb
    · obtain ⟨n, -, rfl⟩ := List.mem_map.1 hb
      exact ⟨a, List.mem_cons_self, List.prefix_append a [n]⟩
    · exact ⟨b, List.mem_cons_of_mem _ hb, List.prefix_rfl⟩
  · rw [Lists, hm] at hlp
    injection hlp with hcall
    injection hcall with _ hcall
    injection hcall with hpath
    obtain rfl := (Path.ofNames_inj ha hp).1 hpath
    refine ⟨List.mem_cons_self, fun b hb hprefix => ?_⟩
    rcases List.mem_append.1 hb with hb | hb
    · obtain ⟨n, -, rfl⟩ := List.mem_map.1 hb
      exact View.not_prefix_above _ n hprefix
    · exact (hfirst b hb).2 hprefix
  · have hcall := hmiss.1
    rw [hm] at hcall
    cases hcall
  · rw [Lists, hv] at hm
    cases hm

end Told

/-! ## 4. Runs -/

/-- The endings of a walk that nothing shakes: it fails only when it is cancelled. -/
def steady (settings : Settings) (look : σ → Storage) : Runner.Endings σ Visit where
  failed f ms := (∃ reason, f = .cancelled reason) ∧ Told settings look [] ms
  spent ms := Told settings look [] ms

/-- The store holds a tree. -/
def Holding (s : Store) (look : σ → Storage) (x : σ) : Prop := ∃ f, (look x).Holds s f

/-- What stands on the agenda, and the tree that is held, after a directory was opened. -/
def Opened (settings : Settings) (look : σ → Storage) (later : List (List String))
    (paths : List String) (ms : List (Moment σ Visit)) (x : σ) : Prop :=
  ∃ places, paths = places.map Path.ofNames ∧ Told settings look (places ++ later) ms ∧
    Holding settings.store look x

/-- **While the entries of a directory are handed out**: the listing is told, of the tree as it was
then, and the store holds some tree. -/
structure Showing (settings : Settings) (look : σ → Storage) (agenda : List (List String))
    (a : List String) (f : MemoryTree) (ms : List (Moment σ Visit)) (x : σ) : Prop where
  told : Told settings look agenda ms
  listed : ∃ l ∈ ms, Lists settings.store l a ∧ (look l.before).Holds settings.store f
  holding : Holding settings.store look x

/-- A walk that is cancelled has told what it told before. -/
theorem Told.cancelled (h : Told settings look agenda ms) (reason : String) :
    (steady settings look).failed (.cancelled reason) ms := ⟨⟨reason, rfl⟩, h.forget⟩

section Running

variable {r : Runner σ Visit} {x : σ} {f : MemoryTree} {inside : Forest ByteArray}
  (hr : r.Meddled look settings.store)

include hr

/-- A call that only looks is answered from the storage, and leaves it. -/
theorem course_look {c : Call} (hc : c.changes = false) {answer : c.Answer}
    (ha : ((look x).ask settings.store c).1 = .ok answer) (path : String)
    {Q : c.Answer → List (Moment σ Visit) → σ → Prop} (ht : Told settings look agenda ms)
    (hQ : ∀ y, look y = look x → Q answer (ms ++ [⟨x, .asked settings.store c (.ok answer), y⟩]) y) :
    r.Course (steady settings look) Q ms x (Traversal.call settings.store path c) := by
  have hask := hr.ask x hc
  rw [ha] at hask
  refine Runner.course_call (fun reason _ => ht.cancelled reason) (fun a y _ hay => ?_)
    fun f y _ hfy => ?_
  · rw [hay] at hask
    cases hask.1
    exact hQ y hask.2
  · rw [hfy] at hask
    cases hask.1

omit hr in
/-- A look at a place where a directory stands tells nothing. -/
theorem Told.looked (ht : Told settings look agenda ms) (ha : Path.AreNames a)
    (hf : (look x).Holds settings.store f) (hat : f.at? a = some (.folder inside))
    (answer : Except Fault (Option Info)) (y : σ) :
    Told settings look agenda
      (ms ++ [⟨x, .asked settings.store (.stat (Path.ofNames a)) answer, y⟩]) := by
  refine ht.idle (fun p hl => by cases hl) (fun p hp hmiss => ?_) fun v verdict hv => by cases hv
  obtain ⟨hcall, f', hf', hno⟩ := hmiss
  injection hcall with hcall
  injection hcall with _ hcall
  injection hcall with hpath
  obtain rfl := (Path.ofNames_inj ha hp).1 hpath
  rw [← hf.view_unique hf'] at hno
  exact hno (Forest.view_eq_directory_iff.2 ⟨inside, hat⟩)

omit hr in
/-- What is listed stands in the tree, under a name. -/
theorem entry_of_listing (ho : f.Orderly) (hat : f.at? a = some (.folder inside)) {e : Entry}
    (he : e ∈ Storage.entriesOf inside) : Path.AreNames (a ++ [e.name]) ∧
      ∃ thing, f.view (a ++ [e.name]) = some thing ∧ thing.isDirectory = e.isDirectory := by
  obtain ⟨thing, hthing, hkind⟩ := ((MemoryTree.isListing_toList ho hat).mem_iff e).1 he
  refine ⟨Forest.areNames_of_view ho fun hnone => ?_, thing, hthing, hkind.symm⟩
  rw [hthing] at hnone
  cases hnone

/-- **Listing the first place** puts its entries on the agenda. -/
theorem course_all (ht : Told settings look (a :: later) ms) (hf : (look x).Holds settings.store f)
    (hat : f.at? a = some (.folder inside)) :
    r.Course (steady settings look)
      (fun entries ms y => entries = Storage.entriesOf inside ∧ Showing settings look
        ((entries.map fun e => a ++ [e.name]) ++ later) a f ms y) ms x
      (Listing.all settings.store (Path.ofNames a) []) := by
  have horderly := hf.orderly
  have hlist : ((look x).ask settings.store (.list (Path.ofNames a) [])).1 =
      .ok (Storage.entriesOf inside) :=
    congrArg Prod.fst (hf.ask_list (ht.names a List.mem_cons_self) hat)
  have hnodup : ((Storage.entriesOf inside).map Entry.name).Nodup := by
    unfold Storage.entriesOf
    rw [List.map_map]
    exact Forest.nodup_names (Forest.orderly_of_at? horderly hat).1
  refine (course_look (Q := fun entries ms y => entries = Storage.entriesOf inside ∧ Showing settings
    look ((entries.map fun e => a ++ [e.name]) ++ later) a f ms y) hr rfl hlist _ ht
    fun y hy => ⟨rfl, ?_, ?_, f, hy ▸ hf⟩).bind ?_
  · have hlists : ∀ answer y, Lists settings.store
        (⟨x, .asked settings.store (.list (Path.ofNames a) []) answer, y⟩ : Moment σ Visit) a :=
      fun _ _ => rfl
    have htold := ht.listed (hlists (.ok (Storage.entriesOf inside)) y) (fun n hn => ?_) hnodup
    · rw [List.map_map] at htold
      exact htold
    · obtain ⟨e, he, rfl⟩ := List.mem_map.1 hn
      exact (Path.areNames_append_singleton.1 (entry_of_listing horderly hat he).1).2
  · exact ⟨_, List.mem_append_right _ (List.mem_singleton.2 rfl), rfl, hf⟩
  · rintro entries ms y ⟨rfl, hshowing⟩
    refine (Runner.course_checked (Q := fun _ => Showing settings look _ a f)
      (fun reason _ => hshowing.told.cancelled reason) fun _ => hshowing).bind ?_
    exact fun _ ms y hshowing => Runner.course_done ⟨rfl, hshowing⟩

/-- **Handing out one entry**, whatever the visitor does to the tree. -/
theorem course_entry (hs : settings.store.IsMounted) (ho : f.Orderly)
    (hat : f.at? a = some (.folder inside)) {e : Entry} (he : e ∈ Storage.entriesOf inside)
    (hshowing : Showing settings look agenda a f ms x) :
    r.Course (steady settings look)
      (fun below ms y => below = Path.ofNames (a ++ [e.name]) ∧ Showing settings look agenda a f ms y)
      ms x (do
        Traversal.checked
        let below ← Traversal.call settings.store (Path.ofNames a) (.join [Path.ofNames a, e.name])
        if settings.wants e then Traversal.give (settings.handle below, e)
        return below : Traversal Visit String) := by
  obtain ⟨hnames, hthere⟩ := entry_of_listing ho hat he
  obtain ⟨ha, hname⟩ := Path.areNames_append_singleton.1 hnames
  have hjoin : ∀ y, ((look y).ask settings.store (.join [Path.ofNames a, e.name])).1 =
      .ok (Path.ofNames (a ++ [e.name])) := by
    intro y
    rw [hs.answer_join, hs.joined_name (Path.arePlain_of_areNames ha) hname]
  refine (Runner.course_checked (Q := fun _ => Showing settings look agenda a f)
    (fun reason _ => hshowing.told.cancelled reason) fun _ => hshowing).bind ?_
  intro _ ms x hshowing
  refine (course_look (Q := fun below ms y => below = Path.ofNames (a ++ [e.name]) ∧
    Showing settings look agenda a f ms y) hr rfl (hjoin x) _ hshowing.told
    fun y hy => ⟨rfl, ?_, ?_, ?_⟩).bind ?_
  · exact hshowing.told.idle (fun p hl => by cases hl) (fun p _ hmiss => by cases hmiss.1)
      fun v verdict hv => by cases hv
  · obtain ⟨l, hl, hlisted⟩ := hshowing.listed
    exact ⟨l, List.mem_append_left _ hl, hlisted⟩
  · obtain ⟨f', hf'⟩ := hshowing.holding
    exact ⟨f', hy ▸ hf'⟩
  · rintro below ms x ⟨rfl, hshowing⟩
    dsimp only
    split
    · refine (Runner.course_give (Q := fun _ => Showing settings look agenda a f)
        (fun y hy => ?_) fun fault y hy => ?_).bind ?_
      · obtain ⟨l, hl, hlists, hheld⟩ := hshowing.listed
        obtain ⟨thing, hthing, hkind⟩ := hthere
        obtain ⟨f', hf'⟩ := hshowing.holding
        have hreworked := (hr.visit x (settings.handle (Path.ofNames (a ++ [e.name])), e)).2
        rw [hy] at hreworked
        refine ⟨?_, ⟨l, List.mem_append_left _ hl, hlists, hheld⟩, hreworked.exists_holds hf'⟩
        exact hshowing.told.visited rfl hl ⟨a, hlists, hnames, rfl, f, thing, hheld, hthing, hkind⟩
      · have hverdict := (hr.visit x (settings.handle (Path.ofNames (a ++ [e.name])), e)).1
        rw [hy] at hverdict
        cases hverdict
      · exact fun _ ms x hshowing => Runner.course_done ⟨rfl, hshowing⟩
    · exact Runner.course_done ⟨rfl, hshowing⟩

/-- **Handing out the entries of a directory**: they are on the agenda then, whatever the visitor
did to the tree meanwhile. -/
theorem course_visitDirectory (hs : settings.store.IsMounted)
    (ht : Told settings look (a :: later) ms) (hf : (look x).Holds settings.store f)
    (hat : f.at? a = some (.folder inside)) :
    r.Course (steady settings look) (Opened settings look later) ms x
      (visitDirectory settings (Path.ofNames a)) := by
  refine (course_all hr ht hf hat).bind ?_
  rintro _ ms x ⟨rfl, hshowing⟩
  refine (Runner.course_forEachCollect (g := fun e => Path.ofNames (a ++ [e.name])) hshowing
    ?_).mono ?_
  · intro e he ms x hshowing
    exact course_entry hr hs hf.orderly hat he hshowing
  · rintro paths ms x ⟨rfl, hshowing⟩
    refine ⟨_, ?_, hshowing.told, hshowing.holding⟩
    rw [List.map_map]
    rfl

/-- **Opening the first place of the agenda.**  It is looked at as the tree is now: if no directory
stands there, it is passed over; and between the look and the listing nobody changes the tree. -/
theorem course_opened (hs : settings.store.IsMounted) (ht : Told settings look (a :: later) ms)
    (hx : Holding settings.store look x) :
    r.Course (steady settings look) (Opened settings look later) ms x
      (opened settings (Path.ofNames a)) := by
  obtain ⟨f, hf⟩ := hx
  have ha := ht.names a List.mem_cons_self
  refine (Runner.course_checked (Q := fun _ ms' x' => ms' = ms ∧ x' = x)
    (fun reason _ => ht.cancelled reason) fun _ => ⟨rfl, rfl⟩).bind ?_
  rintro _ _ _ ⟨rfl, rfl⟩
  obtain ⟨info, hask, hinfo⟩ := hf.ask_stat ha
  by_cases hat : ∃ inside, f.at? a = some (.folder inside)
  · obtain ⟨inside, hat⟩ := hat
    rw [hat] at hinfo
    obtain ⟨info, rfl, hfolder⟩ := Option.map_eq_some_iff.1 hinfo
    have hfolder : info.isDirectory = true := hfolder
    refine (course_look (Q := fun found ms y => found = some info ∧
      Told settings look (a :: later) ms ∧ (look y).Holds settings.store f) hr rfl
      (congrArg Prod.fst hask) _ ht fun y hy => ⟨rfl, ht.looked ha hf hat _ y, hy ▸ hf⟩).bind ?_
    rintro _ ms y ⟨rfl, ht, hf⟩
    dsimp only
    rw [if_pos hfolder]
    exact course_visitDirectory hr hs ht hf hat
  · have hother : info.map Info.isDirectory ≠ some true := by
      rw [hinfo]
      rcases hn : f.at? a with _ | data | inside
      · exact nofun
      · exact nofun
      · exact absurd ⟨inside, hn⟩ hat
    refine (course_look (Q := fun found ms y => found = info ∧
      Told settings look later ms ∧ Holding settings.store look y) hr rfl
      (congrArg Prod.fst hask) _ ht fun y hy => ⟨rfl, ht.missed rfl, f, hy ▸ hf⟩).bind ?_
    rintro info ms y ⟨rfl, ht, hy⟩
    have hdone : r.Course (steady settings look) (Opened settings look later) ms y
        (.done [] : Traversal Visit (List String)) := Runner.course_done ⟨[], rfl, ht, hy⟩
    rcases info with _ | info
    · exact hdone
    · have hfile : ¬ info.isDirectory = true := fun hd => hother (congrArg some hd)
      dsimp only
      rw [if_neg hfile]
      exact hdone

/-- **Working off an agenda**, by induction on the budget. -/
theorem course_workOff (hs : settings.store.IsMounted) (budget : Nat)
    (ht : Told settings look agenda ms) (hx : Holding settings.store look x) :
    r.Course (steady settings look) (fun _ ms _ => Told settings look [] ms) ms x
      (workOff settings budget (agenda.map Path.ofNames)) := by
  induction budget generalizing agenda ms x with
  | zero =>
    cases agenda with
    | nil => exact Runner.course_done ht
    | cons a later => exact Runner.course_spent ht.forget
  | succ budget ih =>
    cases agenda with
    | nil => exact Runner.course_done ht
    | cons a later =>
      rw [List.map_cons, workOff_cons]
      refine (course_opened hr hs ht hx).bind ?_
      rintro _ ms x ⟨places, rfl, ht, hx⟩
      rw [← List.map_append]
      exact ih ht hx

variable (settings) in
/-- **Arriving** at a directory. -/
theorem course_arrived {g : Registry} {uri : String} {parts : List String}
    (hroute : g.route uri = (settings.store, some parts))
    (hjoin : settings.store.join parts = .ok (Path.ofNames a)) (ha : Path.AreNames a)
    (hs : settings.store.IsMounted) (hf : (look x).Holds settings.store f)
    (hat : f.at? a = some (.folder inside)) :
    r.Course (steady settings look) (fun there ms y => there = (settings.store, Path.ofNames a) ∧
      Told settings look [a] ms ∧ (look y).Holds settings.store f) [] x (arrived g uri) := by
  have hask := hr.ask x (c := .join parts) rfl
  rw [hs.answer_join, ← Store.IsHome.join_eq (.inl hs), hjoin] at hask
  have hresolve : r.Course (steady settings look) (fun there ms y =>
      there = (settings.store, Path.ofNames a) ∧
      Told settings look [a] ms ∧ (look y).Holds settings.store f) [] x
      (g.resolve uri : Traversal Visit (Store × String)) := by
    unfold Registry.resolve
    rw [hroute]
    refine (Runner.course_plain (Q := fun path ms y => path = Path.ofNames a ∧
      Told settings look [a] ms ∧ (look y).Holds settings.store f)
      (fun path y hy => ?_) fun fault y hy => ?_).bind ?_
    · rw [hy] at hask
      refine ⟨Except.ok.inj hask.1, ?_, hask.2 ▸ hf⟩
      exact (told_nil ha).idle (fun p hl => by cases hl) (fun p _ hmiss => by cases hmiss.1)
        fun v verdict hv => by cases hv
    · rw [hy] at hask
      cases hask.1
    · rintro _ ms y ⟨rfl, ht, hf⟩
      exact Runner.course_done ⟨rfl, ht, hf⟩
  refine hresolve.bind ?_
  rintro _ ms y ⟨rfl, ht, hf⟩
  obtain ⟨info, hstat, hinfo⟩ := hf.ask_stat ha
  rw [hat] at hinfo
  obtain ⟨info, rfl, hfolder⟩ := Option.map_eq_some_iff.1 hinfo
  have hfolder : info.isDirectory = true := hfolder
  refine (course_look (Q := fun found ms z => found = some info ∧
    Told settings look [a] ms ∧ (look z).Holds settings.store f) hr rfl
    (congrArg Prod.fst hstat) _ ht fun z hz => ⟨rfl, ht.looked ha hf hat _ z, hz ▸ hf⟩).bind ?_
  rintro _ ms z ⟨rfl, ht, hf⟩
  dsimp only
  rw [hfolder]
  exact Runner.course_done ⟨rfl, ht, hf⟩

variable (settings) in
/-- A walk that has begun. -/
theorem course_begun (hs : settings.store.IsMounted) (budget : Nat)
    (ht : Told settings look [a] ms) (hf : (look x).Holds settings.store f)
    (hat : f.at? a = some (.folder inside)) :
    r.Course (steady settings look) (fun _ ms _ => Told settings look [] ms) ms x
      (begun settings budget (Path.ofNames a)) := by
  refine (Runner.course_checked (Q := fun _ ms' x' => ms' = ms ∧ x' = x)
    (fun reason _ => ht.cancelled reason) fun _ => ⟨rfl, rfl⟩).bind ?_
  rintro _ _ _ ⟨rfl, rfl⟩
  refine (course_visitDirectory hr hs ht hf hat).bind ?_
  rintro _ ms x ⟨places, rfl, ht, hx⟩
  rw [List.append_nil] at ht
  exact course_workOff hr hs budget ht hx

end Running

/-! ## 5. Nothing shakes a walk -/

/-- **A walk that nothing has shaken**, as its diary shows: it fails only when it is cancelled; each
visit comes from a listing before it; and where the walk finds no directory when it looks there, it
never lists one and visits no entry. -/
structure Unshaken (settings : Settings) (look : σ → Storage) (d : Diary σ Visit Unit) : Prop where
  fails : ∀ fault, d.outcome = .failed fault → ∃ reason, fault = .cancelled reason
  visits : ∀ earlier m later, d.moments = earlier ++ m :: later → ∀ v verdict,
    m.step = .handed v verdict → ∃ l ∈ earlier, ComesFrom settings look v l
  spares : ∀ m ∈ d.moments, ∀ place, Path.AreNames place → Misses settings.store look m place →
    (∀ l ∈ d.moments, ¬ Lists settings.store l place) ∧
    ∀ m' ∈ d.moments, ∀ v verdict name, m'.step = .handed v verdict →
      Path.AreNames (place ++ [name]) → v.1 ≠ settings.handle (Path.ofNames (place ++ [name]))

/-- Different paths have different handles. -/
theorem Settings.handle_inj {path path' : String}
    (h : settings.handle path = settings.handle path') : path = path' := by
  have huri := congrArg Handle.uri h
  unfold Settings.handle at huri
  dsimp only at huri
  split at huri
  · exact huri
  · exact (String.append_right_inj settings.store.mount).1 huri

/-- What a whole walk has told. -/
theorem Told.unshaken {d : Diary σ Visit Unit} (h : Told settings look [] d.moments)
    (hfails : ∀ fault, d.outcome = .failed fault → ∃ reason, fault = .cancelled reason) :
    Unshaken settings look d where
  fails := hfails
  visits := h.shown
  spares m hm place hplace hmiss := by
    have hunlisted := (h.spared m hm place hplace hmiss).2
    refine ⟨hunlisted, fun m' hm' v verdict name hv hname hhandle => ?_⟩
    obtain ⟨earlier, later, hsplit⟩ := List.append_of_mem hm'
    obtain ⟨l, hl, place', hlists, hnames, hhandle', -⟩ := h.shown earlier m' later hsplit v verdict hv
    -- The visit would come from a listing of that very place.
    have hpath := Settings.handle_inj (hhandle'.symm.trans hhandle)
    have hsame := (Path.ofNames_inj hnames hname).1 hpath
    obtain ⟨rfl, -⟩ := List.append_inj' hsame rfl
    exact hunlisted l (hsplit ▸ List.mem_append_left _ hl) hlists

/-- **A walk is not shaken by a visitor that meddles.**  The store holds a tree that was built at tidy
paths, and the base is a directory at a tidy path when the walk begins; then whatever the visitor
does to the tree at tidy paths, and whenever the run is cancelled, nothing shakes the walk. -/
theorem unshaken_of_meddled {r : Runner σ Visit} (hr : r.Meddled look s) (hs : s.IsMounted) {x : σ}
    (hbuilt : (look x).Built s) {h : Handle} {registry : Option Nat} {patterns : List String}
    {segments : List Pattern.Segment} {parts : List String} {path : String}
    (hb : registry = none ∨ h.registry = registry)
    (hp : Listing.readNames patterns = .ok segments)
    (hroute : (r.registry x h.registryNumber).route h.uri = (s, some parts))
    (hjoin : s.join parts = .ok path) (htidy : Path.Tidy path) {info : Info}
    (hstat : ((look x).ask s (.stat path)).1 = .ok (some info)) (hdir : info.isDirectory = true)
    (budget : Nat) (directories : Bool) :
    ∃ settings : Settings, settings.store = s ∧ Unshaken settings look
      (r.diary x (ofTexts budget (.handle h) patterns registry directories)) := by
  obtain ⟨number, hrun⟩ := ofTexts_of_ok hp hb
  obtain ⟨f, hf⟩ := hbuilt.exists_holds
  obtain ⟨a, rfl, -, hnames⟩ := hs.exists_ofNames hjoin
  have ha := hnames htidy
  obtain ⟨inside, hat⟩ : ∃ inside, f.at? a = some (.folder inside) := by
    obtain ⟨info', hask, hinfo⟩ := hf.ask_stat ha
    rw [hask] at hstat
    cases hstat
    rcases hn : f.at? a with _ | data | inside
    · rw [hn] at hinfo
      cases hinfo
    · rw [hn] at hinfo
      exact Bool.noConfusion (hdir.symm.trans (Option.some.inj hinfo))
    · exact ⟨inside, rfl⟩
  -- The handles are bound by the registry as it is when the walk has arrived.
  let there := (r.diary x (arrived (r.registry x h.registryNumber) h.uri)).state
  let settings : Settings := ⟨number, (r.registry there number).home, s, segments, directories⟩
  have hcourse : r.Course (steady settings look) (fun _ ms _ => Told settings look [] ms) [] x
      (run budget number h segments directories) := by
    rw [run_eq]
    refine (Runner.course_checked (Q := fun _ ms y => [] = ms ∧ x = y)
      (fun reason _ => (told_nil ha).cancelled reason) fun _ => ⟨rfl, rfl⟩).bind ?_
    rintro _ _ _ ⟨rfl, rfl⟩
    refine (Runner.course_registry (Q := fun g ms y => r.registry x h.registryNumber = g ∧
      [] = ms ∧ x = y) ⟨rfl, rfl, rfl⟩).bind ?_
    rintro _ _ _ ⟨rfl, rfl, rfl⟩
    refine (course_arrived settings hr hroute hjoin ha hs hf hat).with_state.bind ?_
    rintro _ ms y ⟨⟨rfl, ht, hf⟩, rfl⟩
    refine (Runner.course_registry (Q := fun g ms' y => r.registry there number = g ∧
      ms = ms' ∧ there = y) ⟨rfl, rfl, rfl⟩).bind ?_
    rintro _ _ _ ⟨rfl, rfl, rfl⟩
    exact course_begun settings hr hs budget ht hf hat
  refine ⟨settings, rfl, ?_⟩
  rw [hrun]
  unfold Runner.Course at hcourse
  cases hd : (r.diary x (run budget number h segments directories)).outcome with
  | finished _ =>
    rw [hd] at hcourse
    exact Told.unshaken hcourse fun fault hfault => by rw [hd] at hfault; cases hfault
  | failed fault =>
    rw [hd] at hcourse
    refine Told.unshaken hcourse.2 fun fault' hfault => ?_
    rw [hd] at hfault
    cases hfault
    exact hcourse.1
  | spent =>
    rw [hd] at hcourse
    exact Told.unshaken hcourse fun fault hfault => by rw [hd] at hfault; cases hfault

/-- In the small world a visitor removes the directory `/b` as soon as it sees it, and writes a file
there.  The walk sees `/b` and nothing else, and is not shaken. -/
theorem unshaken_of_meddled_small :
    let s : Store := ⟨2, "mem://a", .memory⟩
    let deeds : Visit → List (Store × Call) := fun _ =>
      [(s, .remove "/b/x"), (s, .remove "/b"), (s, .write "/b" .empty)]
    let diary budget := (World.meddler none deeds).diary World.small
      (ofTexts budget (.handle ⟨"mem://a/", none⟩) [] none true)
    (∀ budget, ∃ settings : Settings, settings.store = s ∧
      Unshaken settings World.storage (diary budget)) ∧
    ((diary 1).moments.filterMap fun m => m.step.handed?).map (fun v => v.1.uri) =
      ["mem://a/b"] := by
  intro s deeds diary
  have hmeddled : (World.meddler none deeds).Meddled World.storage s := by
    refine World.meddled_meddler none fun y deed hd _ _ => ?_
    simp only [deeds, List.mem_cons, List.not_mem_nil, or_false] at hd
    rcases hd with rfl | rfl | rfl <;> decide +kernel
  have hroute : (World.small.registry commonRegistry).route "mem://a/" = (s, some ["/"]) := by
    decide +kernel
  have hjoin : s.join ["/"] = .ok "/" := by decide +kernel
  have htidy : Path.Tidy "/" := by decide +kernel
  obtain ⟨info, hinfo, hdir⟩ : ∃ info, (World.small.storage.ask s (.stat "/")).1 = .ok (some info) ∧
      info.isDirectory = true := by
    obtain ⟨f, hf⟩ := World.built_small.exists_holds
    obtain ⟨info, hask, hinfo⟩ := hf.ask_stat Path.areNames_nil
    obtain ⟨info, rfl, hfolder⟩ := Option.map_eq_some_iff.1 hinfo
    exact ⟨info, congrArg Prod.fst hask, hfolder⟩
  refine ⟨fun budget => ?_, by decide +kernel⟩
  exact unshaken_of_meddled hmeddled (.memory 2 "a") World.built_small (h := ⟨"mem://a/", none⟩)
    (.inl rfl) rfl hroute hjoin htidy hinfo hdir budget true

end Walk

end Arboretum
