import Arboretum.Proofs.Registry.Places
import Arboretum.Proofs.Walk.Reference

/-!
# A walk visits what lies below its base

Working off an agenda does what the recursion on the tree says: the paths of the entries of a
directory, in front of whatever comes later, are worked off by showing the directory's inside
(`story_workOff`).  The induction is on the tree; the agenda behind the entries is arbitrary, and
that is the invariant that carries it.  A whole walk hands out the expected visits, looks at every
place once and lists every directory once (`run_visits_expected`).
-/

namespace Arboretum.Walk

variable {w : World} {token : Option Nat} {settings : Settings} {f : MemoryTree}
  {place : List String} {inside : Forest ByteArray}

/-! ## 1. One directory -/

/-- The paths of the entries of a directory. -/
def pathsAt (place : List String) (inside : Forest ByteArray) : List String :=
  inside.toList.map fun entry => Path.ofNames (place ++ [entry.1])

/-- **Showing a directory** of the tree ends with the paths of its entries. -/
theorem story_visitDirectory (hc : w.cancelled token = none) (hs : settings.store.IsMounted)
    (hf : w.storage.Holds settings.store f) (hn : Path.AreNames place)
    (hat : f.at? place = some (.folder inside)) :
    w.story token (visitDirectory settings (Path.ofNames place)) =
      ⟨.finished (pathsAt place inside), shown settings place inside, w⟩ := by
  have hinside := (Forest.orderly_of_at? hf.orderly hat).1
  unfold visitDirectory
  refine (World.story_all_of_ok hc (World.ask_of_storage (hf.ask_list hn hat)) _).trans ?_
  have heach : ∀ entry ∈ Storage.entriesOf inside,
      w.story token (do
        Traversal.checked
        let below ← Traversal.call settings.store (Path.ofNames place)
          (.join [Path.ofNames place, entry.name])
        if settings.wants entry then Traversal.give (settings.handle below, entry)
        return below) =
      ⟨.finished (Path.ofNames (place ++ [entry.name])),
        .asked settings.store (.join [Path.ofNames place, entry.name]) ::
          if settings.wants entry then [.handed (settings.visit (place ++ [entry.name], entry))]
          else [], w⟩ := by
    intro entry he
    obtain ⟨⟨name, node⟩, hm, rfl⟩ := List.mem_map.1 he
    have hname : Path.IsName name :=
      (Forest.orderly_of_find? hinside ((Forest.mem_toList_iff hinside).1 hm)).1
    have hjoin := Store.IsHome.ask_join w (.inl hs) [Path.ofNames place, name]
    rw [hs.joined_name (Path.arePlain_of_areNames hn) hname] at hjoin
    refine (World.story_checked_of_none hc _).trans ?_
    refine (World.story_call_of_ok hc hjoin _).trans ?_
    dsimp only
    split
    · refine congrArg (Record.behind _) (World.story_emit _ _)
    · rfl
  have hpaths : (Storage.entriesOf inside).map (fun entry => Path.ofNames (place ++ [entry.name])) =
      pathsAt place inside := by
    unfold Storage.entriesOf
    rw [List.map_map]
    rfl
  rw [World.story_forEachCollect heach, hpaths]
  unfold shown entriesAt
  rw [List.flatMap_map]
  rfl

/-! ## 2. The agenda -/

/-- A file is looked at and passed over. -/
theorem story_workOff_leaf (hc : w.cancelled token = none)
    (hf : w.storage.Holds settings.store f) {data : ByteArray} (hn : Path.AreNames place)
    (hat : f.at? place = some (.leaf data)) (budget : Nat) (later : List String) :
    w.story token (workOff settings (budget + 1) (Path.ofNames place :: later)) =
      (w.story token (workOff settings budget later)).behind
        [.asked settings.store (.stat (Path.ofNames place))] := by
  obtain ⟨info, hask, hfile⟩ := hf.ask_stat_of_at? hn hat
  rw [workOff]
  refine (World.story_checked_of_none hc _).trans ?_
  refine (World.story_call_of_ok hc (World.ask_of_storage hask) _).trans ?_
  dsimp only
  rw [hfile]
  rfl

/-- A directory is looked at and shown, and its entries come next. -/
theorem story_workOff_folder (hc : w.cancelled token = none) (hs : settings.store.IsMounted)
    (hf : w.storage.Holds settings.store f) (hn : Path.AreNames place)
    (hat : f.at? place = some (.folder inside)) (budget : Nat) (later : List String) :
    w.story token (workOff settings (budget + 1) (Path.ofNames place :: later)) =
      (w.story token (workOff settings budget (pathsAt place inside ++ later))).behind
        (.asked settings.store (.stat (Path.ofNames place)) :: shown settings place inside) := by
  obtain ⟨info, hask, hfolder⟩ := hf.ask_stat_of_at? hn hat
  rw [workOff]
  refine (World.story_checked_of_none hc _).trans ?_
  refine (World.story_call_of_ok hc (World.ask_of_storage hask) _).trans ?_
  dsimp only
  rw [hfolder]
  refine (congrArg (Record.behind _) (World.story_bind_of_finished
    (story_visitDirectory hc hs hf hn hat) _)).trans ?_
  rw [Record.behind_behind]
  rfl

/-- **The entries of a directory are worked off** by showing what lies below the directory, and
then the rest of the agenda is worked off.  By induction on the entries: those of a child directory
are worked off in front of the entries behind it. -/
theorem story_workOff (hc : w.cancelled token = none) (hs : settings.store.IsMounted)
    (hf : w.storage.Holds settings.store f) {part : Forest ByteArray}
    (hpart : ∀ entry ∈ part.toList, f.at? (place ++ [entry.1]) = some entry.2)
    (spare : Nat) (later : List String) :
    w.story token (workOff settings (part.count + spare) (pathsAt place part ++ later)) =
      (w.story token (workOff settings spare later)).behind (shownBelow settings place part) := by
  have hnames : ∀ {ns : List String} {node}, f.at? ns = some node → Path.AreNames ns := by
    intro ns node hat
    refine Forest.areNames_of_view hf.orderly ?_
    rw [Forest.view, hat]
    exact Option.some_ne_none _
  induction part generalizing place spare later with
  | empty =>
    rw [Forest.count, Nat.zero_add]
    rfl
  | leaf name content rest ih =>
    have hat := hpart _ List.mem_cons_self
    have hrest := ih (fun entry hm => hpart entry (List.mem_cons_of_mem _ hm)) spare later
    rw [Forest.count, Nat.add_right_comm]
    refine (story_workOff_leaf hc hf (hnames hat) hat _ _).trans ?_
    refine (congrArg (Record.behind _) hrest).trans ?_
    rw [Record.behind_behind]
    rfl
  | folder name inside rest ihi ihr =>
    have hat := hpart _ List.mem_cons_self
    have hinside : ∀ entry ∈ inside.toList, f.at? (place ++ [name] ++ [entry.1]) = some entry.2 := by
      intro entry hm
      rw [Forest.at?_append_singleton hat]
      exact (Forest.mem_toList_iff (Forest.orderly_of_at? hf.orderly hat).1).1 hm
    have hdeep := ihi hinside (rest.count + spare) (pathsAt place rest ++ later)
    have hrest := ihr (fun entry hm => hpart entry (List.mem_cons_of_mem _ hm)) spare later
    rw [Forest.count, Nat.add_right_comm, Nat.add_assoc inside.count]
    refine (story_workOff_folder hc hs hf (hnames hat) hat _ _).trans ?_
    refine (congrArg (Record.behind _) (hdeep.trans (congrArg (Record.behind _) hrest))).trans ?_
    rw [Record.behind_behind, Record.behind_behind]
    refine congrArg (Record.behind · _) ?_
    simp [shownBelow]

/-! ## 3. Whole walks -/

/-- Resolving a handle asks a store to join, if it asks for anything. -/
theorem found_story_resolve (w : World) (token : Option Nat) (h : Handle) :
    ∀ e ∈ (w.story token (h.resolve : Traversal Visit (Store × String))).found,
      ∃ s parts, e = .asked s (.join parts) := by
  have hroute : w.story token (h.resolve : Traversal Visit (Store × String)) =
      w.story token ((w.registry h.registryNumber).resolve h.uri) := rfl
  rw [hroute]
  unfold Registry.resolve
  rcases (w.registry h.registryNumber).route h.uri with ⟨s, _ | parts⟩
  · exact fun e he => absurd he List.not_mem_nil
  · have hstory : w.story token ((Traversal.plain s (.join parts)).bind fun path =>
          .done (s, path) : Traversal Visit (Store × String)) =
        ((w.ask s (.join parts)).2.record token
          ((Traversal.ofExcept (w.ask s (.join parts)).1).bind fun path =>
            .done (s, path) : Traversal Visit (Store × String)).revealed).behind
          [.asked s (.join parts)] := w.record_emit token _ _
    intro e he
    refine ⟨s, parts, ?_⟩
    change e ∈ (w.story token ((Traversal.plain s (.join parts)).bind fun path =>
          .done (s, path) : Traversal Visit (Store × String))).found at he
    rw [hstory] at he
    cases ha : (w.ask s (.join parts)).1 with
    | ok path =>
      rw [ha] at he
      exact List.mem_singleton.1 he
    | error fault =>
      rw [ha] at he
      exact List.mem_singleton.1 he

/-- Joining hands nothing out, looks at nothing and lists nothing. -/
theorem filterMap_of_joins {events : List (Event Visit)}
    (h : ∀ e ∈ events, ∃ s parts, e = .asked s (.join parts)) :
    events.filterMap Event.handed? = [] ∧ events.filterMap Event.stat? = [] ∧
      events.filterMap Event.list? = [] := by
  have hnone : ∀ {β : Type} (look : Event Visit → Option β),
      (∀ s parts, look (.asked s (.join parts)) = none) → events.filterMap look = [] := by
    intro β look hlook
    refine List.filterMap_eq_nil_iff.2 fun e he => ?_
    obtain ⟨s, parts, rfl⟩ := h e he
    exact hlook s parts
  exact ⟨hnone _ fun _ _ => rfl, hnone _ fun _ _ => rfl, hnone _ fun _ _ => rfl⟩

/-- The story of resolving a handle. -/
theorem story_resolve {h : Handle} {found : Store × String}
    (hresolve : w.record token (h.resolve : Traversal Visit (Store × String)) =
      ⟨.finished found, [], w⟩) :
    ∃ events, w.story token (h.resolve : Traversal Visit (Store × String)) =
        ⟨.finished found, events, w⟩ ∧ events.filterMap Event.handed? = [] ∧
      events.filterMap Event.stat? = [] ∧ events.filterMap Event.list? = [] := by
  have hrecord := w.record_of_revealed token (h.resolve : Traversal Visit (Store × String))
  rw [hresolve] at hrecord
  refine ⟨_, ?_, filterMap_of_joins (found_story_resolve w token h)⟩
  have houtcome := congrArg Record.outcome hrecord
  have hworld := congrArg Record.world hrecord
  dsimp only at houtcome hworld
  unfold World.story
  rw [houtcome]
  exact congrArg (Record.mk _ _) hworld.symm

/-- A whole walk from a base: the patterns are read, the base is bound, and the walk runs. -/
def whole (budget : Nat) (base : Base) (patterns : List String) (directories : Bool) :
    Traversal Visit Unit :=
  (prepare base patterns none).bind fun (h, number, segments) =>
    run budget number h segments directories

variable {h : Handle} {s : Store} {segments : List Pattern.Segment} {directories : Bool}

/-- The settings of a walk from a handle. -/
def settingsOf (w : World) (h : Handle) (s : Store) (segments : List Pattern.Segment)
    (directories : Bool) : Settings :=
  ⟨h.registryNumber, (w.registry h.registryNumber).home, s, segments, directories⟩

/-- **The story of a walk** from a handle of a directory: the base is resolved, looked at and shown,
and then what lies below it. -/
theorem story_run (hc : w.cancelled token = none) (hs : s.IsMounted) (hf : w.storage.Holds s f)
    (hn : Path.AreNames place) (hat : f.at? place = some (.folder inside))
    {resolving : List (Event Visit)}
    (hresolve : w.story token (h.resolve : Traversal Visit (Store × String)) =
      ⟨.finished (s, Path.ofNames place), resolving, w⟩) {budget : Nat}
    (hb : inside.count ≤ budget) :
    w.story token (run budget h.registryNumber h segments directories) =
      ⟨.finished (), resolving ++ .asked s (.stat (Path.ofNames place)) ::
        (shown (settingsOf w h s segments directories) place inside ++
          shownBelow (settingsOf w h s segments directories) place inside), w⟩ := by
  obtain ⟨info, hask, hfolder⟩ := hf.ask_stat_of_at? hn hat
  have hinside := (Forest.orderly_of_at? hf.orderly hat).1
  have hpart : ∀ entry ∈ inside.toList, f.at? (place ++ [entry.1]) = some entry.2 := by
    intro entry hm
    rw [Forest.at?_append_singleton hat]
    exact (Forest.mem_toList_iff hinside).1 hm
  have hmounted : (settingsOf w h s segments directories).store.IsMounted := hs
  have hagenda := story_workOff hc hmounted hf hpart
    (budget - inside.count) []
  rw [List.append_nil, Nat.add_sub_cancel' hb] at hagenda
  unfold run
  refine (World.story_checked_of_none hc _).trans ?_
  refine (World.story_bind_of_finished hresolve _).trans ?_
  refine (congrArg (Record.behind _) (World.story_call_of_ok hc (World.ask_of_storage hask) _)).trans ?_
  dsimp only
  rw [hfolder, if_neg (by simp [Node.isFolder]), Record.behind_behind]
  refine (congrArg (Record.behind _) (World.story_checked_of_none hc _)).trans ?_
  refine (congrArg (Record.behind _) (World.story_bind_of_finished
    (story_visitDirectory hc hmounted hf hn hat) _)).trans ?_
  refine (congrArg (Record.behind _) (congrArg (Record.behind _) hagenda)).trans ?_
  rw [Record.behind_behind, Record.behind_behind]
  cases budget - inside.count <;> simp [workOff, World.story_done, Record.behind]

/-- **The visits that a walk hands out**, by recursion on the tree below its base. -/
def expected (w : World) (h : Handle) (s : Store) (place : List String)
    (segments : List Pattern.Segment) (directories : Bool) (inside : Forest ByteArray) : List Visit :=
  ((visits place inside).filter fun x =>
      (directories || !x.2.isDirectory) && Pattern.passes segments x.2.name).map fun x =>
    (⟨(w.registry h.registryNumber).address s (Path.ofNames x.1), some h.registryNumber⟩, x.2)

/-- What a walk from a handle hands out. -/
theorem record_run (hc : w.cancelled token = none) (hs : s.IsMounted) (hf : w.storage.Holds s f)
    (hn : Path.AreNames place) (hat : f.at? place = some (.folder inside))
    (hresolve : w.record token (h.resolve : Traversal Visit (Store × String)) =
      ⟨.finished (s, Path.ofNames place), [], w⟩) {budget : Nat} (hb : inside.count ≤ budget) :
    w.record token (run budget h.registryNumber h segments directories) =
      ⟨.finished (), expected w h s place segments directories inside, w⟩ := by
  obtain ⟨resolving, hresolving, hhanded, -, -⟩ := story_resolve hresolve
  have hstory : w.record token (run budget h.registryNumber h segments directories).revealed = _ :=
    story_run hc hs hf hn hat hresolving hb
  rw [World.record_of_revealed, hstory]
  refine congrArg (Record.mk _ · _) ?_
  rw [List.filterMap_append, hhanded, List.filterMap_cons_none rfl, List.filterMap_append,
    handed_shown, handed_shownBelow]
  unfold Settings.handed expected visits
  rw [List.nil_append, List.filter_append, List.map_append]
  rfl

/-- **Calls at a base and at some of the places below it**, one call at each place: the calls are
told apart by their places. -/
theorem calls_once (ho : inside.Orderly) (hn : Path.AreNames place)
    {p : List String × Option ByteArray → Bool} {P : List String → Prop} (hbase : P [])
    (hnames : ∀ rel, P rel → Path.AreNames rel)
    (hp : ∀ ns, ns ∈ ((inside.places place).filter p).map Prod.fst ↔
      ∃ rel, rel ≠ [] ∧ ns = place ++ rel ∧ P rel) :
    let calls := (place :: ((inside.places place).filter p).map Prod.fst).map
      fun ns => (s, Path.ofNames ns)
    calls.Nodup ∧ ∀ t q, (t, q) ∈ calls ↔ t = s ∧ ∃ rel, q = Path.ofNames (place ++ rel) ∧ P rel := by
  intro calls
  have hmem : ∀ ns, ns ∈ place :: ((inside.places place).filter p).map Prod.fst ↔
      ∃ rel, ns = place ++ rel ∧ P rel := by
    intro ns
    rw [List.mem_cons, hp]
    constructor
    · rintro (rfl | ⟨rel, -, rfl, hrel⟩)
      · exact ⟨[], (List.append_nil _).symm, hbase⟩
      · exact ⟨rel, rfl, hrel⟩
    · rintro ⟨rel, rfl, hrel⟩
      by_cases hnil : rel = []
      · exact .inl (by rw [hnil, List.append_nil])
      · exact .inr ⟨rel, hnil, rfl, hrel⟩
  have hnodup : (place :: ((inside.places place).filter p).map Prod.fst).Nodup := by
    refine List.nodup_cons.2 ⟨fun hm => ?_, ?_⟩
    · obtain ⟨rel, hne, he, -⟩ := (hp place).1 hm
      exact hne (List.self_eq_append_right.1 he)
    · exact (Forest.nodup_places ho place).sublist (List.filter_sublist.map Prod.fst)
  constructor
  · refine hnodup.map_on fun ns hns ms hms he => ?_
    obtain ⟨rel, rfl, hrel⟩ := (hmem ns).1 hns
    obtain ⟨rel', rfl, hrel'⟩ := (hmem ms).1 hms
    exact (Path.ofNames_inj (Path.areNames_append.2 ⟨hn, hnames rel hrel⟩)
      (Path.areNames_append.2 ⟨hn, hnames rel' hrel'⟩)).1 (Prod.mk.inj he).2
  · intro t q
    rw [List.mem_map]
    constructor
    · rintro ⟨ns, hm, he⟩
      obtain ⟨rel, rfl, hrel⟩ := (hmem ns).1 hm
      exact ⟨(Prod.mk.inj he).1.symm, rel, (Prod.mk.inj he).2.symm, hrel⟩
    · rintro ⟨rfl, rel, rfl, hrel⟩
      exact ⟨_, (hmem _).2 ⟨rel, rfl, hrel⟩, rfl⟩

/-- Everything below a directory is looked at. -/
theorem mem_all_places_iff (ho : inside.Orderly) (ns : List String) :
    ns ∈ ((inside.places place).filter fun _ => true).map Prod.fst ↔
      ∃ rel, rel ≠ [] ∧ ns = place ++ rel ∧ inside.view rel ≠ none := by
  rw [List.filter_true]
  exact Forest.mem_map_places_iff ho

/-- The places without a content are the directories. -/
theorem mem_folder_places_iff (ho : inside.Orderly) (ns : List String) :
    ns ∈ ((inside.places place).filter fun x => x.2.isNone).map Prod.fst ↔
      ∃ rel, rel ≠ [] ∧ ns = place ++ rel ∧ inside.view rel = some .directory := by
  constructor
  · intro hm
    obtain ⟨⟨ns, x⟩, hx, rfl⟩ := List.mem_map.1 hm
    obtain ⟨hx, hnone⟩ := List.mem_filter.1 hx
    obtain rfl := Option.isNone_iff_eq_none.1 hnone
    exact (Forest.mem_places_iff ho).1 hx
  · intro hrel
    have hx : (ns, none) ∈ inside.places place := (Forest.mem_places_iff ho).2 hrel
    exact List.mem_map.2 ⟨_, List.mem_filter.2 ⟨hx, rfl⟩, rfl⟩

/-- **A walk visits what lies below its base, in order.**  A handle resolves to a tidy path of a
store in memory or in a table, the tree of the store was built at tidy paths, and the path is a
directory of the tree.  Then a walk from the handle with any readable patterns, with directories or
without, ends well; it hands out the expected visits, in their order; it looks at the base and at
everything below it exactly once, and lists the base and every directory below it exactly once,
whatever it hands out; and it changes nothing. -/
theorem run_visits_expected (w : World) (token : Option Nat) (hc : w.cancelled token = none)
    (h : Handle) (hv : (w.registry h.registryNumber).void.kind = .void) (s : Store) (path : String)
    (hs : s.IsMounted)
    (hresolve : w.record token (h.resolve : Traversal Visit (Store × String)) =
      ⟨.finished (s, path), [], w⟩)
    (ht : Path.Tidy path) (hb : w.storage.Built s) (patterns : List String)
    (segments : List Pattern.Segment) (hp : Listing.readNames patterns = .ok segments)
    (directories : Bool) :
    ∃ f, w.storage.Holds s f ∧ ∀ inside, f.at? (Path.names path) = some (.folder inside) →
      ∀ budget, inside.count ≤ budget →
        let walk := whole budget (.handle h) patterns directories
        let place := Path.names path
        let stats := (w.story token walk).found.filterMap Event.stat?
        let lists := (w.story token walk).found.filterMap Event.list?
        w.run token walk =
            (.finished (expected w h s place segments directories inside, ()), w) ∧
          (stats.Nodup ∧ ∀ t q, (t, q) ∈ stats ↔
            t = s ∧ ∃ rel, q = Path.ofNames (place ++ rel) ∧ f.view (place ++ rel) ≠ none) ∧
          (lists.Nodup ∧ ∀ t q, (t, q) ∈ lists ↔
            t = s ∧ ∃ rel, q = Path.ofNames (place ++ rel) ∧
              f.view (place ++ rel) = some .directory) := by
  obtain ⟨f, hf⟩ := hb.exists_holds
  refine ⟨f, hf, fun inside hat budget hbudget => ?_⟩
  intro walk place stats lists
  have hplace : w.record token ((w.registry h.registryNumber).resolve h.uri :
      Traversal Visit (Store × String)) = ⟨.finished (s, path), [], w⟩ := hresolve
  obtain ⟨-, parts, rfl, -⟩ := Registry.of_record_resolve hv hs hplace
  obtain ⟨hn, hpath⟩ := hs.ofNames_names ht
  rw [← hpath] at hresolve
  have hinside := (Forest.orderly_of_at? hf.orderly hat).1
  have hview : ∀ rel, f.view (place ++ rel) = inside.view rel :=
    Forest.view_append_of_at? hat
  have hwalk : walk = run budget h.registryNumber h segments directories := by
    simp only [walk, whole, prepare, hp]
    rfl
  obtain ⟨resolving, hresolving, -, hstats, hlists⟩ := story_resolve hresolve
  have hstory : w.story token (run budget h.registryNumber h segments directories) = _ :=
    story_run hc hs hf hn hat hresolving hbudget
  have hnames : ∀ rel, inside.view rel ≠ none → Path.AreNames rel := fun rel hv =>
    Forest.areNames_of_view hinside hv
  refine ⟨?_, ?_, ?_⟩
  · have hrecord : w.record token (run budget h.registryNumber h segments directories) = _ :=
      record_run hc hs hf hn hat hresolve hbudget
    rw [hwalk, World.run_eq_of_record, hrecord]
  · have heq : stats = (place :: ((inside.places place).filter fun _ => true).map Prod.fst).map
        fun ns => (s, Path.ofNames ns) := by
      simp only [stats, hwalk, hstory]
      rw [List.filterMap_append, hstats, List.filter_true]
      refine congrArg (List.cons _) ?_
      rw [List.filterMap_append, stats_shown, stats_shownBelow]
      rfl
    simp only [heq, hview]
    exact calls_once hinside hn (by rw [inside.view_nil]; exact Option.some_ne_none _) hnames
      (mem_all_places_iff hinside)
  · have heq : lists = (place :: ((inside.places place).filter fun x => x.2.isNone).map
        Prod.fst).map fun ns => (s, Path.ofNames ns) := by
      simp only [lists, hwalk, hstory]
      rw [List.filterMap_append, hlists, List.filterMap_cons_none rfl, List.filterMap_append,
        lists_shown, lists_shownBelow]
      rfl
    simp only [heq, hview]
    exact calls_once hinside hn inside.view_nil
      (fun rel hv => hnames rel (by rw [hv]; exact Option.some_ne_none _))
      (mem_folder_places_iff hinside)

/-- A pattern that only a file deep down matches does not keep the walk from going there. -/
theorem run_visits_expected_small :
    let h : Handle := ⟨"mem://a/", none⟩
    Listing.readNames ["x"] = .ok [⟨"x", [.char 'x']⟩] ∧
      World.small.run none (whole 2 (.handle h) ["x"] true) =
        (.finished ([(⟨"mem://a/b/x", some commonRegistry⟩, ⟨"x", false⟩)], ()), World.small) := by
  intro h
  have hread : Listing.readNames ["x"] = .ok [⟨"x", [.char 'x']⟩] := by decide +kernel
  have hplace : (World.small.registry commonRegistry).place "mem://a/" =
      (⟨2, "mem://a", .memory⟩, "/") := by decide +kernel
  obtain ⟨f, hf, hrun⟩ := run_visits_expected World.small none rfl h rfl ⟨2, "mem://a", .memory⟩ "/"
    (.memory 2 "a") (World.record_resolve_small hplace) (by decide) World.built_small ["x"] _ hread
    true
  obtain rfl : World.small.storage.memory 2 = f := hf.1
  have hfound : expected World.small h ⟨2, "mem://a", .memory⟩ (Path.names "/")
      [⟨"x", [.char 'x']⟩] true (.folder "b" (.leaf "x" .empty .empty) .empty) =
        [(⟨"mem://a/b/x", some commonRegistry⟩, ⟨"x", false⟩)] := by
    decide +kernel
  have hwalk := (hrun (.folder "b" (.leaf "x" .empty .empty) .empty) rfl 2 (by decide)).1
  exact ⟨hread, hfound ▸ hwalk⟩

end Arboretum.Walk
