import Arboretum.Proofs.Store.Building
import Arboretum.Proofs.Traversal.Revealing
import Arboretum.Proofs.Tree.Subtrees

/-!
# What a walk visits

The visits of a walk by recursion on the tree, without an agenda: first the entries of a directory,
in name order, then for each of its directories, in name order, what is visited below it
(`visits_eq`).  The visits are the places below the directory, each once (`visits_perm_places`), and
no visit goes to a directory above an earlier one (`pairwise_visits`).

The last section says the same of everything else that a walk does: which paths it looks at and
which directories it lists.
-/

namespace Arboretum.Walk

/-! ## 1. Visits -/

/-- A visited entry, with the names on the way to it. -/
abbrev Sight := List String × Entry

/-- The entries of a directory in name order. -/
def entriesAt (place : List String) (inside : Forest ByteArray) : List Sight :=
  (Storage.entriesOf inside).map fun entry => (place ++ [entry.name], entry)

/-- What is visited below the directories among some entries. -/
def deeper (place : List String) : Forest ByteArray → List Sight
  | .empty => []
  | .leaf _ _ rest => deeper place rest
  | .folder name inside rest =>
    entriesAt (place ++ [name]) inside ++ deeper (place ++ [name]) inside ++ deeper place rest

/-- **The visits below a directory.** -/
def visits (place : List String) (inside : Forest ByteArray) : List Sight :=
  entriesAt place inside ++ deeper place inside

/-- **The entries come first, then what is visited below each directory in turn.** -/
theorem visits_eq (place : List String) (inside : Forest ByteArray) :
    visits place inside = entriesAt place inside ++ inside.toList.flatMap fun entry =>
      match entry.2 with
      | .leaf _ => []
      | .folder below => visits (place ++ [entry.1]) below := by
  have hdeeper : ∀ f : Forest ByteArray, deeper place f = f.toList.flatMap fun entry =>
      match entry.2 with
      | .leaf _ => []
      | .folder below => visits (place ++ [entry.1]) below := by
    intro f
    induction f with
    | empty => rfl
    | leaf name content rest ih => exact ih
    | folder name inside rest _ ih =>
      rw [deeper, ih]
      rfl
  rw [visits, hdeeper]

/-! ## 2. Every place once -/

variable {place : List String} {f : Forest ByteArray}

/-- **The visits are the places below the directory**, in another order. -/
theorem visits_perm_places (place : List String) (f : Forest ByteArray) :
    ((visits place f).map Prod.fst).Perm ((f.places place).map Prod.fst) := by
  unfold visits
  induction f generalizing place with
  | empty => exact .nil
  | leaf name content rest ih => exact (ih place).cons _
  | folder name inside rest ihi ihr =>
    have hfirst : entriesAt place (.folder name inside rest) =
        (place ++ [name], ⟨name, true⟩) :: entriesAt place rest := rfl
    rw [hfirst, deeper, Forest.places, List.cons_append, List.map_cons, List.map_cons]
    refine List.Perm.cons _ ?_
    have hinside := ihi (place ++ [name])
    have hrest := ihr place
    simp only [List.map_append] at hinside hrest ⊢
    exact (List.perm_append_comm_assoc _ _ _).trans (hinside.append hrest)

/-- Something is visited exactly if it stands below the directory. -/
theorem mem_visits_iff (h : f.Orderly) {ns : List String} :
    ns ∈ (visits place f).map Prod.fst ↔ ∃ rel, rel ≠ [] ∧ ns = place ++ rel ∧ f.view rel ≠ none :=
  (visits_perm_places place f).mem_iff.trans (Forest.mem_map_places_iff h)

/-- Nothing is visited twice. -/
theorem nodup_visits (h : f.Orderly) (place : List String) : ((visits place f).map Prod.fst).Nodup :=
  (visits_perm_places place f).nodup_iff.2 (Forest.nodup_places h place)

/-- An entry of a directory is one level below it. -/
theorem of_mem_entriesAt {x : Sight} (h : x ∈ entriesAt place f) :
    ∃ entry ∈ f.toList, x.1 = place ++ [entry.1] := by
  unfold entriesAt Storage.entriesOf at h
  obtain ⟨entry, he, rfl⟩ := List.mem_map.1 h
  obtain ⟨⟨name, node⟩, hm, rfl⟩ := List.mem_map.1 he
  exact ⟨(name, node), hm, rfl⟩

/-- What is visited deeper is at least two levels below the directory, below one of its entries. -/
theorem of_mem_deeper {x : Sight} (h : x ∈ deeper place f) :
    ∃ entry ∈ f.toList, place ++ [entry.1] <+: x.1 ∧ place.length + 1 < x.1.length := by
  induction f generalizing place with
  | empty => exact absurd h List.not_mem_nil
  | leaf name content rest ih =>
    obtain ⟨entry, he, hx⟩ := ih h
    exact ⟨entry, List.mem_cons_of_mem _ he, hx⟩
  | folder name inside rest ihi ihr =>
    rw [deeper, List.append_assoc, List.mem_append, List.mem_append] at h
    rcases h with h | h | h
    · obtain ⟨_, _, hx⟩ := of_mem_entriesAt h
      refine ⟨_, List.mem_cons_self, ?_⟩
      rw [hx]
      exact ⟨List.prefix_append _ _, by simp⟩
    · obtain ⟨_, _, hp, hlt⟩ := ihi h
      refine ⟨_, List.mem_cons_self, (List.prefix_append _ _).trans hp, ?_⟩
      simp at hlt
      omega
    · obtain ⟨entry, he, hx⟩ := ihr h
      exact ⟨entry, List.mem_cons_of_mem _ he, hx⟩

/-- **No visit goes to a directory above an earlier one**, nor to the same place. -/
theorem pairwise_visits (h : f.Orderly) (place : List String) :
    ((visits place f).map Prod.fst).Pairwise fun a b => ¬ b <+: a := by
  have hentries : ∀ {f : Forest ByteArray}, f.Orderly → ∀ place,
      (entriesAt place f).Pairwise fun a b => ¬ b.1 <+: a.1 := by
    intro f h place
    unfold entriesAt Storage.entriesOf
    rw [List.pairwise_map, List.pairwise_map]
    refine (Forest.pairwise_toList h).imp fun {a b} hlt => ?_
    exact Forest.not_prefix_of_ne (List.prefix_refl _) (List.prefix_refl _)
      (Forest.ne_of_name_lt hlt)
  have hbefore : ∀ {f : Forest ByteArray} {place}, ∀ a ∈ entriesAt place f, ∀ b ∈ deeper place f,
      ¬ b.1 <+: a.1 := by
    intro f place a ha b hb hp
    obtain ⟨_, _, ha⟩ := of_mem_entriesAt ha
    obtain ⟨_, _, _, hb⟩ := of_mem_deeper hb
    have hle := hp.length_le
    rw [ha, List.length_append, List.length_singleton] at hle
    omega
  have hdeeper : ∀ place, (deeper place f).Pairwise fun a b => ¬ b.1 <+: a.1 := by
    induction f with
    | empty => exact fun _ => .nil
    | leaf name content rest ih => exact ih h.2.2
    | folder name inside rest ihi ihr =>
      obtain ⟨-, hlt, hi, hr⟩ := h
      intro place
      rw [deeper, List.pairwise_append, List.pairwise_append]
      refine ⟨⟨hentries hi _, ihi hi _, hbefore⟩, ihr hr place, fun a ha b hb => ?_⟩
      -- What is visited below one directory and below a later entry has no way in common.
      have hname : place ++ [name] <+: a.1 := by
        rcases List.mem_append.1 ha with ha | ha
        · obtain ⟨_, _, ha⟩ := of_mem_entriesAt ha
          exact ha ▸ List.prefix_append _ _
        · obtain ⟨_, _, hp, _⟩ := of_mem_deeper ha
          exact (List.prefix_append _ _).trans hp
      obtain ⟨entry, he, hp, -⟩ := of_mem_deeper hb
      exact Forest.not_prefix_of_ne hp hname (Forest.ne_of_name_lt (hlt entry he))
  rw [List.pairwise_map, visits, List.pairwise_append]
  exact ⟨hentries h place, hdeeper place, hbefore⟩

/-! ## 3. Everything that a walk does -/

/-- What is handed out for a visit. -/
def Settings.visit (settings : Settings) (x : Sight) : Visit :=
  (settings.handle (Path.ofNames x.1), x.2)

/-- The visits that are handed out. -/
def Settings.handed (settings : Settings) (sights : List Sight) : List Visit :=
  (sights.filter fun x => settings.wants x.2).map settings.visit

/-- A directory is listed, and its entries are handed out. -/
def shown (settings : Settings) (place : List String) (inside : Forest ByteArray) :
    List (Event Visit) :=
  .asked settings.store (.list (Path.ofNames place) []) ::
    (entriesAt place inside).flatMap fun x =>
      .asked settings.store (.join [Path.ofNames place, x.2.name]) ::
        if settings.wants x.2 then [.handed (settings.visit x)] else []

/-- Each entry is looked at in turn, and a directory is shown before its entries are looked at. -/
def shownBelow (settings : Settings) (place : List String) :
    Forest ByteArray → List (Event Visit)
  | .empty => []
  | .leaf name _ rest =>
    .asked settings.store (.stat (Path.ofNames (place ++ [name]))) :: shownBelow settings place rest
  | .folder name inside rest =>
    .asked settings.store (.stat (Path.ofNames (place ++ [name]))) ::
      (shown settings (place ++ [name]) inside ++ shownBelow settings (place ++ [name]) inside ++
        shownBelow settings place rest)

variable (settings : Settings)

/-- **What is handed out** of one directory, -/
theorem handed_shown (place : List String) (inside : Forest ByteArray) :
    (shown settings place inside).filterMap Event.handed? =
      settings.handed (entriesAt place inside) := by
  unfold shown Settings.handed
  rw [List.filterMap_cons_none rfl]
  induction entriesAt place inside with
  | nil => rfl
  | cons x xs ih =>
    rw [List.flatMap_cons, List.filterMap_append, ih, List.filterMap_cons_none rfl]
    cases hw : settings.wants x.2 with
    | true => simp [hw, Event.handed?]
    | false => simp [hw]

/-- and below it. -/
theorem handed_shownBelow (place : List String) (inside : Forest ByteArray) :
    (shownBelow settings place inside).filterMap Event.handed? =
      settings.handed (deeper place inside) := by
  have happend : ∀ xs ys, settings.handed (xs ++ ys) = settings.handed xs ++ settings.handed ys := by
    intro xs ys
    unfold Settings.handed
    rw [List.filter_append, List.map_append]
  induction inside generalizing place with
  | empty => rfl
  | leaf name content rest ih => exact ih place
  | folder name inside rest ihi ihr =>
    rw [shownBelow, List.filterMap_cons_none rfl, List.filterMap_append, List.filterMap_append,
      handed_shown, ihi, ihr, deeper, happend, happend]

/-- What happens behind the listing of a directory: entries are joined and handed out. -/
theorem behind_listing_shown {place : List String} {inside : Forest ByteArray} {e : Event Visit}
    (h : e ∈ (shown settings place inside).tail) : e.stat? = none ∧ e.list? = none := by
  obtain ⟨x, -, hx⟩ := List.mem_flatMap.1 h
  cases List.mem_cons.1 hx with
  | inl hjoin => rw [hjoin]; exact ⟨rfl, rfl⟩
  | inr hvisit =>
    split at hvisit
    · rw [List.mem_singleton.1 hvisit]
      exact ⟨rfl, rfl⟩
    · exact absurd hvisit List.not_mem_nil

/-- No entry is looked at while a directory is shown. -/
theorem stats_shown (place : List String) (inside : Forest ByteArray) :
    (shown settings place inside).filterMap Event.stat? = [] := by
  have hbehind : ∀ e ∈ (shown settings place inside).tail, e.stat? = none :=
    fun e he => (behind_listing_shown settings he).1
  exact List.filterMap_eq_nil_iff.2 (List.forall_mem_cons.2 ⟨rfl, hbehind⟩)

/-- **Every place below a directory is looked at**, depth first. -/
theorem stats_shownBelow (place : List String) (inside : Forest ByteArray) :
    (shownBelow settings place inside).filterMap Event.stat? =
      ((inside.places place).map Prod.fst).map fun ns => (settings.store, Path.ofNames ns) := by
  induction inside generalizing place with
  | empty => rfl
  | leaf name content rest ih => exact congrArg _ (ih place)
  | folder name inside rest ihi ihr =>
    have hstat : (shownBelow settings place (.folder name inside rest)).filterMap Event.stat? =
        (settings.store, Path.ofNames (place ++ [name])) ::
          (shown settings (place ++ [name]) inside ++ shownBelow settings (place ++ [name]) inside ++
            shownBelow settings place rest).filterMap Event.stat? := rfl
    rw [hstat, List.filterMap_append, List.filterMap_append, stats_shown, ihi, ihr, Forest.places,
      List.map_cons, List.map_cons, List.map_append, List.map_append]
    rfl

/-- One listing shows a directory. -/
theorem lists_shown (place : List String) (inside : Forest ByteArray) :
    (shown settings place inside).filterMap Event.list? =
      [(settings.store, Path.ofNames place)] := by
  have hbehind : ∀ e ∈ (shown settings place inside).tail, e.list? = none :=
    fun e he => (behind_listing_shown settings he).2
  exact congrArg (List.cons _) (List.filterMap_eq_nil_iff.2 hbehind)

/-- **Every directory below a directory is listed**, depth first. -/
theorem lists_shownBelow (place : List String) (inside : Forest ByteArray) :
    (shownBelow settings place inside).filterMap Event.list? =
      (((inside.places place).filter fun x => x.2.isNone).map Prod.fst).map
        fun ns => (settings.store, Path.ofNames ns) := by
  induction inside generalizing place with
  | empty => rfl
  | leaf name content rest ih => exact ih place
  | folder name inside rest ihi ihr =>
    rw [shownBelow, List.filterMap_cons_none rfl, List.filterMap_append, List.filterMap_append,
      lists_shown, ihi, ihr, Forest.places, List.filter_cons_of_pos rfl, List.filter_append,
      List.map_cons, List.map_cons, List.map_append, List.map_append]
    rfl

end Arboretum.Walk
