import Mathlib.Data.List.Pairwise
import Arboretum.Proofs.Tree.View
import Arboretum.Store.Table

/-!
# What a space of a table does

Every operation of a space of a table, on tidy paths, does what the view of the space says
(`View.Allows`, `View.after`, `View.Reports`), and it keeps the space sound.  One lemma for each
operation: it succeeds when the view allows it, with the change that the view foresees, and else
it fails.  Rows of other spaces are left out of all this: they may be anything.
-/

namespace Arboretum

/-- What a row stands for. -/
def Row.thing (row : Row) : Thing := if row.isDirectory then .directory else .file row.content

/-- **A row in its place**: its path, and the one of its directory, say where it stands; the
directory is there; and the size of a file is that of its content. -/
structure Row.Stands (row : Row) (v : View) (above : List String) : Prop where
  names : Path.AreNames (above ++ [row.name])
  path : row.path = Path.ofNames (above ++ [row.name])
  parent : row.parent = Path.ofNames above
  directory : v above = some .directory
  size : row.isDirectory = false → row.size = row.content.size

/-- Rows stay in their places when no directory goes. -/
theorem Row.Stands.imp {row : Row} {v v' : View} {above : List String} (h : row.Stands v above)
    (hv : v above = some .directory → v' above = some .directory) : row.Stands v' above :=
  { h with directory := hv h.directory }

namespace Table

variable {t : Table} {space path : String}

/-! ## 1. The view of a space -/

/-- **The view of a space.** -/
def view (t : Table) (space : String) : View := fun ns =>
  if ns = [] then some .directory
  else if Path.AreNames ns then (t.find? space (Path.ofNames ns)).map Row.thing
  else none

/-- **A sound space**: no path has two rows, and every row is in its place. -/
structure Sound (t : Table) (space : String) : Prop where
  unique : t.Pairwise fun a b => a.space = space → b.space = space → a.path ≠ b.path
  placed : ∀ row ∈ t, row.space = space → ∃ above, row.Stands (t.view space) above

theorem view_nil : t.view space [] = some .directory := if_pos rfl

theorem view_of_areNames {ns : List String} (hne : ns ≠ []) (hn : Path.AreNames ns) :
    t.view space ns = (t.find? space (Path.ofNames ns)).map Row.thing := by
  rw [view, if_neg hne, if_pos hn]

theorem view_append {above : List String} {n : String} (hn : Path.AreNames (above ++ [n])) :
    t.view space (above ++ [n]) = (t.find? space (Path.ofNames (above ++ [n]))).map Row.thing :=
  view_of_areNames (by simp) hn

/-- What stands in a space stands at names. -/
theorem areNames_of_view {ns : List String} (h : t.view space ns ≠ none) : Path.AreNames ns := by
  by_contra hn
  unfold view at h
  split at h
  · next he => exact hn (he ▸ Path.areNames_nil)
  · simp at h

/-- A row that is found is a row of the space with the path. -/
theorem of_find?_eq_some {row : Row} (h : t.find? space path = some row) :
    row ∈ t ∧ row.space = space ∧ row.path = path := by
  have hb := List.find?_some h
  rw [Bool.and_eq_true, decide_eq_true_eq, decide_eq_true_eq] at hb
  exact ⟨List.mem_of_find?_eq_some h, hb⟩

/-- No row is found when the space has none with the path. -/
theorem find?_eq_none_iff :
    t.find? space path = none ↔ ∀ row ∈ t, row.space = space → row.path ≠ path := by
  simp [find?]

/-- **A sound space finds exactly its rows.** -/
theorem Sound.find?_eq_some_iff (h : t.Sound space) {row : Row} :
    t.find? space path = some row ↔ row ∈ t ∧ row.space = space ∧ row.path = path := by
  refine ⟨of_find?_eq_some, fun ⟨hm, hs, hp⟩ => ?_⟩
  cases hf : t.find? space path with
  | none => exact absurd hp (find?_eq_none_iff.1 hf row hm hs)
  | some other =>
    obtain ⟨hm', hs', hp'⟩ := of_find?_eq_some hf
    by_contra hne
    have hsym : Std.Symm fun a b : Row => a.space = space → b.space = space → a.path ≠ b.path :=
      ⟨fun a b hab hb ha he => hab ha hb he.symm⟩
    refine h.unique.forall hm' hm (fun he => hne (congrArg some he)) hs' hs ?_
    rw [hp, hp']

/-- Where a row of a sound space stands, it is found. -/
theorem Sound.view_of_stands (h : t.Sound space) {row : Row} (hm : row ∈ t)
    (hs : row.space = space) {above : List String} (hr : row.Stands (t.view space) above) :
    t.view space (above ++ [row.name]) = some row.thing := by
  rw [view_append hr.names, h.find?_eq_some_iff.2 ⟨hm, hs, hr.path⟩]
  rfl

/-- What is found at names stands there. -/
theorem Sound.stands_of_find? (h : t.Sound space) {above : List String} {n : String}
    (hn : Path.AreNames (above ++ [n])) {row : Row}
    (hf : t.find? space (Path.ofNames (above ++ [n])) = some row) :
    row.name = n ∧ row.Stands (t.view space) above := by
  obtain ⟨hm, hs, hp⟩ := of_find?_eq_some hf
  obtain ⟨as, hr⟩ := h.placed row hm hs
  have he := hp.symm.trans hr.path
  rw [Path.ofNames_inj hn hr.names] at he
  obtain ⟨rfl, hc⟩ := List.append_inj' he rfl
  exact ⟨(List.cons.inj hc).1.symm, hr⟩

/-- **The view of a sound space is one of a tree.** -/
theorem Sound.isTree_view (h : t.Sound space) : (t.view space).IsTree where
  root := view_nil
  above ns n hv := by
    have hn := areNames_of_view hv
    rw [view_append hn] at hv
    cases hf : t.find? space (Path.ofNames (ns ++ [n])) with
    | none => exact absurd (by rw [hf]; rfl) hv
    | some row => exact (h.stands_of_find? hn hf).2.directory

/-- The root has no row. -/
theorem Sound.find?_root (h : t.Sound space) : t.find? space Path.root = none := by
  refine find?_eq_none_iff.2 fun row hm hs hp => ?_
  obtain ⟨above, hr⟩ := h.placed row hm hs
  rw [hr.path, Path.ofNames_eq_root_iff hr.names] at hp
  simp at hp

/-- A file in the view is a row of a file. -/
theorem Sound.view_eq_file_iff (h : t.Sound space) {ns : List String} (hn : Path.AreNames ns)
    {data : ByteArray} : t.view space ns = some (.file data) ↔
      ∃ row, t.find? space (Path.ofNames ns) = some row ∧ row.isDirectory = false ∧
        row.content = data := by
  by_cases hne : ns = []
  · subst hne
    rw [view_nil, Path.ofNames_nil, h.find?_root]
    simp
  · rw [view_of_areNames hne hn, Option.map_eq_some_iff]
    refine exists_congr fun row => and_congr_right fun _ => ?_
    rw [Row.thing]
    cases row.isDirectory <;> simp

/-- A directory in the view is the root or a row of a directory. -/
theorem view_eq_directory_iff {ns : List String} (hn : Path.AreNames ns) :
    t.view space ns = some .directory ↔
      ns = [] ∨ ∃ row, t.find? space (Path.ofNames ns) = some row ∧ row.isDirectory = true := by
  by_cases hne : ns = []
  · subst hne
    simp [view_nil]
  · rw [view_of_areNames hne hn, Option.map_eq_some_iff]
    simp only [hne, false_or]
    refine exists_congr fun row => and_congr_right fun _ => ?_
    rw [Row.thing]
    cases row.isDirectory <;> simp

/-- An empty place in the view is one without a row. -/
theorem view_eq_none_iff {ns : List String} (hne : ns ≠ []) (hn : Path.AreNames ns) :
    t.view space ns = none ↔ t.find? space (Path.ofNames ns) = none := by
  rw [view_of_areNames hne hn, Option.map_eq_none_iff]

/-- The empty space is sound, -/
theorem sound_of_no_rows (h : ∀ row ∈ t, row.space ≠ space) : t.Sound space where
  unique := List.Pairwise.imp_of_mem (R := fun _ _ => True)
    (fun ha _ _ hs _ => absurd hs (h _ ha)) (List.pairwise_of_forall fun _ _ => trivial)
  placed row hm hs := absurd hs (h row hm)

/-- and all there is in it is the root. -/
theorem view_of_no_rows (h : ∀ row ∈ t, row.space ≠ space) {ns : List String} (hne : ns ≠ []) :
    t.view space ns = none := by
  rw [view, if_neg hne]
  split
  · rw [find?_eq_none_iff.2 fun row hm hs => absurd hs (h row hm)]
    rfl
  · rfl

/-! ## 2. Looking up -/

/-- A tidy path by its names. -/
theorem names_cases (hp : Path.Tidy path) :
    (Path.names path = [] ∧ Path.clean path = Path.root) ∨
    ∃ above n, Path.names path = above ++ [n] ∧ Path.clean path = Path.ofNames (above ++ [n]) ∧
      Path.AreNames (above ++ [n]) := by
  have hc := Path.clean_eq_ofNames path
  have hn := Path.areNames_names hp
  rcases List.eq_nil_or_concat (Path.names path) with h | ⟨above, n, h⟩
  · rw [h] at hc
    exact .inl ⟨h, hc⟩
  · rw [List.concat_eq_append] at h
    rw [h] at hc hn
    exact .inr ⟨above, n, h, hc, hn⟩

theorem ofNames_append_ne_root {above : List String} {n : String}
    (hn : Path.AreNames (above ++ [n])) : Path.ofNames (above ++ [n]) ≠ Path.root := by
  rw [Ne, Path.ofNames_eq_root_iff hn]
  simp

theorem holder_root : t.holder space Path.root = .error (.rootDirectory Path.root) := by
  have h : Path.split Path.root = (Path.root, "") := Path.split_of_names_nil (by decide)
  simp [holder, h]

/-- **The holder of a path of names** is the directory above the last one. -/
theorem holder_eq {above : List String} {n : String} (hn : Path.AreNames (above ++ [n]))
    (hd : t.view space above = some .directory) :
    t.holder space (Path.ofNames (above ++ [n])) = .ok (Path.ofNames above, n) := by
  obtain ⟨hns, hname⟩ := Path.areNames_append_singleton.1 hn
  have hne : n ≠ "" := fun he => hname.1.ne_nil (by rw [he]; rfl)
  simp only [holder, Path.split_of_names (Path.names_ofNames hn), hne, if_false]
  rcases (view_eq_directory_iff hns).1 hd with rfl | ⟨row, hf, hr⟩
  · rw [if_pos Path.ofNames_nil]
  · rw [hf]
    simp [hr]

/-- Without a directory above there is no holder. -/
theorem holder_error {above : List String} {n : String} (hn : Path.AreNames (above ++ [n]))
    (hd : t.view space above ≠ some .directory) :
    ∃ f, t.holder space (Path.ofNames (above ++ [n])) = .error f := by
  obtain ⟨hns, hname⟩ := Path.areNames_append_singleton.1 hn
  have hne : n ≠ "" := fun he => hname.1.ne_nil (by rw [he]; rfl)
  rw [Ne, view_eq_directory_iff hns, not_or] at hd
  have hroot : Path.ofNames above ≠ Path.root := fun he =>
    hd.1 ((Path.ofNames_eq_root_iff hns).1 he)
  simp only [holder, Path.split_of_names (Path.names_ofNames hn), hne, if_false, hroot]
  cases hf : t.find? space (Path.ofNames above) with
  | none => exact ⟨_, rfl⟩
  | some row =>
    have hr : ¬ row.isDirectory = true := fun hr => hd.2 ⟨row, hf, hr⟩
    exact ⟨_, if_neg hr⟩

/-- A directory stands at a path of names exactly if the view says so. -/
theorem hasDirectory_iff {ns : List String} (hn : Path.AreNames ns) :
    t.hasDirectory space (Path.ofNames ns) = true ↔ t.view space ns = some .directory := by
  unfold hasDirectory stat
  dsimp only
  rw [Path.clean_ofNames hn, view_eq_directory_iff hn]
  by_cases hne : ns = []
  · subst hne
    simp [Path.ofNames_nil]
  · rw [if_neg fun he => hne ((Path.ofNames_eq_root_iff hn).1 he)]
    cases t.find? space (Path.ofNames ns) <;> simp [hne]

/-! ## 3. Reading -/

/-- Sorting by a total and transitive order and narrowing a list can be done in either order. -/
theorem filter_mergeSort {α : Type} {le : α → α → Bool}
    (htrans : ∀ a b c, le a b = true → le b c = true → le a c = true)
    (htotal : ∀ a b, (le a b || le b a) = true) (p : α → Bool) (xs : List α) :
    (xs.mergeSort le).filter p = (xs.filter p).mergeSort le := by
  induction xs with
  | nil => simp
  | cons x xs ih =>
    obtain ⟨l, r, h1, h2, h3⟩ := List.mergeSort_cons htrans htotal x xs
    cases hx : p x with
    | false =>
      rw [List.filter_cons_of_neg (by simp [hx]), ← ih, h1, h2]
      simp [hx]
    | true =>
      rw [List.filter_cons_of_pos hx]
      obtain ⟨l', r', h1', h2', h3'⟩ := List.mergeSort_cons htrans htotal x (xs.filter p)
      rw [← ih, h2, List.filter_append] at h2'
      -- Both sides are cut where the first element is not below `x`.
      have hs := List.pairwise_mergeSort htrans htotal (x :: xs)
      rw [h1, List.pairwise_append, List.pairwise_cons] at hs
      have hs' := List.pairwise_mergeSort htrans htotal (x :: xs.filter p)
      rw [h1', List.pairwise_append, List.pairwise_cons] at hs'
      have hcut : ∀ as bs : List α, (∀ a ∈ as, (!le x a) = true) → (∀ b ∈ bs, le x b = true) →
          (as ++ bs).takeWhile (fun y => !le x y) = as := by
        intro as bs ha hb
        rw [List.takeWhile_append_of_pos ha]
        cases bs with
        | nil => simp
        | cons b bs => simp [hb b List.mem_cons_self]
      have hl : l.filter p = l' := by
        rw [← hcut (l.filter p) (r.filter p) (fun a ha => h3 a (List.mem_of_mem_filter ha))
            fun b hb => hs.2.1.1 b (List.mem_of_mem_filter hb),
          h2', hcut l' r' h3' hs'.2.1.1]
      rw [hl] at h2'
      rw [h1, h1', List.filter_append, List.filter_cons_of_pos hx, hl,
        List.append_cancel_left h2']

theorem name_le_trans (a b c : Row) (hab : decide (a.name ≤ b.name) = true)
    (hbc : decide (b.name ≤ c.name) = true) : decide (a.name ≤ c.name) = true :=
  decide_eq_true (String.le_trans (of_decide_eq_true hab) (of_decide_eq_true hbc))

theorem name_le_total (a b : Row) :
    (decide (a.name ≤ b.name) || decide (b.name ≤ a.name)) = true := by
  rw [Bool.or_eq_true, decide_eq_true_eq, decide_eq_true_eq]
  exact String.le_total a.name b.name

/-- **Hints only narrow a listing**: the entries that pass them, out of all of them. -/
theorem entries_filter (t : Table) (space path : String) (hints : List String) :
    t.entries space path hints =
      (t.entries space path []).filter fun e => Pattern.Like.passes hints e.name := by
  have hall : ((t.below space path).filter fun row => Pattern.Like.passes [] row.name) =
      t.below space path := List.filter_eq_self.2 fun row _ => rfl
  rw [entries, entries, hall, List.filter_map,
    ← filter_mergeSort name_le_trans name_le_total]
  rfl

theorem list_filter (t : Table) (space path : String) (hints : List String) :
    t.list space path hints = (t.list space path []).map
      (List.filter fun e => Pattern.Like.passes hints e.name) := by
  unfold list
  dsimp only
  rw [entries_filter t space _ hints]
  split
  · rfl
  · split
    · rfl
    · split <;> rfl

/-- Two rows of a sound space directly below a place have different names. -/
theorem Sound.pairwise_below (h : t.Sound space) {place : List String}
    (hn : Path.AreNames place) :
    (t.below space (Path.ofNames place)).Pairwise fun a b => a.name ≠ b.name := by
  refine List.Pairwise.imp_of_mem (fun {a b} ha hb hab he => ?_) (h.unique.filter _)
  obtain ⟨ha, has⟩ := List.mem_filter.1 ha
  obtain ⟨hb, hbs⟩ := List.mem_filter.1 hb
  rw [Bool.and_eq_true, decide_eq_true_eq, decide_eq_true_eq] at has hbs
  obtain ⟨as, hra⟩ := h.placed a ha has.1
  obtain ⟨bs, hrb⟩ := h.placed b hb hbs.1
  have hea := (Path.ofNames_inj (Path.areNames_append.1 hra.names).1 hn).1
    (hra.parent.symm.trans has.2)
  have heb := (Path.ofNames_inj (Path.areNames_append.1 hrb.names).1 hn).1
    (hrb.parent.symm.trans hbs.2)
  refine hab has.1 hbs.1 ?_
  rw [hra.path, hrb.path, hea, heb, he]

/-- The rows directly below a place are those of the entries in it. -/
theorem Sound.mem_below_iff (h : t.Sound space) {place : List String} (hn : Path.AreNames place)
    {row : Row} : row ∈ t.below space (Path.ofNames place) ↔
      Path.AreNames (place ++ [row.name]) ∧
        t.find? space (Path.ofNames (place ++ [row.name])) = some row := by
  unfold below
  rw [List.mem_filter, Bool.and_eq_true, decide_eq_true_eq, decide_eq_true_eq]
  constructor
  · rintro ⟨hm, hs, hp⟩
    obtain ⟨above, hr⟩ := h.placed row hm hs
    have he := (Path.ofNames_inj (Path.areNames_append.1 hr.names).1 hn).1 (hr.parent.symm.trans hp)
    subst he
    exact ⟨hr.names, h.find?_eq_some_iff.2 ⟨hm, hs, hr.path⟩⟩
  · rintro ⟨hns, hf⟩
    obtain ⟨hm, hs, -⟩ := of_find?_eq_some hf
    exact ⟨hm, hs, (h.stands_of_find? hns hf).2.parent⟩

/-- The rows below a directory of a sound space are its listing. -/
theorem Sound.isListing_entries (h : t.Sound space) {place : List String}
    (hn : Path.AreNames place) :
    (t.view space).IsListing place (t.entries space (Path.ofNames place) []) := by
  have hall : ((t.below space (Path.ofNames place)).filter
      fun row => Pattern.Like.passes [] row.name) = t.below space (Path.ofNames place) :=
    List.filter_eq_self.2 fun row _ => rfl
  constructor
  · rw [entries, hall, List.pairwise_map]
    have hle := List.pairwise_mergeSort name_le_trans name_le_total
      (t.below space (Path.ofNames place))
    have hperm := List.mergeSort_perm (t.below space (Path.ofNames place))
      fun a b => decide (a.name ≤ b.name)
    have hne := (hperm.pairwise_iff (R := fun a b : Row => a.name ≠ b.name)
      fun {a b} hab => Ne.symm hab).2 (h.pairwise_below hn)
    refine (hle.and hne).imp fun {a b} ⟨hab, hd⟩ => ?_
    exact String.not_le.1 fun hba => hd (String.le_antisymm (of_decide_eq_true hab) hba)
  · intro e
    rw [entries, hall, List.mem_map]
    constructor
    · rintro ⟨row, hm, rfl⟩
      obtain ⟨hns, hf⟩ := (h.mem_below_iff hn).1 (List.mem_mergeSort.1 hm)
      refine ⟨row.thing, by rw [view_append hns, hf]; rfl, ?_⟩
      rw [Row.thing]
      cases row.isDirectory <;> rfl
    · rintro ⟨x, hx, he⟩
      have hsome : t.view space (place ++ [e.name]) ≠ none := by
        rw [hx]
        exact Option.some_ne_none x
      have hns := areNames_of_view hsome
      rw [view_append hns] at hx
      obtain ⟨row, hf, rfl⟩ := Option.map_eq_some_iff.1 hx
      obtain ⟨hname, -⟩ := h.stands_of_find? hns hf
      refine ⟨row, List.mem_mergeSort.2 ((h.mem_below_iff hn).2 ?_), ?_⟩
      · rw [hname]
        exact ⟨hns, hf⟩
      · obtain ⟨n, d⟩ := e
        dsimp only at he hname
        rw [hname, he, Row.thing]
        cases row.isDirectory <;> rfl

/-- **Listing** succeeds on directories, with their listing narrowed by the hints. -/
theorem Sound.list_eq (h : t.Sound space) (hp : Path.Tidy path)
    (hd : t.view space (Path.names path) = some .directory) :
    ∃ entries, (t.view space).IsListing (Path.names path) entries ∧ ∀ hints,
      t.list space path hints = .ok (entries.filter fun e => Pattern.Like.passes hints e.name) := by
  have hn := Path.areNames_names hp
  refine ⟨_, h.isListing_entries hn, fun hints => ?_⟩
  rw [← entries_filter, list, Path.clean_eq_ofNames path]
  rcases (view_eq_directory_iff hn).1 hd with hr | ⟨row, hf, hr⟩
  · rw [if_pos ((Path.ofNames_eq_root_iff hn).2 hr)]
  · rw [hf]
    simp [hr]

theorem list_error (hp : Path.Tidy path) (hd : t.view space (Path.names path) ≠ some .directory)
    (hints : List String) : ∃ f, t.list space path hints = .error f := by
  have hn := Path.areNames_names hp
  rw [Ne, view_eq_directory_iff hn, not_or] at hd
  have hroot : Path.ofNames (Path.names path) ≠ Path.root := fun he =>
    hd.1 ((Path.ofNames_eq_root_iff hn).1 he)
  rw [list, Path.clean_eq_ofNames path]
  rw [if_neg hroot]
  cases hf : t.find? space (Path.ofNames (Path.names path)) with
  | none => exact ⟨_, rfl⟩
  | some row => exact ⟨_, if_neg fun hr => hd.2 ⟨row, hf, hr⟩⟩

/-- **Stat** reports what stands at the place. -/
theorem Sound.untimed_stat (h : t.Sound space) (hp : Path.Tidy path) :
    (t.stat space path).map Info.untimed =
      (t.view space (Path.names path)).map (View.infoOf path) := by
  unfold stat
  dsimp only
  rcases names_cases hp with ⟨hns, hc⟩ | ⟨above, n, hns, hc, hn⟩
  · rw [hns, view_nil, if_pos hc, Option.map_some, Option.map_some, View.infoOf, hc,
      Path.name_of_names_nil hns]
    rfl
  · rw [if_neg (hc ▸ ofNames_append_ne_root hn), hc, hns, view_append hn, Option.map_map,
      Option.map_map]
    cases hf : t.find? space (Path.ofNames (above ++ [n])) with
    | none => rfl
    | some row =>
      obtain ⟨hname, hr⟩ := h.stands_of_find? hn hf
      have hsize := hr.size
      rw [Option.map_some, Option.map_some, Option.some.injEq]
      simp only [Function.comp_apply, View.infoOf, hc, Path.name_of_names hns, hname, hr.path,
        Info.untimed, Row.thing]
      cases hd : row.isDirectory with
      | true => rfl
      | false => simp [Thing.isDirectory, Thing.size?, hsize hd]

/-- **Reading** succeeds on files, with their content, -/
theorem Sound.read_eq (h : t.Sound space) (hp : Path.Tidy path) {data : ByteArray}
    (hf : t.view space (Path.names path) = some (.file data)) : t.read space path = .ok data := by
  obtain ⟨row, hr, hd, hc⟩ := (h.view_eq_file_iff (Path.areNames_names hp)).1 hf
  rw [read, Path.clean_eq_ofNames path]
  rw [hr]
  simp [hd, hc]

/-- and on nothing else. -/
theorem Sound.read_error (h : t.Sound space) (hp : Path.Tidy path)
    (hf : ∀ data, t.view space (Path.names path) ≠ some (.file data)) :
    ∃ f, t.read space path = .error f := by
  rw [read, Path.clean_eq_ofNames path]
  cases hr : t.find? space (Path.ofNames (Path.names path)) with
  | none => exact ⟨_, rfl⟩
  | some row =>
    cases hd : row.isDirectory with
    | true => exact ⟨_, if_pos hd⟩
    | false =>
      exact absurd ((h.view_eq_file_iff (Path.areNames_names hp)).2 ⟨row, hr, hd, rfl⟩)
        (hf row.content)

/-! ## 4. Changing -/

/-- The view of a table with one more row. -/
theorem view_append_row {row : Row} {place : List String} (hne : place ≠ [])
    (hn : Path.AreNames place) (hs : row.space = space) (hp : row.path = Path.ofNames place)
    (hv : t.view space place = none) :
    Table.view (t ++ [row]) space = (t.view space).put place (some row.thing) := by
  have hf := (view_eq_none_iff hne hn).1 hv
  have happ : ∀ q, Table.find? (t ++ [row]) space q =
      (t.find? space q).or (if q = row.path then some row else none) := by
    intro q
    rw [find?, List.find?_append]
    refine congrArg (Option.or _) ?_
    by_cases he : q = row.path
    · simp [hs, he]
    · simp [hs, Ne.symm he, he]
  funext ns
  by_cases he : ns = place
  · subst he
    rw [View.put_self, view_of_areNames hne hn, happ, hf, hp, if_pos rfl]
    rfl
  · rw [View.put_of_ne _ he]
    by_cases hns : ns ≠ [] ∧ Path.AreNames ns
    · have hq : Path.ofNames ns ≠ row.path := by
        rw [hp, Ne, Path.ofNames_inj hns.2 hn]
        exact he
      rw [view_of_areNames hns.1 hns.2, view_of_areNames hns.1 hns.2, happ, if_neg hq,
        Option.or_none]
    · unfold view
      by_cases h0 : ns = []
      · rw [if_pos h0, if_pos h0]
      · rw [if_neg h0, if_neg h0, if_neg fun h => hns ⟨h0, h⟩, if_neg fun h => hns ⟨h0, h⟩]

/-- **A new row in its place** keeps a space sound. -/
theorem Sound.append_row (h : t.Sound space) {above : List String} {row : Row}
    (hs : row.space = space) (hr : row.Stands (t.view space) above)
    (hv : t.view space (above ++ [row.name]) = none) : Table.Sound (t ++ [row]) space where
  unique := by
    refine List.pairwise_append.2 ⟨h.unique, List.pairwise_singleton _ _, ?_⟩
    intro a ha b hb hsa _ hab
    rw [List.mem_singleton.1 hb, hr.path] at hab
    exact find?_eq_none_iff.1 ((view_eq_none_iff (by simp) hr.names).1 hv) a ha hsa hab
  placed other hm hso := by
    have hview := view_append_row (by simp) hr.names hs hr.path hv
    have hkeep : ∀ ns, t.view space ns = some .directory →
        Table.view (t ++ [row]) space ns = some .directory := by
      intro ns hd
      have hne : ns ≠ above ++ [row.name] := by
        rintro rfl
        rw [hv] at hd
        cases hd
      rw [hview, View.put_of_ne _ hne, hd]
    rcases List.mem_append.1 hm with hm | hm
    · obtain ⟨as, hro⟩ := h.placed other hm hso
      exact ⟨as, hro.imp (hkeep as)⟩
    · rw [List.mem_singleton.1 hm]
      exact ⟨above, hr.imp (hkeep above)⟩

/-- Refilling a row keeps what is found under other paths. -/
theorem find?_refill (t : Table) (space path : String) (data : ByteArray) (q : String) :
    (t.refill space path data).find? space q = (t.find? space q).map fun row =>
      if row.path = path then { row with content := data, size := data.size } else row := by
  rw [refill, find?, List.find?_map, find?]
  have hkey : ((fun row : Row => decide (row.space = space) && decide (row.path = q)) ∘
      fun row => if (decide (row.space = space) && decide (row.path = path)) = true then
        { row with content := data, size := data.size } else row) =
      fun row : Row => decide (row.space = space) && decide (row.path = q) := by
    funext row
    simp only [Function.comp_apply]
    split <;> rfl
  rw [hkey]
  cases hf : List.find? (fun row : Row => decide (row.space = space) && decide (row.path = q)) t with
  | none => rfl
  | some row =>
    have hs := (of_find?_eq_some (t := t) hf).2.1
    simp [hs]

/-- **Refilling a file** keeps a space sound and changes the one place. -/
theorem Sound.refill (h : t.Sound space) {place : List String} (hn : Path.AreNames place)
    {old : ByteArray} (hv : t.view space place = some (.file old)) (data : ByteArray) :
    (t.refill space (Path.ofNames place) data).Sound space ∧
      (t.refill space (Path.ofNames place) data).view space =
        (t.view space).put place (some (.file data)) := by
  obtain ⟨row, hf, hd, -⟩ := (h.view_eq_file_iff hn).1 hv
  have hne : place ≠ [] := by
    rintro rfl
    rw [view_nil] at hv
    cases hv
  have hview : (t.refill space (Path.ofNames place) data).view space =
      (t.view space).put place (some (.file data)) := by
    funext ns
    by_cases hns : ns ≠ [] ∧ Path.AreNames ns
    · rw [view_of_areNames hns.1 hns.2, find?_refill]
      by_cases he : ns = place
      · subst he
        have hpath := (of_find?_eq_some hf).2.2
        rw [View.put_self, hf, Option.map_some, Option.map_some, if_pos hpath]
        simp [Row.thing, hd]
      · rw [View.put_of_ne _ he, view_of_areNames hns.1 hns.2]
        cases hq : t.find? space (Path.ofNames ns) with
        | none => rfl
        | some other =>
          have hpath := (of_find?_eq_some hq).2.2
          rw [Option.map_some, if_neg]
          rw [hpath, Path.ofNames_inj hns.2 hn]
          exact he
    · have he : ns ≠ place := fun he => hns (he ▸ ⟨hne, hn⟩)
      rw [View.put_of_ne _ he]
      unfold view
      by_cases h0 : ns = []
      · rw [if_pos h0, if_pos h0]
      · rw [if_neg h0, if_neg h0, if_neg fun h => hns ⟨h0, h⟩, if_neg fun h => hns ⟨h0, h⟩]
  refine ⟨⟨?_, ?_⟩, hview⟩
  · refine List.pairwise_map.2 (h.unique.imp fun {a b} hab => ?_)
    split <;> split <;> exact hab
  · intro other hm hs
    obtain ⟨first, hfirst, rfl⟩ := List.mem_map.1 hm
    have hsf : first.space = space := by
      by_contra hne
      simp [hne] at hs
    obtain ⟨above, hr⟩ := h.placed first hfirst hsf
    have hdir : (t.refill space (Path.ofNames place) data).view space above = some .directory := by
      rw [hview, View.put_of_ne _ fun he => ?_, hr.directory]
      have hb := hr.directory
      rw [he, hv] at hb
      cases hb
    refine ⟨above, ?_⟩
    split
    · exact ⟨hr.names, hr.path, hr.parent, hdir, fun _ => rfl⟩
    · exact ⟨hr.names, hr.path, hr.parent, hdir, hr.size⟩

/-- **Writing** succeeds when the view allows it, and changes the one place. -/
theorem Sound.write_eq (h : t.Sound space) (hp : Path.Tidy path)
    (hw : (t.view space).CanWrite (Path.names path)) (data : ByteArray) :
    ∃ t', t.write space path data = .ok t' ∧ t'.Sound space ∧
      t'.view space = (t.view space).put (Path.names path) (some (.file data)) := by
  obtain ⟨⟨above, n, hns, hd⟩, hne⟩ := hw
  have hn : Path.AreNames (above ++ [n]) := hns ▸ Path.areNames_names hp
  rw [hns] at hne ⊢
  unfold write
  dsimp only
  rw [Path.clean_eq_ofNames path, hns, holder_eq hn hd]
  dsimp only
  cases hf : t.find? space (Path.ofNames (above ++ [n])) with
  | none =>
    have hv := (view_eq_none_iff (by simp) hn).2 hf
    let row : Row := ⟨space, Path.ofNames (above ++ [n]), Path.ofNames above, n, false, data, data.size⟩
    have hrow : row.Stands (t.view space) above := ⟨hn, rfl, rfl, hd, fun _ => rfl⟩
    have hspace : row.space = space := rfl
    exact ⟨t ++ [row], rfl, h.append_row hspace hrow hv,
      view_append_row (by simp) hn hspace hrow.path hv⟩
  | some row =>
    have hr : ¬ row.isDirectory = true := fun hr =>
      hne ((view_eq_directory_iff hn).2 (.inr ⟨row, hf, hr⟩))
    have hv := (h.view_eq_file_iff hn).2 ⟨row, hf, by simpa using hr, rfl⟩
    exact ⟨t.refill space (Path.ofNames (above ++ [n])) data, if_neg hr, h.refill hn hv data⟩

theorem write_error (hp : Path.Tidy path)
    (hw : ¬ (t.view space).CanWrite (Path.names path)) (data : ByteArray) :
    ∃ f, t.write space path data = .error f := by
  unfold write
  dsimp only
  rcases names_cases hp with ⟨-, hc⟩ | ⟨above, n, hns, hc, hn⟩
  · refine ⟨.rootDirectory Path.root, ?_⟩
    rw [hc, holder_root]
  · rw [hc]
    by_cases hd : t.view space above = some .directory
    · rw [holder_eq hn hd]
      dsimp only
      rw [hns, View.canWrite_append, not_and_not_right] at hw
      rcases (view_eq_directory_iff hn).1 (hw hd) with he | ⟨row, hf, hr⟩
      · simp at he
      · rw [hf]
        exact ⟨_, if_pos hr⟩
    · obtain ⟨f, hf⟩ := holder_error hn hd
      rw [hf]
      exact ⟨f, rfl⟩

/-- **Making one directory** succeeds when the view allows it, and changes the one place. -/
theorem Sound.makeOne_eq (h : t.Sound space) {place : List String} (hn : Path.AreNames place)
    (hm : (t.view space).CanMake place) :
    ∃ t', t.makeOne space (Path.ofNames place) = .ok t' ∧ t'.Sound space ∧
      t'.view space = (t.view space).put place (some .directory) := by
  obtain ⟨⟨above, n, rfl, hd⟩, hv⟩ := hm
  let row : Row := ⟨space, Path.ofNames (above ++ [n]), Path.ofNames above, n, true, .empty, 0⟩
  have hrow : row.Stands (t.view space) above := ⟨hn, rfl, rfl, hd, fun he => nomatch he⟩
  have hspace : row.space = space := rfl
  refine ⟨t ++ [row], ?_, h.append_row hspace hrow hv,
    view_append_row (by simp) hn hspace hrow.path hv⟩
  have hfree : ¬ (t.find? space (Path.ofNames (above ++ [n]))).isSome = true := by
    rw [(view_eq_none_iff (by simp) hn).1 hv]
    exact Bool.false_ne_true
  rw [makeOne, if_neg (ofNames_append_ne_root hn), if_neg hfree, holder_eq hn hd]

theorem makeOne_error {place : List String} (hn : Path.AreNames place)
    (hm : ¬ (t.view space).CanMake place) :
    ∃ f, t.makeOne space (Path.ofNames place) = .error f := by
  rcases List.eq_nil_or_concat place with rfl | ⟨above, n, rfl⟩
  · exact ⟨_, if_pos Path.ofNames_nil⟩
  · rw [List.concat_eq_append] at hn hm ⊢
    rw [makeOne, if_neg (ofNames_append_ne_root hn)]
    by_cases hs : (t.find? space (Path.ofNames (above ++ [n]))).isSome = true
    · exact ⟨_, if_pos hs⟩
    · rw [if_neg hs]
      have hv := (view_eq_none_iff (by simp) hn).2 (Option.not_isSome_iff_eq_none.1 hs)
      have hd : t.view space above ≠ some .directory := fun hd =>
        hm (View.canMake_append.2 ⟨hd, hv⟩)
      obtain ⟨f, hf⟩ := holder_error hn hd
      rw [hf]
      exact ⟨f, rfl⟩

/-- A level is left alone exactly where a directory is. -/
theorem is_directory_iff {place : List String} (hn : Path.AreNames place) :
    Path.ofNames place = Path.root ∨ t.hasDirectory space (Path.ofNames place) = true ↔
      t.view space place = some .directory := by
  rw [hasDirectory_iff hn]
  refine ⟨fun h => h.elim (fun he => ?_) id, .inr⟩
  rw [(Path.ofNames_eq_root_iff hn).1 he, view_nil]

/-- What one level of a directory and its parents does. -/
theorem Sound.makesLevel (h : t.Sound space) {place : List String} (hn : Path.AreNames place) :
    View.MakesLevel (fun t => Table.view t space) (fun t => Table.Sound t space) (makeLevel space)
      t place where
  kept hd := if_pos ((is_directory_iff hn).2 hd)
  made hm := by
    obtain ⟨t', h1, h2, h3⟩ := h.makeOne_eq hn hm
    refine ⟨t', ?_, h2, h3⟩
    rw [makeLevel, if_neg fun hd => hm.not_directory ((is_directory_iff hn).1 hd), h1]
    rfl
  refused hd hm := by
    obtain ⟨f, hf⟩ := makeOne_error hn hm
    refine ⟨f, ?_⟩
    rw [makeLevel, if_neg fun he => hd ((is_directory_iff hn).1 he), hf]
    rfl

/-- Stat finds nothing exactly where the view is empty. -/
theorem isNone_stat_iff {place : List String} (hn : Path.AreNames place) :
    (t.stat space (Path.ofNames place)).isNone = true ↔ t.view space place = none := by
  unfold stat
  dsimp only
  rw [Path.clean_ofNames hn]
  by_cases hne : place = []
  · subst hne
    rw [if_pos Path.ofNames_nil, view_nil]
    simp
  · rw [if_neg fun he => hne ((Path.ofNames_eq_root_iff hn).1 he), view_eq_none_iff hne hn]
    simp

/-- Which levels are made. -/
theorem Sound.findsLevels (h : t.Sound space) :
    View.FindsLevels (fun t => Table.view t space) (fun t => Table.missingLevels t space) t where
  one depth place hn hv := by
    cases depth with
    | zero => rfl
    | succ depth =>
      rw [missingLevels]
      by_cases hd : t.view space place = some .directory
      · rw [if_pos ((is_directory_iff hn).2 hd)]
      · rw [if_neg fun he => hd ((is_directory_iff hn).1 he)]
        rcases List.eq_nil_or_concat place with rfl | ⟨above, n, rfl⟩
        · exact absurd view_nil hd
        · rw [List.concat_eq_append] at hn hv ⊢
          rw [Path.parent_of_names (Path.names_ofNames hn)]
          exact if_neg fun he =>
            hv above n rfl ((isNone_stat_iff (Path.areNames_append.1 hn).1).1 he)
  more depth above n hn hv := by
    have hna := (Path.areNames_append.1 hn).1
    have hd : t.view space (above ++ [n]) ≠ some .directory := by
      rw [h.isTree_view.none_below (by simp [hv]) n]
      exact fun he => nomatch he
    rw [missingLevels, if_neg fun he => hd ((is_directory_iff hn).1 he),
      Path.parent_of_names (Path.names_ofNames hn)]
    dsimp only
    rw [if_pos ((isNone_stat_iff hna).2 hv), Path.clean_ofNames hna]

/-- **Making a directory with its parents** succeeds when no file is in the way. -/
theorem Sound.makeDir_parents (h : t.Sound space) (hp : Path.Tidy path) :
    ((t.view space).CanMakeAll (Path.names path) →
      ∃ t', t.makeDir space path true = (.ok (), t') ∧ t'.Sound space ∧
        t'.view space = (t.view space).makeAll (Path.names path)) ∧
    (¬ (t.view space).CanMakeAll (Path.names path) →
      ∃ f, t.makeDir space path true = (.error f, t)) := by
  have hn := Path.areNames_names hp
  simp only [makeDir, Path.clean_eq_ofNames path, if_true]
  exact View.inTurn_levels h.findsLevels (fun s place hs hn => hs.makesLevel hn) h h.isTree_view
    _ hn _ (Path.length_le_length_ofNames hn)

/-- **Making one directory** as an operation. -/
theorem Sound.makeDir_eq (h : t.Sound space) (hp : Path.Tidy path)
    (hm : (t.view space).CanMake (Path.names path)) :
    ∃ t', t.makeDir space path false = (.ok (), t') ∧ t'.Sound space ∧
      t'.view space = (t.view space).put (Path.names path) (some .directory) := by
  obtain ⟨t', h1, h2, h3⟩ := h.makeOne_eq (Path.areNames_names hp) hm
  refine ⟨t', ?_, h2, h3⟩
  simp only [makeDir, Path.clean_eq_ofNames path, Bool.false_eq_true, if_false, h1]
  rfl

theorem makeDir_error (hp : Path.Tidy path) (hm : ¬ (t.view space).CanMake (Path.names path)) :
    ∃ f, t.makeDir space path false = (.error f, t) := by
  obtain ⟨f, hf⟩ := makeOne_error (t := t) (Path.areNames_names hp) hm
  refine ⟨f, ?_⟩
  simp only [makeDir, Path.clean_eq_ofNames path, Bool.false_eq_true, if_false, hf]
  rfl

/-- Without a row, a path is not found, and all else as before. -/
theorem find?_filter_ne (t : Table) (space path q : String) :
    Table.find? (t.filter fun row => !(row.space = space && row.path = path)) space q =
      if q = path then none else t.find? space q := by
  unfold find?
  rw [List.find?_filter]
  by_cases he : q = path
  · rw [if_pos he, List.find?_eq_none]
    intro row _
    rw [he]
    cases decide (row.space = space) <;> cases decide (row.path = path) <;> simp
  · rw [if_neg he]
    refine congrArg (List.find? · t) (funext fun row => ?_)
    by_cases hq : row.path = q
    · simp [hq, he]
    · simp [hq]

/-- **Removing a row** with nothing below it keeps a space sound and empties the one place. -/
theorem Sound.remove_row (h : t.Sound space) {place : List String} (hne : place ≠ [])
    (hn : Path.AreNames place) (hv : ∀ n, t.view space (place ++ [n]) = none) :
    Table.Sound (t.filter fun row => !(row.space = space && row.path = Path.ofNames place)) space ∧
      Table.view (t.filter fun row => !(row.space = space && row.path = Path.ofNames place)) space =
        (t.view space).put place none := by
  have hview : Table.view
      (t.filter fun row => !(row.space = space && row.path = Path.ofNames place)) space =
        (t.view space).put place none := by
    funext ns
    by_cases hns : ns ≠ [] ∧ Path.AreNames ns
    · rw [view_of_areNames hns.1 hns.2, find?_filter_ne]
      by_cases he : ns = place
      · rw [he, if_pos rfl, View.put_self]
        rfl
      · rw [if_neg fun hq => he ((Path.ofNames_inj hns.2 hn).1 hq), View.put_of_ne _ he,
          view_of_areNames hns.1 hns.2]
    · have he : ns ≠ place := fun he => hns (he ▸ ⟨hne, hn⟩)
      rw [View.put_of_ne _ he]
      unfold view
      by_cases h0 : ns = []
      · rw [if_pos h0, if_pos h0]
      · rw [if_neg h0, if_neg h0, if_neg fun h => hns ⟨h0, h⟩, if_neg fun h => hns ⟨h0, h⟩]
  refine ⟨⟨h.unique.filter _, fun row hm hs => ?_⟩, hview⟩
  have hm := List.mem_of_mem_filter hm
  obtain ⟨above, hr⟩ := h.placed row hm hs
  refine ⟨above, hr.imp fun hd => ?_⟩
  rw [hview, View.put_of_ne _ fun he => ?_, hd]
  have hstands := h.view_of_stands hm hs hr
  rw [he, hv] at hstands
  cases hstands

/-- A directory has no rows below it exactly if the view has nothing there. -/
theorem Sound.isEmpty_below_iff (h : t.Sound space) {place : List String}
    (hn : Path.AreNames place) : (t.below space (Path.ofNames place)).isEmpty = true ↔
      ∀ n, t.view space (place ++ [n]) = none := by
  rw [List.isEmpty_iff]
  constructor
  · intro he n
    by_contra hv
    have hns := areNames_of_view hv
    rw [view_append hns] at hv
    cases hf : t.find? space (Path.ofNames (place ++ [n])) with
    | none => exact hv (by rw [hf]; rfl)
    | some row =>
      obtain ⟨rfl, -⟩ := h.stands_of_find? hns hf
      have hm := (h.mem_below_iff hn).2 ⟨hns, hf⟩
      rw [he] at hm
      exact List.not_mem_nil hm
  · intro hv
    refine List.eq_nil_iff_forall_not_mem.2 fun row hm => ?_
    obtain ⟨hns, hf⟩ := (h.mem_below_iff hn).1 hm
    have hrow := hv row.name
    rw [view_append hns, hf] at hrow
    cases hrow

/-- **Removing** succeeds when the view allows it, and empties the one place. -/
theorem Sound.remove_eq (h : t.Sound space) (hp : Path.Tidy path)
    (hr : (t.view space).CanRemove (Path.names path)) :
    ∃ t', t.remove space path = .ok t' ∧ t'.Sound space ∧
      t'.view space = (t.view space).put (Path.names path) none := by
  obtain ⟨hne, hsome, hnone⟩ := hr
  have hn := Path.areNames_names hp
  refine ⟨_, ?_, h.remove_row hne hn hnone⟩
  rw [remove, Path.clean_eq_ofNames path]
  cases hf : t.find? space (Path.ofNames (Path.names path)) with
  | none => exact absurd ((view_eq_none_iff hne hn).2 hf) hsome
  | some row =>
    have he := (h.isEmpty_below_iff hn).2 hnone
    simp [he]

theorem Sound.remove_error (h : t.Sound space) (hp : Path.Tidy path)
    (hr : ¬ (t.view space).CanRemove (Path.names path)) :
    ∃ f, t.remove space path = .error f := by
  have hn := Path.areNames_names hp
  rw [remove, Path.clean_eq_ofNames path]
  cases hf : t.find? space (Path.ofNames (Path.names path)) with
  | none => exact ⟨_, rfl⟩
  | some row =>
    have hne : Path.names path ≠ [] := by
      intro he
      rw [he, Path.ofNames_nil, h.find?_root] at hf
      cases hf
    have hv : (t.view space) (Path.names path) = some row.thing := by
      rw [view_of_areNames hne hn, hf]
      rfl
    refine ⟨_, if_pos ?_⟩
    by_contra hkept
    refine hr ⟨hne, by rw [hv]; exact Option.some_ne_none _, ?_⟩
    cases hd : row.isDirectory with
    | true =>
      rw [hd, Bool.true_and, Bool.not_eq_true'] at hkept
      exact (h.isEmpty_below_iff hn).1 (by simpa using hkept)
    | false =>
      rw [Row.thing, hd] at hv
      exact h.isTree_view.none_below (by simp [hv])

end Table

end Arboretum
