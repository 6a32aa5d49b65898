import Mathlib.Data.List.Nodup
import Mathlib.Data.List.Perm.Subperm
import Arboretum.Proofs.Tree.Outline

/-!
# What lies below a directory

The places below a directory of a tree, once each (`mem_places_iff`, `nodup_places`), and what
becomes of a view when many places change:

* `View.prune`: the tree without everything at and below a place.  Removing entries one after the
  other goes well when each of them goes before the directory that holds it
  (`removable_of_below_first`), and it prunes (`without_eq_prune`).
* `View.overlay`: the tree with another one laid over a place of it.  Laying the children of a
  directory over it, one after the other, is laying the directory (`overlay_children`).
-/

namespace Arboretum

/-! ## 1. Places -/

/-- What stands at a place with a content, or without one. -/
def Thing.ofContent : Option ByteArray → Thing
  | none => .directory
  | some data => .file data

namespace Forest

/-- The number of entries of a forest, at all depths. -/
def count {α : Type} : Forest α → Nat
  | .empty => 0
  | .leaf _ _ rest => rest.count + 1
  | .folder _ inside rest => inside.count + rest.count + 1

theorem length_places {α : Type} (f : Forest α) (above : List String) :
    (f.places above).length = f.count := by
  induction f generalizing above with
  | empty => rfl
  | leaf name content rest ih => rw [places, List.length_cons, ih, count]
  | folder name inside rest ihi ihr =>
    rw [places, List.length_cons, List.length_append, ihi, ihr, count]

variable {f g : Forest ByteArray}

/-- The first name of a way leads to the first node of a forest or into the rest. -/
theorem view_before (name : String) (node : Node ByteArray) (rest : Forest ByteArray) (n : String)
    (ns : List String) :
    (node.before name rest).view (n :: ns) = if name = n then node.view ns else rest.view (n :: ns) := by
  rw [view_cons, find?_before]
  split
  · rfl
  · rw [view_cons]

theorem view_leaf (name : String) (content : ByteArray) (rest : Forest ByteArray) (n : String)
    (ns : List String) : (Forest.leaf name content rest).view (n :: ns) =
      if name = n then (Node.leaf content).view ns else rest.view (n :: ns) :=
  view_before name (.leaf content) rest n ns

theorem view_folder (name : String) (inside rest : Forest ByteArray) (n : String)
    (ns : List String) : (Forest.folder name inside rest).view (n :: ns) =
      if name = n then inside.view ns else rest.view (n :: ns) :=
  view_before name (.folder inside) rest n ns

/-- What shows at a place of the view shows in the outline. -/
theorem view_eq_ofContent_iff {ns : List String} {x : Option ByteArray} :
    f.view ns = some (.ofContent x) ↔ f.outline ns = some x := by
  rw [view, outline, Option.map_eq_some_iff, Option.map_eq_some_iff]
  refine exists_congr fun node => and_congr_right fun _ => ?_
  cases node <;> cases x <;> simp [Node.thing, Node.outline, Thing.ofContent]

/-- **The places below a path** are those where something stands. -/
theorem mem_places_iff (h : f.Orderly) {above ns : List String} {x : Option ByteArray} :
    (ns, x) ∈ f.places above ↔
      ∃ rel, rel ≠ [] ∧ ns = above ++ rel ∧ f.view rel = some (.ofContent x) := by
  simp only [view_eq_ofContent_iff]
  exact h.rising.mem_places_iff

/-- The places below a path, without what stands there. -/
theorem mem_map_places_iff (h : f.Orderly) {above ns : List String} :
    ns ∈ (f.places above).map Prod.fst ↔ ∃ rel, rel ≠ [] ∧ ns = above ++ rel ∧ f.view rel ≠ none := by
  constructor
  · intro hm
    obtain ⟨⟨ns, x⟩, hx, rfl⟩ := List.mem_map.1 hm
    obtain ⟨rel, hne, he, hv⟩ := (mem_places_iff h).1 hx
    exact ⟨rel, hne, he, by rw [hv]; exact Option.some_ne_none _⟩
  · rintro ⟨rel, hne, rfl, hv⟩
    obtain ⟨y, hy⟩ := Option.ne_none_iff_exists'.1 hv
    have hx : ∃ x, y = .ofContent x := by
      cases y with
      | directory => exact ⟨none, rfl⟩
      | file data => exact ⟨some data, rfl⟩
    obtain ⟨x, rfl⟩ := hx
    exact List.mem_map.2 ⟨_, (mem_places_iff h).2 ⟨rel, hne, rfl, hy⟩, rfl⟩

/-- Two ways below one directory that begin with different names: neither leads through the
other's end. -/
theorem not_prefix_of_ne {above ns ms : List String} {n m : String} (hn : above ++ [n] <+: ns)
    (hm : above ++ [m] <+: ms) (hne : n ≠ m) : ¬ ns <+: ms := by
  intro h
  have hlen : (above ++ [n]).length = (above ++ [m]).length := by simp
  have he := List.prefix_of_prefix_length_le (hn.trans h) hm (Nat.le_of_eq hlen)
  have hlast := List.IsPrefix.eq_of_length he hlen
  exact hne (List.singleton_inj.1 (List.append_cancel_left hlast))

theorem ne_of_name_lt {n m : String} (h : n < m) : m ≠ n := fun he =>
  String.lt_irrefl n (he ▸ h)

/-- **The names of the entries** of a directory are those that something stands at, -/
theorem mem_names_iff (h : g.Orderly) {above : List String} (hat : f.at? above = some (.folder g))
    {n : String} : n ∈ g.toList.map Prod.fst ↔ f.view (above ++ [n]) ≠ none := by
  have hview : f.view (above ++ [n]) = (g.find? n).map Node.thing := by
    rw [view_append, hat]
    exact g.view_singleton n
  rw [hview, Ne, Option.map_eq_none_iff]
  constructor
  · intro hm
    obtain ⟨entry, he, rfl⟩ := List.mem_map.1 hm
    rw [(mem_toList_iff h).1 he]
    exact Option.some_ne_none _
  · intro hne
    obtain ⟨node, hfind⟩ := Option.ne_none_iff_exists'.1 hne
    exact List.mem_map.2 ⟨_, mem_toList_of_find? hfind, rfl⟩

/-- and none of them is there twice. -/
theorem nodup_names (h : f.Orderly) : (f.toList.map Prod.fst).Nodup := by
  refine List.pairwise_map.2 ((pairwise_toList h).imp fun {a b} hlt he => ?_)
  exact ne_of_name_lt hlt he.symm

/-- Every place below a path begins with the path and the name of an entry. -/
theorem exists_name_of_mem_places (h : f.Orderly) {above ns : List String}
    (hm : ns ∈ (f.places above).map Prod.fst) :
    ∃ e ∈ f.toList, above ++ [e.1] <+: ns := by
  obtain ⟨rel, hne, rfl, hv⟩ := (mem_map_places_iff h).1 hm
  cases rel with
  | nil => exact absurd rfl hne
  | cons n rel =>
    rw [view_cons] at hv
    cases hf : f.find? n with
    | none => exact absurd (by rw [hf]; rfl) hv
    | some node => exact ⟨(n, node), mem_toList_of_find? hf, rel, List.append_assoc above [n] rel⟩

/-- **No place is there twice.** -/
theorem nodup_places (h : f.Orderly) (above : List String) :
    ((f.places above).map Prod.fst).Nodup := by
  induction f generalizing above with
  | empty => exact List.nodup_nil
  | leaf name content rest ih =>
    obtain ⟨-, hlt, hr⟩ := h
    rw [places, List.map_cons, List.nodup_cons]
    refine ⟨fun hm => ?_, ih hr above⟩
    obtain ⟨e, he, hp⟩ := exists_name_of_mem_places hr hm
    exact not_prefix_of_ne hp (List.prefix_refl _) (ne_of_name_lt (hlt e he)) (List.prefix_refl _)
  | folder name inside rest ihi ihr =>
    obtain ⟨-, hlt, hi, hr⟩ := h
    have hrest : ∀ {ns}, ns ∈ (rest.places above).map Prod.fst → ¬ above ++ [name] <+: ns := by
      intro ns hm hp
      obtain ⟨e, he, hpe⟩ := exists_name_of_mem_places hr hm
      exact not_prefix_of_ne hpe hp (ne_of_name_lt (hlt e he)) (List.prefix_refl _)
    have hinside : ∀ {ns}, ns ∈ (inside.places (above ++ [name])).map Prod.fst →
        above ++ [name] <+: ns ∧ ns ≠ above ++ [name] := by
      intro ns hm
      obtain ⟨rel, hne, rfl, -⟩ := (mem_map_places_iff hi).1 hm
      exact ⟨List.prefix_append _ _, by simpa using hne⟩
    rw [places, List.map_cons, List.map_append, List.nodup_cons, List.nodup_append]
    refine ⟨fun hm => ?_, ihi hi _, ihr hr above, ?_⟩
    · rcases List.mem_append.1 hm with hm | hm
      · exact (hinside hm).2 rfl
      · exact hrest hm (List.prefix_refl _)
    · rintro ns hm ms hms rfl
      exact hrest hms (hinside hm).1

/-- No place lies deeper than there are entries. -/
theorem length_le_count {ns : List String} (h : f.view ns ≠ none) : ns.length ≤ f.count := by
  induction f generalizing ns with
  | empty =>
    cases ns with
    | nil => exact Nat.zero_le _
    | cons n ns => exact absurd rfl h
  | leaf name content rest ih =>
    cases ns with
    | nil => exact Nat.zero_le _
    | cons n ns =>
      rw [view_leaf] at h
      rw [count]
      split at h
      · cases ns with
        | nil => exact Nat.le_add_left 1 _
        | cons m ns => exact absurd rfl h
      · exact Nat.le_succ_of_le (ih h)
  | folder name inside rest ihi ihr =>
    cases ns with
    | nil => exact Nat.zero_le _
    | cons n ns =>
      rw [view_folder] at h
      rw [count]
      split at h
      · have hin : ns.length ≤ inside.count := ihi h
        rw [List.length_cons]
        omega
      · have hrest := ihr h
        omega

/-- A tree that shows below a place of another one has no more entries. -/
theorem count_le_of_view (hf : f.Orderly) (hg : g.Orderly) (above : List String)
    (h : ∀ ns, g.view ns ≠ none → f.view (above ++ ns) ≠ none) : g.count ≤ f.count := by
  have hlength : ∀ (h : Forest ByteArray) (ns : List String),
      ((h.places ns).map Prod.fst).length = h.count := by
    intro h ns
    rw [List.length_map, length_places]
  rw [← hlength g above, ← hlength f []]
  refine (List.subperm_of_subset (nodup_places hg above) fun ns hm => ?_).length_le
  obtain ⟨rel, hne, rfl, hv⟩ := (mem_map_places_iff hg).1 hm
  exact (mem_map_places_iff hf).2 ⟨above ++ rel, by simp [hne], rfl, h rel hv⟩

end Forest

namespace View

variable {v : View} {place : List String} {ps : List (List String)}

/-! ## 2. Removing -/

/-- **The view without a subtree**: nothing at a place, and nothing below it. -/
def prune (v : View) (place : List String) : View := fun ns => if place <+: ns then none else v ns

/-- The view without some places. -/
def without (v : View) (ps : List (List String)) : View := fun ns => if ns ∈ ps then none else v ns

/-- Some places may be removed, one after the other. -/
def Removable : View → List (List String) → Prop
  | _, [] => True
  | v, p :: ps => v.CanRemove p ∧ Removable (v.put p none) ps

theorem without_cons (v : View) (p : List String) (ps : List (List String)) :
    v.without (p :: ps) = (v.put p none).without ps := by
  funext ns
  by_cases he : ns = p
  · simp [without, put, he]
  · simp [without, put, he]

/-- **Places may be removed one after the other** when each of them comes after everything below
it. -/
theorem removable_of_below_first (hroot : ∀ p ∈ ps, p ≠ []) (hthere : ∀ p ∈ ps, v p ≠ none)
    (horder : ps.Pairwise fun a b => ¬ a <+: b)
    (hclosed : ∀ p ∈ ps, ∀ n, v (p ++ [n]) ≠ none → p ++ [n] ∈ ps) : v.Removable ps := by
  induction ps generalizing v with
  | nil => trivial
  | cons p ps ih =>
    obtain ⟨hfirst, horder⟩ := List.pairwise_cons.1 horder
    have hne : ∀ q ∈ ps, q ≠ p := fun q hq he => hfirst q hq (he ▸ List.prefix_refl p)
    refine ⟨⟨hroot p List.mem_cons_self, hthere p List.mem_cons_self, fun n => ?_⟩, ?_⟩
    · -- Whatever stands below `p` would have to be removed later.
      by_contra hn
      rcases List.mem_cons.1 (hclosed p List.mem_cons_self n hn) with he | hm
      · simp at he
      · exact hfirst _ hm (List.prefix_append p [n])
    · refine ih (fun q hq => hroot q (List.mem_cons_of_mem p hq)) (fun q hq => ?_) horder
        fun q hq n hn => ?_
      · rw [put_of_ne v (hne q hq)]
        exact hthere q (List.mem_cons_of_mem p hq)
      · have hnp : q ++ [n] ≠ p := by
          rintro rfl
          exact hn (put_self v _ none)
        rw [put_of_ne v hnp] at hn
        exact (List.mem_cons.1 (hclosed q (List.mem_cons_of_mem p hq) n hn)).resolve_left hnp

/-- Without everything below it, an entry may be removed. -/
theorem canRemove_without (hne : place ≠ []) (hthere : v place ≠ none)
    (hp : ∀ ns, ns ∈ ps ↔ ∃ rel, rel ≠ [] ∧ ns = place ++ rel ∧ v ns ≠ none) :
    (v.without ps).CanRemove place := by
  refine ⟨hne, ?_, fun n => ?_⟩
  · have hnot : place ∉ ps := by
      intro hm
      obtain ⟨rel, hrel, he, -⟩ := (hp place).1 hm
      exact hrel (List.self_eq_append_right.1 he)
    rwa [without, if_neg hnot]
  · unfold without
    split
    · rfl
    · next hnot =>
      by_contra hv
      exact hnot ((hp _).2 ⟨[n], List.cons_ne_nil _ _, rfl, hv⟩)

/-- Without everything below a place and then without the place is without the subtree. -/
theorem without_eq_prune (hp : ∀ ns, ns ∈ ps ↔ ∃ rel, rel ≠ [] ∧ ns = place ++ rel ∧ v ns ≠ none) :
    (v.without ps).put place none = v.prune place := by
  funext ns
  unfold prune
  by_cases he : ns = place
  · rw [he, put_self, if_pos (List.prefix_refl _)]
  · rw [put_of_ne _ he, without]
    by_cases hm : ns ∈ ps
    · obtain ⟨rel, -, rfl, -⟩ := (hp ns).1 hm
      rw [if_pos hm, if_pos (List.prefix_append _ _)]
    · rw [if_neg hm]
      split
      · next hpre =>
        obtain ⟨rel, rfl⟩ := hpre
        by_contra hv
        exact hm ((hp _).2 ⟨rel, fun hr => he (by rw [hr, List.append_nil]), rfl, hv⟩)
      · rfl

/-- **The view without some entries of a directory**, those whose names are in a class, and without
everything below them. -/
def pruneEntries (v : View) (place : List String) (p : String → Bool) : View :=
  fun ns => if place <+: ns ∧ (ns[place.length]?).any p then none else v ns

theorem pruneEntries_append (v : View) (place : List String) (p : String → Bool) (n : String)
    (ns : List String) :
    v.pruneEntries place p (place ++ n :: ns) = if p n then none else v (place ++ n :: ns) := by
  simp [pruneEntries]

theorem pruneEntries_of_not_below (v : View) (p : String → Bool) {ns : List String}
    (h : ∀ n ms, ns ≠ place ++ n :: ms) : v.pruneEntries place p ns = v ns := by
  refine if_neg ?_
  rintro ⟨⟨rel, rfl⟩, hany⟩
  cases rel with
  | nil => simp at hany
  | cons n ms => exact h n ms rfl

/-- Whether a name is in the class matters only where an entry has the name. -/
theorem pruneEntries_congr (hv : v.IsTree) {p q : String → Bool}
    (h : ∀ n, v (place ++ [n]) ≠ none → p n = q n) :
    v.pruneEntries place p = v.pruneEntries place q := by
  funext ns
  by_cases hbelow : ∃ n ms, ns = place ++ n :: ms
  · obtain ⟨n, ms, rfl⟩ := hbelow
    rw [pruneEntries_append, pruneEntries_append]
    by_cases hn : v (place ++ [n]) = none
    · have hnone : v (place ++ n :: ms) = none :=
        hv.none_of_prefix ⟨ms, (List.append_cons place n ms).symm⟩ hn
      rw [hnone, ite_self, ite_self]
    · rw [h n hn]
  · have hnot : ∀ n ms, ns ≠ place ++ n :: ms := fun n ms he => hbelow ⟨n, ms, he⟩
    rw [pruneEntries_of_not_below v p hnot, pruneEntries_of_not_below v q hnot]

/-- Without one entry and then without others. -/
theorem pruneEntries_prune (v : View) (place : List String) (n : String) (ns : List String) :
    (v.prune (place ++ [n])).pruneEntries place (· ∈ ns) = v.pruneEntries place (· ∈ n :: ns) := by
  funext ms
  by_cases hbelow : ∃ m rel, ms = place ++ m :: rel
  · obtain ⟨m, rel, rfl⟩ := hbelow
    rw [pruneEntries_append, pruneEntries_append]
    have hpre : place ++ [n] <+: place ++ m :: rel ↔ n = m := by
      rw [List.prefix_append_right_inj, List.cons_prefix_cons]
      simp
    unfold prune
    by_cases hm : m = n
    · simp [hm]
    · simp [hpre, hm, Ne.symm hm]
  · have hnot : ∀ m rel, ms ≠ place ++ m :: rel := fun m rel he => hbelow ⟨m, rel, he⟩
    rw [pruneEntries_of_not_below _ _ hnot, pruneEntries_of_not_below _ _ hnot]
    refine if_neg ?_
    rintro ⟨rel, rfl⟩
    exact hnot n rel (List.append_assoc place [n] rel)

/-! ## 3. Laying over -/

/-- **The view with another one laid over a place**: what the other one shows, and elsewhere what
was there. -/
def overlay (v : View) (place : List String) (src : View) : View :=
  fun ns => if place <+: ns then (src (ns.drop place.length)).or (v ns) else v ns

theorem overlay_append (v : View) (place : List String) (src : View) (rel : List String) :
    v.overlay place src (place ++ rel) = (src rel).or (v (place ++ rel)) := by
  rw [overlay, if_pos (List.prefix_append _ _), List.drop_left]

theorem overlay_elsewhere {ns : List String} (h : ¬ place <+: ns) (src : View) :
    v.overlay place src ns = v ns := if_neg h

/-- The view from a place on. -/
def below (v : View) (place : List String) : View := fun ns => v (place ++ ns)

theorem below_below (v : View) (above rel : List String) :
    (v.below above).below rel = v.below (above ++ rel) := by
  funext ns
  exact congrArg v (List.append_assoc above rel ns).symm

/-- Several children of a directory are laid over a view in turn. -/
def overlayAll (v : View) (place : List String) (src : View) (names : List String) : View :=
  names.foldl (fun v n => v.overlay (place ++ [n]) (src.below [n])) v

/-- What the children laid over a view show below the directory. -/
theorem overlayAll_cons (src : View) (names : List String) (n : String) (ns : List String) :
    v.overlayAll place src names (place ++ n :: ns) =
      if n ∈ names then (src (n :: ns)).or (v (place ++ n :: ns)) else v (place ++ n :: ns) := by
  unfold overlayAll
  induction names generalizing v with
  | nil => rfl
  | cons m names ih =>
    rw [List.foldl_cons, ih]
    have hsplit : place ++ n :: ns = place ++ [n] ++ ns := (List.append_assoc place [n] ns).symm
    by_cases hm : n = m
    · subst hm
      have hover : v.overlay (place ++ [n]) (src.below [n]) (place ++ n :: ns) =
          (src (n :: ns)).or (v (place ++ n :: ns)) := by
        rw [hsplit, overlay_append, ← hsplit]
        rfl
      rw [hover, if_pos List.mem_cons_self]
      split
      · rw [← Option.or_assoc, Option.or_self]
      · rfl
    · have hover : v.overlay (place ++ [m]) (src.below [m]) (place ++ n :: ns) = v (place ++ n :: ns) := by
        refine overlay_elsewhere (fun hp => ?_) _
        exact Forest.not_prefix_of_ne (List.prefix_refl _) (hsplit ▸ List.prefix_append _ ns)
          (Ne.symm hm) hp
      rw [hover]
      simp [hm]

/-- They change nothing but what lies below the directory. -/
theorem overlayAll_of_not_below (src : View) (names : List String) {ns : List String}
    (h : ∀ n ms, ns ≠ place ++ n :: ms) : v.overlayAll place src names ns = v ns := by
  unfold overlayAll
  induction names generalizing v with
  | nil => rfl
  | cons m names ih =>
    rw [List.foldl_cons, ih]
    refine overlay_elsewhere (fun hp => ?_) _
    obtain ⟨ms, rfl⟩ := hp
    exact h m ms (List.append_assoc place [m] ms)

/-- **Laying all children of a directory over a directory** is laying the directory over it. -/
theorem overlay_children {src : View} {names : List String} (hd : v place = some .directory)
    (hsrc : src [] = some .directory) (hall : ∀ n ns, src (n :: ns) ≠ none → n ∈ names) :
    v.overlayAll place src names = v.overlay place src := by
  funext ns
  by_cases hp : place <+: ns
  · obtain ⟨rel, rfl⟩ := hp
    rw [overlay_append]
    cases rel with
    | nil =>
      rw [overlayAll_of_not_below src names (by simp), hsrc, List.append_nil, hd]
      rfl
    | cons n rel =>
      rw [overlayAll_cons]
      split
      · rfl
      · next hn =>
        have hnone : src (n :: rel) = none := by
          by_contra hne
          exact hn (hall n rel hne)
        rw [hnone, Option.none_or]
  · rw [overlay_elsewhere hp]
    refine overlayAll_of_not_below src names fun n ms he => hp ?_
    rw [he]
    exact List.prefix_append _ _

/-- Making a place with its parents makes no difference where another thing is laid over it, in a
directory. -/
theorem overlay_makeAll (hv : v.IsTree) {above : List String} {n : String} {src : View}
    (hd : v above = some .directory) (hsrc : src [] ≠ none) :
    (v.makeAll (above ++ [n])).overlay (above ++ [n]) src = v.overlay (above ++ [n]) src := by
  funext ns
  by_cases hp : above ++ [n] <+: ns
  · obtain ⟨rel, rfl⟩ := hp
    rw [overlay_append, overlay_append]
    cases rel with
    | nil =>
      obtain ⟨x, hx⟩ := Option.ne_none_iff_exists'.1 hsrc
      rw [hx]
      rfl
    | cons m rel =>
      have hlong : ¬ above ++ [n] ++ m :: rel <+: above ++ [n] := fun h => by
        have hle := h.length_le
        simp at hle
      rw [makeAll, if_neg hlong]
  · rw [overlay_elsewhere hp, overlay_elsewhere hp, ← put_directory_eq_makeAll hv hd,
      put_of_ne v fun he : ns = above ++ [n] => hp (he ▸ List.prefix_refl _)]

/-- **The view with another one copied to a place**: a directory is made there with its parents, and
then the other one is laid over the place. -/
def copied (v : View) (place : List String) (src : View) : View :=
  match src [] with
  | some .directory => (v.makeAll place).overlay place src
  | _ => v.overlay place src

theorem copied_of_directory {src : View} (v : View) (place : List String)
    (h : src [] = some .directory) : v.copied place src = (v.makeAll place).overlay place src := by
  unfold copied
  rw [h]

theorem copied_of_ne_directory {src : View} (v : View) (place : List String)
    (h : src [] ≠ some .directory) : v.copied place src = v.overlay place src := by
  unfold copied
  split
  · next hd => exact absurd hd h
  · rfl

/-- In a directory, copying is laying over. -/
theorem copied_eq_overlay (hv : v.IsTree) {above : List String} {n : String} {src : View}
    (hd : v above = some .directory) (hsrc : src [] ≠ none) :
    v.copied (above ++ [n]) src = v.overlay (above ++ [n]) src := by
  by_cases h : src [] = some .directory
  · rw [copied_of_directory v _ h, overlay_makeAll hv hd hsrc]
  · exact copied_of_ne_directory v _ h

/-- Copying a file is writing it. -/
theorem put_file_eq_overlay {src : View} {data : ByteArray} (hfile : src [] = some (.file data))
    (hbelow : ∀ n ns, src (n :: ns) = none) :
    v.put place (some (.file data)) = v.overlay place src := by
  funext ns
  by_cases hp : place <+: ns
  · obtain ⟨rel, rfl⟩ := hp
    rw [overlay_append]
    cases rel with
    | nil => rw [List.append_nil, put_self, hfile, Option.some_or]
    | cons n rel => rw [put_of_ne v (by simp), hbelow, Option.none_or]
  · rw [overlay_elsewhere hp, put_of_ne v fun he : ns = place => hp (he ▸ List.prefix_refl _)]

/-- What is copied stands at the place as it stood in the source. -/
theorem copied_append {src : View} {rel : List String} (h : src rel ≠ none) :
    v.copied place src (place ++ rel) = src rel := by
  obtain ⟨x, hx⟩ := Option.ne_none_iff_exists'.1 h
  have hover : ∀ v : View, v.overlay place src (place ++ rel) = src rel := fun v => by
    rw [overlay_append, hx, Option.some_or]
  by_cases hd : src [] = some .directory
  · rw [copied_of_directory v _ hd, hover]
  · rw [copied_of_ne_directory v _ hd, hover]

/-- A copied directory is there with every place above it. -/
theorem copied_of_prefix {src : View} (h : src [] = some .directory) {ns : List String}
    (hp : ns <+: place) : v.copied place src ns = some .directory := by
  rw [copied_of_directory v place h]
  by_cases he : place <+: ns
  · obtain rfl := he.eq_of_length_le hp.length_le
    rw [overlay, if_pos (List.prefix_refl _), List.drop_length, h, Option.some_or]
  · rw [overlay_elsewhere he, makeAll, if_pos hp]

/-- **Everywhere else it is as before**, but that the missing directories above a copied directory
are there. -/
theorem copied_of_none {src : View} {ns : List String}
    (h : ∀ rel, ns = place ++ rel → src rel = none) :
    v.copied place src ns = v ns ∨
      src [] = some .directory ∧ ns <+: place ∧ v.copied place src ns = some .directory := by
  have hover : ∀ v : View, v.overlay place src ns = v ns := by
    intro v
    by_cases hp : place <+: ns
    · obtain ⟨rel, rfl⟩ := hp
      rw [overlay_append, h rel rfl, Option.none_or]
    · exact overlay_elsewhere hp src
  by_cases hd : src [] = some .directory
  · rw [copied_of_directory v _ hd, hover, makeAll]
    split
    · next hp => exact .inr ⟨hd, hp, rfl⟩
    · exact .inl rfl
  · rw [copied_of_ne_directory v _ hd]
    exact .inl (hover v)

end View

end Arboretum
