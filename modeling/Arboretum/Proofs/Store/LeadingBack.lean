import Arboretum.Proofs.Path.Back
import Arboretum.Proofs.Store.Growing
import Arboretum.Proofs.Tree.Subtrees
import Mathlib.Logic.Relation

/-!
# Trees that lead back

Whoever goes down in a tree in memory lists a directory and joins the names of its entries to the
path of the directory (`MemoryTree.Offers`).  A name that leads back brings the directory itself or
the one above, and then the directory again: the tree **leads back** there.

* `exists_name_of_below`: where a tree does not lead back, every path that is joined is one name
  longer, so the count of what stands below it falls;
* `exists_below_reaches`: where it does, from each directory on the way one of the paths that are
  joined comes to the place again;
* `not_leadsBackBelow`: an orderly tree leads back nowhere.  But a tree may have grown at paths that
  leave a name of blanks, and then it does.
-/

namespace Arboretum

/-! ## 1. Trees that lead back -/

/-- A directory inside a forest has fewer entries than the forest. -/
theorem Forest.count_lt_of_find? {α : Type} {f g : Forest α} {name : String}
    (h : f.find? name = some (.folder g)) : g.count < f.count := by
  induction f with
  | empty => cases h
  | leaf first content rest ih =>
    rw [find?] at h
    split at h
    · cases h
    · exact (ih h).trans (Nat.lt_succ_self _)
  | folder first inside rest _ ih =>
    rw [find?] at h
    rw [count]
    split at h
    · cases h
      omega
    · have hrest := ih h
      omega

/-- A directory of a forest has at most as many entries as the forest. -/
theorem Forest.count_le_of_at? {α : Type} {f inside : Forest α} {names : List String}
    (h : f.at? names = some (.folder inside)) : inside.count ≤ f.count := by
  induction names generalizing f with
  | nil =>
    cases h
    exact Nat.le_refl _
  | cons name names ih =>
    obtain ⟨g, hg, h⟩ := at?_cons_eq_folder h
    exact (ih h).trans (Nat.le_of_lt (count_lt_of_find? hg))

namespace MemoryTree

variable {t : MemoryTree} {path : String} {inside : Forest ByteArray} {ns : List String}

/-- The paths of the entries of a directory, as they are joined on the way down. -/
def below (path : String) (inside : Forest ByteArray) : List String :=
  inside.toList.map fun e => Path.join [path, e.1]

/-- **From one path to another**: who lists the one joins the other. -/
def Offers (t : MemoryTree) (path next : String) : Prop :=
  ∃ inside, t.lookup path = some (.folder inside) ∧ next ∈ below path inside

/-- A directory of the tree has an entry whose name leads back. -/
def LeadsBackAt (t : MemoryTree) (path : String) : Prop :=
  ∃ inside, t.lookup path = some (.folder inside) ∧ ∃ e ∈ inside.toList, Path.LeadsBack e.1

/-- **The tree leads back below a path**: from there one comes to a directory that has an entry
whose name leads back. -/
def LeadsBackBelow (t : MemoryTree) (base : String) : Prop :=
  ∃ path, Relation.ReflTransGen t.Offers base path ∧ t.LeadsBackAt path

/-- No name of an orderly tree leads back. -/
theorem not_leadsBackBelow (ht : t.Orderly) (base : String) : ¬ t.LeadsBackBelow base := by
  rintro ⟨path, -, inside, hlook, e, he, hback⟩
  have hi := (Forest.orderly_of_at? ht hlook).1
  have hname := (Forest.orderly_of_find? hi ((Forest.mem_toList_iff hi).1 he)).1
  exact Path.not_leadsBack_of_isName hname hback

/-- A path that stays when it is cleaned is looked up by both, a stat and a listing. -/
theorem isDirectory_stat (h : Path.clean path = path) :
    (t.stat path).map Info.isDirectory = (t.lookup path).map Node.isFolder := by
  unfold stat
  dsimp only
  rw [h, Option.map_map]
  rcases t.lookup path with _ | _ | _ <;> rfl

theorem exists_folder_of_stat (h : Path.clean path = path)
    (hs : (t.stat path).map Info.isDirectory = some true) :
    ∃ inside, t.lookup path = some (.folder inside) := by
  rw [isDirectory_stat h] at hs
  rcases hl : t.lookup path with _ | _ | inside
  · rw [hl] at hs
    cases hs
  · rw [hl] at hs
    cases hs
  · exact ⟨inside, rfl⟩

/-- Names that are read back from their path are looked up as they are. -/
theorem lookup_of_names (h : Path.names (Path.ofNames ns) = ns) :
    t.lookup (Path.ofNames ns) = t.at? ns := by
  rw [lookup, h]

theorem isDirectory_stat_of_names (h : Path.names (Path.ofNames ns) = ns) :
    (t.stat (Path.ofNames ns)).map Info.isDirectory = (t.at? ns).map Node.isFolder := by
  have hclean : Path.clean (Path.ofNames ns) = Path.ofNames ns := by
    rw [Path.clean_eq_ofNames, h]
  rw [isDirectory_stat hclean, lookup_of_names h]

/-! ## 2. One level down -/

/-- **Below a directory that does not lead back**, every path that is joined is one name longer, and
it is looked up as it is. -/
theorem exists_name_of_below (ht : t.Plain) (hns : Path.ArePlain ns)
    (hlook : t.lookup (Path.ofNames ns) = some (.folder inside))
    (hback : ¬ t.LeadsBackAt (Path.ofNames ns)) {next : String}
    (hnext : next ∈ below (Path.ofNames ns) inside) :
    ∃ m, next = Path.ofNames (ns ++ [m]) ∧ Path.names (Path.ofNames (ns ++ [m])) = ns ++ [m] := by
  obtain ⟨e, he, rfl⟩ := List.mem_map.1 hnext
  have hn := (Forest.plain_of_mem_toList (Forest.plain_of_at? ht hlook) he).1
  have hdown : ¬ Path.LeadsBack e.1 := fun hb => hback ⟨inside, hlook, e, he, hb⟩
  have hname := Path.isName_trimmed hn hdown
  refine ⟨Path.trimmed e.1, ?_, ?_⟩
  · rw [Path.join_child hns hn, Path.child_of_not_leadsBack hdown]
  · exact Path.names_ofNames_append hns (Path.areNames_singleton.2 hname) (List.cons_ne_nil _ _)

/-- What does not lead back does not lead back one level down. -/
theorem not_leadsBackBelow_of_below (hback : ¬ t.LeadsBackBelow path)
    (hlook : t.lookup path = some (.folder inside)) {next : String}
    (hnext : next ∈ below path inside) : ¬ t.LeadsBackBelow next :=
  fun ⟨bad, hreach, hat⟩ => hback ⟨bad, .head ⟨inside, hlook, hnext⟩ hreach, hat⟩

/-! ## 3. Coming by again -/

/-- From a place of names, every path that is joined is one of names. -/
theorem areNames_of_below (ht : t.Plain) (hns : Path.AreNames ns)
    (hlook : t.lookup (Path.ofNames ns) = some (.folder inside)) {next : String}
    (hnext : next ∈ below (Path.ofNames ns) inside) :
    ∃ ms, Path.AreNames ms ∧ next = Path.ofNames ms := by
  obtain ⟨e, he, rfl⟩ := List.mem_map.1 hnext
  have hn := (Forest.plain_of_mem_toList (Forest.plain_of_at? ht hlook) he).1
  exact ⟨Path.child ns e.1, Path.areNames_child hns hn,
    Path.join_child (Path.arePlain_of_areNames hns) hn⟩

/-- **A name that leads back** brings the directory itself or the one above, and from there one
comes to the directory again. -/
theorem reaches_of_leadsBack (ht : t.Plain) (hns : Path.AreNames ns)
    (hlook : t.lookup (Path.ofNames ns) = some (.folder inside)) {e : String × Node ByteArray}
    (he : e ∈ inside.toList) (hback : Path.LeadsBack e.1) :
    Relation.ReflTransGen t.Offers (Path.join [Path.ofNames ns, e.1]) (Path.ofNames ns) := by
  have hn := (Forest.plain_of_mem_toList (Forest.plain_of_at? ht hlook) he).1
  rw [Path.join_child (Path.arePlain_of_areNames hns) hn]
  rcases Path.child_of_leadsBack ns hback with hc | hc
  · rw [hc]
  · rw [hc]
    rcases List.eq_nil_or_concat ns with rfl | ⟨above, m, rfl⟩
    · exact .refl
    · rw [List.concat_eq_append] at hns hlook ⊢
      rw [List.dropLast_concat]
      obtain ⟨habove, hm⟩ := Path.areNames_append_singleton.1 hns
      rw [lookup_of_names (Path.names_ofNames hns)] at hlook
      obtain ⟨outer, houter⟩ := Forest.view_eq_directory_iff.1
        (t.isTree_view.above above m (by
          rw [Forest.view, hlook]
          exact Option.some_ne_none _))
      rw [Forest.at?_append_singleton houter] at hlook
      have hjoin : Path.join [Path.ofNames above, m] = Path.ofNames (above ++ [m]) :=
        Path.join_names (Path.arePlain_of_areNames habove) (Path.areNames_singleton.2 hm)
          (List.cons_ne_nil _ _)
      refine .single ⟨outer, ?_, ?_⟩
      · rw [lookup_of_names (Path.names_ofNames habove)]
        exact houter
      · rw [← hjoin]
        exact List.mem_map.2 ⟨_, Forest.mem_toList_of_find? hlook, rfl⟩

/-- So from a directory from which one comes to a place that leads back, one does so again from a
path that is joined there. -/
theorem exists_below_reaches (ht : t.Plain) (hns : Path.AreNames ns)
    (hlook : t.lookup (Path.ofNames ns) = some (.folder inside)) {bad : String}
    (hbad : t.LeadsBackAt bad) (hreach : Relation.ReflTransGen t.Offers (Path.ofNames ns) bad) :
    ∃ next ∈ below (Path.ofNames ns) inside, Relation.ReflTransGen t.Offers next bad := by
  rcases hreach.cases_head with rfl | ⟨next, ⟨inside', hlook', hnext⟩, hrest⟩
  · obtain ⟨inside', hlook', e, he, hback⟩ := hbad
    rw [hlook] at hlook'
    cases hlook'
    exact ⟨_, List.mem_map.2 ⟨e, he, rfl⟩, reaches_of_leadsBack ht hns hlook he hback⟩
  · rw [hlook] at hlook'
    cases hlook'
    exact ⟨next, hnext, hrest⟩

/-- Where one can come to a place that leads back, a directory stands. -/
theorem exists_folder_of_reaches {bad : String} (hbad : t.LeadsBackAt bad)
    (hreach : Relation.ReflTransGen t.Offers path bad) :
    ∃ inside, t.lookup path = some (.folder inside) := by
  rcases hreach.cases_head with rfl | ⟨next, ⟨inside, hlook, -⟩, -⟩
  · obtain ⟨inside, hlook, -⟩ := hbad
    exact ⟨inside, hlook⟩
  · exact ⟨inside, hlook⟩

end MemoryTree

end Arboretum
