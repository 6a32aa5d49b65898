import Arboretum.Forest
import Arboretum.Proofs.Tree.View

/-!
# Forests as trees

The view of a forest, and what the changes of a forest do to it.  A forest is **orderly** when its
names are names, in every directory strictly rising from first to last.

* `mem_toList_iff`: an orderly forest lists exactly what it finds;
* `view_change`: changing a directory shows at and below that directory only;
* `view_put_eq`, `view_erase_eq`: putting a file or an empty directory, and erasing a file or an
  empty directory, change one place of the view;
* `orderly_change`: a change of one directory keeps a forest orderly.
-/

namespace Arboretum

/-! ## 1. First node and rest -/

namespace Forest

variable {α : Type}

theorem toList_before (name : String) (node : Node α) (rest : Forest α) :
    (node.before name rest).toList = (name, node) :: rest.toList := by
  cases node <;> rfl

theorem put_before (wanted name : String) (x node : Node α) (rest : Forest α) :
    (node.before name rest).put wanted x =
      if wanted < name then x.before wanted (node.before name rest)
      else if name = wanted then x.before wanted rest
      else node.before name (rest.put wanted x) := by
  cases node <;> rfl

theorem erase_before (wanted name : String) (node : Node α) (rest : Forest α) :
    (node.before name rest).erase wanted =
      if name = wanted then rest else node.before name (rest.erase wanted) := by
  cases node <;> rfl

/-- A forest is empty, or it has a first node and a rest: leaves and folders in one case. -/
theorem induction_before {motive : Forest α → Prop} (empty : motive .empty)
    (before : ∀ name node rest, motive rest → motive (Node.before name rest node)) (f : Forest α) :
    motive f := by
  induction f with
  | empty => exact empty
  | leaf name content rest ih => exact before name (.leaf content) rest ih
  | folder name inside rest _ ih => exact before name (.folder inside) rest ih

theorem eq_empty_or_before (f : Forest α) :
    f = .empty ∨ ∃ name node rest, f = Node.before name rest node := by
  induction f using induction_before with
  | empty => exact .inl rfl
  | before name node rest => exact .inr ⟨name, node, rest, rfl⟩

/-! ## 2. Order -/

/-- **An orderly forest**: in every directory the names are names, and they rise. -/
def Orderly : Forest α → Prop
  | .empty => True
  | .leaf name _ rest => Path.IsName name ∧ (∀ x ∈ rest.toList, name < x.1) ∧ rest.Orderly
  | .folder name inside rest =>
    Path.IsName name ∧ (∀ x ∈ rest.toList, name < x.1) ∧ inside.Orderly ∧ rest.Orderly

end Forest

/-- The inside of a node is orderly. -/
def Node.Orderly {α : Type} : Node α → Prop
  | .leaf _ => True
  | .folder inside => inside.Orderly

namespace Forest

variable {α : Type}

theorem orderly_before {name : String} {node : Node α} {rest : Forest α} :
    (node.before name rest).Orderly ↔
      Path.IsName name ∧ (∀ x ∈ rest.toList, name < x.1) ∧ node.Orderly ∧ rest.Orderly := by
  cases node <;> simp [Node.before, Orderly, Node.Orderly]

/-- The names of an orderly forest rise. -/
theorem pairwise_toList {f : Forest α} (h : f.Orderly) : f.toList.Pairwise (·.1 < ·.1) := by
  induction f using induction_before with
  | empty => exact .nil
  | before name node rest ih =>
    obtain ⟨-, hlt, -, hr⟩ := orderly_before.1 h
    rw [toList_before]
    exact .cons hlt (ih hr)

/-- A name that is found is listed. -/
theorem mem_toList_of_find? {f : Forest α} {name : String} {node : Node α}
    (h : f.find? name = some node) : (name, node) ∈ f.toList := by
  induction f using induction_before with
  | empty => cases h
  | before first x rest ih =>
    rw [find?_before] at h
    rw [toList_before]
    split at h
    · next he =>
      cases h
      rw [he]
      exact List.mem_cons_self
    · exact List.mem_cons_of_mem _ (ih h)

/-- **A forest whose names rise lists exactly what it finds.** -/
theorem mem_toList_iff_of_pairwise {f : Forest α} (h : f.toList.Pairwise (·.1 < ·.1))
    {name : String} {node : Node α} : (name, node) ∈ f.toList ↔ f.find? name = some node := by
  refine ⟨?_, mem_toList_of_find?⟩
  induction f using induction_before with
  | empty => exact fun hm => nomatch hm
  | before first x rest ih =>
    rw [toList_before] at h
    obtain ⟨hlt, hr⟩ := List.pairwise_cons.1 h
    intro hm
    rw [toList_before] at hm
    rw [find?_before]
    rcases List.mem_cons.1 hm with he | hm
    · obtain ⟨rfl, rfl⟩ := Prod.mk.inj he
      exact if_pos rfl
    · have hne : first ≠ name := fun he => String.lt_irrefl name (he ▸ hlt _ hm)
      rw [if_neg hne]
      exact ih hr hm

/-- Where names rise, no second entry has the name of the erased one. -/
theorem find?_erase_self_of_pairwise {f : Forest α} (h : f.toList.Pairwise (·.1 < ·.1))
    (name : String) : (f.erase name).find? name = none := by
  induction f using induction_before with
  | empty => rfl
  | before first y rest ih =>
    rw [toList_before] at h
    obtain ⟨hlt, hr⟩ := List.pairwise_cons.1 h
    rw [erase_before]
    split
    · next he =>
      cases hf : rest.find? name with
      | none => rfl
      | some node => exact absurd (he ▸ hlt _ (mem_toList_of_find? hf)) (String.lt_irrefl name)
    · next he =>
      rw [find?_before, if_neg he]
      exact ih hr

/-- **An orderly forest lists exactly what it finds.** -/
theorem mem_toList_iff {f : Forest α} (h : f.Orderly) {name : String} {node : Node α} :
    (name, node) ∈ f.toList ↔ f.find? name = some node :=
  mem_toList_iff_of_pairwise (pairwise_toList h)

/-- What an orderly forest finds has a name, and its inside is orderly. -/
theorem orderly_of_find? {f : Forest α} (h : f.Orderly) {name : String} {node : Node α}
    (hn : f.find? name = some node) : Path.IsName name ∧ node.Orderly := by
  induction f using induction_before with
  | empty => cases hn
  | before first x rest ih =>
    obtain ⟨hname, -, hx, hr⟩ := orderly_before.1 h
    rw [find?_before] at hn
    split at hn
    · next he =>
      cases hn
      exact ⟨he ▸ hname, hx⟩
    · exact ih hr hn

/-- What is put under a name is listed under it, and all else was listed before. -/
theorem mem_toList_put {f : Forest α} {name : String} {node : Node α} {x : String × Node α}
    (h : x ∈ (f.put name node).toList) : x = (name, node) ∨ x ∈ f.toList := by
  induction f using induction_before with
  | empty =>
    rw [show (Forest.empty : Forest α).put name node = node.before name .empty from rfl,
      toList_before] at h
    exact (List.mem_cons.1 h).imp_right fun h => nomatch h
  | before first y rest ih =>
    rw [put_before] at h
    split at h
    · rw [toList_before] at h
      exact List.mem_cons.1 h
    · split at h
      · rw [toList_before] at h ⊢
        exact (List.mem_cons.1 h).imp_right (List.mem_cons_of_mem _)
      · rw [toList_before] at h ⊢
        rcases List.mem_cons.1 h with h | h
        · exact .inr (h ▸ List.mem_cons_self)
        · exact (ih h).imp_right (List.mem_cons_of_mem _)

theorem mem_toList_erase {f : Forest α} {name : String} {x : String × Node α}
    (h : x ∈ (f.erase name).toList) : x ∈ f.toList := by
  induction f using induction_before with
  | empty => exact h
  | before first y rest ih =>
    rw [erase_before] at h
    rw [toList_before]
    split at h
    · exact List.mem_cons_of_mem _ h
    · rw [toList_before] at h
      exact (List.mem_cons.1 h).elim (fun h => h ▸ List.mem_cons_self)
        fun h => List.mem_cons_of_mem _ (ih h)

/-- An earlier name is still in front when something is put under a later one, -/
theorem lt_of_mem_toList_put {rest : Forest α} {first name : String} {node : Node α}
    (hlt : ∀ x ∈ rest.toList, first < x.1) (h : first < name) :
    ∀ x ∈ (rest.put name node).toList, first < x.1 := by
  intro x hx
  cases mem_toList_put hx with
  | inl he => rw [he]; exact h
  | inr hx => exact hlt x hx

/-- and when an entry of a later name stands in front of the others. -/
theorem lt_of_mem_toList_before {rest : Forest α} {first name : String} {node : Node α}
    (hlt : ∀ x ∈ rest.toList, name < x.1) (h : first < name) :
    ∀ x ∈ (node.before name rest).toList, first < x.1 := by
  intro x hx
  rw [toList_before] at hx
  cases List.mem_cons.1 hx with
  | inl he => rw [he]; exact h
  | inr hx => exact String.lt_trans h (hlt x hx)

/-- Putting an orderly node under a name keeps a forest orderly. -/
theorem orderly_put {f : Forest α} (h : f.Orderly) {name : String} (hn : Path.IsName name)
    {node : Node α} (hx : node.Orderly) : (f.put name node).Orderly := by
  induction f using induction_before with
  | empty =>
    have hlt : ∀ x ∈ (Forest.empty : Forest α).toList, name < x.1 := by simp [toList]
    exact orderly_before.2 ⟨hn, hlt, hx, trivial⟩
  | before first y rest ih =>
    obtain ⟨hfirst, hlt, hy, hr⟩ := orderly_before.1 h
    rw [put_before]
    split
    · next hw => exact orderly_before.2 ⟨hn, lt_of_mem_toList_before hlt hw, hx, h⟩
    · next hw =>
      split
      · next he =>
        subst he
        exact orderly_before.2 ⟨hn, hlt, hx, hr⟩
      · next he =>
        have hlater : first < name :=
          String.not_le.1 fun hle => he (String.le_antisymm (String.not_lt.1 hw) hle)
        exact orderly_before.2 ⟨hfirst, lt_of_mem_toList_put hlt hlater, hy, ih hr⟩

/-- Erasing a name keeps a forest orderly. -/
theorem orderly_erase {f : Forest α} (h : f.Orderly) (name : String) : (f.erase name).Orderly := by
  induction f using induction_before with
  | empty => trivial
  | before first y rest ih =>
    obtain ⟨hfirst, hlt, hy, hr⟩ := orderly_before.1 h
    rw [erase_before]
    split
    · exact hr
    · exact orderly_before.2 ⟨hfirst, fun z hz => hlt z (mem_toList_erase hz), hy, ih hr⟩

/-- In an orderly forest no second entry has the name of the erased one. -/
theorem find?_erase_self {f : Forest α} (h : f.Orderly) (name : String) :
    (f.erase name).find? name = none := find?_erase_self_of_pairwise (pairwise_toList h) name

/-! ## 3. Directories on the way -/

/-- A way to a directory leads through a directory of its first name. -/
theorem at?_cons_eq_folder {f inside : Forest α} {name : String} {names : List String}
    (h : f.at? (name :: names) = some (.folder inside)) :
    ∃ g, f.find? name = some (.folder g) ∧ g.at? names = some (.folder inside) := by
  rw [at?_cons] at h
  split at h
  · cases h
  · next g hg => exact ⟨g, hg, h⟩
  · split at h <;> cases h

/-- Below a directory, a way goes on inside the directory. -/
theorem at?_append {f inside : Forest α} {names : List String}
    (h : f.at? names = some (.folder inside)) (more : List String) :
    f.at? (names ++ more) = inside.at? more := by
  induction names generalizing f with
  | nil =>
    cases h
    rfl
  | cons name names ih =>
    obtain ⟨g, hg, ha⟩ := at?_cons_eq_folder h
    rw [List.cons_append, at?_cons, hg]
    exact ih ha

/-- One step down from a directory is to the entry of the name. -/
theorem at?_append_singleton {f inside : Forest α} {names : List String}
    (h : f.at? names = some (.folder inside)) (name : String) :
    f.at? (names ++ [name]) = inside.find? name := by
  rw [at?_append h, at?_cons]
  rcases inside.find? name with _ | _ | _ <;> rfl

/-- Every directory of an orderly forest is orderly. -/
theorem orderly_of_at? {f inside : Forest α} (h : f.Orderly) {names : List String}
    (ha : f.at? names = some (.folder inside)) : inside.Orderly ∧ Path.AreNames names := by
  induction names generalizing f with
  | nil =>
    cases ha
    exact ⟨h, Path.areNames_nil⟩
  | cons name names ih =>
    obtain ⟨g, hg, ha⟩ := at?_cons_eq_folder ha
    obtain ⟨hn, hgo⟩ := orderly_of_find? h hg
    obtain ⟨hi, hns⟩ := ih hgo ha
    exact ⟨hi, Path.areNames_append.2 ⟨Path.areNames_singleton.2 hn, hns⟩⟩

theorem change_cons {f g : Forest α} {name : String} (h : f.find? name = some (.folder g))
    (how : Forest α → Forest α) (names : List String) :
    f.change how (name :: names) = f.put name (.folder (g.change how names)) := by
  rw [change, h]

/-- **A change of one directory keeps a forest orderly** when it keeps that directory so. -/
theorem orderly_change {f inside : Forest α} (h : f.Orderly) {how : Forest α → Forest α}
    {names : List String} (ha : f.at? names = some (.folder inside)) (hi : (how inside).Orderly) :
    (f.change how names).Orderly := by
  induction names generalizing f with
  | nil =>
    cases ha
    exact hi
  | cons name names ih =>
    obtain ⟨g, hg, ha⟩ := at?_cons_eq_folder ha
    obtain ⟨hn, hgo⟩ := orderly_of_find? h hg
    rw [change_cons hg]
    exact orderly_put h hn (ih hgo ha)

end Forest

/-! ## 4. The view of a forest -/

/-- What a node is, seen from above. -/
def Node.thing : Node ByteArray → Thing
  | .leaf data => .file data
  | .folder _ => .directory

/-- **The view of a forest.** -/
def Forest.view (f : Forest ByteArray) : View := fun ns => (f.at? ns).map Node.thing

namespace Node

/-- The view from a node. -/
def view : Node ByteArray → View
  | .leaf data => fun ns => if ns.isEmpty then some (.file data) else none
  | .folder inside => inside.view

theorem isDirectory_thing (node : Node ByteArray) : node.thing.isDirectory = node.isFolder := by
  cases node <;> rfl

theorem view_nil (node : Node ByteArray) : node.view [] = some node.thing := by
  cases node <;> rfl

end Node

namespace Forest

theorem view_nil (f : Forest ByteArray) : f.view [] = some .directory := rfl

theorem view_cons (f : Forest ByteArray) (n : String) (ns : List String) :
    f.view (n :: ns) = (f.find? n).bind fun node => node.view ns := by
  rw [view, at?_cons]
  cases f.find? n with
  | none => rfl
  | some node =>
    cases node with
    | folder inside => rfl
    | leaf data => cases ns <;> rfl

theorem view_singleton (f : Forest ByteArray) (n : String) :
    f.view [n] = (f.find? n).map Node.thing := by
  rw [view_cons]
  cases f.find? n with
  | none => rfl
  | some node => exact node.view_nil

/-- What stands on the way on stands there from the node on the way. -/
theorem view_append (f : Forest ByteArray) (ns ms : List String) :
    f.view (ns ++ ms) = (f.at? ns).bind fun node => node.view ms := by
  induction ns generalizing f with
  | nil => rfl
  | cons n ns ih =>
    rw [List.cons_append, view_cons, at?_cons]
    cases f.find? n with
    | none => rfl
    | some node =>
      cases node with
      | folder inside => exact ih inside
      | leaf data =>
        cases ns with
        | nil => rfl
        | cons k ns => rfl

/-- What stands below a node stands there from the node on. -/
theorem view_append_of_at? {f : Forest ByteArray} {ns : List String} {node : Node ByteArray}
    (hat : f.at? ns = some node) (ms : List String) : f.view (ns ++ ms) = node.view ms := by
  rw [view_append, hat]
  rfl

/-- A place is a directory when a forest stands there. -/
theorem view_eq_directory_iff {f : Forest ByteArray} {ns : List String} :
    f.view ns = some .directory ↔ ∃ inside, f.at? ns = some (.folder inside) := by
  rw [view]
  rcases f.at? ns with _ | _ | _ <;> simp [Node.thing]

theorem view_eq_file_iff {f : Forest ByteArray} {ns : List String} {data : ByteArray} :
    f.view ns = some (.file data) ↔ f.at? ns = some (.leaf data) := by
  rw [view]
  rcases f.at? ns with _ | _ | _ <;> simp [Node.thing]

theorem view_eq_none_iff {f : Forest ByteArray} {ns : List String} :
    f.view ns = none ↔ f.at? ns = none := by
  rw [view, Option.map_eq_none_iff]

/-- **The view of a forest is one of a tree.** -/
theorem isTree_view (f : Forest ByteArray) : f.view.IsTree where
  root := f.view_nil
  above ns n h := by
    rw [view_append] at h
    rw [view_eq_directory_iff]
    rcases ha : f.at? ns with _ | _ | inside
    · rw [ha] at h
      exact absurd rfl h
    · rw [ha] at h
      exact absurd rfl h
    · exact ⟨inside, rfl⟩

/-- What stands in an orderly forest stands at names. -/
theorem areNames_of_view {f : Forest ByteArray} (h : f.Orderly) {ns : List String}
    (hv : f.view ns ≠ none) : Path.AreNames ns := by
  induction ns generalizing f with
  | nil => exact Path.areNames_nil
  | cons n ns ih =>
    rw [view_cons] at hv
    cases hf : f.find? n with
    | none => exact absurd (by rw [hf]; rfl) hv
    | some node =>
      rw [hf] at hv
      obtain ⟨hn, ho⟩ := orderly_of_find? h hf
      refine Path.areNames_append.2 ⟨Path.areNames_singleton.2 hn, ?_⟩
      cases node with
      | folder inside => exact ih ho hv
      | leaf data =>
        cases ns with
        | nil => exact Path.areNames_nil
        | cons m ns => exact absurd rfl hv

/-! ## 5. Changes of one place -/

theorem view_put (f : Forest ByteArray) (n : String) (node : Node ByteArray) (m : String)
    (ms : List String) :
    (f.put n node).view (m :: ms) = if n = m then node.view ms else f.view (m :: ms) := by
  rw [view_cons, view_cons, find?_put]
  split <;> rfl

/-- **A change of a directory shows below it** as the change of its inside, -/
theorem view_change_below {f inside : Forest ByteArray} {above : List String}
    (ha : f.at? above = some (.folder inside)) (how : Forest ByteArray → Forest ByteArray)
    (ms : List String) : (f.change how above).view (above ++ ms) = (how inside).view ms := by
  induction above generalizing f with
  | nil =>
    cases ha
    rfl
  | cons a as ih =>
    obtain ⟨g, hg, ha⟩ := at?_cons_eq_folder ha
    rw [change_cons hg, List.cons_append, view_put, if_pos rfl]
    exact ih ha

/-- and nowhere else. -/
theorem view_change_elsewhere {f inside : Forest ByteArray} {above : List String}
    (ha : f.at? above = some (.folder inside)) (how : Forest ByteArray → Forest ByteArray)
    {ms : List String} (h : ¬ above <+: ms) : (f.change how above).view ms = f.view ms := by
  induction above generalizing f ms with
  | nil => exact absurd (List.nil_prefix) h
  | cons a as ih =>
    obtain ⟨g, hg, ha⟩ := at?_cons_eq_folder ha
    cases ms with
    | nil => rw [view_nil, view_nil]
    | cons m ms =>
      rw [change_cons hg, view_put]
      split
      · next he =>
        subst he
        rw [view_cons, hg]
        exact ih ha fun hp => h ((List.prefix_cons_inj a).2 hp)
      · rfl

/-- **A change of one place in a directory is a change of one place in the forest.** -/
theorem view_change {f inside : Forest ByteArray} {above : List String}
    (ha : f.at? above = some (.folder inside)) {how : Forest ByteArray → Forest ByteArray}
    {n : String} {x : Option Thing} (h : (how inside).view = inside.view.put [n] x) :
    (f.change how above).view = f.view.put (above ++ [n]) x := by
  funext ms
  by_cases hp : above <+: ms
  · obtain ⟨ks, rfl⟩ := hp
    rw [view_change_below ha, h]
    unfold View.put
    rw [view_append, ha]
    simp only [List.append_cancel_left_eq]
    rfl
  · rw [view_change_elsewhere ha how hp, View.put_of_ne]
    exact fun he => hp (he ▸ List.prefix_append _ _)

/-- Putting a node without entries where no entries are changes one place. -/
theorem view_put_eq {f : Forest ByteArray} {n : String} {node : Node ByteArray}
    (hf : ∀ m ms, f.view (n :: m :: ms) = none) (hx : ∀ m ms, node.view (m :: ms) = none) :
    (f.put n node).view = f.view.put [n] (some node.thing) := by
  funext ks
  match ks with
  | [] => exact (View.put_of_ne _ (by simp) _).symm
  | [k] =>
    rw [view_put]
    by_cases hk : n = k
    · rw [if_pos hk, hk, View.put_self, Node.view_nil]
    · rw [if_neg hk, View.put_of_ne _ (by simpa using Ne.symm hk)]
  | k :: m :: ms =>
    rw [view_put, View.put_of_ne _ (by simp)]
    split
    · next hk => rw [hx, ← hk, hf]
    · rfl

/-- Erasing a node without entries changes one place. -/
theorem view_erase_eq {f : Forest ByteArray} (ho : f.Orderly) {n : String}
    (hf : ∀ m ms, f.view (n :: m :: ms) = none) : (f.erase n).view = f.view.put [n] none := by
  funext ks
  match ks with
  | [] => exact (View.put_of_ne _ (by simp) _).symm
  | k :: ms =>
    rw [view_cons]
    by_cases hk : n = k
    · subst hk
      rw [find?_erase_self ho]
      cases ms with
      | nil => exact (View.put_self _ _ _).symm
      | cons m ms => rw [View.put_of_ne _ (by simp), hf]; rfl
    · rw [find?_erase_of_ne hk, ← view_cons, View.put_of_ne]
      rintro he
      exact hk (List.cons.inj he).1.symm

/-- Below a name that is free, or of a file, or of an empty directory, there is nothing. -/
theorem view_below_find? {f : Forest ByteArray} {n : String}
    (h : ∀ inside, f.find? n = some (.folder inside) → inside = .empty) (m : String)
    (ms : List String) : f.view (n :: m :: ms) = none := by
  rw [view_cons]
  rcases hf : f.find? n with _ | _ | inside
  · rfl
  · rfl
  · rw [h inside hf]
    rfl

end Forest

end Arboretum
