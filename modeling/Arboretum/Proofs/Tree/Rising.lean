import Arboretum.Proofs.Tree.Forest

/-!
# Forests whose names rise

Whatever its names are, a forest that was put together entry by entry keeps them in strictly rising
order, in every directory (`Forest.Rising`).  That alone makes listing and finding agree
(`Rising.mem_toList_iff`) and an erased name disappear (`Rising.find?_erase_self`).  Changing one
directory keeps the order (`rising_change`).  Where everything stands at names besides, the forest
is orderly (`Rising.orderly`).
-/

namespace Arboretum

namespace Forest

variable {α : Type}

/-! ## 1. Rising forests -/

/-- **A forest of rising names**, in every directory. -/
inductive Rising : Forest α → Prop
  | empty : Rising .empty
  | leaf {name : String} {content : α} {rest : Forest α} (hlt : ∀ x ∈ rest.toList, name < x.1)
    (hr : Rising rest) : Rising (.leaf name content rest)
  | folder {name : String} {inside rest : Forest α} (hlt : ∀ x ∈ rest.toList, name < x.1)
    (hi : Rising inside) (hr : Rising rest) : Rising (.folder name inside rest)

end Forest

/-- The names inside of a node rise. -/
def Node.Rising {α : Type} : Node α → Prop
  | .leaf _ => True
  | .folder inside => inside.Rising

namespace Forest

variable {α : Type} {f inside : Forest α} {name : String} {node : Node α}

theorem rising_before {rest : Forest α} :
    (node.before name rest).Rising ↔
      (∀ x ∈ rest.toList, name < x.1) ∧ node.Rising ∧ rest.Rising := by
  cases node with
  | leaf content =>
    exact ⟨fun | .leaf hlt hr => ⟨hlt, trivial, hr⟩, fun ⟨hlt, _, hr⟩ => .leaf hlt hr⟩
  | folder inside =>
    exact ⟨fun | .folder hlt hi hr => ⟨hlt, hi, hr⟩, fun ⟨hlt, hi, hr⟩ => .folder hlt hi hr⟩

/-- The names of a rising forest rise at its top. -/
theorem Rising.pairwise_toList (h : f.Rising) : f.toList.Pairwise (·.1 < ·.1) := by
  induction f using induction_before with
  | empty => exact .nil
  | before name node rest ih =>
    obtain ⟨hlt, -, hr⟩ := rising_before.1 h
    rw [toList_before]
    exact .cons hlt (ih hr)

/-- **A rising forest lists exactly what it finds.** -/
theorem Rising.mem_toList_iff (h : f.Rising) :
    (name, node) ∈ f.toList ↔ f.find? name = some node :=
  mem_toList_iff_of_pairwise h.pairwise_toList

/-- In a rising forest no second entry has the name of the erased one. -/
theorem Rising.find?_erase_self (h : f.Rising) (name : String) :
    (f.erase name).find? name = none := find?_erase_self_of_pairwise h.pairwise_toList name

/-- What a rising forest finds has a rising inside. -/
theorem Rising.of_find? (h : f.Rising) (hn : f.find? name = some node) : node.Rising := by
  induction f using induction_before with
  | empty => cases hn
  | before first x rest ih =>
    obtain ⟨-, hx, hr⟩ := rising_before.1 h
    rw [find?_before] at hn
    split at hn
    · cases hn
      exact hx
    · exact ih hr hn

/-- Every directory of a rising forest rises. -/
theorem Rising.of_at? (h : f.Rising) {names : List String}
    (ha : f.at? names = some (.folder inside)) : inside.Rising := by
  induction names generalizing f with
  | nil =>
    cases ha
    exact h
  | cons name names ih =>
    obtain ⟨g, hg, ha⟩ := at?_cons_eq_folder ha
    exact ih (h.of_find? hg) ha

/-! ## 2. Changes -/

theorem rising_put (h : f.Rising) (hx : node.Rising) : (f.put name node).Rising := by
  induction f using induction_before with
  | empty =>
    have hlt : ∀ x ∈ (Forest.empty : Forest α).toList, name < x.1 := fun x hm => nomatch hm
    exact rising_before.2 ⟨hlt, hx, .empty⟩
  | before first y rest ih =>
    obtain ⟨hlt, hy, hr⟩ := rising_before.1 h
    rw [put_before]
    split
    · next hw => exact rising_before.2 ⟨lt_of_mem_toList_before hlt hw, hx, h⟩
    · next hw =>
      split
      · next he =>
        subst he
        exact rising_before.2 ⟨hlt, hx, hr⟩
      · next he =>
        have hlater : first < name :=
          String.not_le.1 fun hle => he (String.le_antisymm (String.not_lt.1 hw) hle)
        exact rising_before.2 ⟨lt_of_mem_toList_put hlt hlater, hy, ih hr⟩

theorem rising_erase (h : f.Rising) (name : String) : (f.erase name).Rising := by
  induction f using induction_before with
  | empty => exact h
  | before first y rest ih =>
    obtain ⟨hlt, hy, hr⟩ := rising_before.1 h
    rw [erase_before]
    split
    · exact hr
    · exact rising_before.2 ⟨fun z hz => hlt z (mem_toList_erase hz), hy, ih hr⟩

/-- **A change of one directory keeps names rising** when it keeps that directory's so. -/
theorem rising_change (h : f.Rising) {how : Forest α → Forest α} {names : List String}
    (ha : f.at? names = some (.folder inside)) (hi : (how inside).Rising) :
    (f.change how names).Rising := by
  induction names generalizing f with
  | nil =>
    cases ha
    exact hi
  | cons name names ih =>
    obtain ⟨g, hg, ha⟩ := at?_cons_eq_folder ha
    have hgr : g.Rising := h.of_find? hg
    have hnode : Node.Rising (.folder (g.change how names)) := ih hgr ha
    rw [change_cons hg]
    exact rising_put h hnode

/-! ## 3. What stands in a rising forest -/

/-- A way into the rest does not begin with the name of the first node. -/
theorem ne_of_isSome_rest {rest : Forest α} (hlt : ∀ x ∈ rest.toList, name < x.1) {n : String}
    {ns : List String} (hs : (rest.at? (n :: ns)).isSome = true) : name ≠ n := by
  rintro rfl
  rw [at?_cons] at hs
  cases hf : rest.find? name with
  | none =>
    rw [hf] at hs
    cases hs
  | some node => exact String.lt_irrefl name (hlt _ (mem_toList_of_find? hf))

/-- What stands behind the first node of a rising forest stands in the forest. -/
theorem Rising.at?_before {rest : Forest α} (h : (node.before name rest).Rising) {ns : List String}
    (hs : (rest.at? ns).isSome = true) : ((node.before name rest).at? ns).isSome = true := by
  cases ns with
  | nil => rfl
  | cons m ms =>
    rw [at?_cons, find?_before, if_neg (ne_of_isSome_rest (rising_before.1 h).1 hs)]
    exact hs

/-- The names of an orderly forest rise. -/
theorem Orderly.rising (h : f.Orderly) : f.Rising := by
  induction f with
  | empty => exact .empty
  | leaf name content rest ih => exact .leaf h.2.1 (ih h.2.2)
  | folder name inside rest ihi ihr => exact .folder h.2.1 (ihi h.2.2.1) (ihr h.2.2.2)

/-- **A forest is orderly** when its names rise and whatever stands in it stands at names. -/
theorem Rising.orderly (h : f.Rising)
    (hn : ∀ ns, (f.at? ns).isSome = true → Path.AreNames ns) : f.Orderly := by
  have hfirst : ∀ (name : String) (node : Node α) (rest : Forest α),
      (∀ ns, ((node.before name rest).at? ns).isSome = true → Path.AreNames ns) →
        Path.IsName name := by
    intro name node rest hn
    refine Path.areNames_singleton.1 (hn [name] ?_)
    rw [at?_cons, find?_before, if_pos rfl]
    cases node <;> rfl
  induction f with
  | empty => trivial
  | leaf name content rest ih =>
    have hbefore : ((Node.leaf content).before name rest).Rising := h
    obtain ⟨hlt, -, hr⟩ := rising_before.1 hbefore
    exact ⟨hfirst name (.leaf content) rest hn, hlt,
      ih hr fun ns hs => hn ns (hbefore.at?_before hs)⟩
  | folder name inside rest ihi ihr =>
    have hbefore : ((Node.folder inside).before name rest).Rising := h
    obtain ⟨hlt, hi, hr⟩ := rising_before.1 hbefore
    refine ⟨hfirst name (.folder inside) rest hn, hlt, ihi hi fun ns hs => ?_,
      ihr hr fun ns hs => hn ns (hbefore.at?_before hs)⟩
    have hdeep : ((Forest.folder name inside rest).at? (name :: ns)).isSome = true := by
      rw [at?_cons, find?, if_pos rfl]
      exact hs
    exact fun m hm => hn _ hdeep m (List.mem_cons_of_mem name hm)

end Forest

end Arboretum
