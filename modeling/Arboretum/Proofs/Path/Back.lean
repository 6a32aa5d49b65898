import Arboretum.Proofs.Path.Parts

/-!
# Names that lead back

Joining a name to a path cleans the whole, and cleaning trims.  So a plain name that ends in blanks
is joined without them, and what is left may be no name at all: nothing or a `.` leads to the path
itself, a `..` to the path above.  `join_child` says where joining leads, for any plain name; such
a name **leads back**, and every other one leads one level down (`child_of_not_leadsBack`).
-/

namespace Arboretum

/-- Trimming leaves characters that were there. -/
theorem Text.mem_of_mem_trimEnd {c : Char} {cs : List Char} (h : c ∈ trimEnd cs) : c ∈ cs := by
  unfold trimEnd at h
  exact List.mem_reverse.1 ((List.dropWhile_suffix _).subset (List.mem_reverse.1 h))

/-- What is trimmed does not end in a blank. -/
theorem Text.endsBlank_trimEnd (cs : List Char) : endsBlank (trimEnd cs) = false := by
  unfold endsBlank trimEnd
  rw [List.getLast?_reverse]
  cases hd : cs.reverse.dropWhile isBlank with
  | nil => rfl
  | cons c rest =>
    have hhead := List.head?_dropWhile_not isBlank cs.reverse
    rw [hd] at hhead
    simpa using hhead

namespace Path

variable {ns : List String} {n : String}

/-! ## 1. Where a name leads -/

/-- A name without the blanks at its end. -/
def trimmed (n : String) : String := String.ofList (Text.trimEnd n.toList)

/-- **The name leads back** when it is joined: nothing is left of it, or a `.`, or a `..`. -/
def LeadsBack (n : String) : Prop :=
  Text.trimEnd n.toList = [] ∨ Text.trimEnd n.toList = here ∨ Text.trimEnd n.toList = above

instance (n : String) : Decidable (LeadsBack n) := inferInstanceAs (Decidable (_ ∨ _ ∨ _))

/-- **The place that a name leads to** when it is joined to the path of a place. -/
def child (ns : List String) (n : String) : List String :=
  if Text.trimEnd n.toList = above then ns.dropLast
  else if LeadsBack n then ns
  else ns ++ [trimmed n]

theorem child_of_not_leadsBack (h : ¬ LeadsBack n) : child ns n = ns ++ [trimmed n] := by
  unfold child
  rw [if_neg fun ha => h (.inr (.inr ha)), if_neg h]

/-- A name that leads back leads to the place itself or above. -/
theorem child_of_leadsBack (ns : List String) (h : LeadsBack n) : child ns n = ns ∨ child ns n = ns.dropLast := by
  unfold child
  split
  · exact .inr rfl
  · exact .inl rfl

/-- What is left of a plain name is a name, unless it leads back. -/
theorem isName_trimmed (hn : IsPlain n.toList) (h : ¬ LeadsBack n) : IsName (trimmed n) := by
  have hslash : '/' ∉ Text.trimEnd n.toList := fun hm => hn.no_slash (Text.mem_of_mem_trimEnd hm)
  unfold IsName trimmed
  rw [String.toList_ofList]
  refine ⟨⟨fun hnil => h (.inl hnil), fun hhere => h (.inr (.inl hhere)),
    fun habove => h (.inr (.inr habove)), hslash⟩, Text.endsBlank_trimEnd n.toList⟩

/-- A name does not lead back. -/
theorem not_leadsBack_of_isName (hn : IsName n) : ¬ LeadsBack n := by
  unfold LeadsBack
  rw [Text.trimEnd_of_not_endsBlank hn.2]
  rintro (hnil | hhere | habove)
  · exact hn.1.ne_nil hnil
  · exact hn.1.ne_here hhere
  · exact hn.1.ne_above habove

/-- From a place of names a plain name leads to a place of names. -/
theorem areNames_child (hns : AreNames ns) (hn : IsPlain n.toList) : AreNames (child ns n) := by
  by_cases h : LeadsBack n
  · rcases child_of_leadsBack ns h with hc | hc
    · rwa [hc]
    · rw [hc]
      exact fun m hm => hns m (List.dropLast_subset ns hm)
  · rw [child_of_not_leadsBack h]
    exact areNames_append_singleton.2 ⟨hns, isName_trimmed hn h⟩

/-! ## 2. Joining -/

/-- The stack of a place of plain fields, after one field without a slash. -/
theorem reverse_push_of_plain {fs : List (List Char)} (hp : ∀ f ∈ fs, IsPlain f) (m : List Char) :
    (push true fs.reverse m).reverse =
      if m = above then fs.dropLast else if m = [] ∨ m = here then fs else fs ++ [m] := by
  by_cases habove : m = above
  · have hstack : ∀ f ∈ fs.reverse, IsPlain f := fun f hf => hp f (List.mem_reverse.1 hf)
    rw [if_pos habove, habove, push_above hstack, List.tail_reverse, List.reverse_reverse]
  · unfold push
    rw [if_neg habove, if_neg habove]
    split
    · exact List.reverse_reverse fs
    · rw [List.reverse_cons, List.reverse_reverse]

/-- **Joining a plain name** to a path of plain names leads to the child of that name. -/
theorem join_child (hns : ArePlain ns) (hn : IsPlain n.toList) :
    join [ofNames ns, n] = ofNames (child ns n) := by
  have hplain := isPlain_of_mem_map hns
  have hparts : ([ofNames ns, n].map String.toList).filter (· ≠ []) =
      ['/' :: unfields (ns.map String.toList), n.toList] := by
    rw [List.map_cons, List.map_singleton, toList_ofNames]
    exact List.filter_eq_self.2 fun f hf => by
      rcases List.mem_cons.1 hf with rfl | hf
      · simp
      · simpa [List.mem_singleton.1 hf] using hn.ne_nil
  have htext : unfields ['/' :: unfields (ns.map String.toList), n.toList] =
      '/' :: (unfields (ns.map String.toList) ++ '/' :: n.toList) := by
    rw [unfields_cons (List.cons_ne_nil _ _)]
    simp [unfields]
  have hslash : '/' ∉ Text.trimEnd n.toList := fun hm => hn.no_slash (Text.mem_of_mem_trimEnd hm)
  have hone : fields (Text.trimEnd n.toList) = [Text.trimEnd n.toList] := by
    have hread : fields (unfields [Text.trimEnd n.toList]) = [Text.trimEnd n.toList] :=
      fields_unfields (List.cons_ne_nil _ _) fun f hf => List.mem_singleton.1 hf ▸ hslash
    rwa [show unfields [Text.trimEnd n.toList] = Text.trimEnd n.toList by simp [unfields]] at hread
  have hkept : keptFields ('/' :: (unfields (ns.map String.toList) ++ '/' :: n.toList)) =
      (child ns n).map String.toList := by
    rw [keptFields_below hplain, hone, List.foldl_cons, List.foldl_nil, reverse_push_of_plain hplain]
    unfold child LeadsBack
    by_cases habove : Text.trimEnd n.toList = above
    · rw [if_pos habove, if_pos habove, List.map_dropLast]
    · simp only [habove, if_false, or_false]
      split
      · rfl
      · rw [List.map_append, List.map_singleton, trimmed, String.toList_ofList]
  rw [join, joinChars, hparts, htext, cleanChars_eq, hkept, ofNames]

end Path

end Arboretum
