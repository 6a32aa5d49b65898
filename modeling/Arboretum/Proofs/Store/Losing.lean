import Arboretum.Proofs.Store.Following
import Arboretum.Proofs.Store.Growing
import Arboretum.Proofs.Store.Hints

/-!
# What a disk loses

Removing on a disk follows the fields before the last name of the path, and takes a leaf or an empty
directory out of the directory that they lead to (`of_remove`).  A disk that has lost entries leads
nowhere else, so what is removed later is where the path led at first (`Lost.remove`).
-/

namespace Arboretum

namespace Disk

variable {d d' : Disk} {here dir above fs : List String} {path name : String}

/-! ## 1. What is listed and removed -/

/-- **A disk with plain names**, rising in every directory. -/
structure Sound (d : Disk) : Prop where
  plain : d.root.Plain
  rising : d.root.Rising

/-- The names that a listing brings are plain. -/
theorem isPlain_of_list (hp : d.root.Plain) {hints : List String} {entries : List Entry}
    (h : d.list path hints = .ok entries) {e : Entry} (he : e ∈ entries) :
    Path.IsPlain e.name.toList := by
  unfold list at h
  cases ho : d.offers path hints with
  | error f =>
    rw [ho] at h
    cases h
  | ok offers =>
    rw [ho] at h
    cases h
    obtain ⟨offer, hoffer, hsettle⟩ := List.mem_filterMap.1 he
    rw [name_of_settle d path hsettle]
    unfold Disk.offers at ho
    dsimp only at ho
    split at ho
    · cases ho
    · cases ho
    · cases ho
    · split at ho
      · next inside hat =>
        cases ho
        obtain ⟨entry, hentry, rfl⟩ := List.mem_map.1 (List.mem_filter.1 hoffer).1
        have hplain := (Forest.plain_of_mem_toList (Forest.plain_of_at? hp hat) hentry).1
        rcases entry with ⟨name, (data | target) | inside⟩
        · exact hplain
        · exact hplain
        · exact hplain
      · cases ho
        exact absurd hoffer List.not_mem_nil

/-- The last name of a path, and the fields before it. -/
theorem moves_of_lastOf {slashed : Bool} (h : lastOf path = (fs, .name name slashed)) :
    moves (fieldsOf path) = moves fs ++ [name] ∧ Names name := by
  unfold lastOf at h
  dsimp only at h
  have hsame : moves ((fieldsOf path).filter (· ≠ "")) = moves (fieldsOf path) := by
    unfold moves
    rw [List.filter_filter]
    refine List.filter_congr fun f _ => ?_
    by_cases he : f = "" <;> simp [he]
  rw [← hsame]
  have hfull : ∀ f ∈ (fieldsOf path).filter (· ≠ ""), f ≠ "" := fun f hf =>
    of_decide_eq_true (List.mem_filter.1 hf).2
  generalize (fieldsOf path).filter (· ≠ "") = fields at h hfull
  split at h
  · cases h
  · cases h
  · cases h
  · next last hdot hclimb hlast =>
    obtain ⟨rfl, hname⟩ := Prod.mk.inj h
    obtain ⟨rfl, -⟩ := Last.name.inj hname
    have hsplit : fields = fields.dropLast ++ [last] := (List.dropLast_append_getLast? last hlast).symm
    have hne := hfull last (List.mem_of_getLast? hlast)
    refine ⟨?_, hne, hdot, hclimb⟩
    rw [hsplit, moves_append, List.dropLast_concat]
    exact congrArg _ (moves_cons_of_ne hne hdot [])

/-- **Where the last name of a path is**: its holder is where the fields before it lead. -/
theorem of_locateHolder {slashed : Bool}
    (h : d.locateHolder path = .ok (above, .name name slashed)) :
    ∃ fs, moves (fieldsOf path) = fs ++ [name] ∧ Names name ∧
      d.Leads (start d.cwd path) fs above := by
  unfold locateHolder at h
  split at h
  · cases h
  · split at h
    · cases h
    · rcases hlast : lastOf path with ⟨fs, last⟩
      rw [hlast] at h
      dsimp only at h
      split at h
      · cases h
      · next names hfollow =>
        have hpair : names = above ∧ last = .name name slashed := by
          split at h
          · split at h
            · cases h
            · exact Prod.mk.inj (Except.ok.inj h)
          · exact Prod.mk.inj (Except.ok.inj h)
        obtain ⟨rfl, rfl⟩ := hpair
        obtain ⟨hmoves, hname⟩ := moves_of_lastOf hlast
        refine ⟨moves fs, hmoves, hname, (leads_of_follow hfollow).congr ?_⟩
        unfold moves
        rw [List.filter_filter]
        exact List.filter_congr fun f _ => Bool.and_self _
      · cases h
      · cases h

/-- What is dropped from a directory, and its holder. -/
theorem of_removeDirectory (h : d.removeDirectory path = .ok d') :
    ∃ above name slashed, d.locateHolder path = .ok (above, .name name slashed) ∧
      d.root.at? (above ++ [name]) = some (.folder .empty) ∧ d' = d.drop above name := by
  unfold removeDirectory at h
  split at h
  · cases h
  · cases h
  · cases h
  · cases h
  · next above name slashed hholder =>
    split at h
    · cases h
    · cases h
    · next hat => exact ⟨above, name, slashed, hholder, hat, (Except.ok.inj h).symm⟩
    · cases h

theorem of_removeLeaf (h : d.removeLeaf path = .ok d') :
    ∃ above name slashed x, d.locateHolder path = .ok (above, .name name slashed) ∧
      d.root.at? (above ++ [name]) = some (.leaf x) ∧ d' = d.drop above name := by
  unfold removeLeaf at h
  split at h
  · cases h
  · next above name slashed hholder =>
    split at h
    · cases h
    · cases h
    · next x hat =>
      split at h
      · cases h
      · exact ⟨above, name, slashed, x, hholder, hat, (Except.ok.inj h).symm⟩
  · cases h

/-- **Removing takes a leaf or an empty directory out of the holder of the path.** -/
theorem of_remove (h : d.remove path = .ok d') :
    ∃ fs above name node, moves (fieldsOf path) = fs ++ [name] ∧ Names name ∧
      d.Leads (start d.cwd path) fs above ∧ d.root.at? (above ++ [name]) = some node ∧
      (node = .folder .empty ∨ ∃ x, node = .leaf x) ∧ d' = d.drop above name := by
  have hdone : (if d.isDirectory path && !d.isLink path then d.removeDirectory path
      else d.removeLeaf path) = .ok d' := by
    unfold remove faulting at h
    split at h
    · next hdone =>
      cases h
      exact hdone
    · cases h
  split at hdone
  · obtain ⟨above, name, slashed, hholder, hat, rfl⟩ := of_removeDirectory hdone
    obtain ⟨fs, hmoves, hname, hleads⟩ := of_locateHolder hholder
    exact ⟨fs, above, name, _, hmoves, hname, hleads, hat, .inl rfl, rfl⟩
  · obtain ⟨above, name, slashed, x, hholder, hat, rfl⟩ := of_removeLeaf hdone
    obtain ⟨fs, hmoves, hname, hleads⟩ := of_locateHolder hholder
    exact ⟨fs, above, name, _, hmoves, hname, hleads, hat, .inr ⟨x, rfl⟩, rfl⟩

/-! ## 2. Lost entries -/

/-- **A disk that has lost entries at some places only.** -/
structure Lost (d : Disk) (gone : List String → Prop) (d' : Disk) : Prop where
  cwd : d'.cwd = d.cwd
  rising : d'.root.Rising
  outline : ∀ ns, d'.root.outline ns = d.root.outline ns ∨ d'.root.outline ns = none ∧ gone ns

theorem Lost.refl (h : d.root.Rising) (gone : List String → Prop) : d.Lost gone d :=
  ⟨rfl, h, fun _ => .inl rfl⟩

variable {gone : List String → Prop}

/-- A disk that has lost entries leads nowhere else. -/
theorem Lost.leads (h : d.Lost gone d') (hleads : d'.Leads here fs dir) : d.Leads here fs dir :=
  hleads.reflect fun ns => (h.outline ns).imp_right And.left

/-- **Removing loses one entry more**, where the fields before the last name led at first. -/
theorem Lost.remove {d'' : Disk} (h : d.Lost gone d') (hremove : d'.remove path = .ok d'')
    (hin : ∀ fs name above, moves (fieldsOf path) = fs ++ [name] → Names name →
      d.Leads (start d.cwd path) fs above → gone (above ++ [name])) : d.Lost gone d'' := by
  obtain ⟨fs, above, name, node, hmoves, hname, hleads, hat, hnode, rfl⟩ := of_remove hremove
  rw [h.cwd] at hleads
  have hgone := hin fs name above hmoves hname (h.leads hleads)
  obtain ⟨inside, hfolder, -⟩ := Forest.exists_folder_above hat
  refine ⟨h.cwd, ?_, fun ns => ?_⟩
  · exact Forest.rising_change h.rising hfolder
      (Forest.rising_erase (h.rising.of_at? hfolder) name)
  · have hdrop : (d'.drop above name).root.outline ns =
        if ns = above ++ [name] then none else d'.root.outline ns :=
      Forest.outline_erase h.rising hat hnode ns
    rw [hdrop]
    split
    · next hns => exact .inr ⟨rfl, hns ▸ hgone⟩
    · exact h.outline ns

end Disk

end Arboretum
