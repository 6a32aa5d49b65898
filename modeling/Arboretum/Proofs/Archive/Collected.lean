import Arboretum.Archive.Collect
import Arboretum.Proofs.Pattern.Like
import Arboretum.Proofs.Store.Further
import Arboretum.Proofs.Store.Losing

/-!
# What is collected can be stored

Collecting lists a directory and all directories below it, by their paths.  The host takes each of
these paths (`IsListable`), or collecting ends with its refusal (`collect_cases`).  A path that was
collected from the tree leads to a file, so no other one goes on below it; and its last name has an
extension from a table, so it does not end in a blank.  Without a blank at the end of a directory's
name, the collected items can be stored one after the other (`storable_filed`).
-/

namespace Arboretum

/-! ## 1. Names of folders -/

namespace Forest

variable {α : Type} {f inside : Forest α} {p : String → Prop}

/-- **The names of folders** have a property, in every directory. -/
def FolderNames (p : String → Prop) : Forest α → Prop
  | .empty => True
  | .leaf _ _ rest => rest.FolderNames p
  | .folder name inside rest => p name ∧ inside.FolderNames p ∧ rest.FolderNames p

/-- A folder that is found has such a name, and so have the folders in it. -/
theorem FolderNames.of_find? {name : String} (h : f.FolderNames p)
    (hf : f.find? name = some (.folder inside)) : p name ∧ inside.FolderNames p := by
  induction f with
  | empty => cases hf
  | leaf first content rest ih =>
    rw [find?] at hf
    split at hf
    · cases hf
    · exact ih h hf
  | folder first deeper rest _ ih =>
    obtain ⟨hname, hdeeper, hrest⟩ := h
    rw [find?] at hf
    split at hf
    · next he =>
      cases hf
      exact ⟨he ▸ hname, hdeeper⟩
    · exact ih hrest hf

/-- On the way to a folder there are such names only. -/
theorem FolderNames.of_at? {names : List String} (h : f.FolderNames p)
    (hat : f.at? names = some (.folder inside)) : ∀ n ∈ names, p n := by
  induction names generalizing f with
  | nil => exact fun _ hn => absurd hn List.not_mem_nil
  | cons name names ih =>
    obtain ⟨g, hg, hat⟩ := at?_cons_eq_folder hat
    obtain ⟨hname, hdeeper⟩ := h.of_find? hg
    exact List.forall_mem_cons.2 ⟨hname, ih hdeeper hat⟩

end Forest

/-! ## 2. Texts of paths -/

namespace Text

/-- A blank is no letter. -/
theorem isAlpha_of_isBlank {c : Char} (h : isBlank c = true) : c.isAlpha = false := by
  simp only [isBlank, Bool.or_eq_true, Bool.and_eq_true, decide_eq_true_eq, beq_iff_eq] at h
  rw [Pattern.Like.isAlpha_eq_false_iff]
  omega

/-- A blank at the end of a text stays there in lower case. -/
theorem endsBlank_map_toLower {cs : List Char} (h : endsBlank cs = true) :
    endsBlank (cs.map Char.toLower) = true := by
  obtain ⟨c, hlast, hblank⟩ := (Option.any_eq_true _ _).1 h
  have hsame : c.toLower = c :=
    (Pattern.Like.foldCase_eq_iff (isAlpha_of_isBlank hblank)).2 rfl
  rw [endsBlank, List.getLast?_map, hlast, Option.map_some, hsame]
  exact hblank

end Text

namespace Archive

variable {names : List String} {directory : String}

theorem toList_intercalate (names : List String) :
    ("/".intercalate names).toList = Path.unfields (names.map String.toList) :=
  String.toList_intercalate

/-- The names on a path are the fields of it that lead somewhere. -/
theorem moves_eq_namesOn (path : String) : Disk.moves (Disk.fieldsOf path) = namesOn path :=
  Disk.moves_fieldsOf path

/-- A name on a path is neither empty nor a dot, and has no slash. -/
theorem of_mem_namesOn {path name : String} (h : name ∈ namesOn path) :
    name.toList ≠ [] ∧ name.toList ≠ Path.here ∧ '/' ∉ name.toList := by
  obtain ⟨f, hf, rfl⟩ := List.mem_map.1 h
  obtain ⟨hf, hkept⟩ := List.mem_filter.1 hf
  obtain ⟨hnil, hhere⟩ := of_decide_eq_true hkept
  rw [String.toList_ofList]
  exact ⟨hnil, hhere, Path.no_slash_of_mem_fields hf⟩

/-- Names with slashes between them, and in front, are the names on the path that they make up. -/
theorem namesOn_slashes (k : Nat)
    (h : ∀ n ∈ names, n.toList ≠ [] ∧ n.toList ≠ Path.here ∧ '/' ∉ n.toList) :
    namesOn (String.ofList (List.replicate k '/') ++ "/".intercalate names) = names := by
  have hsteps : Path.steps (Path.unfields (names.map String.toList)) = names.map String.toList :=
    Path.steps_unfields (List.forall_mem_map.2 h)
  show (Path.steps _).map String.ofList = names
  rw [String.toList_append, String.toList_ofList, toList_intercalate, Path.steps_append_slashes,
    hsteps, Path.map_ofList_toList]

theorem namesOn_intercalate (hp : Path.ArePlain names) :
    namesOn ("/".intercalate names) = names := by
  have hnames := namesOn_slashes 0 fun n hn =>
    ⟨(hp n hn).ne_nil, (hp n hn).ne_here, (hp n hn).no_slash⟩
  rwa [List.replicate_zero, String.ofList_nil, String.empty_append] at hnames

/-- The parts of a path below a directory. -/
theorem of_mem_parts (directory : String) (hp : Path.ArePlain names) :
    ∀ n ∈ namesOn directory ++ names,
      n.toList ≠ [] ∧ n.toList ≠ Path.here ∧ '/' ∉ n.toList := by
  intro n hn
  rcases List.mem_append.1 hn with hn | hn
  · exact of_mem_namesOn hn
  · exact ⟨(hp n hn).ne_nil, (hp n hn).ne_here, (hp n hn).no_slash⟩

/-- Such a path does not start with a slash of its own. -/
theorem head?_intercalate_ne_slash (h : ∀ n ∈ names, n.toList ≠ [] ∧ '/' ∉ n.toList) :
    ("/".intercalate names).toList.head? ≠ some '/' := by
  by_cases hnone : names = []
  · rw [hnone]
    decide
  · obtain ⟨c, cs, htext, hc⟩ := Path.exists_unfields_eq_cons (fun he => hnone (List.map_eq_nil_iff.1 he))
      (List.forall_mem_map.2 h)
    rw [toList_intercalate, htext]
    exact fun he => hc (Option.some.inj he)

theorem orHere_ne_empty (path : String) : Disk.orHere path ≠ "" := by
  unfold Disk.orHere
  split
  · decide
  · assumption

theorem namesOn_orHere (path : String) : namesOn (Disk.orHere path) = namesOn path := by
  unfold Disk.orHere
  split
  · next hempty =>
    rw [hempty]
    decide
  · rfl

theorem start_orHere (origin : List String) (path : String) :
    Disk.start origin (Disk.orHere path) = Disk.start origin path := by
  unfold Disk.orHere
  split
  · next hempty =>
    rw [hempty]
    rfl
  · rfl

/-- **The names on a path below a directory** are those of the directory and its own, -/
theorem namesOn_pathBelow (hp : Path.ArePlain names) :
    namesOn (pathBelow directory names) = namesOn directory ++ names := by
  rw [pathBelow, namesOn_orHere, namesOn_slashes _ (of_mem_parts directory hp)]

/-- and it starts where the directory does. -/
theorem start_pathBelow (hp : Path.ArePlain names) (origin : List String) :
    Disk.start origin (pathBelow directory names) = Disk.start origin directory := by
  have hslashes := Path.leadingSlashes_bne_zero directory.toList
  rw [pathBelow, start_orHere]
  refine if_congr ?_ rfl rfl
  rw [String.toList_append, String.toList_ofList]
  generalize Path.leadingSlashes directory.toList = k at hslashes
  cases k with
  | zero =>
    have hparts := fun n hn =>
      (of_mem_parts directory hp n hn).imp_right And.right
    exact iff_of_false (head?_intercalate_ne_slash hparts) (by simpa using hslashes)
  | succ k => exact iff_of_true rfl (by simpa using hslashes)

/-! ## 3. Extensions -/

/-- An extension is the end of its name. -/
theorem endsBlank_extension {name : String} (hne : extension name ≠ "")
    (h : Text.endsBlank name.toList = true) : Text.endsBlank (extension name).toList = true := by
  unfold extension at hne ⊢
  dsimp only at hne ⊢
  generalize htail : (name.toList.reverse.takeWhile (· != '.')).reverse = tail at hne ⊢
  split at hne
  · next hlong =>
    have hends : tail <:+ name.toList := by
      rw [← htail, ← List.reverse_prefix, List.reverse_reverse]
      exact List.takeWhile_prefix _
    obtain ⟨front, hfront⟩ := hends
    rw [← hfront, Text.endsBlank_append_of_ne_nil hlong.2] at h
    rw [if_pos hlong, String.toList_ofList, Text.endsBlank_cons_of_ne_nil hlong.2]
    exact h
  · exact absurd rfl hne

/-- **What belongs on a shelf does not end in a blank**: no extension of the tables does. -/
theorem endsBlank_of_shelfOf {path : String} {shelf : Shelf} (h : shelfOf path = some shelf) :
    Text.endsBlank ((namesOn path).getLastD "").toList = false := by
  have htables : ∀ e ∈ codeExtensions ++ docsExtensions,
      e ≠ "" ∧ Text.endsBlank e.toList = false := by decide
  unfold shelfOf at h
  dsimp only at h
  generalize (namesOn path).getLastD "" = name at h
  have hlisted : lower (extension name) ∈ codeExtensions ++ docsExtensions := by
    split at h
    · cases h
    · split at h
      · next hcode => exact List.mem_append_left _ (List.contains_iff_mem.1 hcode)
      · split at h
        · next hdocs => exact List.mem_append_right _ (List.contains_iff_mem.1 hdocs)
        · cases h
  obtain ⟨hne, hblank⟩ := htables _ hlisted
  have hext : extension name ≠ "" := by
    intro he
    rw [he] at hne
    exact hne rfl
  by_contra hends
  have hlower := Text.endsBlank_map_toLower
    (endsBlank_extension hext (Bool.eq_true_of_not_eq_false hends))
  rw [lower, String.toList_ofList, hlower] at hblank
  cases hblank

/-! ## 4. Listing directories -/

theorem Item.mem_into {item other : Item} {items : List Item} :
    other ∈ item.into items ↔ other = item ∨ other ∈ items := by
  induction items with
  | nil => simp [into]
  | cons first items ih =>
    rw [into]
    split
    · exact List.mem_cons
    · rw [List.mem_cons, List.mem_cons, ih]
      exact or_left_comm

theorem mem_inOrder {places : List (List String)} {strays : List Stray} {item : Item} :
    item ∈ inOrder places strays ↔
      (∃ names ∈ places, .named names = item) ∨ ∃ place ∈ strays, .stray place = item := by
  induction strays with
  | nil => simp [inOrder]
  | cons place strays ih =>
    have hcons : inOrder places (place :: strays) = (Item.stray place).into (inOrder places strays) :=
      rfl
    rw [hcons, Item.mem_into, ih, List.exists_mem_cons_iff, eq_comm]
    exact or_left_comm

section Below

variable {d : Disk} {inside deeper : Forest DiskLeaf} {strays : List Stray}

/-- The directories of a forest, by the names on the way to them. -/
theorem mem_foldersIn (hr : inside.Rising) :
    names ∈ foldersIn inside ↔ names ≠ [] ∧ ∃ deeper, inside.at? names = some (.folder deeper) := by
  have hplace : names ∈ foldersIn inside ↔ (names, none) ∈ inside.places [] := by
    simp [foldersIn]
  rw [hplace, hr.mem_places_iff, ← Forest.outline_eq_none_iff]
  constructor
  · rintro ⟨rel, hne, rfl, ho⟩
    exact ⟨hne, ho⟩
  · rintro ⟨hne, ho⟩
    exact ⟨names, hne, rfl, ho⟩

/-- The leaves of a forest, by the names on the way to them. -/
theorem leaf_of_mem_leavesIn (hr : inside.Rising) (h : names ∈ leavesIn inside) :
    names ≠ [] ∧ ∃ x, inside.at? names = some (.leaf x) := by
  obtain ⟨⟨ns, content⟩, hplace, rfl⟩ := List.mem_map.1 h
  obtain ⟨hplace, hsome⟩ := List.mem_filter.1 hplace
  obtain ⟨x, rfl⟩ := Option.isSome_iff_exists.1 hsome
  obtain ⟨rel, hne, rfl, ho⟩ := hr.mem_places_iff.1 hplace
  exact ⟨hne, x, Forest.at?_of_outline ho⟩

/-- **All directories can be listed**: the host takes the paths of those in the tree and of the stray
ones. -/
structure IsListable (directory : String) (inside : Forest DiskLeaf) (strays : List Stray) : Prop where
  named : ∀ names deeper, inside.at? names = some (.folder deeper) →
    ¬ Disk.IsTooLong (pathBelow directory names)
  stray : ∀ place ∈ strays, place.size = none →
    bytesOf (signsBelow directory place) < Disk.pathLimit

variable (hd : d.Sound)
  (hat : d.root.at? (Disk.start d.cwd directory ++ namesOn directory) = some (.folder inside))
include hd hat

theorem arePlain_below (hs : (inside.at? names).isSome = true) : Path.ArePlain names :=
  Forest.arePlain_of_at? (Forest.plain_of_at? hd.plain hat) hs

/-- **The path of a directory below** leads there, if the host takes it. -/
theorem locate_pathBelow (hin : inside.at? names = some (.folder deeper)) :
    d.locate (pathBelow directory names) =
      if Disk.IsTooLong (pathBelow directory names) then .error .nameTooLong
      else .ok (.directory (Disk.start d.cwd directory ++ namesOn directory ++ names)) := by
  have hp : Path.ArePlain names := arePlain_below hd hat (by rw [hin]; rfl)
  have hall : d.root.at? (Disk.start d.cwd directory ++ (namesOn directory ++ names)) =
      some (.folder deeper) := by
    rw [← List.append_assoc, Forest.at?_append hat, hin]
  have hmoves : Disk.moves (Disk.fieldsOf (pathBelow directory names)) =
      namesOn directory ++ names := by rw [moves_eq_namesOn, namesOn_pathBelow hp]
  have hplain : Path.ArePlain (Disk.start d.cwd directory ++ (namesOn directory ++ names)) :=
    Forest.arePlain_of_at? hd.plain (by rw [hall]; rfl)
  have hnames : ∀ n ∈ namesOn directory ++ names, Disk.Names n := fun n hn =>
    Disk.names_of_isPlain (hplain n (List.mem_append_right _ hn))
  have hne : pathBelow directory names ≠ "" := orHere_ne_empty _
  rw [← start_pathBelow hp] at hall
  rw [Disk.locate_of_folder hne hmoves hnames hall, start_pathBelow hp, List.append_assoc]

/-- What is collected from is the inside of the directory. -/
theorem insideOf_eq : insideOf d directory =
    if Disk.IsTooLong (pathBelow directory []) then
      .error (.host .nameTooLong (pathBelow directory []))
    else .ok inside := by
  have hroot : inside.at? [] = some (.folder inside) := rfl
  unfold insideOf
  rw [locate_pathBelow hd hat hroot, List.append_nil]
  by_cases hlong : Disk.IsTooLong (pathBelow directory [])
  · rw [if_pos hlong, if_pos hlong]
  · rw [if_neg hlong, if_neg hlong]
    dsimp only
    rw [hat]

/-- A directory of the tree is refused only where its path is too long. -/
theorem refusal?_of_folder (hin : inside.at? names = some (.folder deeper)) :
    refusal? d directory (.named names) =
      if Disk.IsTooLong (pathBelow directory names) then
        some (.host .nameTooLong (pathBelow directory names))
      else none := by
  rw [refusal?, locate_pathBelow hd hat hin]
  by_cases hlong : Disk.IsTooLong (pathBelow directory names)
  · rw [if_pos hlong, if_pos hlong]
  · rw [if_neg hlong, if_neg hlong]

/-- All directories can be listed if none of them is refused, the first one included. -/
theorem isListable_iff :
    IsListable directory inside strays ↔ ¬ Disk.IsTooLong (pathBelow directory []) ∧
      (inOrder (foldersIn inside) (strays.filter (·.size.isNone))).findSome? (refusal? d directory) =
        none := by
  have hr : inside.Rising := hd.rising.of_at? hat
  rw [List.findSome?_eq_none_iff]
  constructor
  · intro h
    refine ⟨h.named [] inside rfl, fun item hitem => ?_⟩
    rcases mem_inOrder.1 hitem with ⟨names, hm, rfl⟩ | ⟨place, hm, rfl⟩
    · obtain ⟨-, deeper, hin⟩ := (mem_foldersIn hr).1 hm
      rw [refusal?_of_folder hd hat hin, if_neg (h.named names deeper hin)]
    · obtain ⟨hm, hsize⟩ := List.mem_filter.1 hm
      exact if_neg (Nat.not_le.2 (h.stray place hm (by simpa using hsize)))
  · rintro ⟨hroot, hnone⟩
    refine ⟨fun names deeper hin hlong => ?_, fun place hm hsize => Nat.not_le.1 fun hlong => ?_⟩
    · by_cases hne : names = []
      · exact hroot (hne ▸ hlong)
      · have hthis := hnone (.named names)
          (mem_inOrder.2 (.inl ⟨names, (mem_foldersIn hr).2 ⟨hne, deeper, hin⟩, rfl⟩))
        rw [refusal?_of_folder hd hat hin, if_pos hlong] at hthis
        cases hthis
    · have hthis := hnone (.stray place)
        (mem_inOrder.2 (.inr ⟨place, List.mem_filter.2 ⟨hm, by simp [hsize]⟩, rfl⟩))
      rw [refusal?, if_pos hlong] at hthis
      cases hthis

/-- Whatever is refused, the fault is one of the host. -/
theorem label_of_refusal? {item : Item} {f : Fault}
    (hitem : item ∈ inOrder (foldersIn inside) strays) (hf : refusal? d directory item = some f) :
    f.label = "OSError" := by
  rcases mem_inOrder.1 hitem with ⟨names, hm, rfl⟩ | ⟨place, -, rfl⟩
  · obtain ⟨-, deeper, hin⟩ := (mem_foldersIn (hd.rising.of_at? hat)).1 hm
    rw [refusal?_of_folder hd hat hin] at hf
    split at hf
    · cases hf
      rfl
    · cases hf
  · rw [refusal?] at hf
    split at hf
    · cases hf
      rfl
    · cases hf

/-- **Collecting ends well if all directories can be listed**, and with a refusal of the host if one
of them cannot. -/
theorem collect_cases (strays : List Stray) :
    (IsListable directory inside strays ∧ ∃ collected,
      collect d strays directory = .ok collected ∧ ∀ shelf, collected.on shelf =
        filed d directory (inOrder (leavesIn inside) (strays.filter (·.size.isSome))) shelf) ∨
    (¬ IsListable directory inside strays ∧
      ∃ f, collect d strays directory = .error f ∧ f.label = "OSError") := by
  rw [isListable_iff hd hat, collect, insideOf_eq hd hat]
  by_cases hroot : Disk.IsTooLong (pathBelow directory [])
  · rw [if_pos hroot]
    exact .inr ⟨fun h => h.1 hroot, _, rfl, rfl⟩
  rw [if_neg hroot]
  dsimp only
  cases hrefusal : (inOrder (foldersIn inside) (strays.filter (·.size.isNone))).findSome?
      (refusal? d directory) with
  | none => exact .inl ⟨⟨hroot, rfl⟩, _, rfl, fun shelf => by cases shelf <;> rfl⟩
  | some f =>
    obtain ⟨item, hitem, hf⟩ := List.exists_of_findSome?_eq_some hrefusal
    exact .inr ⟨fun h => (nomatch h.2), f, rfl, label_of_refusal? hd hat hitem hf⟩

end Below

/-! ## 5. What is collected -/

variable {d : Disk} {inside : Forest DiskLeaf} {strays : List Stray} {items : List Item}
  {shelf : Shelf}

/-- **Items that can be stored one after the other**: by names, no file of the tree below another
one, all of them readable, and none on the way to the directory of a stray place. -/
structure Storable (d : Disk) (directory : String) (items : List Item) : Prop where
  ne_nil : ∀ item ∈ items, item.shownNames ≠ []
  names : ∀ item ∈ items, Path.AreNames item.shownNames
  apart : ∀ names, .named names ∈ items → ∀ other, .named other ∈ items →
    names <+: other → names = other
  readable : ∀ names, .named names ∈ items → ∃ data, d.read (pathBelow directory names) = .ok data
  room : ∀ place, .stray place ∈ items → place.isHeld = true → ∀ names, .named names ∈ items →
    ¬ names <+: place.shownNames.dropLast

/-- Some of them can be stored without the others. -/
theorem Storable.mono {more : List Item} (h : Storable d directory more) (hs : items ⊆ more) :
    Storable d directory items where
  ne_nil item hm := h.ne_nil item (hs hm)
  names item hm := h.names item (hs hm)
  apart names hm other hm' := h.apart names (hs hm) other (hs hm')
  readable names hm := h.readable names (hs hm)
  room place hm hheld names hm' := h.room place (hs hm) hheld names (hs hm')

/-- **A stray place is in a forest**: by plain names, those of directories without a blank at the end;
and if these are texts, they lead to a directory of the forest. -/
structure Stray.IsIn (place : Stray) (inside : Forest DiskLeaf) : Prop where
  plain : Path.ArePlain place.shownNames
  above : ∀ name ∈ place.shownNames.dropLast, Text.endsBlank name.toList = false
  held : place.isHeld = true →
    ∃ deeper, inside.at? place.shownNames.dropLast = some (.folder deeper)

theorem Stray.shownNames_ne_nil (place : Stray) : place.shownNames ≠ [] := by
  intro he
  have hstray := place.isStray
  rw [List.map_eq_nil_iff.1 he] at hstray
  cases hstray

/-- The names of a collected item, if no directory's name ends in a blank. -/
theorem areNames_of_mem_filed {item : Item} (hitem : item ∈ filed d directory items shelf)
    (hne : item.shownNames ≠ []) (hp : Path.ArePlain item.shownNames)
    (habove : ∀ name ∈ item.shownNames.dropLast, Text.endsBlank name.toList = false) :
    Path.AreNames item.shownNames := by
  obtain ⟨-, htaken⟩ := List.mem_filter.1 hitem
  have hlast := endsBlank_of_shelfOf (of_decide_eq_true (Bool.and_eq_true_iff.1 htaken).2)
  rw [namesOn_intercalate hp] at hlast
  generalize item.shownNames = names at *
  obtain ⟨above, n, rfl⟩ : ∃ above n, names = above ++ [n] :=
    ⟨names.dropLast, names.getLast hne, (List.dropLast_append_getLast hne).symm⟩
  rw [List.dropLast_concat] at habove
  rw [List.getLastD_concat] at hlast
  exact Path.areNames_append_singleton.2 ⟨fun m hm =>
    ⟨hp m (List.mem_append_left _ hm), habove m hm⟩, hp n List.mem_concat_self, hlast⟩

/-- A collected place of the tree is a leaf, and can be read. -/
theorem leaf_of_mem_filed (hr : inside.Rising)
    (h : .named names ∈ filed d directory (inOrder (leavesIn inside) strays) shelf) :
    names ≠ [] ∧ (∃ x, inside.at? names = some (.leaf x)) ∧
      ∃ data, d.read (pathBelow directory names) = .ok data := by
  obtain ⟨hitem, htaken⟩ := List.mem_filter.1 h
  obtain ⟨hne, hleaf⟩ : names ≠ [] ∧ ∃ x, inside.at? names = some (.leaf x) := by
    rcases mem_inOrder.1 hitem with ⟨_, hm, he⟩ | ⟨_, -, he⟩
    · cases he
      exact leaf_of_mem_leavesIn hr hm
    · cases he
  refine ⟨hne, hleaf, ?_⟩
  have htaken := (Bool.and_eq_true_iff.1 htaken).1
  unfold isTaken at htaken
  dsimp only at htaken
  split at htaken
  · next data hfile => exact ⟨data, by rw [Disk.read, hfile]⟩
  · cases htaken

/-- A file is not on the way to a directory. -/
theorem not_prefix_of_folder {above : List String} {x : DiskLeaf} {deeper : Forest DiskLeaf}
    (hleaf : inside.at? names = some (.leaf x)) (hat : inside.at? above = some (.folder deeper)) :
    ¬ names <+: above := by
  intro hprefix
  by_cases he : names = above
  · cases (he ▸ hleaf).symm.trans hat
  · obtain ⟨folder, hfolder⟩ := Forest.exists_folder_of_prefix (by rw [hat]; rfl) hprefix he
    cases hleaf.symm.trans hfolder

section Filed

variable (hr : inside.Rising) (hstrays : ∀ place ∈ strays, place.IsIn inside)

include hstrays in
theorem isIn_of_mem_filed {place : Stray}
    (h : .stray place ∈ filed d directory (inOrder (leavesIn inside) strays) shelf) :
    place.IsIn inside := by
  rcases mem_inOrder.1 (List.mem_filter.1 h).1 with ⟨_, -, he⟩ | ⟨_, hm, he⟩
  · cases he
  · cases he
    exact hstrays place hm

variable (hp : inside.Plain)
  (hblank : inside.FolderNames fun name => Text.endsBlank name.toList = false)
include hr hstrays hp hblank

/-- The names of what is collected. -/
theorem names_of_mem_filed {item : Item}
    (h : item ∈ filed d directory (inOrder (leavesIn inside) strays) shelf) :
    item.shownNames ≠ [] ∧ Path.AreNames item.shownNames := by
  cases item with
  | named names =>
    obtain ⟨hne, ⟨x, hx⟩, -⟩ := leaf_of_mem_filed hr h
    have hplain : Path.ArePlain names := Forest.arePlain_of_at? hp (by rw [hx]; rfl)
    rw [← List.dropLast_append_getLast hne] at hx
    obtain ⟨folder, hfolder, -⟩ := Forest.exists_folder_above hx
    exact ⟨hne, areNames_of_mem_filed h hne hplain (hblank.of_at? hfolder)⟩
  | stray place =>
    have hin := isIn_of_mem_filed hstrays h
    exact ⟨place.shownNames_ne_nil,
      areNames_of_mem_filed h place.shownNames_ne_nil hin.plain hin.above⟩

/-- **What is collected can be stored**, when no directory's name ends in a blank. -/
theorem storable_filed (shelf : Shelf) :
    Storable d directory (filed d directory (inOrder (leavesIn inside) strays) shelf) where
  ne_nil _ hm := (names_of_mem_filed hr hstrays hp hblank hm).1
  names _ hm := (names_of_mem_filed hr hstrays hp hblank hm).2
  apart names hm other hm' hprefix := by
    obtain ⟨-, ⟨x, hx⟩, -⟩ := leaf_of_mem_filed hr hm
    obtain ⟨-, ⟨y, hy⟩, -⟩ := leaf_of_mem_filed hr hm'
    by_contra hother
    obtain ⟨folder, hfolder⟩ := Forest.exists_folder_of_prefix (by rw [hy]; rfl) hprefix hother
    cases hx.symm.trans hfolder
  readable _ hm := (leaf_of_mem_filed hr hm).2.2
  room place hm hheld names hm' := by
    obtain ⟨-, ⟨x, hx⟩, -⟩ := leaf_of_mem_filed hr hm'
    obtain ⟨deeper, hat⟩ := (isIn_of_mem_filed hstrays hm).held hheld
    exact not_prefix_of_folder hx hat

end Filed

/-! ## 6. Stray items -/

/-- Some of the items are stray places. -/
def hasStray (items : List Item) : Bool := items.any fun item => item.named?.isNone

/-- Some collected file is a stray place. -/
def Collected.hasStray (c : Collected) : Bool := Archive.hasStray c.code || Archive.hasStray c.docs

/-- Items are places of the tree, or a stray one comes behind some of these. -/
theorem named_or_stray (items : List Item) :
    (hasStray items = false ∧ items = (items.filterMap Item.named?).map .named) ∨
      (hasStray items = true ∧
        ∃ (files : List (List String)) (place : Stray) (rest : List Item),
          items = files.map .named ++ .stray place :: rest) := by
  induction items with
  | nil => exact .inl ⟨rfl, rfl⟩
  | cons item items ih =>
    cases item with
    | stray place => exact .inr ⟨rfl, [], place, items, rfl⟩
    | named names =>
      rcases ih with ⟨hnone, he⟩ | ⟨hsome, files, place, rest, he⟩
      · exact .inl ⟨hnone, congrArg (.named names :: ·) he⟩
      · refine .inr ⟨hsome, names :: files, place, rest, ?_⟩
        rw [he, List.map_cons, List.cons_append]

end Archive

end Arboretum
