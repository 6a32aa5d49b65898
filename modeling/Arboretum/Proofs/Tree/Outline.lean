import Arboretum.Proofs.Tree.Rising

/-!
# The outline of a forest

The **outline** of a forest says what stands at each place: a directory, without its inside, or a
leaf with what it holds.  It serves forests with any leaves.  Taking a leaf or an empty folder out
of a forest empties one place of the outline (`outline_erase`), and the places that a forest of rising
names lists are those of its outline (`Rising.mem_places_iff`).
-/

namespace Arboretum

/-- A node without its inside: what a leaf holds, nothing for a folder. -/
def Node.outline {α : Type} : Node α → Option α
  | .leaf content => some content
  | .folder _ => none

namespace Forest

variable {α : Type} {f : Forest α} {name : String} {node : Node α} {above ns : List String}

/-- **What stands at a place** of a forest: a folder, shown as no content, or a leaf with its own. -/
def outline (f : Forest α) (ns : List String) : Option (Option α) := (f.at? ns).map Node.outline

theorem outline_of_at? (h : f.at? ns = some node) : f.outline ns = some node.outline := by
  rw [outline, h]
  rfl

theorem isSome_of_outline {x : Option α} (h : f.outline ns = some x) : (f.at? ns).isSome = true := by
  obtain ⟨node, hn, -⟩ := Option.map_eq_some_iff.1 h
  rw [hn]
  rfl

/-- Where a leaf shows, there is that leaf. -/
theorem at?_of_outline {content : α} (h : f.outline ns = some (some content)) :
    f.at? ns = some (.leaf content) := by
  obtain ⟨node, hn, ho⟩ := Option.map_eq_some_iff.1 h
  cases node with
  | leaf other =>
    cases ho
    exact hn
  | folder inside => cases ho

/-- Where no content shows, there is a folder. -/
theorem outline_eq_none_iff : f.outline ns = some none ↔ ∃ inside, f.at? ns = some (.folder inside) := by
  constructor
  · intro h
    obtain ⟨node, hn, ho⟩ := Option.map_eq_some_iff.1 h
    cases node with
    | leaf content => cases ho
    | folder inside => exact ⟨inside, hn⟩
  · rintro ⟨inside, hn⟩
    exact outline_of_at? hn

/-- Whatever stands somewhere stands in a folder. -/
theorem exists_folder_above (h : f.at? (above ++ [name]) = some node) :
    ∃ inside, f.at? above = some (.folder inside) ∧ inside.find? name = some node := by
  induction above generalizing f with
  | nil =>
    refine ⟨f, rfl, ?_⟩
    rw [← h, ← at?_append_singleton (at?_nil f), List.nil_append]
  | cons first above ih =>
    rw [List.cons_append, at?_cons] at h
    cases hf : f.find? first with
    | none =>
      rw [hf] at h
      cases h
    | some y =>
      rw [hf] at h
      cases y with
      | leaf content =>
        dsimp only at h
        rw [if_neg (by simp)] at h
        cases h
      | folder g =>
        obtain ⟨inside, ha, hn⟩ := ih h
        refine ⟨inside, ?_, hn⟩
        rw [at?_cons, hf]
        exact ha

/-- So every place on the way there is a folder. -/
theorem exists_folder_of_prefix (h : (f.at? ns).isSome = true) {ms : List String} (hp : ms <+: ns)
    (hne : ms ≠ ns) : ∃ inside, f.at? ms = some (.folder inside) := by
  obtain ⟨rest, rfl⟩ := hp
  induction rest using List.reverseRecOn with
  | nil => exact absurd (List.append_nil ms).symm hne
  | append_singleton rest name ih =>
    rw [← List.append_assoc] at h
    obtain ⟨node, hnode⟩ := Option.isSome_iff_exists.1 h
    obtain ⟨inside, hat, -⟩ := exists_folder_above hnode
    by_cases hrest : rest = []
    · rw [hrest, List.append_nil] at hat
      exact ⟨inside, hat⟩
    · exact ih (by rw [hat]; rfl) (by simpa using hrest)

/-- Below a leaf or an empty folder there is nothing. -/
theorem at?_below (hn : f.find? name = some node) (he : node = .folder .empty ∨ ∃ x, node = .leaf x)
    (m : String) (ms : List String) : f.at? (name :: m :: ms) = none := by
  rw [at?_cons, hn]
  rcases he with rfl | ⟨x, rfl⟩
  · rfl
  · rfl

/-- **Taking a leaf or an empty folder out of a directory empties one place.** -/
theorem outline_erase (hr : f.Rising) (ha : f.at? (above ++ [name]) = some node)
    (he : node = .folder .empty ∨ ∃ x, node = .leaf x) (ns : List String) :
    (f.change (Forest.erase name) above).outline ns =
      if ns = above ++ [name] then none else f.outline ns := by
  unfold outline
  induction above generalizing f ns with
  | nil =>
    cases ns with
    | nil => rfl
    | cons m ms =>
      obtain ⟨g, hg, hn⟩ := exists_folder_above ha
      cases hg
      rw [change, at?_cons]
      by_cases hm : name = m
      · subst hm
        rw [hr.find?_erase_self]
        cases ms with
        | nil => exact (if_pos rfl).symm
        | cons k ks =>
          rw [if_neg (by simp), at?_below hn he]
      · rw [find?_erase_of_ne hm, ← at?_cons, if_neg]
        exact fun heq => hm (List.cons.inj heq).1.symm
  | cons first above ih =>
    obtain ⟨inside, hfolder, -⟩ := exists_folder_above ha
    obtain ⟨g, hg, -⟩ := at?_cons_eq_folder hfolder
    rw [List.cons_append, at?_cons, hg] at ha
    rw [change_cons hg]
    cases ns with
    | nil => rfl
    | cons m ms =>
      rw [at?_cons, find?_put]
      by_cases hm : first = m
      · subst hm
        rw [if_pos rfl, at?_cons, hg]
        dsimp only
        rw [ih (hr.of_find? hg) ha, List.cons_append]
        exact if_congr (List.cons_inj_right first).symm rfl rfl
      · rw [if_neg hm, ← at?_cons, if_neg]
        exact fun heq => hm (List.cons.inj heq).1.symm

/-- A way that begins with the name of the first node leads into that node. -/
theorem outline_leaf (name : String) (content : α) (rest : Forest α) (n : String) :
    (Forest.leaf name content rest).outline (n :: ns) =
      if name = n then (if ns = [] then some (some content) else none) else rest.outline (n :: ns) := by
  rw [outline, at?_cons, find?]
  by_cases he : name = n
  · rw [if_pos he, if_pos he]
    cases ns <;> rfl
  · rw [if_neg he, if_neg he, ← at?_cons]
    rfl

theorem outline_folder (name : String) (inside rest : Forest α) (n : String) :
    (Forest.folder name inside rest).outline (n :: ns) =
      if name = n then inside.outline ns else rest.outline (n :: ns) := by
  rw [outline, at?_cons, find?]
  by_cases he : name = n
  · rw [if_pos he, if_pos he]
    rfl
  · rw [if_neg he, if_neg he, ← at?_cons]
    rfl

/-- **The places below a path** are those of the outline. -/
theorem Rising.mem_places_iff (h : f.Rising) {x : Option α} :
    (ns, x) ∈ f.places above ↔ ∃ rel, rel ≠ [] ∧ ns = above ++ rel ∧ f.outline rel = some x := by
  induction f generalizing above with
  | empty =>
    refine ⟨fun hm => absurd hm List.not_mem_nil, ?_⟩
    rintro ⟨rel, hne, -, ho⟩
    cases rel with
    | nil => exact absurd rfl hne
    | cons n rel => cases ho
  | leaf name content rest ih =>
    have hbefore : ((Node.leaf content).before name rest).Rising := h
    obtain ⟨hlt, -, hr⟩ := rising_before.1 hbefore
    rw [places, List.mem_cons, ih hr]
    constructor
    · rintro (he | ⟨rel, hne, rfl, ho⟩)
      · obtain ⟨rfl, rfl⟩ := Prod.mk.inj he
        exact ⟨[name], List.cons_ne_nil _ _, rfl, by rw [outline_leaf, if_pos rfl, if_pos rfl]⟩
      · refine ⟨rel, hne, rfl, ?_⟩
        cases rel with
        | nil => exact absurd rfl hne
        | cons n rel => rwa [outline_leaf, if_neg (ne_of_isSome_rest hlt (isSome_of_outline ho))]
    · rintro ⟨rel, hne, rfl, ho⟩
      cases rel with
      | nil => exact absurd rfl hne
      | cons n rel =>
        rw [outline_leaf] at ho
        split at ho
        · next hname =>
          split at ho
          · next hend =>
            cases ho
            exact .inl (by rw [hname, hend])
          · cases ho
        · exact .inr ⟨n :: rel, hne, rfl, ho⟩
  | folder name inside rest ihi ihr =>
    have hbefore : ((Node.folder inside).before name rest).Rising := h
    obtain ⟨hlt, hi, hr⟩ := rising_before.1 hbefore
    rw [places, List.mem_cons, List.mem_append, ihi hi, ihr hr]
    constructor
    · rintro (he | ⟨rel, -, rfl, ho⟩ | ⟨rel, hne, rfl, ho⟩)
      · obtain ⟨rfl, rfl⟩ := Prod.mk.inj he
        refine ⟨[name], List.cons_ne_nil _ _, rfl, ?_⟩
        rw [outline_folder, if_pos rfl]
        rfl
      · refine ⟨name :: rel, List.cons_ne_nil _ _, List.append_assoc above [name] rel, ?_⟩
        rwa [outline_folder, if_pos rfl]
      · refine ⟨rel, hne, rfl, ?_⟩
        cases rel with
        | nil => exact absurd rfl hne
        | cons n rel => rwa [outline_folder, if_neg (ne_of_isSome_rest hlt (isSome_of_outline ho))]
    · rintro ⟨rel, hne, rfl, ho⟩
      cases rel with
      | nil => exact absurd rfl hne
      | cons n rel =>
        rw [outline_folder] at ho
        split at ho
        · next hname =>
          subst hname
          cases rel with
          | nil =>
            cases ho
            exact .inl rfl
          | cons m rel =>
            exact .inr (.inl ⟨m :: rel, List.cons_ne_nil _ _,
              (List.append_assoc above [name] (m :: rel)).symm, ho⟩)
        · exact .inr (.inr ⟨n :: rel, hne, rfl, ho⟩)

end Forest

end Arboretum
