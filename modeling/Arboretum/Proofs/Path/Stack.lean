import Arboretum.Proofs.Path.Parts

/-!
# Clean paths by a stack machine

What cleaning leaves, said without normal forms and without any repair of slashes: a machine reads
the components of the trimmed text from left to right and keeps the names on the way down from the
root on a stack.  An empty component and `.` leave the stack alone, `..` takes the last name back,
and every other component is a name that goes on top.  The root's stack is empty, and from there
`..` takes nothing back: no text leads above the root.

* `map_toList_act`, `map_toList_run`: what one component, and then a whole text, does to the stack
  is what reducing fields at the root does;
* `names_eq_stacked`: the names on the way to a clean path are the machine's stack;
* `clean_eq_stacked`: so the clean path is a slash and the stack with slashes between its names,
  it has the shape of a path from the root, and `split` cuts it before its last component.
-/

namespace Arboretum.Path

/-! ## 1. The machine -/

/-- What a component does on the way down from the root. -/
inductive Move where
  | stay
  | up
  | down (name : String)
  deriving DecidableEq, Repr

/-- **How a component is read.** -/
def Move.of (component : String) : Move :=
  if component = "" then .stay
  else if component = "." then .stay
  else if component = ".." then .up
  else .down component

/-- What a move makes of the stack of names, the last one first. -/
def Move.act : Move → List String → List String
  | .stay, stack => stack
  | .up, [] => []
  | .up, _ :: below => below
  | .down name, stack => name :: stack

/-- **A run of the machine** over components, from left to right. -/
def Move.run (components stack : List String) : List String :=
  components.foldl (fun stack component => (Move.of component).act stack) stack

/-- The components of a text: what stands between its slashes. -/
def components (cs : List Char) : List String := (fields cs).map String.ofList

/-- **The stack that a text leaves**, when the machine starts at the root. -/
def stacked (path : String) : List String := Move.run (components (Text.trim path.toList)) []

/-- The components of a path from the root: those behind its first slash, and none of the root. -/
def belowRoot (path : String) : List String :=
  if path = root then [] else components path.toList.tail

/-! ## 2. One step -/

variable {ns stack : List String} {component path : String}

/-- A component is read by its characters. -/
theorem Move.of_eq (component : String) : Move.of component =
    if component.toList = [] ∨ component.toList = here then .stay
    else if component.toList = above then .up
    else .down component := by
  have hnil : component = "" ↔ component.toList = [] := String.toList_eq_nil_iff.symm
  have hhere : component = "." ↔ component.toList = here := String.toList_inj.symm
  have habove : component = ".." ↔ component.toList = above := String.toList_inj.symm
  unfold Move.of
  simp only [hnil, hhere, habove]
  split
  · next h => rw [if_pos (.inl h)]
  · next h => simp [h]

/-- **One component does to a stack of plain names what one field does at the root.**  Reducing
looks whether a `..` is on top, for the sake of relative paths; among plain names none is. -/
theorem map_toList_act (hs : ArePlain stack) (component : String) :
    ((Move.of component).act stack).map String.toList =
      push true (stack.map String.toList) component.toList := by
  rw [Move.of_eq]
  by_cases habove : component.toList = above
  · rw [if_neg (by rw [habove]; decide), if_pos habove, habove,
      push_above (isPlain_of_mem_map hs)]
    cases stack with
    | nil => rfl
    | cons top below => rfl
  · unfold push
    rw [if_neg habove, if_neg habove]
    split
    · rfl
    · rfl

/-- **The stack stays a stack of plain names.** -/
theorem arePlain_act (hs : ArePlain stack) (hc : '/' ∉ component.toList) :
    ArePlain ((Move.of component).act stack) := by
  intro n hn
  have hm : n.toList ∈ push true (stack.map String.toList) component.toList :=
    map_toList_act hs component ▸ List.mem_map_of_mem hn
  exact isPlain_of_mem_push (isPlain_of_mem_map hs) hc hm

/-! ## 3. Whole texts -/

/-- **A run of the machine reduces fields at the root.** -/
theorem map_toList_run {components : List String} (hs : ArePlain stack)
    (hc : ∀ c ∈ components, '/' ∉ c.toList) :
    (Move.run components stack).map String.toList =
      (components.map String.toList).foldl (push true) (stack.map String.toList) := by
  -- the stack stays plain at every component, so that the next step is one of reducing again
  induction components generalizing stack with
  | nil => rfl
  | cons component rest ih =>
    have hplain := arePlain_act hs (hc component List.mem_cons_self)
    have hrest := ih hplain fun c h => hc c (List.mem_cons_of_mem component h)
    rw [List.map_cons, List.foldl_cons, ← map_toList_act hs component]
    exact hrest

theorem map_toList_components (cs : List Char) : (components cs).map String.toList = fields cs := by
  simp [components, Function.comp_def]

theorem map_toList_stacked (path : String) :
    (stacked path).map String.toList = (fields (Text.trim path.toList)).foldl (push true) [] := by
  have hslash : ∀ c ∈ components (Text.trim path.toList), '/' ∉ c.toList := by
    intro c hc
    have hmem : c.toList ∈ fields (Text.trim path.toList) :=
      map_toList_components _ ▸ List.mem_map_of_mem hc
    exact no_slash_of_mem_fields hmem
  have hrun := map_toList_run arePlain_nil hslash
  rwa [map_toList_components] at hrun

/-- **The names on the way to a clean path** are the stack that its text leaves. -/
theorem names_eq_stacked (path : String) : names path = (stacked path).reverse := by
  rw [names_eq, keptFields, reduce, ← map_toList_stacked, ← List.map_reverse, map_ofList_toList]

/-! ## 4. The shape of a clean path -/

theorem ofNames_eq_intercalate (ns : List String) : ofNames ns = "/" ++ "/".intercalate ns := by
  rw [← String.toList_inj, toList_ofNames, String.toList_append, String.toList_intercalate]
  rfl

/-- Plain names are the components of their path. -/
theorem belowRoot_ofNames (hp : ArePlain ns) : belowRoot (ofNames ns) = ns := by
  unfold belowRoot
  split
  · next h => exact ((ofNames_inj_of_plain hp arePlain_nil).1 h).symm
  · next h =>
    have hne : ns ≠ [] := fun hnil => h (by rw [hnil, ofNames_nil])
    rw [toList_ofNames, List.tail_cons, components, fields_unfields (by simpa using hne),
      map_ofList_toList]
    exact fun f hf => (isPlain_of_mem_map hp f hf).no_slash

theorem belowRoot_clean (path : String) : belowRoot (clean path) = names path := by
  rw [clean_eq_ofNames, belowRoot_ofNames (arePlain_names path)]

/-- A clean path starts with no second slash. -/
theorem clean_getElem?_one_ne_slash (path : String) : (clean path).toList[1]? ≠ some '/' := by
  rw [clean_eq_ofNames, toList_ofNames, List.getElem?_cons_succ, ← List.head?_eq_getElem?]
  exact head?_unfields_ne_slash (isPlain_of_mem_map (arePlain_names path))

/-- A clean path ends in no slash, unless it is the root. -/
theorem clean_getLast?_ne_slash (h : clean path ≠ root) : (clean path).toList.getLast? ≠ some '/' := by
  have hne : (names path).map String.toList ≠ [] := by
    intro hnil
    rw [clean_eq_ofNames, List.map_eq_nil_iff.1 hnil] at h
    exact h ofNames_nil
  have hplain := isPlain_of_mem_map (arePlain_names path)
  have hlast := getLast?_unfields_ne_slash hplain
  rw [clean_eq_ofNames, toList_ofNames]
  cases hu : unfields ((names path).map String.toList) with
  | nil =>
    have hread := filter_fields_unfields hplain
    rw [hu] at hread
    exact absurd hread.symm hne
  | cons c cs =>
    rw [hu] at hlast
    rwa [List.getLast?_cons_cons]

/-- **A clean path is cut before its last component**; where there is none, the name is empty. -/
theorem split_eq_belowRoot (path : String) : split path =
    ("/" ++ "/".intercalate (belowRoot (clean path)).dropLast,
      (belowRoot (clean path)).getLastD "") := by
  rw [belowRoot_clean, ← ofNames_eq_intercalate]
  rcases List.eq_nil_or_concat (names path) with hnil | ⟨ns, n, hlast⟩
  · rw [split_of_names_nil hnil, hnil]
    rfl
  · rw [List.concat_eq_append] at hlast
    rw [split_of_names hlast, hlast, List.dropLast_concat, List.getLastD_concat]

/-- **Cleaning is what the stack machine does.**  The clean path is a slash and the names that the
trimmed text leaves on the stack, the first one first, with slashes between them.  So it starts
with exactly one slash, none of its components is empty or `.` or `..`, no slash stands at its end
unless it is the root, and it is split into the path of all its components but the last and the
last one; the root is its own directory and has no name. -/
theorem clean_eq_stacked (path : String) :
    clean path = "/" ++ "/".intercalate (stacked path).reverse ∧
    belowRoot (clean path) = (stacked path).reverse ∧
    ((clean path).toList.head? = some '/' ∧ (clean path).toList[1]? ≠ some '/') ∧
    (∀ c ∈ belowRoot (clean path), c ≠ "" ∧ c ≠ "." ∧ c ≠ "..") ∧
    (clean path ≠ root → (clean path).toList.getLast? ≠ some '/') ∧
    split path = ("/" ++ "/".intercalate (belowRoot (clean path)).dropLast,
      (belowRoot (clean path)).getLastD "") ∧
    (clean path = root → split path = ("/", "")) := by
  refine ⟨?_, ?_, ⟨head?_clean path, clean_getElem?_one_ne_slash path⟩, ?_,
    clean_getLast?_ne_slash, split_eq_belowRoot path, ?_⟩
  · rw [clean_eq_ofNames, ofNames_eq_intercalate, names_eq_stacked]
  · rw [belowRoot_clean, names_eq_stacked]
  · intro c hc
    rw [belowRoot_clean] at hc
    have hplain := isPlain_of_mem_names hc
    exact ⟨fun h => hplain.ne_nil (h ▸ rfl), fun h => hplain.ne_here (h ▸ rfl),
      fun h => hplain.ne_above (h ▸ rfl)⟩
  · exact fun h => split_of_names_nil (names_eq_nil_of_clean h)

/-- Blanks around the text, `..` above the root and slashes in rows; a `..` with a blank behind it
is a name. -/
theorem clean_eq_stacked_climbing :
    clean " //../a/./b //../.. /c/.\t" = "/a/.. /c" ∧
    split " //../a/./b //../.. /c/.\t" = ("/a/.. ", "c") ∧ split " /a/.. " = ("/", "") := by
  have hdeep := clean_eq_stacked " //../a/./b //../.. /c/.\t"
  have hroot := clean_eq_stacked " /a/.. "
  have hstack : stacked " //../a/./b //../.. /c/.\t" = ["c", ".. ", "a"] := by decide
  have hempty : stacked " /a/.. " = [] := by decide
  rw [hstack] at hdeep
  rw [hempty] at hroot
  refine ⟨hdeep.1, ?_, hroot.2.2.2.2.2.2 hroot.1⟩
  rw [hdeep.2.2.2.2.2.1, hdeep.2.1]
  rfl

end Arboretum.Path
