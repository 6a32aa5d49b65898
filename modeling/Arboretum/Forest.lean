/-!
# Forests

A forest is the inside of a directory: named leaves and named folders, each folder with a forest
inside.  Names rise from first to last, by code point, so listing a forest is reading it.  This
file holds the lookups and changes by name and by path; the sizes of the changes are one entry
each.
-/

namespace Arboretum

/-- The entries of a directory: leaves hold a content, folders a forest. -/
inductive Forest (α : Type) where
  | empty
  | leaf (name : String) (content : α) (rest : Forest α)
  | folder (name : String) (inside : Forest α) (rest : Forest α)
deriving Repr

/-- What stands at one place of a forest. -/
inductive Node (α : Type) where
  | leaf (content : α)
  | folder (inside : Forest α)
deriving Repr

namespace Node

variable {α : Type}

/-- The node is a folder. -/
def isFolder : Node α → Bool
  | .leaf _ => false
  | .folder _ => true

/-- The node under a name, in front of a forest. -/
def before (name : String) (rest : Forest α) : Node α → Forest α
  | .leaf content => .leaf name content rest
  | .folder inside => .folder name inside rest

end Node

namespace Forest

variable {α : Type}

/-! ## 1. One directory -/

/-- The names of a forest, each with its node. -/
def toList : Forest α → List (String × Node α)
  | .empty => []
  | .leaf name content rest => (name, .leaf content) :: rest.toList
  | .folder name inside rest => (name, .folder inside) :: rest.toList

/-- The forest has no entry. -/
def isEmpty : Forest α → Bool
  | .empty => true
  | _ => false

/-- The node of a name. -/
def find? (wanted : String) : Forest α → Option (Node α)
  | .empty => none
  | .leaf name content rest => if name = wanted then some (.leaf content) else rest.find? wanted
  | .folder name inside rest => if name = wanted then some (.folder inside) else rest.find? wanted

/-- **The forest with a node under a name**, in place of what stood there, or at the place where
the order of names puts it. -/
def put (wanted : String) (node : Node α) : Forest α → Forest α
  | .empty => node.before wanted .empty
  | .leaf name content rest =>
    if wanted < name then node.before wanted (.leaf name content rest)
    else if name = wanted then node.before wanted rest
    else .leaf name content (rest.put wanted node)
  | .folder name inside rest =>
    if wanted < name then node.before wanted (.folder name inside rest)
    else if name = wanted then node.before wanted rest
    else .folder name inside (rest.put wanted node)

/-- **The forest without a name.** -/
def erase (wanted : String) : Forest α → Forest α
  | .empty => .empty
  | .leaf name content rest =>
    if name = wanted then rest else .leaf name content (rest.erase wanted)
  | .folder name inside rest =>
    if name = wanted then rest else .folder name inside (rest.erase wanted)

/-- Under a name stands the node that was put in front, and behind it all else as before. -/
theorem find?_before (wanted name : String) (node : Node α) (rest : Forest α) :
    (node.before name rest).find? wanted = if name = wanted then some node else rest.find? wanted := by
  cases node <;> rfl

/-- **What was put under a name is found there, and every other name is as before.** -/
theorem find?_put (wanted name : String) (node : Node α) (f : Forest α) :
    (f.put name node).find? wanted = if name = wanted then some node else f.find? wanted := by
  induction f with
  | empty => exact find?_before wanted name node .empty
  | leaf first content rest ih =>
    rw [put]
    split
    · exact find?_before wanted name node _
    · split
      · next hn =>
        rw [find?_before, find?]
        by_cases hw : name = wanted
        · rw [if_pos hw, if_pos hw]
        · rw [if_neg hw, if_neg hw, if_neg (hn ▸ hw)]
      · next hn =>
        rw [find?, find?, ih]
        by_cases hw : first = wanted
        · rw [if_pos hw, if_pos hw, if_neg (fun h => hn (hw.trans h.symm))]
        · rw [if_neg hw, if_neg hw]
  | folder first inside rest _ ih =>
    rw [put]
    split
    · exact find?_before wanted name node _
    · split
      · next hn =>
        rw [find?_before, find?]
        by_cases hw : name = wanted
        · rw [if_pos hw, if_pos hw]
        · rw [if_neg hw, if_neg hw, if_neg (hn ▸ hw)]
      · next hn =>
        rw [find?, find?, ih]
        by_cases hw : first = wanted
        · rw [if_pos hw, if_pos hw, if_neg (fun h => hn (hw.trans h.symm))]
        · rw [if_neg hw, if_neg hw]

/-- Every other name is as before when one is erased. -/
theorem find?_erase_of_ne {wanted name : String} (h : name ≠ wanted) (f : Forest α) :
    (f.erase name).find? wanted = f.find? wanted := by
  induction f with
  | empty => rfl
  | leaf first content rest ih =>
    rw [erase]
    split
    · next hn => rw [find?, if_neg (hn ▸ h)]
    · rw [find?, find?, ih]
  | folder first inside rest _ ih =>
    rw [erase]
    split
    · next hn => rw [find?, if_neg (hn ▸ h)]
    · rw [find?, find?, ih]

/-! ## 2. Paths -/

/-- **What stands at a path** of names; the empty path is the forest itself. -/
def at? (f : Forest α) : List String → Option (Node α)
  | [] => some (.folder f)
  | name :: names =>
    match f.find? name with
    | none => none
    | some (.folder inside) => inside.at? names
    | some (.leaf content) => if names.isEmpty then some (.leaf content) else none

/-- The forest with one of its directories changed; without a directory at the path nothing
changes. -/
def change (f : Forest α) (how : Forest α → Forest α) : List String → Forest α
  | [] => how f
  | name :: names =>
    match f.find? name with
    | some (.folder inside) => f.put name (.folder (inside.change how names))
    | _ => f

/-- The empty path leads to the forest itself. -/
theorem at?_nil (f : Forest α) : f.at? [] = some (.folder f) := rfl

/-- A name in front leads through the node of that name. -/
theorem at?_cons (f : Forest α) (name : String) (names : List String) :
    f.at? (name :: names) =
      match f.find? name with
      | none => none
      | some (.folder inside) => inside.at? names
      | some (.leaf content) => if names.isEmpty then some (.leaf content) else none := rfl

/-! ## 3. Whole trees -/

/-- Every place below a path, depth first, each directory before its entries. -/
def places (above : List String) : Forest α → List (List String × Option α)
  | .empty => []
  | .leaf name content rest => (above ++ [name], some content) :: rest.places above
  | .folder name inside rest =>
    (above ++ [name], none) :: (inside.places (above ++ [name]) ++ rest.places above)

end Forest

end Arboretum
