import Mathlib.Data.List.Nodup
import Arboretum.Pattern.Basic
import Arboretum.Proofs.Tree.Forest

/-!
# What a pattern reaches in a tree

The places that a list of segments reaches below a node of a tree, said by recursion on the
segments and without a run: a literal segment moves to the entry of its name, a wild one to every
entry that it covers, in name order; before the last segment only directories count.  What is
reached are the places whose names the segments stand for one by one (`mem_reach_iff`), in the order
of their names (`pairwise_reach`) and so none twice (`nodup_reach`).  Going on below each entry in
turn is the same as going level by level (`reach_eq_levels`).
-/

namespace Arboretum.Glob

open Pattern (Segment)

/-! ## 1. The reference -/

/-- What is reached below a node: the names on the way, and those that wild segments matched. -/
structure Reached where
  names : List String
  captures : List String
deriving DecidableEq, Repr

/-- What is reached below an entry, seen from the directory of the entry. -/
def Reached.below (name : String) (captures : List String) (r : Reached) : Reached :=
  ⟨name :: r.names, captures ++ r.captures⟩

/-- **The entries that a segment moves to**, in name order. -/
def moves (segment : Segment) (inside : Forest ByteArray) : List (String × Node ByteArray) :=
  match segment.literal? with
  | some name =>
    if name = Pattern.climbing then []
    else ((inside.find? name).map fun node => (name, node)).toList
  | none => inside.toList.filter fun entry => segment.covers entry.1

/-- The name that a segment captures when it moves to an entry. -/
def captured (segment : Segment) (name : String) : List String :=
  if segment.literal?.isSome then [] else [name]

/-- **What a list of segments reaches** below a node. -/
def reach (directoriesOnly : Bool) : List Segment → Node ByteArray → List Reached
  | [], node => if directoriesOnly && !node.isFolder then [] else [⟨[], []⟩]
  | _ :: _, .leaf _ => []
  | segment :: rest, .folder inside =>
    ((moves segment inside).filter fun entry => rest.isEmpty || entry.2.isFolder).flatMap
      fun entry => (reach directoriesOnly rest entry.2).map
        (Reached.below entry.1 (captured segment entry.1))

variable {segment : Segment} {segments : List Segment} {inside : Forest ByteArray}
  {directoriesOnly : Bool}

/-! ## 2. Moves -/

/-- A segment moves to entries of the directory. -/
theorem find?_of_mem_moves (ho : inside.Orderly) {entry : String × Node ByteArray}
    (h : entry ∈ moves segment inside) : inside.find? entry.1 = some entry.2 := by
  unfold moves at h
  split at h
  · next name _ =>
    split at h
    · exact absurd h List.not_mem_nil
    · obtain ⟨node, hf, rfl⟩ := Option.map_eq_some_iff.1 (Option.mem_toList.1 h)
      exact hf
  · exact (Forest.mem_toList_iff ho).1 (List.mem_filter.1 h).1

/-- They are in name order. -/
theorem pairwise_moves (ho : inside.Orderly) :
    (moves segment inside).Pairwise fun a b => a.1 < b.1 := by
  unfold moves
  split
  · next name _ =>
    split
    · exact .nil
    · cases inside.find? name with
      | none => exact .nil
      | some node => exact List.pairwise_singleton _ _
  · exact (Forest.pairwise_toList ho).filter _

/-- **A segment stands for a name**: the one that it spells, or any that it matches. -/
def standsFor (segment : Segment) (name : String) : Bool :=
  match segment.literal? with
  | some spelled => spelled ≠ Pattern.climbing && spelled = name
  | none => segment.covers name

/-- A segment moves to the entries whose names it stands for. -/
theorem mem_moves_iff (ho : inside.Orderly) {entry : String × Node ByteArray} :
    entry ∈ moves segment inside ↔
      standsFor segment entry.1 = true ∧ inside.find? entry.1 = some entry.2 := by
  obtain ⟨name, node⟩ := entry
  unfold moves standsFor
  cases segment.literal? with
  | none => rw [List.mem_filter, Forest.mem_toList_iff ho, and_comm]
  | some spelled =>
    dsimp only
    split
    · next hclimb => simp [hclimb]
    · next hclimb =>
      simp only [Option.mem_toList, Option.map_eq_some_iff, Prod.mk.injEq, ne_eq, hclimb,
        not_false_eq_true, decide_true, Bool.true_and, decide_eq_true_eq]
      constructor
      · rintro ⟨node', hf, rfl, rfl⟩
        exact ⟨rfl, hf⟩
      · rintro ⟨rfl, hf⟩
        exact ⟨node, hf, rfl, rfl⟩

/-! ## 3. What is reached -/

/-- **Segments stand for names**, one by one. -/
def standForAll : List Segment → List String → Bool
  | [], [] => true
  | segment :: rest, name :: names => standsFor segment name && standForAll rest names
  | _, _ => false

/-- The names among those that segments stand for that wild ones match. -/
def capturesOf : List Segment → List String → List String
  | segment :: rest, name :: names => captured segment name ++ capturesOf rest names
  | _, _ => []

/-- Without segments the node itself is reached. -/
theorem mem_reach_nil_iff {node : Node ByteArray} {r : Reached} :
    r ∈ reach directoriesOnly [] node ↔
      r = ⟨[], []⟩ ∧ (directoriesOnly = true → node.isFolder = true) := by
  unfold reach
  cases directoriesOnly <;> cases node.isFolder <;> simp

/-- With one segment more, what is reached is reached from an entry that it stands for. -/
theorem mem_reach_cons_iff (ho : inside.Orderly) {rest : List Segment} {r : Reached} :
    r ∈ reach directoriesOnly (segment :: rest) (.folder inside) ↔
      ∃ name node, standsFor segment name = true ∧ inside.find? name = some node ∧
        (rest.isEmpty || node.isFolder) = true ∧ ∃ below ∈ reach directoriesOnly rest node,
          r = below.below name (captured segment name) := by
  simp only [reach, List.mem_flatMap, List.mem_filter, mem_moves_iff ho, List.mem_map, Prod.exists]
  constructor
  · rintro ⟨name, node, ⟨⟨hstands, hfind⟩, hgo⟩, below, hbelow, rfl⟩
    exact ⟨name, node, hstands, hfind, hgo, below, hbelow, rfl⟩
  · rintro ⟨name, node, hstands, hfind, hgo, below, hbelow, rfl⟩
    exact ⟨name, node, ⟨⟨hstands, hfind⟩, hgo⟩, below, hbelow, rfl⟩

/-- **What is reached**: the places that stand in the tree and whose names the segments stand for.
By induction on the segments. -/
theorem mem_reach_iff {node : Node ByteArray} (ho : node.Orderly) {r : Reached} :
    r ∈ reach directoriesOnly segments node ↔ standForAll segments r.names = true ∧
      r.captures = capturesOf segments r.names ∧
        ∃ x, node.view r.names = some x ∧ (directoriesOnly = true → x.isDirectory = true) := by
  induction segments generalizing node r with
  | nil =>
    rw [mem_reach_nil_iff]
    rcases r with ⟨_ | ⟨n, names⟩, captures⟩
    · simp [standForAll, capturesOf, Node.view_nil, Node.isDirectory_thing]
    · simp [standForAll]
  | cons segment rest ih =>
    cases node with
    | leaf data =>
      rcases r with ⟨_ | ⟨n, names⟩, captures⟩ <;> simp [reach, standForAll, Node.view]
    | folder inside =>
      rw [mem_reach_cons_iff ho]
      constructor
      · rintro ⟨name, node, hstands, hfind, -, below, hbelow, rfl⟩
        obtain ⟨hall, hcaptures, x, hx, hdir⟩ := (ih (Forest.orderly_of_find? ho hfind).2).1 hbelow
        refine ⟨?_, congrArg _ hcaptures, x, ?_, hdir⟩
        · exact Bool.and_eq_true_iff.2 ⟨hstands, hall⟩
        · exact (Forest.view_cons inside name below.names).trans (by rw [hfind]; exact hx)
      · obtain ⟨_ | ⟨name, names⟩, captures⟩ := r
        · exact fun h => absurd h.1 Bool.false_ne_true
        · rintro ⟨hall, hcaptures, x, hx, hdir⟩
          obtain ⟨hstands, hall⟩ := Bool.and_eq_true_iff.1 hall
          have hview : inside.view (name :: names) = some x := hx
          rw [Forest.view_cons] at hview
          obtain ⟨node, hfind, hnode⟩ := Option.bind_eq_some_iff.1 hview
          refine ⟨name, node, hstands, hfind, ?_, ⟨names, capturesOf rest names⟩,
            (ih (Forest.orderly_of_find? ho hfind).2).2 ⟨hall, rfl, x, hnode, hdir⟩, ?_⟩
          · -- A file is no way on to another segment.
            cases rest with
            | nil => rfl
            | cons next rest =>
              cases node with
              | folder deeper => rfl
              | leaf data =>
                cases names with
                | nil => exact absurd hall Bool.false_ne_true
                | cons m names => cases hnode
          · have hsame : captures = captured segment name ++ capturesOf rest names := hcaptures
            rw [hsame]
            rfl

/-- What is reached is reached by names. -/
theorem areNames_of_mem_reach (ho : inside.Orderly) {r : Reached}
    (h : r ∈ reach directoriesOnly segments (.folder inside)) : Path.AreNames r.names := by
  have hnode : (Node.folder inside).Orderly := ho
  obtain ⟨-, -, x, hx, -⟩ := (mem_reach_iff hnode).1 h
  refine Forest.areNames_of_view ho fun hnone => ?_
  rw [show inside.view r.names = some x from hx] at hnone
  cases hnone

/-- **What is reached is in the order of the names**, from the first name on. -/
theorem pairwise_reach {node : Node ByteArray} (ho : node.Orderly) :
    ((reach directoriesOnly segments node).map Reached.names).Pairwise (· < ·) := by
  induction segments generalizing node with
  | nil =>
    unfold reach
    split
    · exact .nil
    · exact List.pairwise_singleton _ _
  | cons segment rest ih =>
    cases node with
    | leaf data => exact .nil
    | folder inside =>
      unfold reach
      rw [List.map_flatMap, List.pairwise_flatMap]
      constructor
      · intro entry hm
        have hf := find?_of_mem_moves ho (List.mem_filter.1 hm).1
        have hnames : Reached.names ∘ Reached.below entry.1 (captured segment entry.1) =
            (entry.1 :: ·) ∘ Reached.names := rfl
        rw [List.map_map, hnames, ← List.map_map, List.pairwise_map]
        exact (ih (Forest.orderly_of_find? ho hf).2).imp fun hlt => List.cons_lt_cons_self.2 hlt
      · refine ((pairwise_moves ho).filter _).imp fun {a b} hlt => ?_
        -- Entries are the first names of whatever is reached below them.
        intro ns ha ms hb
        obtain ⟨r, hr, rfl⟩ := List.mem_map.1 ha
        obtain ⟨q, hq, rfl⟩ := List.mem_map.1 hb
        obtain ⟨r', -, rfl⟩ := List.mem_map.1 hr
        obtain ⟨q', -, rfl⟩ := List.mem_map.1 hq
        exact List.cons_lt_cons_iff.2 (.inl hlt)

/-- **Nothing is reached twice.** -/
theorem nodup_reach {node : Node ByteArray} (ho : node.Orderly) :
    ((reach directoriesOnly segments node).map Reached.names).Nodup := by
  refine (pairwise_reach ho).imp fun {ns ms} hlt he => ?_
  rw [he] at hlt
  exact List.lt_irrefl ms hlt

/-! ## 4. Level by level -/

/-- What is reached from a place that was reached. -/
def Reached.andThen (r q : Reached) : Reached := ⟨r.names ++ q.names, r.captures ++ q.captures⟩

/-- One level of the expansion: every place that was reached moves on by one segment. -/
def level (segment : Segment) (last : Bool) (frontier : List (Reached × Node ByteArray)) :
    List (Reached × Node ByteArray) :=
  frontier.flatMap fun place =>
    match place.2 with
    | .leaf _ => []
    | .folder inside =>
      ((moves segment inside).filter fun entry => last || entry.2.isFolder).map fun entry =>
        (⟨place.1.names ++ [entry.1], place.1.captures ++ captured segment entry.1⟩, entry.2)

/-- The expansion level by level: all places of one level before any of the next. -/
def levels (directoriesOnly : Bool) :
    List Segment → List (Reached × Node ByteArray) → List Reached
  | [], frontier =>
    (frontier.filter fun place => !(directoriesOnly && !place.2.isFolder)).map Prod.fst
  | segment :: rest, frontier => levels directoriesOnly rest (level segment rest.isEmpty frontier)

/-- Going level by level from several places is going on from each of them in turn. -/
theorem levels_eq_flatMap (frontier : List (Reached × Node ByteArray)) :
    levels directoriesOnly segments frontier =
      frontier.flatMap fun place => (reach directoriesOnly segments place.2).map place.1.andThen := by
  induction segments generalizing frontier with
  | nil =>
    unfold levels
    induction frontier with
    | nil => rfl
    | cons first frontier ih =>
      obtain ⟨⟨names, captures⟩, node⟩ := first
      rw [List.flatMap_cons, ← ih, List.filter_cons]
      unfold reach
      dsimp only
      cases directoriesOnly && !node.isFolder with
      | true => rfl
      | false => simp [Reached.andThen]
  | cons segment rest ih =>
    unfold levels level
    rw [ih, List.flatMap_assoc]
    refine congrArg (List.flatMap · frontier) (funext fun (place, node) => ?_)
    cases node with
    | leaf data => rfl
    | folder inside =>
      dsimp only
      rw [reach, List.flatMap_map, List.map_flatMap]
      refine congrArg (List.flatMap · _) (funext fun entry => ?_)
      rw [List.map_map]
      refine congrArg (List.map · _) (funext fun q => ?_)
      simp [Reached.andThen, Reached.below]

/-- **Depth first and level by level reach the same**, in the same order. -/
theorem reach_eq_levels (node : Node ByteArray) :
    reach directoriesOnly segments node =
      levels directoriesOnly segments [(⟨[], []⟩, node)] := by
  rw [levels_eq_flatMap, List.flatMap_singleton]
  exact (List.map_id _).symm

end Arboretum.Glob
