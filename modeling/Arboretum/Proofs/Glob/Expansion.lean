import Arboretum.Proofs.Glob.Hinting
import Arboretum.Proofs.Glob.Reference
import Arboretum.Proofs.Pattern.Reading
import Arboretum.Proofs.Registry.Places

/-!
# A glob hands out what its pattern reaches

In a store that holds a tree, expanding a list of segments below a place hands out what the
segments reach there, in the same order (`record_expand`).  The induction is on the segments, with
the store's answers read off the tree: a literal segment asks for one entry (`record_literal`), a
wild one lists the directory (`record_wild`).
-/

namespace Arboretum

namespace Glob

open Pattern (Segment)

variable {w : World} {token : Option Nat}

/-- The match at a place of a store. -/
def Settings.matchAt (settings : Settings) (s : Store) (place captures : List String) : Match :=
  ⟨settings.handle ⟨s, Path.ofNames place, captures⟩, captures⟩

/-- The segments may be followed in a tree of names: a literal one climbs or stands for a name. -/
def Followable (segments : List Segment) : Prop :=
  ∀ segment ∈ segments, ∀ name, segment.literal? = some name →
    name = Pattern.climbing ∨ Path.IsName name

variable {s : Store} {f : MemoryTree} {settings : Settings}

/-- **The end of the way**: the place is handed out, unless directories are asked for and it is
none. -/
theorem record_settle (hc : w.cancelled token = none) (hf : w.storage.Holds s f)
    {place : List String} (hn : Path.AreNames place) {node : Node ByteArray}
    (hat : f.at? place = some node) (captures : List String) :
    w.record token (settle settings ⟨s, Path.ofNames place, captures⟩) =
      ⟨.finished (), if settings.directoriesOnly && !node.isFolder then []
        else [settings.matchAt s place captures], w⟩ := by
  have hhand : w.record token (settle.hand settings ⟨s, Path.ofNames place, captures⟩) =
      ⟨.finished (), [settings.matchAt s place captures], w⟩ := by
    unfold settle.hand
    exact World.record_checked_of_none hc _
  unfold settle
  cases settings.directoriesOnly with
  | false => exact hhand
  | true =>
    obtain ⟨info, hask, hinfo⟩ := hf.ask_stat hn
    rw [hat] at hinfo
    rw [if_pos rfl]
    refine (World.record_call_of_ok hc (World.ask_of_storage hask) _).trans ?_
    cases info with
    | none => cases hinfo
    | some info =>
      have hdir : info.isDirectory = node.isFolder := Option.some.inj hinfo
      dsimp only
      rw [hdir]
      cases node.isFolder with
      | true => exact hhand
      | false => rfl

/-- The matches that belong to what is reached below a place. -/
def Settings.matches (settings : Settings) (s : Store) (place captures : List String)
    (found : List Reached) : List Match :=
  found.map fun r => settings.matchAt s (place ++ r.names) (captures ++ r.captures)

/-- What is reached below an entry, seen from the directory and seen from the entry. -/
theorem matches_below (place captures : List String) (name : String) (more : List String)
    (found : List Reached) :
    settings.matches s place captures (found.map (Reached.below name more)) =
      settings.matches s (place ++ [name]) (captures ++ more) found := by
  unfold Settings.matches
  rw [List.map_map]
  refine congrArg (List.map · found) (funext fun r => ?_)
  simp [Reached.below]

/-- **Going on** at an entry of a directory, whatever it captures, hands out what the rest of the
segments reaches there. -/
def GoesOn (w : World) (token : Option Nat) (settings : Settings) (s : Store)
    (place captures : List String) (inside : Forest ByteArray) (rest : List Segment) : Prop :=
  ∀ (name : String) (child : Node ByteArray) (more : List String), Path.IsName name →
    inside.find? name = some child → (rest.isEmpty || child.isFolder) = true →
    w.record token (expand settings rest
        ⟨s, s.joined [Path.ofNames place, name], captures ++ more⟩) =
      ⟨.finished (), settings.matches s place captures
        ((reach settings.directoriesOnly rest child).map (Reached.below name more)), w⟩

variable {place captures : List String} {inside : Forest ByteArray} {segment : Segment}
  {rest : List Segment}

/-- **A literal segment** asks for the entry of its name and goes on there. -/
theorem record_literal (hc : w.cancelled token = none) (hs : s.IsMounted)
    (hf : w.storage.Holds s f) (hn : Path.AreNames place)
    (hat : f.at? place = some (.folder inside)) {name : String}
    (hl : segment.literal? = some name) (hname : name = Pattern.climbing ∨ Path.IsName name)
    (hon : GoesOn w token settings s place captures inside rest) :
    w.record token (expand settings (segment :: rest) ⟨s, Path.ofNames place, captures⟩) =
      ⟨.finished (), settings.matches s place captures
        (reach settings.directoriesOnly (segment :: rest) (.folder inside)), w⟩ := by
  rw [expand, reach]
  unfold moves captured
  rw [hl]
  dsimp only
  refine (World.record_checked_of_none hc _).trans ?_
  by_cases hclimb : name = Pattern.climbing
  · rw [if_pos hclimb, if_pos hclimb]
    rfl
  · rw [if_neg hclimb, if_neg hclimb]
    have hname := hname.resolve_left hclimb
    have hjoin := Store.IsHome.ask_join w (.inl hs) [Path.ofNames place, name]
    refine (World.record_call_of_ok hc hjoin _).trans ?_
    obtain ⟨info, hask, hinfo⟩ :=
      hf.ask_stat (Path.areNames_append_singleton.2 ⟨hn, hname⟩)
    rw [← hs.joined_name (Path.arePlain_of_areNames hn) hname] at hask
    rw [Forest.at?_append_singleton hat] at hinfo
    refine (World.record_call_of_ok hc (World.ask_of_storage hask) _).trans ?_
    cases hfind : inside.find? name with
    | none =>
      rw [hfind] at hinfo
      obtain rfl := Option.map_eq_none_iff.1 hinfo
      rfl
    | some child =>
      rw [hfind] at hinfo
      obtain ⟨info, rfl, hdir⟩ := Option.map_eq_some_iff.1 hinfo
      have hgate : (!rest.isEmpty && !child.isFolder) = !(rest.isEmpty || child.isFolder) :=
        (Bool.not_or _ _).symm
      dsimp only
      rw [hdir, hgate]
      cases hgo : rest.isEmpty || child.isFolder with
      | true =>
        have hstep := hon name child [] hname hfind hgo
        rw [List.append_nil] at hstep
        refine hstep.trans ?_
        simp [hgo]
      | false =>
        simp only [Option.map_some, Option.toList_some, List.filter_cons, hgo]
        rfl

/-- **A wild segment** lists the directory and goes on at every entry that it covers. -/
theorem record_wild (hc : w.cancelled token = none) (hs : s.IsMounted)
    (hf : w.storage.Holds s f) (hh : settings.hinting = false) (hn : Path.AreNames place)
    (hat : f.at? place = some (.folder inside)) (hl : segment.literal? = none)
    (hon : GoesOn w token settings s place captures inside rest) :
    w.record token (expand settings (segment :: rest) ⟨s, Path.ofNames place, captures⟩) =
      ⟨.finished (), settings.matches s place captures
        (reach settings.directoriesOnly (segment :: rest) (.folder inside)), w⟩ := by
  have hints : hintsOf settings segment = [] := by
    unfold hintsOf
    rw [hh]
    rfl
  rw [expand, reach]
  unfold moves captured
  rw [hl]
  dsimp only
  rw [hints]
  refine (World.record_all_of_ok hc (World.ask_of_storage (hf.ask_list hn hat)) _).trans ?_
  unfold Storage.entriesOf
  rw [Traversal.forEach_map, List.filter_filter]
  -- Only covered entries are gone on at, and before the last segment only directories.
  have hvisit := Traversal.forEach_filter
    (p := fun entry : String × Node ByteArray =>
      (rest.isEmpty || entry.2.isFolder) && segment.covers entry.1)
    (f := fun entry : String × Node ByteArray =>
      if segment.covers entry.1 && (rest.isEmpty || entry.2.isFolder) then
        (Traversal.call s (Path.ofNames place) (.join [Path.ofNames place, entry.1])).bind
          fun path => expand settings rest ⟨s, path, captures ++ [entry.1]⟩
      else .done ()) (fun entry hno => by rw [Bool.and_comm, hno]; rfl) inside.toList
  refine (congrArg (w.record token) hvisit.symm).trans ?_
  unfold Settings.matches
  rw [List.map_flatMap]
  refine World.record_forEach fun entry hm => ?_
  obtain ⟨hm, hgo⟩ := List.mem_filter.1 hm
  obtain ⟨hgo, hcovers⟩ := Bool.and_eq_true_iff.1 hgo
  have hinside := (Forest.orderly_of_at? hf.orderly hat).1
  have hfind := (Forest.mem_toList_iff hinside).1 hm
  have hname := (Forest.orderly_of_find? hinside hfind).1
  have hjoin := Store.IsHome.ask_join w (.inl hs) [Path.ofNames place, entry.1]
  rw [hcovers, hgo]
  refine (World.record_call_of_ok hc hjoin _).trans ?_
  exact hon entry.1 entry.2 [entry.1] hname hfind hgo

/-- **Expanding without hints** hands out what the segments reach, in the same order.  By induction
on the segments: each of them gives its moves, and the rest goes on there. -/
theorem record_expand_unhinted (hc : w.cancelled token = none) (hs : s.IsMounted)
    (hf : w.storage.Holds s f) (hh : settings.hinting = false) {segments : List Segment}
    (hfollow : Followable segments) (hn : Path.AreNames place) {node : Node ByteArray}
    (hat : f.at? place = some node) (hfolder : segments ≠ [] → node.isFolder = true)
    (captures : List String) :
    w.record token (expand settings segments ⟨s, Path.ofNames place, captures⟩) =
      ⟨.finished (), settings.matches s place captures
        (reach settings.directoriesOnly segments node), w⟩ := by
  induction segments generalizing place node captures with
  | nil =>
    rw [expand, record_settle hc hf hn hat, reach]
    unfold Settings.matches
    split
    · rfl
    · simp
  | cons segment rest ih =>
    obtain ⟨inside, rfl⟩ : ∃ inside, node = .folder inside := by
      cases node with
      | folder inside => exact ⟨inside, rfl⟩
      | leaf data => exact absurd (hfolder (List.cons_ne_nil _ _)) Bool.false_ne_true
    have hon : GoesOn w token settings s place captures inside rest := by
      intro name child more hname hfind hgo
      have hchild : f.at? (place ++ [name]) = some child := by
        rw [Forest.at?_append_singleton hat, hfind]
      have hlast : rest ≠ [] → child.isFolder = true := by
        intro hne
        rwa [List.isEmpty_eq_false_iff.2 hne, Bool.false_or] at hgo
      rw [hs.joined_name (Path.arePlain_of_areNames hn) hname, matches_below]
      exact ih (fun segment hm => hfollow segment (List.mem_cons_of_mem _ hm))
        (Path.areNames_append_singleton.2 ⟨hn, hname⟩) hchild hlast (captures ++ more)
    cases hl : segment.literal? with
    | some name =>
      have hname := hfollow segment List.mem_cons_self name hl
      exact record_literal hc hs hf hn hat hl hname hon
    | none => exact record_wild hc hs hf hh hn hat hl hon

/-- **Expanding** hands out what the segments reach, in the same order, with hints and without. -/
theorem record_expand (hc : w.cancelled token = none) (hs : s.IsMounted)
    (hf : w.storage.Holds s f) {segments : List Segment} (hfollow : Followable segments)
    (hread : ∀ segment ∈ segments, ∃ text, Segment.read text = .ok segment)
    (hn : Path.AreNames place) {node : Node ByteArray} (hat : f.at? place = some node)
    (hfolder : segments ≠ [] → node.isFolder = true) (captures : List String) :
    w.record token (expand settings segments ⟨s, Path.ofNames place, captures⟩) =
      ⟨.finished (), settings.matches s place captures
        (reach settings.directoriesOnly segments node), w⟩ := by
  rw [same_expand settings hread _ w token]
  exact record_expand_unhinted hc hs hf rfl hfollow hn hat hfolder captures

end Glob

end Arboretum
