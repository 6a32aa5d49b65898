import Mathlib.Data.List.Induction
import Mathlib.Data.List.Sort
import Arboretum.Proofs.Path.Parts
import Arboretum.Store.Call
import Arboretum.Store.Change

/-!
# Trees, place by place

Stores keep their trees in different shapes.  What they have in common is the **view** of a tree:
for every list of names, what stands there.  This file says on views what the operations of a
store are for, without a word about how a store does it:

* `View.Allows`: the calls that succeed;
* `View.after`: the tree that a successful call leaves;
* `View.Reports`: what its answer says.

All three speak about tidy paths.  A listing is determined by the view (`IsListing.unique`), and
so is every answer up to times (`Reports.alike`).  The last section is the one loop in an operation:
making a directory with its parents, level by level.
-/

namespace Arboretum

/-- What stands at a place: a directory, or a file with its content. -/
inductive Thing where
  | directory
  | file (data : ByteArray)

namespace Thing

def isDirectory : Thing → Bool
  | .directory => true
  | .file _ => false

/-- The size of a file. -/
def size? : Thing → Option Nat
  | .directory => none
  | .file data => some data.size

end Thing

/-- **A view**: what stands at each place, by the names on the way. -/
abbrev View := List String → Option Thing

namespace View

/-! ## 1. Trees -/

/-- A view is one of a tree: its root is a directory, and so is every place above an entry. -/
structure IsTree (v : View) : Prop where
  root : v [] = some .directory
  above : ∀ ns n, v (ns ++ [n]) ≠ none → v ns = some .directory

/-- An entry is not on the way to the place above it. -/
theorem not_prefix_above (above : List String) (n : String) : ¬ above ++ [n] <+: above := fun hp =>
  absurd hp.length_le (by simp)

/-- Every place strictly above an entry is a directory. -/
theorem IsTree.directory_of_prefix {v : View} (hv : v.IsTree) {ms ns : List String}
    (h : ms <+: ns) (hne : ms ≠ ns) (hn : v ns ≠ none) : v ms = some .directory := by
  obtain ⟨rest, rfl⟩ := h
  induction rest using List.reverseRecOn with
  | nil => exact absurd (List.append_nil ms).symm hne
  | append_singleton rest n ih =>
    rw [← List.append_assoc] at hn
    have hd := hv.above _ _ hn
    by_cases hr : rest = []
    · rw [hr, List.append_nil] at hd
      exact hd
    · exact ih (by simpa using hr) (by rw [hd]; exact Option.some_ne_none _)

/-- Below anything but a directory there is nothing. -/
theorem IsTree.none_below {v : View} (hv : v.IsTree) {ns : List String}
    (h : v ns ≠ some .directory) (n : String) : v (ns ++ [n]) = none := by
  by_contra hne
  exact h (hv.above ns n hne)

/-- Where nothing stands, nothing is below. -/
theorem IsTree.none_of_prefix {v : View} (hv : v.IsTree) {ms ns : List String} (h : ms <+: ns)
    (hn : v ms = none) : v ns = none := by
  by_contra hne
  have hms : ms ≠ ns := by
    rintro rfl
    exact hne hn
  have hd := hv.directory_of_prefix h hms hne
  rw [hn] at hd
  cases hd

/-- The view with one place changed. -/
def put (v : View) (place : List String) (x : Option Thing) : View :=
  fun ns => if ns = place then x else v ns

theorem put_self (v : View) (place : List String) (x : Option Thing) : v.put place x place = x :=
  if_pos rfl

theorem put_of_ne (v : View) {place ns : List String} (h : ns ≠ place) (x : Option Thing) :
    v.put place x ns = v ns := if_neg h

/-! ## 2. What calls do -/

/-- A file may be written: its directory is there, and it is no directory itself. -/
def CanWrite (v : View) (place : List String) : Prop :=
  (∃ above n, place = above ++ [n] ∧ v above = some .directory) ∧ v place ≠ some .directory

/-- One directory may be made: the one above is there, and the place is empty. -/
def CanMake (v : View) (place : List String) : Prop :=
  (∃ above n, place = above ++ [n] ∧ v above = some .directory) ∧ v place = none

/-- A directory may be made with its parents: no file stands in the way. -/
def CanMakeAll (v : View) (place : List String) : Prop :=
  ∀ ms, ms <+: place → ∀ data, v ms ≠ some (.file data)

/-- The view with a place and every place above it made a directory. -/
def makeAll (v : View) (place : List String) : View :=
  fun ns => if ns <+: place then some .directory else v ns

/-- An entry may be removed: it is there, it is not the root, and nothing is below it. -/
def CanRemove (v : View) (place : List String) : Prop :=
  place ≠ [] ∧ v place ≠ none ∧ ∀ n, v (place ++ [n]) = none

/-- **The calls that succeed** on a tree. -/
def Allows (v : View) : Call → Prop
  | .list path _ => v (Path.names path) = some .directory
  | .stat _ => True
  | .join _ => True
  | .read path => ∃ data, v (Path.names path) = some (.file data)
  | .write path _ => v.CanWrite (Path.names path)
  | .makeDir path false => v.CanMake (Path.names path)
  | .makeDir path true => v.CanMakeAll (Path.names path)
  | .remove path => v.CanRemove (Path.names path)

/-- **The tree after a call that succeeds.** -/
def after (v : View) : Call → View
  | .write path data => v.put (Path.names path) (some (.file data))
  | .makeDir path false => v.put (Path.names path) (some .directory)
  | .makeDir path true => v.makeAll (Path.names path)
  | .remove path => v.put (Path.names path) none
  | _ => v

/-! ## 3. What calls report -/

/-- **The listing of a directory**: the entries that stand in it, by name. -/
structure IsListing (v : View) (place : List String) (entries : List Entry) : Prop where
  sorted : entries.Pairwise (·.name < ·.name)
  mem_iff : ∀ e, e ∈ entries ↔ ∃ x, v (place ++ [e.name]) = some x ∧ e.isDirectory = x.isDirectory

/-- A directory has one listing. -/
theorem IsListing.unique {v : View} {place : List String} {es fs : List Entry}
    (h : v.IsListing place es) (h' : v.IsListing place fs) : es = fs := by
  let r : Entry → Entry → Prop := fun a b => a.name < b.name
  have : Std.Irrefl r := ⟨fun a => String.lt_irrefl a.name⟩
  have : Std.Antisymm r := ⟨fun a b hab hba => absurd hba (String.lt_asymm hab)⟩
  exact h.sorted.eq_of_mem_iff h'.sorted fun e => (h.mem_iff e).trans (h'.mem_iff e).symm

end View

/-- What a stat reports, times aside. -/
def Info.untimed (i : Info) : Info := { i with hasTime := false }

/-- **Two answers say the same**, times of changes aside. -/
def Call.Alike : (c : Call) → c.Answer → c.Answer → Prop
  | .stat _, a, b => a.map Info.untimed = b.map Info.untimed
  | .list _ _, a, b => a = b
  | .join _, a, b => a = b
  | .read _, a, b => a = b
  | .write _ _, _, _ => True
  | .makeDir _ _, _, _ => True
  | .remove _, _, _ => True

namespace View

/-- What is known about a thing at a path. -/
def infoOf (path : String) (x : Thing) : Info :=
  ⟨Path.clean path, Path.name path, x.isDirectory, x.size?, false⟩

/-- **What the answer to a call that succeeds says.** -/
def Reports (v : View) : (c : Call) → c.Answer → Prop
  | .list path _, entries => v.IsListing (Path.names path) entries
  | .stat path, info => info.map Info.untimed = (v (Path.names path)).map (infoOf path)
  | .join _, _ => True
  | .read path, data => v (Path.names path) = some (.file data)
  | .write _ _, _ => True
  | .makeDir _ _, _ => True
  | .remove _, _ => True

/-- Every answer but a joined path is determined by the view. -/
theorem Reports.alike {v : View} {c : Call} (hj : ∀ parts, c ≠ .join parts) {a b : c.Answer}
    (ha : v.Reports c a) (hb : v.Reports c b) : c.Alike a b := by
  cases c with
  | list path hints => exact IsListing.unique ha hb
  | stat path => exact Eq.trans ha (Eq.symm hb)
  | join parts => exact absurd rfl (hj parts)
  | read path =>
    have h := Eq.trans (Eq.symm ha) hb
    exact Thing.file.inj (Option.some.inj h)
  | write path data => trivial
  | makeDir path parents => trivial
  | remove path => trivial

/-! ## 4. Changed views -/

theorem CanMake.not_directory {v : View} {place : List String} (h : v.CanMake place) :
    v place ≠ some .directory := by
  rw [h.2]
  exact fun he => nomatch he

theorem canMake_append {v : View} {above : List String} {n : String} :
    v.CanMake (above ++ [n]) ↔ v above = some .directory ∧ v (above ++ [n]) = none := by
  constructor
  · rintro ⟨⟨as, m, h, hd⟩, hn⟩
    obtain ⟨rfl, -⟩ := List.append_inj' h rfl
    exact ⟨hd, hn⟩
  · exact fun ⟨hd, hn⟩ => ⟨⟨above, n, rfl, hd⟩, hn⟩

theorem canWrite_append {v : View} {above : List String} {n : String} :
    v.CanWrite (above ++ [n]) ↔ v above = some .directory ∧ v (above ++ [n]) ≠ some .directory := by
  constructor
  · rintro ⟨⟨as, m, h, hd⟩, hn⟩
    obtain ⟨rfl, -⟩ := List.append_inj' h rfl
    exact ⟨hd, hn⟩
  · exact fun ⟨hd, hn⟩ => ⟨⟨above, n, rfl, hd⟩, hn⟩

/-! ## 5. Directories with their parents -/

/-- Making a directory that is there changes nothing. -/
theorem makeAll_of_directory {v : View} (hv : v.IsTree) {place : List String}
    (h : v place = some .directory) : v.makeAll place = v := by
  funext ms
  unfold makeAll
  split
  · next hp =>
    by_cases he : ms = place
    · rw [he, h]
    · exact (hv.directory_of_prefix hp he (by rw [h]; exact Option.some_ne_none _)).symm
  · rfl

theorem canMakeAll_of_directory {v : View} (hv : v.IsTree) {place : List String}
    (h : v place = some .directory) : v.CanMakeAll place := by
  intro ms hp data hf
  have hm := congrFun (makeAll_of_directory hv h) ms
  rw [makeAll, if_pos hp, hf] at hm
  cases hm

/-- Making the last level below a directory is making all of them. -/
theorem put_directory_eq_makeAll {v : View} (hv : v.IsTree) {above : List String} {n : String}
    (h : v above = some .directory) :
    v.put (above ++ [n]) (some .directory) = v.makeAll (above ++ [n]) := by
  funext ms
  by_cases he : ms = above ++ [n]
  · subst he
    rw [put_self, makeAll, if_pos (List.prefix_refl _)]
  · rw [put_of_ne v he, ← congrFun (makeAll_of_directory hv h) ms]
    simp only [makeAll, List.prefix_concat_iff, he, false_or]

/-- Below an empty place, all levels are made by making those above and then the last. -/
theorem put_makeAll_eq_makeAll (v : View) (above : List String) (n : String) :
    (v.makeAll above).put (above ++ [n]) (some .directory) = v.makeAll (above ++ [n]) := by
  funext ms
  by_cases he : ms = above ++ [n]
  · subst he
    rw [put_self, makeAll, if_pos (List.prefix_refl _)]
  · rw [put_of_ne _ he]
    simp only [makeAll, List.prefix_concat_iff, he, false_or]

/-- No file in the way of a place and none at it. -/
theorem canMakeAll_append {v : View} {above : List String} {n : String} :
    v.CanMakeAll (above ++ [n]) ↔
      v.CanMakeAll above ∧ ∀ data, v (above ++ [n]) ≠ some (.file data) := by
  constructor
  · exact fun h => ⟨fun ms hm => h ms (hm.trans (List.prefix_append _ _)),
      h _ (List.prefix_refl _)⟩
  · rintro ⟨h, hn⟩ ms hm
    rcases List.prefix_concat_iff.1 hm with rfl | hm
    · exact hn
    · exact h ms hm

section Levels

variable {σ : Type} {view : σ → View} {Sound : σ → Prop} {level : String → σ → Changed σ}
  {levels : σ → Nat → String → List String}

/-- What one level does to a state: a directory is left alone, an empty place below a directory
becomes one, and all else is refused. -/
structure MakesLevel (view : σ → View) (Sound : σ → Prop) (level : String → σ → Changed σ)
    (s : σ) (place : List String) : Prop where
  kept : view s place = some .directory → level (Path.ofNames place) s = (.ok (), s)
  made : (view s).CanMake place → ∃ s', level (Path.ofNames place) s = (.ok (), s') ∧ Sound s' ∧
    view s' = (view s).put place (some .directory)
  refused : view s place ≠ some .directory → ¬ (view s).CanMake place →
    ∃ f, level (Path.ofNames place) s = (.error f, s)

/-- Which levels are made: those above first where the place above is empty. -/
structure FindsLevels (view : σ → View) (levels : σ → Nat → String → List String) (s : σ) :
    Prop where
  one : ∀ depth, ∀ place, Path.AreNames place →
    (∀ above n, place = above ++ [n] → view s above ≠ none) →
    levels s depth (Path.ofNames place) = [Path.ofNames place]
  more : ∀ depth, ∀ above n, Path.AreNames (above ++ [n]) → view s above = none →
    levels s (depth + 1) (Path.ofNames (above ++ [n])) =
      levels s depth (Path.ofNames above) ++ [Path.ofNames (above ++ [n])]

/-- **One level below an entry** is all there is to make: the place becomes a directory, or is one,
unless a file is in the way. -/
theorem level_below_entry {s : σ} (hs : Sound s) (htree : (view s).IsTree) {above : List String}
    {n : String} (hl : MakesLevel view Sound level s (above ++ [n])) (ha : view s above ≠ none) :
    ((view s).CanMakeAll (above ++ [n]) →
      ∃ s', level (Path.ofNames (above ++ [n])) s = (.ok (), s') ∧ Sound s' ∧
        view s' = (view s).makeAll (above ++ [n])) ∧
    (¬ (view s).CanMakeAll (above ++ [n]) →
      ∃ f, level (Path.ofNames (above ++ [n])) s = (.error f, s)) := by
  cases hvp : view s (above ++ [n]) with
  | none =>
    have hnd : view s (above ++ [n]) ≠ some .directory := by rw [hvp]; exact fun h => nomatch h
    cases hva : view s above with
    | none => exact absurd hva ha
    | some x =>
      cases x with
      | directory =>
        obtain ⟨s', h1, h2, h3⟩ := hl.made (canMake_append.2 ⟨hva, hvp⟩)
        refine ⟨fun _ => ⟨s', h1, h2, h3.trans (put_directory_eq_makeAll htree hva)⟩, fun h => ?_⟩
        refine absurd (canMakeAll_append.2 ⟨canMakeAll_of_directory htree hva, ?_⟩) h
        rw [hvp]
        exact fun _ he => nomatch he
      | file data =>
        refine ⟨fun h => absurd hva (h above (List.prefix_append _ _) data), fun _ => ?_⟩
        refine hl.refused hnd fun h => ?_
        rw [canMake_append, hva] at h
        cases h.1
  | some y =>
    cases y with
    | directory =>
      refine ⟨fun _ => ⟨s, hl.kept hvp, hs, (makeAll_of_directory htree hvp).symm⟩, fun h => ?_⟩
      exact absurd (canMakeAll_of_directory htree hvp) h
    | file data =>
      refine ⟨fun h => absurd hvp (h _ (List.prefix_refl _) data), fun _ => ?_⟩
      refine hl.refused (by rw [hvp]; exact fun h => nomatch h) fun h => ?_
      rw [canMake_append, hvp] at h
      cases h.2

/-- **Making all levels** makes the place and every place above it a directory, or refuses and
changes nothing.  By induction on the names: an empty place above is made first, and it can be made
exactly if the place itself can. -/
theorem inTurn_levels {s : σ} (hlevels : FindsLevels view levels s)
    (hlevel : ∀ s place, Sound s → Path.AreNames place → MakesLevel view Sound level s place)
    (hs : Sound s) (htree : (view s).IsTree) (place : List String) (hn : Path.AreNames place)
    (depth : Nat) (hd : place.length ≤ depth) :
    ((view s).CanMakeAll place →
      ∃ s', Changed.inTurn level (levels s depth (Path.ofNames place)) s = (.ok (), s') ∧ Sound s' ∧
        view s' = (view s).makeAll place) ∧
    (¬ (view s).CanMakeAll place →
      ∃ f, Changed.inTurn level (levels s depth (Path.ofNames place)) s = (.error f, s)) := by
  induction place using List.reverseRecOn generalizing depth with
  | nil =>
    rw [hlevels.one depth [] hn fun above n h => absurd h.symm (by simp), Changed.inTurn_singleton]
    have hroot := htree.root
    refine ⟨fun _ => ⟨s, (hlevel s [] hs hn).kept hroot, hs, ?_⟩, fun h => ?_⟩
    · exact (makeAll_of_directory htree hroot).symm
    · exact absurd (canMakeAll_of_directory htree hroot) h
  | append_singleton above n ih =>
    by_cases hva : view s above = none
    · have hvp : view s (above ++ [n]) = none := htree.none_below (by simp [hva]) n
      obtain ⟨depth, rfl⟩ : ∃ d, depth = d + 1 := ⟨depth - 1, by simp at hd; omega⟩
      have hna := (Path.areNames_append.1 hn).1
      obtain ⟨hok, herr⟩ := ih hna depth (by simpa using hd)
      have hiff : (view s).CanMakeAll (above ++ [n]) ↔ (view s).CanMakeAll above := by
        rw [canMakeAll_append, hvp]
        exact and_iff_left fun _ he => nomatch he
      rw [hlevels.more depth above n hn hva, Changed.inTurn_append, hiff]
      constructor
      · intro h
        obtain ⟨s₁, h1, h2, h3⟩ := hok h
        rw [h1]
        have hcan : (view s₁).CanMake (above ++ [n]) := by
          rw [canMake_append, h3, makeAll, makeAll, if_pos (List.prefix_refl _),
            if_neg (not_prefix_above above n), hvp]
          exact ⟨rfl, rfl⟩
        obtain ⟨s', h4, h5, h6⟩ := (hlevel s₁ _ h2 hn).made hcan
        refine ⟨s', (Changed.inTurn_singleton level _ s₁).trans h4, h5, ?_⟩
        rw [h6, h3, put_makeAll_eq_makeAll]
      · intro h
        obtain ⟨f, h1⟩ := herr h
        exact ⟨f, by rw [h1]⟩
    · have hone : ∀ as m, above ++ [n] = as ++ [m] → view s as ≠ none := by
        intro as m he
        obtain ⟨rfl, -⟩ := List.append_inj' he rfl
        exact hva
      rw [hlevels.one depth _ hn hone, Changed.inTurn_singleton]
      exact level_below_entry hs htree (hlevel s _ hs hn) hva

end Levels

end View

end Arboretum
