import Arboretum.Proofs.Pattern.Like
import Arboretum.Proofs.Store.Hints

/-!
# Hints do not show

A glob may give its wild segments to the stores as hints.  A hint loses no match, and every name is
looked at again, so nobody can tell whether hints are given: not by the matches, not by their
order, and not by the fault that ends the run (`record_hinting`).  That holds in every world, for
every kind of store.
-/

namespace Arboretum

open Traversal (Same)

/-! ## 1. Expansion -/

namespace Glob

/-- **A name that a segment matches passes the hints** that are given for the segment. -/
theorem passes_hintsOf (settings : Settings) (s : Store) {text : String}
    {segment : Pattern.Segment} (h : Pattern.Segment.read text = .ok segment) {name : String}
    (hc : segment.covers name = true) : s.passes (hintsOf settings segment) name = true := by
  have hnone : s.passes [] name = true := by
    unfold Store.passes
    cases s.kind <;> rfl
  unfold hintsOf
  by_cases hh : settings.hinting = true
  · rw [if_pos hh]
    cases hint : segment.hint? with
    | none => exact hnone
    | some text =>
      by_cases he : text = ""
      · subst he
        exact hnone
      · have hone : (some text).toList.filter (fun t => decide (t ≠ "")) = [text] := by simp [he]
        rw [hone]
        unfold Store.passes
        cases s.kind with
        | memory => exact Pattern.shell_passes_of_covers h hint hc
        | disk => exact Pattern.shell_passes_of_covers h hint hc
        | table number space => exact Pattern.like_passes_of_covers h hint hc
        | void => rfl
        | outside label abilities => rfl
  · rw [if_neg hh]
    exact hnone

/-- **Hints for a listing do not show** when every entry is passed over that does not pass them. -/
theorem same_all (s : Store) (path : String) (hints : List String)
    {visit : Entry → Traversal Match Unit}
    (h : ∀ e : Entry, s.passes hints e.name = false → visit e = .done ()) :
    Same ((Listing.all s path hints).bind (Traversal.forEach visit))
      ((Listing.all s path []).bind (Traversal.forEach visit)) := by
  intro w token
  rw [World.record_all, World.record_all]
  cases w.cancelled token with
  | some reason => rfl
  | none =>
    dsimp only
    cases ((w.ask s (.list path [])).1 : Except Fault (List Entry)) with
    | error f => rfl
    | ok entries =>
      have hall : (entries.filter fun e => s.passes [] e.name) = entries := by
        refine List.filter_eq_self.2 fun e _ => ?_
        unfold Store.passes
        cases s.kind <;> rfl
      dsimp only
      rw [hall, Traversal.forEach_filter h]

/-- The settings without hints. -/
def Settings.unhinted (settings : Settings) : Settings := { settings with hinting := false }

/-- **Expanding with hints and without**: by induction on the segments, nobody can tell. -/
theorem same_expand (settings : Settings) {segments : List Pattern.Segment}
    (hread : ∀ segment ∈ segments, ∃ text, Pattern.Segment.read text = .ok segment)
    (c : Candidate) : Same (expand settings segments c) (expand settings.unhinted segments c) := by
  induction segments generalizing c with
  | nil => exact Same.refl _
  | cons segment rest ih =>
    obtain ⟨text, hr⟩ := hread segment List.mem_cons_self
    have ih : ∀ c, Same (expand settings rest c) (expand settings.unhinted rest c) := fun c =>
      ih (fun s hs => hread s (List.mem_cons_of_mem segment hs)) c
    unfold expand
    cases segment.literal? with
    | some name =>
      refine Same.bind Traversal.checked fun _ => ?_
      by_cases hclimb : name = Pattern.climbing
      · rw [if_pos hclimb, if_pos hclimb]
        exact Same.refl _
      · rw [if_neg hclimb, if_neg hclimb]
        refine Same.bind (Traversal.call c.store c.path (.join [c.path, name])) fun path => ?_
        refine Same.bind (Traversal.call c.store path (.stat path)) fun info => ?_
        cases info with
        | none => exact Same.refl _
        | some info =>
          dsimp only
          split
          · exact Same.refl _
          · exact ih _
    | none =>
      have hvisit : ∀ e : Entry, c.store.passes (hintsOf settings segment) e.name = false →
          segment.covers e.name = false := by
        intro e he
        cases hc : segment.covers e.name with
        | false => rfl
        | true =>
          have hpass := passes_hintsOf settings c.store hr hc
          rw [he] at hpass
          cases hpass
      refine (same_all c.store c.path (hintsOf settings segment) fun e he => ?_).trans ?_
      · rw [hvisit e he]
        rfl
      · have hnone : hintsOf settings.unhinted segment = [] := rfl
        rw [hnone]
        refine Same.bind (Listing.all c.store c.path []) fun entries => ?_
        refine Same.forEach (fun e => ?_) entries
        split
        · exact Same.bind _ fun path => ih _
        · exact Same.refl _

/-! ## 2. Whole runs -/

/-- **A glob** for the text of a pattern: the pattern is read, the base bound, and the run made. -/
def ofText (base : Base) (text : String) (registry : Option Nat) (hinting : Bool) :
    Traversal Match Unit := do
  let (h, number, p) ← prepare base text registry
  run number hinting h p

/-- A glob for a pattern that was read before. -/
def ofPattern (base : Base) (p : Pattern) (registry : Option Nat) (hinting : Bool) :
    Traversal Match Unit := do
  let (h, number) ← base.bind registry
  run number hinting h p

/-- Reading the pattern beforehand makes no difference. -/
theorem ofText_eq_ofPattern {text : String} {p : Pattern} (hp : Pattern.read text = .ok p)
    (base : Base) (registry : Option Nat) (hinting : Bool) :
    ofText base text registry hinting = ofPattern base p registry hinting := by
  unfold ofText prepare ofPattern
  rw [hp]
  exact Traversal.bind_assoc _ _ _

/-- A run with hints and without. -/
theorem same_run (registry : Nat) (base : Handle) {text : String} {p : Pattern}
    (hp : Pattern.read text = .ok p) : Same (run registry true base p) (run registry false base p)
    := by
  have hread := Pattern.exists_text_of_read hp
  refine Same.bind Traversal.checked fun _ => ?_
  refine Same.bind (Traversal.registry registry) fun g => ?_
  refine Same.bind (isRooted base p) fun rooted => ?_
  cases rooted with
  | true =>
    refine Same.bind (g.resolve (p.root.getD "" ++ "/".intercalate p.literalHead)) fun (s, path) => ?_
    dsimp only
    by_cases hvoid : s = g.void
    · rw [if_pos hvoid, if_pos hvoid]
      exact Same.refl _
    · rw [if_neg hvoid, if_neg hvoid]
      refine Same.bind (Traversal.call s path (.stat path)) fun info => ?_
      cases info with
      | none => exact Same.refl _
      | some info =>
        dsimp only
        split
        · exact Same.refl _
        · refine same_expand ⟨registry, g.home, true, p.directoriesOnly⟩ (fun segment hm => ?_) _
          exact hread segment (List.mem_of_mem_drop hm)
  | false =>
    rw [if_neg Bool.false_ne_true, if_neg Bool.false_ne_true]
    by_cases hempty : p.segments.isEmpty = true
    · rw [if_pos hempty, if_pos hempty]
      exact Same.refl _
    · rw [if_neg hempty, if_neg hempty]
      refine Same.bind base.resolve fun (s, path) => ?_
      refine Same.bind (Traversal.call s path (.stat path)) fun info => ?_
      cases info with
      | none => exact Same.refl _
      | some info =>
        dsimp only
        split
        · exact same_expand ⟨registry, g.home, true, p.directoriesOnly⟩ hread _
        · exact Same.refl _

/-- **Hints do not show.**  In every world, a glob hands out the same matches in the same order and
ends the same way with hints and without, whether its pattern comes as a text or was read before. -/
theorem record_hinting (w : World) (token : Option Nat) (base : Base) (text : String)
    (registry : Option Nat) :
    w.record token (ofText base text registry true) =
        w.record token (ofText base text registry false) ∧
      ∀ p, Pattern.read text = .ok p →
        w.record token (ofPattern base p registry true) =
          w.record token (ofPattern base p registry false) := by
  have hpattern : ∀ p, Pattern.read text = .ok p →
      w.record token (ofPattern base p registry true) =
        w.record token (ofPattern base p registry false) := by
    intro p hp
    exact Same.bind (base.bind registry) (fun x => same_run x.2 x.1 hp) w token
  refine ⟨?_, hpattern⟩
  cases hp : Pattern.read text with
  | error flaw =>
    have hfail : ∀ hinting, ofText base text registry hinting =
        .fail (.invalidPattern text flaw) := by
      intro hinting
      unfold ofText prepare
      rw [hp]
      rfl
    rw [hfail, hfail]
  | ok p =>
    rw [ofText_eq_ofPattern hp, ofText_eq_ofPattern hp]
    exact hpattern p hp

/-- Three files, of which a hint may keep one. -/
def three : Disk where
  root := .leaf "ab" (.file .empty) <| .leaf "b" (.file .empty) <| .leaf "ba" (.file .empty) .empty
  cwd := []

/-- A pattern that gives its wild segment to the disk as a hint: the disk leaves out two of the three
files then, and the glob hands out the same one. -/
theorem record_hinting_star :
    let w := World.initial three
    let p : Pattern := ⟨"a*", [⟨"a*", [.char 'a', .anyRun]⟩], false, none⟩
    Pattern.read "a*" = .ok p ∧
      three.list "/" ["a*"] = .ok [⟨"ab", false⟩] ∧
      three.list "/" [] = .ok [⟨"ab", false⟩, ⟨"b", false⟩, ⟨"ba", false⟩] ∧
      w.record none (ofPattern (.address "/") p none true) =
        w.record none (ofPattern (.address "/") p none false) ∧
      (w.record none (ofPattern (.address "/") p none false)).found =
        [⟨⟨"/ab", some commonRegistry⟩, ["ab"]⟩] := by
  intro w p
  have hread : Pattern.read "a*" = .ok p := by decide +kernel
  refine ⟨hread, by decide +kernel, by decide +kernel, ?_, by decide +kernel⟩
  exact (record_hinting w none (.address "/") "a*" none).2 p hread

end Glob

end Arboretum
