import Arboretum.Proofs.Glob.Expansion

/-!
# A glob finds what its pattern reaches

From a handle that resolves to a directory of a tree, a glob hands out exactly the matches that the
pattern has there (`Pattern.expected`), in the order of the tree, none of them twice, and leaves the
world as it was (`run_eq_expected`).  Hints do not matter, nor which of the stores keeps the tree.
-/

namespace Arboretum

namespace Glob

variable {w : World} {token : Option Nat}

/-! ## 1. The start -/

variable {h : Handle} {p : Pattern} {number : Nat} {hinting : Bool}

/-- A pattern without a root of its own, or with a lone slash under a valid base, starts at the
base. -/
theorem record_isRooted (hroot : p.root = none ∨ p.root = some "/")
    (howner : (w.registry h.registryNumber).owner h.uri ≠ (w.registry h.registryNumber).void) :
    w.record token (isRooted h p : Traversal Match Bool) = ⟨.finished false, [], w⟩ := by
  unfold isRooted
  rcases hroot with hr | hr
  · have hne : p.root ≠ some "/" := by rw [hr]; exact nofun
    have hno : p.isRooted = false := by rw [Pattern.isRooted, hr]; rfl
    rw [if_neg hne, hno]
    rfl
  · have hvalid : decide ((w.registry h.registryNumber).owner h.uri ≠
        (w.registry h.registryNumber).void) = true := decide_eq_true howner
    rw [if_pos hr]
    have hstep : w.record token ((do return !(← h.isValid) : Traversal Match Bool)) =
        ⟨.finished !(decide ((w.registry h.registryNumber).owner h.uri ≠
          (w.registry h.registryNumber).void)), [], w⟩ := rfl
    rw [hstep, hvalid]
    rfl

/-- **A run that starts at its base**: without segments the base is all. -/
theorem record_run (hc : w.cancelled token = none)
    (hr : w.record token (isRooted h p : Traversal Match Bool) = ⟨.finished false, [], w⟩) :
    w.record token (run number hinting h p) =
      if p.segments = [] then ⟨.finished (), [⟨h, []⟩], w⟩
      else w.record token
        (fromBase ⟨number, (w.registry number).home, hinting, p.directoriesOnly⟩ h p) := by
  unfold run
  refine (World.record_checked_of_none hc _).trans ?_
  refine (World.record_routes w token number _).trans ?_
  refine (World.record_bind_of_finished w token hr _).trans ?_
  rw [Record.behind_nil, if_neg Bool.false_ne_true]
  cases hsegments : p.segments with
  | nil => rfl
  | cons segment rest => rfl

variable {s : Store} {f : MemoryTree} {place : List String} {inside : Forest ByteArray}

/-- **Starting below the base**, a directory of the tree that its store holds. -/
theorem record_fromBase (hc : w.cancelled token = none) (hs : s.IsMounted)
    (hf : w.storage.Holds s f) {settings : Settings} (hfollow : Followable p.segments)
    (hread : ∀ segment ∈ p.segments, ∃ text, Pattern.Segment.read text = .ok segment)
    (hn : Path.AreNames place) (hat : f.at? place = some (.folder inside))
    (hresolve : w.record token (h.resolve : Traversal Match (Store × String)) =
      ⟨.finished (s, Path.ofNames place), [], w⟩) :
    w.record token (fromBase settings h p) =
      ⟨.finished (), settings.matches s place []
        (reach settings.directoriesOnly p.segments (.folder inside)), w⟩ := by
  obtain ⟨info, hask, hinfo⟩ := hf.ask_stat hn
  rw [hat] at hinfo
  obtain ⟨info, rfl, hdir⟩ := Option.map_eq_some_iff.1 hinfo
  unfold fromBase
  refine (World.record_bind_of_finished w token hresolve _).trans ?_
  rw [Record.behind_nil]
  refine (World.record_call_of_ok hc (World.ask_of_storage hask) _).trans ?_
  dsimp only
  rw [hdir]
  exact record_expand hc hs hf hfollow hread hn hat (fun _ => rfl) []

/-! ## 2. Whole globs -/

/-- **The matches that a pattern has** at a directory of a store, seen from a handle of the
directory: what its segments reach, by address; without segments the handle itself, as it stands. -/
def expected (g : Registry) (h : Handle) (s : Store) (place : List String) (p : Pattern)
    (inside : Forest ByteArray) : List Match :=
  if p.segments = [] then [⟨h, []⟩]
  else (reach p.directoriesOnly p.segments (.folder inside)).map fun r =>
    ⟨⟨g.address s (Path.ofNames (place ++ r.names)), some h.registryNumber⟩, r.captures⟩

/-- No place is among the matches twice. -/
theorem nodup_expected {g : Registry} (ho : inside.Orderly) (hn : Path.AreNames place) :
    ((expected g h s place p inside).map fun m => m.handle.uri).Nodup := by
  unfold expected
  split
  · exact List.nodup_singleton _
  · rw [List.map_map]
    have haddress : ((fun m : Match => m.handle.uri) ∘ fun r : Reached =>
          (⟨⟨g.address s (Path.ofNames (place ++ r.names)), some h.registryNumber⟩, r.captures⟩ :
            Match)) =
        (fun names => g.address s (Path.ofNames (place ++ names))) ∘ Reached.names := rfl
    have hreach : ((reach p.directoriesOnly p.segments (.folder inside)).map Reached.names).Nodup :=
      nodup_reach ho
    rw [haddress, ← List.map_map]
    refine hreach.map_on fun ns hns ms hms he => ?_
    obtain ⟨r, hr, rfl⟩ := List.mem_map.1 hns
    obtain ⟨q, hq, rfl⟩ := List.mem_map.1 hms
    have hrn := Path.areNames_append.2 ⟨hn, areNames_of_mem_reach ho hr⟩
    have hqn := Path.areNames_append.2 ⟨hn, areNames_of_mem_reach ho hq⟩
    exact List.append_cancel_left ((Registry.address_ofNames_inj hrn hqn).1 he)

/-- A run from a handle of a directory of a tree. -/
theorem record_run_expected (hc : w.cancelled token = none)
    (hv : (w.registry h.registryNumber).void.kind = .void) (hs : s.IsMounted) {path : String}
    (hresolve : w.record token (h.resolve : Traversal Match (Store × String)) =
      ⟨.finished (s, path), [], w⟩) (ht : Path.Tidy path) (hf : w.storage.Holds s f)
    (hat : f.at? (Path.names path) = some (.folder inside)) (hfollow : Followable p.segments)
    (hread : ∀ segment ∈ p.segments, ∃ text, Pattern.Segment.read text = .ok segment)
    (hroot : p.root = none ∨ p.root = some "/") :
    w.record token (run h.registryNumber hinting h p) =
      ⟨.finished (), expected (w.registry h.registryNumber) h s (Path.names path) p inside, w⟩ := by
  have hplace : w.record token ((w.registry h.registryNumber).resolve h.uri :
      Traversal Match (Store × String)) = ⟨.finished (s, path), [], w⟩ := hresolve
  obtain ⟨howner, parts, rfl, -⟩ := Registry.of_record_resolve hv hs hplace
  obtain ⟨hn, hpath⟩ := hs.ofNames_names ht
  have hvalid : (w.registry h.registryNumber).owner h.uri ≠ (w.registry h.registryNumber).void := by
    rw [howner]
    intro he
    rw [← he] at hv
    cases hs <;> cases hv
  rw [record_run hc (record_isRooted hroot hvalid)]
  unfold expected
  split
  · rfl
  · rw [← hpath] at hresolve
    exact record_fromBase hc hs hf hfollow hread hn hat hresolve

/-- **A glob finds what its pattern reaches.**  A handle resolves to a tidy path of a store in
memory or in a table, the tree of the store was built at tidy paths, and the path is a directory of
the tree.  Then a glob from the handle ends well with exactly the matches of its pattern there, in
the order of the tree and none twice, and changes nothing.  The pattern has no root of its own, and
its literal segments neither stand for `.` nor end in a blank; of the registry nothing is asked but
that its void store is one. -/
theorem run_eq_expected (w : World) (token : Option Nat) (hc : w.cancelled token = none)
    (h : Handle) (hv : (w.registry h.registryNumber).void.kind = .void) (s : Store) (path : String)
    (hs : s.IsMounted)
    (hresolve : w.record token (h.resolve : Traversal Match (Store × String)) =
      ⟨.finished (s, path), [], w⟩)
    (ht : Path.Tidy path) (hb : w.storage.Built s) (text : String) (p : Pattern)
    (hp : Pattern.read text = .ok p) (hroot : p.root = none ∨ p.root = some "/")
    (hlit : ∀ segment ∈ p.segments, ∀ name, segment.literal? = some name →
      name ≠ "." ∧ Text.endsBlank name.toList = false)
    (hinting : Bool) :
    ∃ f, w.storage.Holds s f ∧ ∀ inside, f.at? (Path.names path) = some (.folder inside) →
      let found := expected (w.registry h.registryNumber) h s (Path.names path) p inside
      w.run token (ofText (.handle h) text none hinting) = (.finished (found, ()), w) ∧
        w.run token (ofPattern (.handle h) p none hinting) = (.finished (found, ()), w) ∧
        (found.map fun m => m.handle.uri).Nodup := by
  obtain ⟨f, hf⟩ := hb.exists_holds
  refine ⟨f, hf, fun inside hat => ?_⟩
  have hfollow : Followable p.segments := by
    intro segment hm name hl
    obtain ⟨hhere, hblank⟩ := hlit segment hm name hl
    by_cases hclimb : name = Pattern.climbing
    · exact .inl hclimb
    · exact .inr (Pattern.isName_of_literal? hp hm hl hhere hclimb hblank)
  have hrun : w.record token (run h.registryNumber hinting h p) = _ :=
    record_run_expected hc hv hs hresolve ht hf hat hfollow (Pattern.exists_text_of_read hp) hroot
  have hpattern : ofPattern (.handle h) p none hinting = run h.registryNumber hinting h p := rfl
  obtain ⟨hinside, hn⟩ := Forest.orderly_of_at? hf.orderly hat
  intro found
  rw [ofText_eq_ofPattern hp, hpattern, World.run_eq_of_record, hrun]
  exact ⟨rfl, rfl, nodup_expected hinside hn⟩

/-- A wild segment and a literal one find the file. -/
theorem run_eq_expected_small :
    let h : Handle := ⟨"mem://a/", none⟩
    let p : Pattern :=
      ⟨"*/x", [⟨"*", [.anyRun]⟩, ⟨"x", [.char 'x']⟩], false, none⟩
    Pattern.read "*/x" = .ok p ∧
      World.small.run none (ofPattern (.handle h) p none true) =
        (.finished ([⟨⟨"mem://a/b/x", some commonRegistry⟩, ["b"]⟩], ()), World.small) := by
  intro h p
  have hread : Pattern.read "*/x" = .ok p := by decide +kernel
  have hplace : (World.small.registry commonRegistry).place "mem://a/" =
      (⟨2, "mem://a", .memory⟩, "/") := by decide +kernel
  have hresolve : World.small.record none (h.resolve : Traversal Match (Store × String)) =
      ⟨.finished (⟨2, "mem://a", .memory⟩, "/"), [], World.small⟩ := by
    rw [← hplace]
    exact Handle.record_resolve World.small none World.reachable_small.sound
  obtain ⟨f, hf, hrun⟩ := run_eq_expected World.small none rfl h rfl
    ⟨2, "mem://a", .memory⟩ "/" (.memory 2 "a") hresolve (by decide) World.built_small "*/x" p hread
    (.inl rfl) (by
      intro segment hm name hl
      rcases List.mem_cons.1 hm with rfl | hm
      · cases hl
      · obtain rfl := List.mem_singleton.1 hm
        obtain rfl := Option.some.inj hl
        decide +kernel) true
  obtain rfl : World.small.storage.memory 2 = f := hf.1
  let inside : Forest ByteArray := .folder "b" (.leaf "x" .empty .empty) .empty
  have hat : (World.small.storage.memory 2).at? (Path.names "/") = some (.folder inside) := rfl
  have hfound : expected (World.small.registry commonRegistry) h ⟨2, "mem://a", .memory⟩
      (Path.names "/") p inside = [⟨⟨"mem://a/b/x", some commonRegistry⟩, ["b"]⟩] := by
    decide +kernel
  have hpattern := (hrun inside hat).2.1
  exact ⟨hread, hfound ▸ hpattern⟩

/-- **A handle that no longer is the address of its place.**  It was made while no store was
registered, so its address was kept as it came.  Now it resolves to a directory; but a pattern
without segments hands out the handle as it stands, not by the address of the directory. -/
theorem run_empty_ne_address :
    let s : Store := ⟨2, "mem://a", .memory⟩
    let h : Handle := ⟨"mem://a//b", none⟩
    let p : Pattern := ⟨"", [], false, none⟩
    let inside : Forest ByteArray := .leaf "x" .empty .empty
    (World.initial ⟨.empty, []⟩).record none (Handle.ofAddress "mem://a//b" none :
        Traversal Match Handle) = ⟨.finished h, [], World.initial ⟨.empty, []⟩⟩ ∧
      World.small.storage.Built s ∧ World.small.storage.Holds s (World.small.storage.memory 2) ∧
      World.small.record none (h.resolve : Traversal Match (Store × String)) =
        ⟨.finished (s, "/b"), [], World.small⟩ ∧
      Path.Tidy "/b" ∧
      (World.small.storage.memory 2).at? (Path.names "/b") = some (.folder inside) ∧
      Pattern.read "" = .ok p ∧
      World.small.run none (ofText (.handle h) "" none true) =
        (.finished ([⟨h, []⟩], ()), World.small) ∧
      [h.uri] ≠ (reach p.directoriesOnly p.segments (.folder inside)).map fun r =>
        (World.small.registry commonRegistry).address s (Path.ofNames ("b" :: r.names)) := by
  intro s h p inside
  have hsound : ((World.initial ⟨.empty, []⟩).registry commonRegistry).Sound :=
    (Registry.Reachable.fresh (.inr ⟨rfl, rfl⟩) rfl).sound
  have hcanonical : ((World.initial ⟨.empty, []⟩).registry commonRegistry).canonicalText
      "mem://a//b" = "mem://a//b" := by decide +kernel
  have hmade : (World.initial ⟨.empty, []⟩).record none (Handle.ofAddress "mem://a//b" none :
      Traversal Match Handle) = ⟨.finished h, [], World.initial ⟨.empty, []⟩⟩ := by
    refine (Handle.record_ofAddress (World.initial ⟨.empty, []⟩) none none hsound _).trans ?_
    exact (Record.finished_eq_iff _).2 (congrArg (Handle.mk · none) hcanonical)
  have hplace : (World.small.registry commonRegistry).place "mem://a//b" = (s, "/b") := by
    decide +kernel
  have hresolve : World.small.record none (h.resolve : Traversal Match (Store × String)) =
      ⟨.finished (s, "/b"), [], World.small⟩ := by
    rw [← hplace]
    exact Handle.record_resolve World.small none World.reachable_small.sound
  have hholds : World.small.storage.Holds s (World.small.storage.memory 2) := by
    obtain ⟨f, hf⟩ := World.built_small.exists_holds
    obtain rfl : World.small.storage.memory 2 = f := hf.1
    exact hf
  have hread : Pattern.read "" = .ok p := by decide +kernel
  have hrun : World.small.run none (ofText (.handle h) "" none true) =
      (.finished ([⟨h, []⟩], ()), World.small) := by
    have hpattern : ofPattern (.handle h) p none true = run commonRegistry true h p := rfl
    rw [ofText_eq_ofPattern hread, hpattern, World.run_eq_of_record, record_run rfl rfl]
    rfl
  exact ⟨hmade, World.built_small, hholds, hresolve, by decide, rfl, hread, hrun, by decide +kernel⟩

end Glob

end Arboretum
