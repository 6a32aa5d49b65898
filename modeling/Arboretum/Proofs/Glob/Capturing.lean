import Arboretum.Proofs.Glob.Hinting
import Arboretum.Proofs.Pattern.Accepting
import Arboretum.Proofs.Traversal.Course

/-!
# Captures, whoever answers

The captures of a match belong to the wild segments of the pattern, in their order, and each of
them is the name of an entry that some listing of the run reported and the segment matches.  This
needs nothing of the stores: they may answer every call as they like, differently each time, ignore
the hints, and change the registries meanwhile.

While a pattern is expanded, the captures of a candidate belong to the wild segments that were
passed (`Captured`), and the candidate has passed the head of a rooted pattern without any.  What
has been handed out so far (`Told`) is kept by every call; the expansion is by induction on the
segments that are left (`course_expand`).
-/

namespace Arboretum

namespace Pattern.Segment

/-- A segment is wild exactly if it does not stand for a name. -/
theorem isWild_iff (segment : Segment) : segment.isWild = true ↔ segment.literal? = none := by
  rw [← Option.isNone_iff_eq_none, ← Option.not_isSome, Bool.not_eq_true', Bool.eq_false_iff, Ne,
    isSome_literal?_iff, isWild, List.any_eq_true]
  constructor
  · rintro ⟨item, hm, hw⟩ hall
    obtain ⟨c, rfl⟩ := hall item hm
    cases hw
  · intro hsome
    obtain ⟨item, hsome⟩ := Classical.not_forall.1 hsome
    obtain ⟨hm, hplain⟩ := Classical.not_imp.1 hsome
    refine ⟨item, hm, ?_⟩
    cases item with
    | char c => exact absurd ⟨c, rfl⟩ hplain
    | _ => rfl

end Pattern.Segment

namespace Glob

open Pattern (Segment)

variable {σ : Type}

/-! ## 1. Captures so far -/

/-- **A name was reported**: a listing among the moments was answered with an entry of that name. -/
def Reported (ms : List (Moment σ Match)) (name : String) : Prop :=
  ∃ m ∈ ms, ∃ s path hints entries, m.step = .asked s (.list path hints) (.ok entries) ∧
    ∃ entry ∈ entries, entry.name = name

/-- **The captures belong to the wild ones of some segments**, one for each, in their order: each
was reported, and its segment matches it. -/
def Captured (ms : List (Moment σ Match)) (segments : List Segment) (captures : List String) :
    Prop :=
  List.Forall₂ (fun segment name => segment.covers name = true ∧ Reported ms name)
    (segments.filter Segment.isWild) captures

/-- All matches handed out so far have captures that belong to the pattern. -/
def Told (segments : List Segment) (ms : List (Moment σ Match)) : Prop :=
  ∀ earlier m later, ms = earlier ++ m :: later →
    ∀ y verdict, m.step = .handed y verdict → Captured earlier segments y.captures

variable {ms more : List (Moment σ Match)} {done segments : List Segment} {segment : Segment}
  {captures : List String} {name : String}

theorem Reported.mono (h : Reported ms name) (hmore : ms <+: more) : Reported more name := by
  obtain ⟨m, hm, rest⟩ := h
  exact ⟨m, hmore.subset hm, rest⟩

theorem Captured.mono (h : Captured ms segments captures) (hmore : ms <+: more) :
    Captured more segments captures :=
  h.imp fun _ _ hname => ⟨hname.1, hname.2.mono hmore⟩

/-- Segments without a wild one have no captures. -/
theorem captured_nil (h : ∀ segment ∈ segments, segment.isWild = false) :
    Captured ms segments [] := by
  have hnone : segments.filter Segment.isWild = [] :=
    List.filter_eq_nil_iff.2 fun segment hm => Bool.eq_false_iff.1 (h segment hm)
  unfold Captured
  rw [hnone]
  exact .nil

/-- Passing a segment that is not wild. -/
theorem Captured.literal (h : Captured ms done captures) (hs : segment.isWild = false) :
    Captured ms (done ++ [segment]) captures := by
  unfold Captured at h ⊢
  rwa [List.filter_append, List.filter_cons_of_neg (by rw [hs]; decide), List.filter_nil,
    List.append_nil]

/-- Passing a wild segment with one more capture. -/
theorem Captured.wild (h : Captured ms done captures) (hs : segment.isWild = true)
    (hcovers : segment.covers name = true) (hname : Reported ms name) :
    Captured ms (done ++ [segment]) (captures ++ [name]) := by
  unfold Captured at h ⊢
  rw [List.filter_append, List.filter_cons_of_pos hs, List.filter_nil]
  exact List.rel_append h (.cons ⟨hcovers, hname⟩ .nil)

/-- There is one capture for each wild segment, and its segment is the one at its place. -/
theorem Captured.at {p : Pattern} (h : Captured ms p.segments captures) :
    captures.length = p.wildCount ∧ ∀ (i : Nat) (name : String), captures[i]? = some name →
      ∃ segment, (p.segments.filter Segment.isWild)[i]? = some segment ∧
        segment.covers name = true ∧ Reported ms name := by
  refine ⟨?_, fun i name hi => ?_⟩
  · rw [← h.length_eq, Pattern.wildCount, List.countP_eq_length_filter]
  · obtain ⟨hlt, hget⟩ := List.getElem?_eq_some_iff.1 hi
    have hlt' : i < (p.segments.filter Segment.isWild).length := h.length_eq ▸ hlt
    have hrel := h.get hlt' hlt
    rw [List.get_eq_getElem, List.get_eq_getElem, hget] at hrel
    exact ⟨_, List.getElem?_eq_getElem hlt', hrel⟩

/-! ## 2. What has been told -/

/-- Nothing was handed out yet. -/
theorem told_nil : Told segments ([] : List (Moment σ Match)) := by
  intro earlier m later h
  simp at h

/-- One more moment, which hands out nothing wrong. -/
theorem Told.snoc (h : Told segments ms) {m : Moment σ Match}
    (hm : ∀ y verdict, m.step = .handed y verdict → Captured ms segments y.captures) :
    Told segments (ms ++ [m]) := by
  intro earlier m' later he y verdict hstep
  rcases List.eq_nil_or_concat later with rfl | ⟨later', last, rfl⟩
  · obtain ⟨rfl, hlast⟩ := List.append_inj' he rfl
    obtain rfl := (List.cons.inj hlast).1
    exact hm y verdict hstep
  · rw [List.concat_eq_append, ← List.cons_append, ← List.append_assoc] at he
    exact h earlier m' later' (List.append_inj' he rfl).1 y verdict hstep

/-- A call hands out nothing. -/
theorem Told.asked (h : Told segments ms) (x y : σ) (s : Store) (c : Call)
    (answer : Except Fault c.Answer) : Told segments (ms ++ [⟨x, .asked s c answer, y⟩]) :=
  h.snoc fun _ _ hstep => nomatch hstep

/-- All that a run has told, however it ends. -/
abbrev endings (segments : List Segment) : Runner.Endings σ Match :=
  ⟨fun _ => Told segments, Told segments⟩

variable {r : Runner σ Match} {x : σ} {settings : Settings}

/-- A call, of which only what was told is kept. -/
theorem course_call (h : Told segments ms) (s : Store) (path : String) (c : Call) :
    r.Course (endings segments) (fun _ ms' _ => Told segments ms') ms x
      (Traversal.call s path c : Traversal Match c.Answer) :=
  Runner.course_call (fun _ _ => h) (fun _ _ _ _ => h.asked _ _ _ _ _) fun _ _ _ _ =>
    h.asked _ _ _ _ _

theorem course_checked (h : Told segments ms) :
    r.Course (endings segments) (fun _ ms' _ => ms' = ms) ms x
      (Traversal.checked : Traversal Match Unit) :=
  Runner.course_checked (fun _ _ => h) fun _ => rfl

/-- A listing reports the names of its entries. -/
theorem course_all (h : Told segments ms) (s : Store) (path : String) (hints : List String) :
    r.Course (endings segments) (fun entries ms' _ => Told segments ms' ∧
      ∀ entry ∈ entries, Reported ms' entry.name) ms x
      (Listing.all s path hints : Traversal Match (List Entry)) := by
  unfold Listing.all
  refine (Runner.course_call (Q := fun entries ms' _ => Told segments ms' ∧
    ∀ entry ∈ entries, Reported ms' entry.name) (fun _ _ => h) (fun entries y _ _ => ?_)
    fun _ _ _ _ => h.asked _ _ _ _ _).bind fun entries ms' y hms => ?_
  · exact ⟨h.asked _ _ _ _ _, fun entry he => ⟨_, List.mem_append_right _ List.mem_cons_self, s, path, hints,
      entries, rfl, entry, he, rfl⟩⟩
  · refine (course_checked hms.1).bind fun _ ms'' z hsame => ?_
    subst hsame
    exact Runner.course_done hms

/-! ## 3. Expanding -/

/-- A candidate that has passed all segments is handed out with captures that belong to them. -/
theorem course_settle {c : Candidate} (hc : Captured ms segments c.captures)
    (h : Told segments ms) :
    r.Course (endings segments) (fun _ ms' _ => Told segments ms') ms x (settle settings c) := by
  have hhand : ∀ {ms x}, Captured ms segments c.captures → Told segments ms →
      r.Course (endings segments) (fun _ ms' _ => Told segments ms') ms x
        (settle.hand settings c) := by
    intro ms x hc h
    refine (course_checked h).bind fun _ ms' y hsame => ?_
    subst hsame
    have hout : ∀ {m : Moment σ Match} {verdict : Option Fault},
        m.step = .handed ⟨settings.handle c, c.captures⟩ verdict → Told segments (ms' ++ [m]) := by
      intro m verdict hm
      refine h.snoc fun y verdict' hstep => ?_
      obtain ⟨rfl, -⟩ := Step.handed.inj (hm.symm.trans hstep)
      exact hc
    exact Runner.course_give (fun _ _ => hout rfl) fun _ _ _ => hout rfl
  unfold settle
  split
  · refine (course_call h c.store c.path (.stat c.path)).with_moments.bind ?_
    rintro (_ | info) ms' y ⟨h, hmore⟩
    · exact Runner.course_done h
    · dsimp only
      split
      · exact hhand (hc.mono hmore) h
      · exact Runner.course_done h
  · exact hhand hc h

/-- **Expanding keeps captures aligned.**  A candidate whose captures belong to the segments that it
has passed is expanded over the others; by induction on these. -/
theorem course_expand (rest : List Segment) {c : Candidate} (hall : segments = done ++ rest)
    (hc : Captured ms done c.captures) (h : Told segments ms) :
    r.Course (endings segments) (fun _ ms' _ => Told segments ms') ms x
      (expand settings rest c) := by
  induction rest generalizing done c ms x with
  | nil =>
    rw [hall, List.append_nil] at h ⊢
    exact course_settle hc h
  | cons segment rest ih =>
    have hnext : segments = (done ++ [segment]) ++ rest := by
      rw [List.append_assoc]
      exact hall
    rw [expand]
    cases hl : segment.literal? with
    | some name =>
      have hplain : segment.isWild = false := by
        rw [Bool.eq_false_iff, Ne, Segment.isWild_iff, hl]
        exact Option.some_ne_none name
      refine (course_checked h).bind fun _ ms' y hsame => ?_
      subst hsame
      split
      · exact Runner.course_done h
      · refine (course_call h c.store c.path (.join [c.path, name])).with_moments.bind ?_
        rintro path ms₁ y ⟨h, hmore⟩
        have hc := hc.mono hmore
        refine (course_call h c.store path (.stat path)).with_moments.bind ?_
        rintro (_ | info) ms₂ z ⟨h, hmore⟩
        · exact Runner.course_done h
        · dsimp only
          split
          · exact Runner.course_done h
          · exact ih hnext ((hc.mono hmore).literal hplain) h
    | none =>
      have hwild : segment.isWild = true := segment.isWild_iff.2 hl
      refine (course_all h c.store c.path (hintsOf settings segment)).with_moments.bind ?_
      rintro entries ms₁ y ⟨⟨h, hreported⟩, hmore⟩
      have hc := hc.mono hmore
      -- Between two entries the moments grow, and what was reported stays reported.
      refine (Runner.course_forEach (I := fun ms' _ => Told segments ms' ∧ ms₁ <+: ms')
        ⟨h, List.prefix_refl ms₁⟩ ?_).mono fun _ _ _ hI => hI.1
      rintro entry he ms₂ z ⟨h, hgrown⟩
      split
      · next hcovers =>
        have hmatched : segment.covers entry.name = true := (Bool.and_eq_true_iff.1 hcovers).1
        have hbelow : r.Course (endings segments) (fun _ ms' _ => Told segments ms') ms₂ z
            ((Traversal.call c.store c.path (.join [c.path, entry.name])).bind fun path =>
              expand settings rest { c with path, captures := c.captures ++ [entry.name] }) := by
          refine (course_call h c.store c.path (.join [c.path, entry.name])).with_moments.bind ?_
          rintro path ms₃ z ⟨h, hmore⟩
          have hname := hc.mono hgrown |>.wild hwild hmatched ((hreported entry he).mono hgrown)
          exact ih hnext (hname.mono hmore) h
        exact hbelow.with_moments.mono fun _ ms' _ hQ => ⟨hQ.1, hgrown.trans hQ.2⟩
      · exact Runner.course_done ⟨h, hgrown⟩

/-! ## 4. Whole runs -/

theorem course_resolve (h : Told segments ms) (g : Registry) (uri : String) :
    r.Course (endings segments) (fun _ ms' _ => Told segments ms') ms x
      (g.resolve uri : Traversal Match (Store × String)) := by
  unfold Registry.resolve
  split
  · exact Runner.course_done h
  · refine (Runner.course_plain (Q := fun _ ms' _ => Told segments ms')
      (fun _ _ _ => h.asked _ _ _ _ _) fun _ _ _ => h.asked _ _ _ _ _).bind fun path ms' y h => ?_
    exact Runner.course_done h

theorem course_ofAddress (h : Told segments ms) (uri : String) (registry : Option Nat) :
    r.Course (endings segments) (fun _ ms' _ => Told segments ms') ms x
      (Handle.ofAddress uri registry : Traversal Match Handle) := by
  unfold Handle.ofAddress
  split
  · exact Runner.course_done h
  · refine (Runner.course_registry (Q := fun _ ms' _ => Told segments ms') h).bind
      fun g ms' y h => ?_
    refine Runner.Course.bind (Q := fun _ ms' _ => Told segments ms') ?_
      fun uri ms' y h => Runner.course_done h
    refine (course_resolve h g uri).bind fun _ ms' y h => ?_
    exact Runner.course_done h

theorem course_bind (h : Told segments ms) (base : Base) (registry : Option Nat) :
    r.Course (endings segments) (fun _ ms' _ => Told segments ms') ms x
      (base.bind registry : Traversal Match (Handle × Nat)) := by
  cases base with
  | address uri =>
    exact (course_ofAddress h uri _).bind fun _ _ _ h => Runner.course_done h
  | handle base =>
    cases registry with
    | none => exact Runner.course_done h
    | some number =>
      show r.Course _ _ ms x (if base.registry = some number then pure (base, number)
        else do return (← Handle.ofAddress base.uri (some number), number))
      split
      · exact Runner.course_done h
      · exact (course_ofAddress h base.uri _).bind fun _ _ _ h => Runner.course_done h

/-- The head of a rooted pattern has no wild segment. -/
theorem isWild_of_mem_head (p : Pattern) :
    ∀ segment ∈ p.segments.take p.literalHead.length, segment.isWild = false := by
  unfold Pattern.literalHead
  induction p.segments with
  | nil => exact fun _ hm => absurd hm List.not_mem_nil
  | cons segment segments ih =>
    rw [List.map_cons, List.takeWhile_cons]
    split
    · next hhead =>
      have hsome : segment.literal?.isSome = true := (Bool.and_eq_true_iff.1 hhead).1
      obtain ⟨name, hname⟩ := Option.isSome_iff_exists.1 hsome
      rw [hname, List.filterMap_cons_some (f := id) (b := name) rfl, List.length_cons, List.take_succ_cons]
      intro other hm
      rcases List.mem_cons.1 hm with rfl | hm
      · rw [Bool.eq_false_iff, Ne, Segment.isWild_iff, hname]
        exact Option.some_ne_none name
      · exact ih other hm
    · exact fun _ hm => absurd hm List.not_mem_nil

variable {p : Pattern}

theorem course_fromBase (h : Told p.segments ms) (base : Handle) :
    r.Course (endings p.segments) (fun _ ms' _ => Told p.segments ms') ms x
      (fromBase settings base p) := by
  unfold fromBase
  have hresolve : r.Course (endings p.segments) (fun _ ms' _ => Told p.segments ms') ms x
      (base.resolve : Traversal Match (Store × String)) :=
    (Runner.course_registry (Q := fun _ ms' _ => Told p.segments ms') h).bind
      fun g ms' y h => course_resolve h g base.uri
  refine hresolve.bind fun (s, path) ms' y h => ?_
  refine (course_call h s path (.stat path)).bind ?_
  rintro (_ | info) ms' z h
  · exact Runner.course_done h
  · dsimp only
    split
    · exact course_expand p.segments (List.nil_append _).symm (captured_nil nofun) h
    · exact Runner.course_done h

theorem course_fromRoot (h : Told p.segments ms) (g : Registry) :
    r.Course (endings p.segments) (fun _ ms' _ => Told p.segments ms') ms x
      (fromRoot settings g p) := by
  unfold fromRoot
  refine (course_resolve h g _).bind fun (s, path) ms' y h => ?_
  dsimp only
  split
  · exact Runner.course_done h
  · refine (course_call h s path (.stat path)).bind ?_
    rintro (_ | info) ms' z h
    · exact Runner.course_done h
    · dsimp only
      split
      · exact Runner.course_done h
      · exact course_expand _ (List.take_append_drop _ p.segments).symm
          (captured_nil (isWild_of_mem_head p)) h

theorem course_run (h : Told p.segments ms) (registry : Nat) (hinting : Bool) (base : Handle) :
    r.Course (endings p.segments) (fun _ ms' _ => Told p.segments ms') ms x
      (run registry hinting base p) := by
  unfold run
  refine (course_checked h).bind fun _ ms' y hsame => ?_
  subst hsame
  refine (Runner.course_registry (Q := fun _ ms' _ => Told p.segments ms') h).bind
    fun g ms' y h => ?_
  have hrooted : r.Course (endings p.segments) (fun _ ms' _ => Told p.segments ms') ms' y
      (isRooted base p) := by
    unfold isRooted
    split
    · refine Runner.Course.bind (Q := fun _ ms' _ => Told p.segments ms') ?_
        fun valid ms' y h => Runner.course_done h
      exact (Runner.course_registry (Q := fun _ ms' _ => Told p.segments ms') h).bind
        fun g ms' y h => Runner.course_done h
    · exact Runner.course_done h
  refine hrooted.bind fun rooted ms' y h => ?_
  split
  · exact course_fromRoot h g
  · split
    · next hempty =>
      have hout : Captured ms' p.segments [] := by
        rw [List.isEmpty_iff.1 hempty]
        exact captured_nil nofun
      have hgiven : ∀ {m : Moment σ Match} {verdict : Option Fault},
          m.step = .handed ⟨base, []⟩ verdict → Told p.segments (ms' ++ [m]) := by
        intro m verdict hm
        refine h.snoc fun z verdict' hstep => ?_
        obtain ⟨rfl, -⟩ := Step.handed.inj (hm.symm.trans hstep)
        exact hout
      exact Runner.course_give (fun _ _ => hgiven rfl) fun _ _ _ => hgiven rfl
    · exact course_fromBase h base

theorem told_ofPattern (r : Runner σ Match) (x : σ) (base : Base) (p : Pattern)
    (registry : Option Nat) (hinting : Bool) :
    Told p.segments (r.diary x (ofPattern base p registry hinting)).moments := by
  refine Runner.Course.moments ?_
  exact (course_bind told_nil base registry).bind fun (h, number) ms y hms =>
    course_run hms number hinting h

/-- **Captures are right, whoever answers.**  Whatever the stores answer and whatever happens
meanwhile, from any base and for any pattern, read from a text or made otherwise: each match that a
glob hands out has as many captures as the pattern has wild segments, and each of them was reported
by a listing of the run before and is matched by the wild segment at its place. -/
theorem captures_right (r : Runner σ Match) (x : σ) (base : Base) (registry : Option Nat)
    (hinting : Bool) (p : Pattern) :
    let Right : Diary σ Match Unit → Prop := fun d =>
      ∀ earlier m later, d.moments = earlier ++ m :: later → ∀ y verdict,
        m.step = .handed y verdict → y.captures.length = p.wildCount ∧
          ∀ (i : Nat) (name : String), y.captures[i]? = some name →
            ∃ segment, (p.segments.filter Segment.isWild)[i]? = some segment ∧
              segment.covers name = true ∧ Reported earlier name
    Right (r.diary x (ofPattern base p registry hinting)) ∧
      ∀ text, Pattern.read text = .ok p →
        Right (r.diary x (ofText base text registry hinting)) := by
  intro Right
  have hpattern : Right (r.diary x (ofPattern base p registry hinting)) :=
    fun earlier m later he y verdict hstep =>
      (told_ofPattern r x base p registry hinting earlier m later he y verdict hstep).at
  refine ⟨hpattern, fun text hp => ?_⟩
  rw [ofText_eq_ofPattern hp]
  exact hpattern

/-- Stores that make up their answers: whatever the path and the hints, a listing reports the name
`a` and one that tells whether the number of moments so far is even, every path is a directory, and
joining always leads elsewhere. -/
def contrary : Runner Nat Match where
  ask n _ c :=
    (match c with
      | .list _ _ => .ok [⟨if n % 2 = 0 then "even" else "odd", true⟩, ⟨"a", true⟩]
      | .stat path => .ok (some ⟨path, path, true, none, false⟩)
      | .join _ => .ok "elsewhere"
      | .read path | .write path _ | .makeDir path _ | .remove path =>
        .error (.fileMissing path), n + 1)
  registry _ _ := World.firstRegistry
  cancelled _ := none
  visit n _ := (none, n + 1)

/-- The matches found in such stores have names that were listed, for both wild segments. -/
theorem captures_right_contrary :
    let d := contrary.diary 0 (ofText (.address "t") "*/x/?[a-z]*" none true)
    (d.moments.filterMap fun m => m.step.handed?).map Match.captures =
        [["odd", "odd"], ["a", "odd"]] ∧
      ∀ earlier m later, d.moments = earlier ++ m :: later → ∀ y verdict,
        m.step = .handed y verdict → y.captures.length = 2 := by
  intro d
  obtain ⟨p, hp, hcount⟩ : ∃ p, Pattern.read "*/x/?[a-z]*" = .ok p ∧ p.wildCount = 2 :=
    ⟨_, rfl, by decide +kernel⟩
  refine ⟨by decide +kernel, fun earlier m later he y verdict hstep => ?_⟩
  have hright := (captures_right contrary 0 (.address "t") none true p).2 "*/x/?[a-z]*" hp
  exact hcount ▸ (hright earlier m later he y verdict hstep).1

end Glob

end Arboretum
