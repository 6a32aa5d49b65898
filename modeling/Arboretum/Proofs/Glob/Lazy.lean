import Arboretum.Proofs.Glob.Conduct
import Arboretum.Proofs.Traversal.Listings

/-!
# A glob does no more than it is asked for

Who takes some matches of a glob sees the beginning of what the full run does and finds, and making
the glob asks nothing at all.  In the full run directories are listed for wild segments only: the
expansion is a **tour** of the candidates that reach each segment (`arrivals`), depth first, and a
wild segment lists the directory of each of its candidates once.  Seen segment by segment, the
candidates that reach one are those that the segment before let through (`stage`), in the same
order.

All of it is about stores whose answers depend on nothing but the question; the tour is read off
these answers, without a run.
-/

namespace Arboretum

namespace Glob

open Pattern (Segment)
open Answers (lists_done lists_checked lists_give lists_registry lists_plain lists_call lists_all
  lists_forEach)

variable (a : Answers) (settings : Settings)

/-! ## 1. The tour -/

/-- The candidate one name further. -/
def Candidate.further (c : Candidate) (name : String) : Option Candidate :=
  match a.ask c.store (.join [c.path, name]) with
  | .ok path => some { c with path }
  | .error _ => none

/-- Something stands at a path: a directory, unless anything will do. -/
def stands (s : Store) (path : String) (anything : Bool) : Bool :=
  match a.ask s (.stat path) with
  | .ok (some info) => anything || info.isDirectory
  | .ok none => false
  | .error _ => false

/-- **The candidates that a segment lets through** below one candidate, in listing order; before
the last segment only directories. -/
def onward (segment : Segment) (last : Bool) (c : Candidate) : List Candidate :=
  match segment.literal? with
  | some name =>
    if name = Pattern.climbing then []
    else (c.further a name).toList.filter fun c => stands a c.store c.path last
  | none =>
    match a.ask c.store (.list c.path (hintsOf settings segment)) with
    | .ok entries => entries.flatMap fun entry =>
      if segment.covers entry.name && (last || entry.isDirectory) then
        (c.further a entry.name).toList.map fun c =>
          { c with captures := c.captures ++ [entry.name] }
      else []
    | .error _ => []

/-- A candidate that has reached a segment, the segment's number from the start on. -/
structure Arrival where
  index : Nat
  segment : Segment
  candidate : Candidate

/-- **The tour** of the segments below a candidate, depth first. -/
def arrivals : Nat → List Segment → Candidate → List Arrival
  | _, [], _ => []
  | index, segment :: rest, c => ⟨index, segment, c⟩ ::
      (onward a settings segment rest.isEmpty c).flatMap (arrivals (index + 1) rest)

/-- **The candidates that reach the segment of a number**: those that the segments before it let
through, one after the other. -/
def stage : List Segment → List Candidate → Nat → List Candidate
  | _, candidates, 0 => candidates
  | [], _, _ + 1 => []
  | segment :: rest, candidates, number + 1 =>
    stage rest (candidates.flatMap (onward a settings segment rest.isEmpty)) number

/-- What an arrival lists: the directory of the candidate, at a wild segment only. -/
def Arrival.listing? (x : Arrival) : Option (Store × Call) :=
  if x.segment.literal?.isSome then none
  else some (x.candidate.store, .list x.candidate.path (hintsOf settings x.segment))

variable {a settings}

/-- An arrival is at one of the segments. -/
theorem index_of_mem_arrivals {index : Nat} {segments : List Segment} {c : Candidate} {x : Arrival}
    (h : x ∈ arrivals a settings index segments c) :
    ∃ i, x.index = index + i ∧ segments[i]? = some x.segment := by
  induction segments generalizing index c with
  | nil => exact absurd h List.not_mem_nil
  | cons segment rest ih =>
    rcases List.mem_cons.1 h with rfl | h
    · exact ⟨0, rfl, rfl⟩
    · obtain ⟨c', -, h⟩ := List.mem_flatMap.1 h
      obtain ⟨i, hi, hsegment⟩ := ih h
      exact ⟨i + 1, by omega, hsegment⟩

/-- Only the first arrival of a tour is at the segment that it starts from, -/
theorem filter_arrivals_self (index : Nat) (segment : Segment) (rest : List Segment)
    (c : Candidate) : (arrivals a settings index (segment :: rest) c).filter (·.index = index) =
      [⟨index, segment, c⟩] := by
  have hlater : ((onward a settings segment rest.isEmpty c).flatMap
      (arrivals a settings (index + 1) rest)).filter (·.index = index) = [] := by
    refine List.filter_eq_nil_iff.2 fun x hx hindex => ?_
    obtain ⟨c', -, hx⟩ := List.mem_flatMap.1 hx
    obtain ⟨i, hi, -⟩ := index_of_mem_arrivals hx
    have hindex := of_decide_eq_true hindex
    omega
  have hhere : decide (index = index) = true := decide_eq_true rfl
  rw [arrivals, List.filter_cons, if_pos hhere, hlater]

/-- and it is at no other. -/
theorem filter_arrivals_of_ne {number index : Nat} (h : index ≠ number) (segment : Segment)
    (rest : List Segment) (c : Candidate) :
    (arrivals a settings index (segment :: rest) c).filter (·.index = number) =
      ((onward a settings segment rest.isEmpty c).flatMap
        (arrivals a settings (index + 1) rest)).filter (·.index = number) := by
  have hne : ¬ decide (index = number) = true := fun he => h (of_decide_eq_true he)
  rw [arrivals, List.filter_cons, if_neg hne]

/-- **Segment by segment**: the arrivals of a tour at one segment are the candidates that the
segments before it let through. -/
theorem filter_arrivals (index : Nat) {segments : List Segment} (candidates : List Candidate)
    {i : Nat} {segment : Segment} (hi : segments[i]? = some segment) :
    (candidates.flatMap (arrivals a settings index segments)).filter (·.index = index + i) =
      (stage a settings segments candidates i).map (⟨index + i, segment, ·⟩) := by
  induction segments generalizing index candidates i with
  | nil => cases hi
  | cons first rest ih =>
    rw [List.filter_flatMap]
    cases i with
    | zero =>
      cases hi
      rw [stage, List.map_eq_flatMap]
      exact congrArg (List.flatMap · candidates) (funext (filter_arrivals_self index segment rest))
    | succ i =>
      have hne : index ≠ index + 1 + i := by omega
      rw [stage, ← Nat.add_assoc, Nat.add_right_comm, ← ih (index + 1) _ hi, List.flatMap_assoc,
        List.filter_flatMap]
      exact congrArg (List.flatMap · candidates) (funext (filter_arrivals_of_ne hne first rest))

/-! ## 2. The run lists what the tour lists -/

theorem lists_settle (c : Candidate) : a.Lists (settle settings c) [] fun _ => True := by
  have hhand : a.Lists (settle.hand settings c) [] fun _ => True :=
    (lists_checked (Q := fun _ => True) trivial).bind fun _ _ => lists_give _
  unfold settle
  split
  · refine (lists_call c.store c.path (.stat c.path)).bind fun info _ => ?_
    cases info with
    | none => exact lists_done trivial
    | some info =>
      dsimp only
      split
      · exact hhand
      · exact lists_done trivial
  · exact hhand

/-- What stands at a path, if the store answers. -/
theorem stands_of_ok {s : Store} {path : String} {info : Option Info}
    (h : a.ask s (.stat path) = .ok info) (anything : Bool) :
    stands a s path anything = info.any fun info => anything || info.isDirectory := by
  unfold stands
  rw [h]
  cases info <;> rfl

section Onward

variable {segment : Segment} {last : Bool} {c : Candidate} {name path : String}

/-- A candidate one name further, if the store answers. -/
theorem Candidate.further_of_ok (h : a.ask c.store (.join [c.path, name]) = .ok path) :
    c.further a name = some { c with path } := by
  unfold further
  rw [h]

/-- Nobody goes on past a climbing segment, -/
theorem onward_climbing (hl : segment.literal? = some name) (hclimb : name = Pattern.climbing) :
    onward a settings segment last c = [] := by
  unfold onward
  rw [hl]
  exact if_pos hclimb

/-- past a name that something stands at one goes on alone, -/
theorem onward_literal (hl : segment.literal? = some name) (hclimb : name ≠ Pattern.climbing)
    (hpath : a.ask c.store (.join [c.path, name]) = .ok path) {info : Option Info}
    (hinfo : a.ask c.store (.stat path) = .ok info) : onward a settings segment last c =
      if info.any fun info => last || info.isDirectory then [{ c with path }] else [] := by
  unfold onward
  rw [hl]
  dsimp only
  rw [if_neg hclimb, Candidate.further_of_ok hpath, ← stands_of_ok hinfo]
  exact List.filter_cons

/-- and past a wild segment below each entry that it covers. -/
theorem onward_wild (hl : segment.literal? = none) {entries : List Entry}
    (hok : a.ask c.store (.list c.path (hintsOf settings segment)) = .ok entries) :
    onward a settings segment last c = entries.flatMap fun entry =>
      if segment.covers entry.name && (last || entry.isDirectory) then
        (c.further a entry.name).toList.map fun c =>
          { c with captures := c.captures ++ [entry.name] }
      else [] := by
  unfold onward
  rw [hl]
  dsimp only
  rw [hok]

end Onward

/-- **Expanding lists what the tour lists**, by induction on the segments. -/
theorem lists_expand (index : Nat) (segments : List Segment) (c : Candidate) :
    a.Lists (expand settings segments c)
      ((arrivals a settings index segments c).filterMap (Arrival.listing? settings)) fun _ => True
    := by
  induction segments generalizing index c with
  | nil => exact lists_settle c
  | cons segment rest ih =>
    rw [expand, arrivals, List.filterMap_cons, Arrival.listing?]
    cases hl : segment.literal? with
    | some name =>
      dsimp only
      refine (lists_checked (Q := fun _ => True) trivial).bind fun _ _ => ?_
      by_cases hclimb : name = Pattern.climbing
      · rw [if_pos hclimb, onward_climbing hl hclimb]
        exact lists_done (Q := fun _ => True) trivial
      · rw [if_neg hclimb]
        refine (lists_call c.store c.path (.join [c.path, name])).bind fun path hpath => ?_
        refine (lists_call c.store path (.stat path)).bind fun info hinfo => ?_
        rw [onward_literal hl hclimb hpath hinfo]
        cases info with
        | none => exact lists_done (Q := fun _ => True) trivial
        | some info =>
          dsimp only
          rw [← Bool.not_or, Option.any_some]
          cases rest.isEmpty || info.isDirectory with
          | true =>
            rw [if_pos rfl, List.flatMap_singleton]
            exact ih (index + 1) { c with path }
          | false => exact lists_done (Q := fun _ => True) trivial
    | none =>
      refine (lists_all c.store c.path (hintsOf settings segment)).bind fun entries hok => ?_
      rw [onward_wild hl hok, List.flatMap_assoc, List.filterMap_flatMap]
      refine lists_forEach fun entry _ => ?_
      by_cases hgo : (segment.covers entry.name && (rest.isEmpty || entry.isDirectory)) = true
      · rw [if_pos hgo, if_pos hgo]
        refine (lists_call c.store c.path (.join [c.path, entry.name])).bind fun path hpath => ?_
        rw [Candidate.further_of_ok hpath, Option.toList_some, List.map_singleton,
          List.flatMap_singleton]
        exact ih (index + 1) _
      · rw [if_neg hgo, if_neg hgo]
        exact lists_done trivial

/-! ## 3. Whole runs -/

/-- The place that an address leads to, if its store joins the path. -/
def resolved (a : Answers) (g : Registry) (uri : String) : Option (Store × String) :=
  match g.route uri with
  | (s, none) => some (s, "")
  | (s, some parts) =>
    match a.ask s (.join parts) with
    | .ok path => some (s, path)
    | .error _ => none

section Start

variable (a : Answers) (base : Handle) (p : Pattern)

/-- The pattern starts from its own root, and not at the base. -/
def rooted : Bool :=
  let g := a.registry base.registryNumber
  if p.root = some "/" then !decide (g.owner base.uri ≠ g.void) else p.isRooted

/-- The segments that are expanded one by one: all but the names that a root is taken with. -/
def remaining : List Segment :=
  if rooted a base p then p.segments.drop p.literalHead.length else p.segments

/-- The candidate at a place, if there is a place and something stands there. -/
def startAt (anything : Bool) (place : Option (Store × String)) : Option Candidate :=
  (place.filter fun (s, path) => stands a s path anything).map fun (s, path) => ⟨s, path, []⟩

/-- **Where a run starts**: at the root with the names behind it, or else at the base, which must be
a directory; but at the end of the pattern anything will do. -/
def start : Option Candidate :=
  let g := a.registry base.registryNumber
  if rooted a base p then
    startAt a (!decide (p.literalHead.length < p.segments.length))
      ((resolved a g (p.root.getD "" ++ "/".intercalate p.literalHead)).filter (·.1 ≠ g.void))
  else startAt a false (resolved a g base.uri)

/-- The settings of a run. -/
def settingsOf (hinting : Bool) : Settings :=
  ⟨base.registryNumber, (a.registry base.registryNumber).home, hinting, p.directoriesOnly⟩

/-- **The tour of a run.** -/
def tour (hinting : Bool) : List Arrival :=
  (start a base p).toList.flatMap
    (arrivals a (settingsOf a base p hinting) 0 (remaining a base p))

end Start

variable {base : Handle} {p : Pattern} {hinting : Bool}

theorem lists_resolve (g : Registry) (uri : String) :
    a.Lists (g.resolve uri : Traversal Match _) [] fun place => resolved a g uri = some place := by
  unfold Registry.resolve resolved
  rcases g.route uri with ⟨s, _ | parts⟩
  · exact lists_done rfl
  · refine (lists_plain s (.join parts)).bind fun path hpath => lists_done ?_
    dsimp only
    rw [hpath]

theorem lists_isRooted : a.Lists (isRooted base p) [] (· = rooted a base p) := by
  have hvalid : a.Lists (base.isValid : Traversal Match Bool) [] (· = decide
      ((a.registry base.registryNumber).owner base.uri ≠ (a.registry base.registryNumber).void)) :=
    (lists_registry base.registryNumber).bind fun g hg => lists_done (by rw [hg])
  unfold isRooted rooted
  split
  · exact hvalid.bind fun valid hvalid => lists_done (congrArg _ hvalid)
  · exact lists_done rfl

/-- The candidate at a place, if the store answers. -/
theorem startAt_of_ok {s : Store} {path : String} {info : Option Info}
    (h : a.ask s (.stat path) = .ok info) (anything : Bool) : startAt a anything (some (s, path)) =
      if info.any fun info => anything || info.isDirectory then some ⟨s, path, []⟩ else none := by
  have hplace : (some (s, path)).filter (fun (s, path) => stands a s path anything) =
      if stands a s path anything then some (s, path) else none := Option.filter_some
  unfold startAt
  rw [hplace, stands_of_ok h]
  split <;> rfl

/-- Expanding from a start, if there is one, lists the tour from there. -/
theorem lists_expand_start {segments : List Segment} {found : Option Candidate} {c : Candidate}
    (h : found = some c) : a.Lists (expand settings segments c)
      ((found.toList.flatMap (arrivals a settings 0 segments)).filterMap
        (Arrival.listing? settings)) fun _ => True := by
  rw [h, Option.toList_some, List.flatMap_singleton]
  exact lists_expand 0 segments c

/-- From a start that there is not the tour is empty. -/
theorem lists_no_start {segments : List Segment} {found : Option Candidate} (h : found = none) :
    a.Lists (.done () : Traversal Match Unit)
      ((found.toList.flatMap (arrivals a settings 0 segments)).filterMap
        (Arrival.listing? settings)) fun _ => True := by
  rw [h]
  exact lists_done trivial

theorem lists_fromBase (hr : rooted a base p = false) :
    a.Lists (fromBase (settingsOf a base p hinting) base p)
      ((tour a base p hinting).filterMap (Arrival.listing? (settingsOf a base p hinting)))
      fun _ => True := by
  have hresolve : a.Lists (base.resolve : Traversal Match _) [] fun place =>
      resolved a (a.registry base.registryNumber) base.uri = some place :=
    (lists_registry base.registryNumber).bind fun g hg => hg ▸ lists_resolve g base.uri
  unfold fromBase tour remaining start
  rw [hr]
  refine hresolve.bind fun (s, path) hplace => ?_
  refine (lists_call s path (.stat path)).bind fun info hinfo => ?_
  have hstart := startAt_of_ok hinfo false
  rw [← hplace] at hstart
  cases info with
  | none => exact lists_no_start hstart
  | some info =>
    dsimp only
    by_cases hdir : info.isDirectory = true
    · rw [if_pos hdir]
      exact lists_expand_start (hstart.trans (if_pos hdir))
    · rw [if_neg hdir]
      exact lists_no_start (hstart.trans (if_neg hdir))

theorem lists_fromRoot (hr : rooted a base p = true) :
    a.Lists (fromRoot (settingsOf a base p hinting) (a.registry base.registryNumber) p)
      ((tour a base p hinting).filterMap (Arrival.listing? (settingsOf a base p hinting)))
      fun _ => True := by
  unfold fromRoot tour remaining start
  rw [hr]
  dsimp only
  refine (lists_resolve _ _).bind fun (s, path) hplace => ?_
  dsimp only
  by_cases hvoid : s = (a.registry base.registryNumber).void
  · rw [if_pos hvoid]
    refine lists_no_start ?_
    have hnone : (some (s, path)).filter (·.1 ≠ (a.registry base.registryNumber).void) = none :=
      Option.filter_some_neg (by simpa using hvoid)
    rw [if_pos rfl, hplace, hnone]
    rfl
  · rw [if_neg hvoid]
    refine (lists_call s path (.stat path)).bind fun info hinfo => ?_
    have hsome : (some (s, path)).filter (·.1 ≠ (a.registry base.registryNumber).void) =
        some (s, path) := Option.filter_some_pos (by simpa using hvoid)
    have hstart := startAt_of_ok hinfo (!decide (p.literalHead.length < p.segments.length))
    rw [← hsome, ← hplace] at hstart
    cases info with
    | none => exact lists_no_start hstart
    | some info =>
      dsimp only
      have hstop : (decide (p.literalHead.length < p.segments.length) && !info.isDirectory) =
          !(!decide (p.literalHead.length < p.segments.length) || info.isDirectory) := by
        rw [Bool.not_or, Bool.not_not]
      rw [Option.any_some] at hstart
      rw [hstop]
      cases hgo : !decide (p.literalHead.length < p.segments.length) || info.isDirectory with
      | true => exact lists_expand_start (hstart.trans (if_pos hgo))
      | false => exact lists_no_start (hstart.trans (if_neg (ne_true_of_eq_false hgo)))

/-- **A run lists what its tour lists.** -/
theorem lists_run : a.Lists (run base.registryNumber hinting base p)
    ((tour a base p hinting).filterMap (Arrival.listing? (settingsOf a base p hinting)))
    fun _ => True := by
  unfold run
  refine (lists_checked (Q := fun _ => True) trivial).bind fun _ _ => ?_
  refine (lists_registry base.registryNumber).bind fun g hg => ?_
  subst hg
  refine lists_isRooted.bind fun rooted hrooted => ?_
  subst hrooted
  cases hr : rooted a base p with
  | true => exact lists_fromRoot hr
  | false =>
    by_cases he : p.segments.isEmpty = true
    · have hempty : remaining a base p = [] := by
        unfold remaining
        rw [hr]
        exact List.isEmpty_iff.1 he
      have htour : tour a base p hinting = [] := by
        unfold tour
        rw [hempty]
        exact List.flatMap_eq_nil_iff.2 fun _ _ => rfl
      rw [if_neg Bool.false_ne_true, if_pos he, htour]
      exact lists_give _
    · rw [if_neg Bool.false_ne_true, if_neg he]
      exact lists_fromBase hr

variable {registry : Option Nat}

/-- Binding a base that is bound already asks nothing. -/
theorem bind_of_bound (hb : registry = none ∨ base.registry = registry) :
    ((Base.handle base).bind registry : Traversal Match (Handle × Nat)) =
      .done (base, base.registryNumber) := by
  cases registry with
  | none => rfl
  | some number =>
    have hnumber : base.registry = some number := hb.resolve_left nofun
    unfold Handle.registryNumber
    rw [hnumber]
    exact if_pos hnumber

/-- **A glob does no more than it is asked for**, over stores whose answers depend on nothing but
the question.

* Making it asks nothing: there is a run then, and nobody has gone on with it.
* When some matches are taken, the calls made until then are the first ones of the full run, the
  matches are its first ones, and leaving there makes no call more.
* The full run lists what its tour lists, once for each candidate at a wild segment: all of it if
  the run ends well, and else the beginning.
* At each segment the tour has the candidates that the segments before let through. -/
theorem run_lazy (a : Answers) (hb : registry = none ∨ base.registry = registry)
    (hinting : Bool) :
    ((Base.handle base).bind registry : Traversal Match _) = .done (base, base.registryNumber) ∧
    (∀ text, (prepare (.handle base) text registry : Traversal Match _) =
      match Pattern.read text with
      | .error flaw => .fail (.invalidPattern text flaw)
      | .ok p => .done (base, base.registryNumber, p)) ∧
    ∀ p,
      let glob := run base.registryNumber hinting base p
      let settings := settingsOf a base p hinting
      let listings := (tour a base p hinting).filterMap (Arrival.listing? settings)
      (∀ k, (a.take k glob).calls <+: (a.full glob).calls ∧
        (a.take k glob).found = (a.full glob).found.take k ∧
        ∀ f, (a.leaving f k glob).calls = (a.take (k + 1) glob).calls) ∧
      (a.full glob).listings <+: listings ∧
      ((a.full glob).outcome = .finished () → (a.full glob).listings = listings) ∧
      (∀ x ∈ tour a base p hinting, (remaining a base p)[x.index]? = some x.segment) ∧
      ∀ i segment, (remaining a base p)[i]? = some segment →
        (tour a base p hinting).filter (·.index = i) =
          (stage a settings (remaining a base p) (start a base p).toList i).map (⟨i, segment, ·⟩)
    := by
  refine ⟨bind_of_bound hb, fun text => ?_, fun p => ⟨fun k => ⟨?_, ?_, fun f => ?_⟩, ?_, ?_, ?_, ?_⟩⟩
  · unfold prepare
    cases Pattern.read text with
    | error flaw => rfl
    | ok p =>
      dsimp only
      rw [bind_of_bound hb]
      rfl
  · exact a.calls_take_prefix k _
  · exact a.found_take k _
  · exact a.calls_leaving f k _
  · exact lists_run.1
  · exact fun hends => (lists_run.2 () hends).1
  · intro x hx
    obtain ⟨c, -, hx⟩ := List.mem_flatMap.1 hx
    obtain ⟨i, hi, hsegment⟩ := index_of_mem_arrivals hx
    rw [hi, Nat.zero_add]
    exact hsegment
  · intro i segment hsegment
    have hall : (tour a base p hinting).filter (·.index = 0 + i) = _ :=
      filter_arrivals 0 (start a base p).toList hsegment
    rwa [Nat.zero_add] at hall

/-- Two directories, in both of which anything stands: the first match of `*/x` costs six of the
nine calls, and there is one listing. -/
theorem run_lazy_two :
    let a : Answers := {
      ask := fun _ c => match c with
        | .list _ _ => .ok [⟨"a", true⟩, ⟨"b", true⟩]
        | .stat path => .ok (some ⟨path, "", true, none, true⟩)
        | .join parts => .ok ("/".intercalate parts)
        | .read _ => .ok .empty
        | .write _ _ => .ok ()
        | .makeDir _ _ => .ok ()
        | .remove _ => .ok ()
      registry := fun _ => World.firstRegistry
      cancelled := none }
    let p : Pattern := ⟨"*/x", [⟨"*", [.anyRun]⟩, ⟨"x", [.char 'x']⟩], false, none⟩
    let glob := run commonRegistry true ⟨"/", none⟩ p
    Pattern.read "*/x" = .ok p ∧
      (a.take 1 glob).calls <+: (a.full glob).calls ∧
      (a.take 1 glob).calls.length = 6 ∧ (a.full glob).calls.length = 9 ∧
      (a.full glob).listings.length = 1 ∧
      (a.full glob).listings = (tour a ⟨"/", none⟩ p true).filterMap
        (Arrival.listing? (settingsOf a ⟨"/", none⟩ p true)) := by
  intro a p glob
  have hb : (none : Option Nat) = none ∨ (Handle.mk "/" none).registry = none := .inl rfl
  obtain ⟨-, -, hrun⟩ := run_lazy a hb true
  obtain ⟨htaken, -, hends, -⟩ := hrun p
  exact ⟨by decide +kernel, (htaken 1).1, by decide +kernel, by decide +kernel, by decide +kernel,
    hends rfl⟩

end Glob

end Arboretum
