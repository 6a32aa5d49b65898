import Arboretum.Glob

/-!
# A glob as a chain of stages

Expanding a pattern can also be thought of as a chain of stages, one for each segment: every stage
takes the candidates that the stage before it hands out, one at a time, and hands out those that go
on; the last one makes matches of them.  Such a chain is suspended in all its stages whenever a
match is handed out.  It is the same program as the expansion that goes on below each candidate
before it turns to the next (`expand_eq_chain`), step by step: the same checks, the same calls in
the same order, and the same matches between them.
-/

namespace Arboretum

/-! ## 1. Streams -/

namespace Traversal

variable {Out Found Seen α β : Type}

/-- **A stage behind a stream**: whatever the stream hands out goes through a program of its own,
before the stream goes on. -/
def through (f : Out → Traversal Found Unit) : Traversal Out α → Traversal Found α
  | .done a => .done a
  | .fail fault => .fail fault
  | .spent => .spent
  | .check next => .check (next.through f)
  | .routes number next => .routes number fun g => (next g).through f
  | .ask s c next => .ask s c fun answer => (next answer).through f
  | .emit x next => (f x).bind fun _ => next.through f

/-- Going on behind a stage. -/
theorem bind_through (t : Traversal Out α) (next : α → Traversal Out β)
    (f : Out → Traversal Found Unit) :
    (t.bind next).through f = (t.through f).bind fun a => (next a).through f := by
  induction t with
  | done a => rfl
  | fail fault => rfl
  | spent => rfl
  | check t ih => exact congrArg _ ih
  | routes number t ih => exact congrArg _ (funext ih)
  | ask s c t ih => exact congrArg _ (funext ih)
  | emit x t ih =>
    have hboth : ((f x).bind fun _ => (t.bind next).through f) =
        ((f x).bind fun _ => t.through f).bind fun a => (next a).through f := by
      rw [bind_assoc, ih]
    exact hboth

/-- **Two stages are one stage** that sends what it hands out through the other. -/
theorem through_through (t : Traversal Out α) (f : Out → Traversal Found Unit)
    (g : Found → Traversal Seen Unit) :
    (t.through f).through g = t.through fun x => (f x).through g := by
  induction t with
  | done a => rfl
  | fail fault => rfl
  | spent => rfl
  | check t ih => exact congrArg _ ih
  | routes number t ih => exact congrArg _ (funext ih)
  | ask s c t ih => exact congrArg _ (funext ih)
  | emit x t ih =>
    have hboth : ((f x).bind fun _ => t.through f).through g =
        ((f x).through g).bind fun _ => t.through fun x => (f x).through g := by
      rw [bind_through, ih]
    exact hboth

/-- One thing handed out goes through alone. -/
theorem give_through (x : Out) (f : Out → Traversal Found Unit) : (give x).through f = f x :=
  bind_done (f x)

/-- A call hands nothing out. -/
theorem call_through (s : Store) (path : String) (c : Call) (f : Out → Traversal Found Unit) :
    (call s path c).through f = call s path c :=
  congrArg Traversal.check (congrArg (Traversal.ask s c) (funext fun answer => by
    cases answer <;> rfl))

theorem forEach_through (each : β → Traversal Out Unit) (f : Out → Traversal Found Unit)
    (xs : List β) : (forEach each xs).through f = forEach (fun x => (each x).through f) xs := by
  induction xs with
  | nil => rfl
  | cons x xs ih => rw [forEach, forEach, bind_through, ih]

end Traversal

namespace Glob

open Pattern (Segment)
open Traversal (bind_through call_through give_through forEach_through through_through)

/-! ## 2. Stages -/

/-- **One stage**: what is handed on for one candidate that reaches a segment. -/
def pass (settings : Settings) (segment : Segment) (last : Bool) (c : Candidate) :
    Traversal Candidate Unit :=
  match segment.literal? with
  | some name => do
    Traversal.checked
    if name = Pattern.climbing then return
    else
      let path ← Traversal.call c.store c.path (.join [c.path, name])
      match ← Traversal.call c.store path (.stat path) with
      | none => return
      | some info =>
        if !last && !info.isDirectory then return
        else Traversal.give { c with path }
  | none => do
    let entries ← Listing.all c.store c.path (hintsOf settings segment)
    Traversal.forEach
      (fun entry : Entry =>
        if segment.covers entry.name && (last || entry.isDirectory) then do
          let path ← Traversal.call c.store c.path (.join [c.path, entry.name])
          Traversal.give { c with path, captures := c.captures ++ [entry.name] }
        else return)
      entries

/-- **The chain of the stages** of all segments, behind a stream of candidates. -/
def chain (settings : Settings) :
    List Segment → Traversal Candidate Unit → Traversal Candidate Unit
  | [], stream => stream
  | segment :: rest, stream =>
    chain settings rest (stream.through (pass settings segment rest.isEmpty))

variable {settings : Settings}

/-- One stage, and the rest of the expansion behind it. -/
theorem pass_through (segment : Segment) (rest : List Segment) (c : Candidate) :
    (pass settings segment rest.isEmpty c).through (expand settings rest) =
      expand settings (segment :: rest) c := by
  unfold pass
  rw [expand]
  cases segment.literal? with
  | some name =>
    refine (bind_through _ _ _).trans (congrArg (Traversal.bind _) (funext fun _ => ?_))
    split
    · rfl
    · refine (bind_through _ _ _).trans ?_
      rw [call_through]
      refine congrArg (Traversal.bind _) (funext fun path => ?_)
      refine (bind_through _ _ _).trans ?_
      rw [call_through]
      refine congrArg (Traversal.bind _) (funext fun info => ?_)
      cases info with
      | none => rfl
      | some info =>
        dsimp only
        split
        · rfl
        · exact give_through _ _
  | none =>
    refine (bind_through _ _ _).trans ?_
    have hall : (Listing.all c.store c.path (hintsOf settings segment)).through
        (expand settings rest) = Listing.all c.store c.path (hintsOf settings segment) := by
      refine (bind_through _ _ _).trans ?_
      rw [call_through]
      rfl
    rw [hall]
    refine congrArg (Traversal.bind _) (funext fun entries => ?_)
    rw [forEach_through]
    refine congrArg (Traversal.forEach · entries) (funext fun entry => ?_)
    split
    · refine (bind_through _ _ _).trans ?_
      rw [call_through]
      exact congrArg (Traversal.bind _) (funext fun path => give_through _ _)
    · rfl

/-- **The chain of stages is the expansion** of each candidate of the stream in turn. -/
theorem chain_through_settle (segments : List Segment) (stream : Traversal Candidate Unit) :
    (chain settings segments stream).through (settle settings) =
      stream.through (expand settings segments) := by
  induction segments generalizing stream with
  | nil => rfl
  | cons segment rest ih =>
    rw [chain, ih, through_through]
    exact congrArg (Traversal.through · stream) (funext (pass_through segment rest))

/-- **Expanding a candidate is the chain of stages** behind that candidate alone. -/
theorem expand_eq_chain (segments : List Segment) (c : Candidate) :
    expand settings segments c =
      (chain settings segments (Traversal.give c)).through (settle settings) := by
  rw [chain_through_settle, give_through]

end Glob

end Arboretum
