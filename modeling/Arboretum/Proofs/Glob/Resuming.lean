import Arboretum.Proofs.Glob.Conduct
import Arboretum.Proofs.Traversal.Resuming

/-!
# A glob that is cancelled between two matches

A glob looks at its token before every call and before every match, but not when it goes on after
a match.  So a caller who cancels it while it stands still at a match does not always hear of it
(`next_of_cancelled`): the glob fails where it would have asked a store next, and where nothing was
left to ask it ends as if nothing had happened.
-/

namespace Arboretum.Glob

open Traversal (handsNothing_checked handsNothing_call resumes_forEach asksOrEnds_call_bind
  asksOrEnds_done)

variable {settings : Settings}

/-! ## 1. Stages -/

/-- The end of the way resumes with its end. -/
theorem resumes_settle (c : Candidate) : (settle settings c).Resumes := by
  have hhand : (settle.hand settings c).Resumes := ⟨asksOrEnds_done (), trivial⟩
  unfold settle
  split
  · refine (handsNothing_call c.store c.path (.stat c.path)).resumes_bind ?_
    rintro (_ | info)
    · exact trivial
    · dsimp only
      split
      · exact hhand
      · exact trivial
  · exact hhand

/-- **Expanding resumes with a question**: below a wild segment each entry that matches is joined
first, and the others are passed over.  By induction on the segments that are left. -/
theorem resumes_expand (segments : List Pattern.Segment) (c : Candidate) :
    (expand settings segments c).Resumes := by
  induction segments generalizing c with
  | nil => exact resumes_settle c
  | cons segment rest ih =>
    rw [expand]
    cases segment.literal? with
    | some name =>
      refine handsNothing_checked.resumes_bind fun _ => ?_
      split
      · exact trivial
      · refine (handsNothing_call c.store c.path (.join [c.path, name])).resumes_bind fun path => ?_
        refine (handsNothing_call c.store path (.stat path)).resumes_bind ?_
        rintro (_ | info)
        · exact trivial
        · dsimp only
          split
          · exact trivial
          · exact ih _
    | none =>
      have hall : (Listing.all c.store c.path (hintsOf settings segment) :
          Traversal Match (List Entry)).HandsNothing := by
        rintro (f | entries) <;> exact trivial
      refine hall.resumes_bind fun entries => (resumes_forEach entries fun entry => ?_).2
      split
      · exact ⟨asksOrEnds_call_bind _ _ _ _,
          (handsNothing_call _ _ _).resumes_bind fun path => ih _⟩
      · exact ⟨asksOrEnds_done (), trivial⟩

/-! ## 2. Runs -/

/-- Resolving an address hands nothing out. -/
theorem handsNothing_resolve (g : Registry) (uri : String) :
    (g.resolve uri : Traversal Match (Store × String)).HandsNothing := by
  unfold Registry.resolve
  rcases g.route uri with ⟨s, _ | parts⟩
  · exact trivial
  · rintro (f | path) <;> exact trivial

variable {base : Handle} {p : Pattern}

theorem resumes_fromBase : (fromBase settings base p).Resumes := by
  have hresolve : (base.resolve : Traversal Match (Store × String)).HandsNothing :=
    fun g => handsNothing_resolve g base.uri
  refine hresolve.resumes_bind fun ⟨s, path⟩ => ?_
  refine (handsNothing_call s path (.stat path)).resumes_bind ?_
  rintro (_ | info)
  · exact trivial
  · dsimp only
    split
    · exact resumes_expand _ _
    · exact trivial

theorem resumes_fromRoot (g : Registry) : (fromRoot settings g p).Resumes := by
  refine (handsNothing_resolve g _).resumes_bind fun ⟨s, path⟩ => ?_
  dsimp only
  split
  · exact trivial
  · refine (handsNothing_call s path (.stat path)).resumes_bind ?_
    rintro (_ | info)
    · exact trivial
    · dsimp only
      split
      · exact trivial
      · exact resumes_expand _ _

/-- **The run of a glob resumes with a question.** -/
theorem resumes_run (registry : Nat) (hinting : Bool) (base : Handle) (p : Pattern) :
    (run registry hinting base p).Resumes := by
  intro g
  have hrooted : (isRooted base p).HandsNothing := by
    unfold isRooted
    split
    · exact fun _ => trivial
    · exact trivial
  refine hrooted.resumes_bind fun rooted => ?_
  split
  · exact resumes_fromRoot g
  · split
    · exact ⟨asksOrEnds_done (), trivial⟩
    · exact resumes_fromBase

/-- Binding a base hands nothing out. -/
theorem handsNothing_bind (base : Base) (registry : Option Nat) :
    (base.bind registry : Traversal Match (Handle × Nat)).HandsNothing := by
  have hmade : ∀ uri number, ((Handle.ofAddress uri (some number) : Traversal Match Handle).bind
      fun h => .done (h, number)).HandsNothing := by
    refine fun uri number => Traversal.HandsNothing.bind ?_ fun _ => trivial
    unfold Handle.ofAddress
    split
    · exact trivial
    · intro g
      have hcanonical : (g.canonical uri : Traversal Match String).HandsNothing := by
        refine (handsNothing_resolve g uri).bind fun place => ?_
        exact trivial
      refine hcanonical.bind fun canonical => ?_
      exact trivial
  rcases base with uri | h
  · exact hmade uri _
  · rcases registry with _ | number
    · exact trivial
    · unfold Base.bind
      dsimp only
      split
      · exact trivial
      · exact hmade h.uri number

variable {σ : Type} {r : Runner σ Match} {program rest : Traversal Match Unit} {x : σ} {base : Base}
  {registry : Option Nat} {hinting : Bool}

theorem resumes_ofPattern {p : Pattern} (hp : program = ofPattern base p registry hinting) :
    program.Resumes := by
  rw [hp]
  exact (handsNothing_bind base registry).resumes_bind fun _ => resumes_run _ _ _ _

theorem resumes_ofText {text : String} (ht : program = ofText base text registry hinting) :
    program.Resumes := by
  cases hp : Pattern.read text with
  | ok p => exact resumes_ofPattern (ht.trans (ofText_eq_ofPattern hp base registry hinting))
  | error flaw =>
    rw [ht, ofText_of_error hp]
    exact trivial

/-- **A glob that is cancelled while it stands still at a match**, whatever the stores answer, the
base, the pattern, the number of matches handed out, and whatever happened in between.  Where the
next request would have asked a store, it fails with the reason and asks nothing.  Else the glob was
over, and the request ends it as if it had not been cancelled. -/
theorem next_of_cancelled (hprogram : (∃ text, program = ofText base text registry hinting) ∨
      ∃ p, program = ofPattern base p registry hinting)
    {number : Nat} (hs : r.Suspended program (number + 1) rest) {reason : String}
    (hc : r.cancelled x = some reason) :
    ((r.heedless.next x rest).calls ≠ [] ∧
      r.next x rest = ⟨.failed (.cancelled reason), [], x⟩) ∨
    (r.heedless.next x rest = ⟨.finished (), [], x⟩ ∧ r.next x rest = ⟨.finished (), [], x⟩) := by
  have hresumes : program.Resumes := by
    rcases hprogram with ⟨_, ht⟩ | ⟨_, hp⟩
    · exact resumes_ofText ht
    · exact resumes_ofPattern hp
  rcases hs.of_cancelled hresumes hc with hasks | ⟨⟨⟩, hover⟩
  · exact .inl hasks
  · exact .inr hover

/-- The glob `*` over a directory with the entries `a` and `b`: cancelled at the first of them it
fails, and cancelled at the second one it just ends. -/
theorem next_of_cancelled_last :
    let r : Runner Bool Match := {
      ask := fun cancelled _ c => (match c with
        | .list _ _ => .ok [⟨"a", true⟩, ⟨"b", true⟩]
        | .stat path => .ok (some ⟨path, "", true, none, true⟩)
        | .join parts => .ok ("/".intercalate parts)
        | .read _ => .ok .empty
        | .write _ _ => .ok ()
        | .makeDir _ _ => .ok ()
        | .remove _ => .ok (), cancelled)
      registry := fun _ _ => World.firstRegistry
      cancelled := fun cancelled => if cancelled then some "enough" else none
      visit := fun x _ => (none, x) }
    let p : Pattern := ⟨"*", [⟨"*", [.anyRun]⟩], false, none⟩
    let glob := ofPattern (.handle ⟨"/", none⟩) p none true
    Pattern.read "*" = .ok p ∧
      ∃ first last, r.Suspended glob 1 first ∧ r.Suspended glob 2 last ∧
        r.next true first = ⟨.failed (.cancelled "enough"), [], true⟩ ∧
        r.next true last = ⟨.finished (), [], true⟩ := by
  intro r p glob
  have hfirst : r.Suspended glob 1 _ :=
    @Runner.Suspended.paused _ _ _ r glob 0 _ _ false ⟨⟨"//a", some commonRegistry⟩, ["a"]⟩ .fresh rfl
  have hlast : r.Suspended glob 2 (.done ()) :=
    @Runner.Suspended.paused _ _ _ r glob 1 _ _ false ⟨⟨"//b", some commonRegistry⟩, ["b"]⟩ hfirst rfl
  refine ⟨rfl, _, _, hfirst, hlast, ?_, ?_⟩
  · rcases next_of_cancelled (.inr ⟨p, rfl⟩) hfirst (x := true) rfl with ⟨-, hfails⟩ | ⟨hover, -⟩
    · exact hfails
    · cases hover
  · rcases next_of_cancelled (.inr ⟨p, rfl⟩) hlast (x := true) rfl with ⟨hasks, -⟩ | ⟨-, hends⟩
    · exact absurd rfl hasks
    · exact hends

end Arboretum.Glob
