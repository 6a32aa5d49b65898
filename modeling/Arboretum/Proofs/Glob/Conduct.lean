import Arboretum.Proofs.Glob.Hinting
import Arboretum.Proofs.Traversal.Protocol

/-!
# A glob obeys the protocol

Every stage of a glob checks the token before it asks a store, reports what fails, and checks again
before it hands a match out.  For a base that is bound already the first moment is the join that
resolves the base or the root of the pattern.
-/

namespace Arboretum.Glob

open Traversal (Stage Begun obeys_checked obeys_registry obeys_call obeys_all obeys_resolve
  obeys_forEach)

variable {k : Stage} {settings : Settings}

theorem obeys_settle (c : Candidate) (k : Stage) :
    (settle settings c).Obeys true (fun _ => Begun) k := by
  have hhand : ∀ k, (settle.hand settings c).Obeys true (fun _ => Begun) k := by
    intro k
    refine (obeys_checked (Q := fun _ k => k.isChecked = true) k.isChecked_check).bind ?_
    intro _ k hk
    cases k with
    | checked first => exact ⟨rfl, rfl⟩
    | _ => exact absurd hk Bool.false_ne_true
  unfold settle
  split
  · refine (obeys_call (Q := fun _ => Begun) rfl (Bool.and_false _) fun _ => rfl).bind ?_
    rintro (_ | info) k hk
    · exact hk
    · dsimp only
      split
      · exact hhand k
      · exact hk
  · exact hhand k

/-- **Expanding obeys.**  By induction on the segments that are left. -/
theorem obeys_expand (segments : List Pattern.Segment) (c : Candidate) (hk : Begun k) :
    (expand settings segments c).Obeys true (fun _ => Begun) k := by
  induction segments generalizing c k with
  | nil => exact obeys_settle c k
  | cons segment rest ih =>
    have hasked : ∀ {α : Type} (a : α), (fun (_ : α) => Begun) a Stage.asked := fun _ => rfl
    rw [expand]
    cases segment.literal? with
    | some name =>
      refine (obeys_checked (Q := fun _ => Begun) (by rwa [Begun, Stage.isFirst_check])).bind ?_
      intro _ k hk
      split
      · exact hk
      · refine (obeys_call (Q := fun _ => Begun) rfl ?_ hasked).bind ?_
        · rw [hk, Bool.false_and]
        · intro path k hk
          refine (obeys_call (Q := fun _ => Begun) rfl (Bool.and_false _) hasked).bind ?_
          rintro (_ | info) k hk
          · exact hk
          · dsimp only
            split
            · exact hk
            · exact ih _ hk
    | none =>
      refine (obeys_all (Q := fun _ => Begun) fun _ => rfl).bind ?_
      intro entries k hk
      refine obeys_forEach hk fun entry _ k hk => ?_
      split
      · refine (obeys_call (Q := fun _ => Begun) rfl ?_ hasked).bind ?_
        · rw [hk, Bool.false_and]
        · exact fun path k hk => ih _ hk
      · exact hk

variable {base : Handle} {p : Pattern}

theorem obeys_fromBase :
    (fromBase settings base p).Obeys true (fun _ _ => True) (.checked true) := by
  unfold fromBase
  refine (base.obeys_resolve (Q := fun _ _ => True) (fun _ => trivial) fun _ => trivial).bind ?_
  rintro ⟨s, path⟩ k -
  refine (obeys_call (Q := fun _ => Begun) rfl (Bool.and_false _) fun _ => rfl).bind ?_
  rintro (_ | info) k hk
  · exact trivial
  · dsimp only
    split
    · exact (obeys_expand _ _ hk).mono fun _ _ _ => trivial
    · exact trivial

theorem obeys_fromRoot (g : Registry) :
    (fromRoot settings g p).Obeys true (fun _ _ => True) (.checked true) := by
  unfold fromRoot
  refine (obeys_resolve (Q := fun _ _ => True) g _ (fun _ => trivial) fun _ => trivial).bind ?_
  rintro ⟨s, path⟩ k -
  dsimp only
  split
  · exact trivial
  · refine (obeys_call (Q := fun _ => Begun) rfl (Bool.and_false _) fun _ => rfl).bind ?_
    rintro (_ | info) k hk
    · exact trivial
    · dsimp only
      split
      · exact trivial
      · exact (obeys_expand _ _ hk).mono fun _ _ _ => trivial

/-- **The run of a glob obeys**, from its first check on. -/
theorem obeys_run (registry : Nat) (hinting : Bool) (base : Handle) (p : Pattern) :
    (run registry hinting base p).Obeys true (fun _ _ => True) .fresh := by
  unfold run
  refine (obeys_checked (Q := fun _ k => k = .checked true) rfl).bind ?_
  rintro _ _ rfl
  refine (obeys_registry (Q := fun _ k => k = .checked true) fun _ => rfl).bind ?_
  rintro g _ rfl
  have hrooted : (isRooted base p).Obeys true (fun _ k => k = .checked true) (.checked true) := by
    unfold isRooted
    split
    · exact fun _ => rfl
    · exact rfl
  refine hrooted.bind ?_
  rintro rooted _ rfl
  split
  · exact obeys_fromRoot g
  · split
    · exact ⟨rfl, trivial⟩
    · exact obeys_fromBase

variable {registry : Option Nat}

/-- A glob from a handle that is bound to the registry of the glob, if any. -/
theorem ofPattern_of_bound (hb : registry = none ∨ base.registry = registry) :
    ∃ number, ∀ p hinting, ofPattern (.handle base) p registry hinting =
      run number hinting base p := by
  obtain ⟨number, hbind⟩ := base.bind_of_bound Match hb
  refine ⟨number, fun p hinting => ?_⟩
  unfold ofPattern
  rw [hbind]
  rfl

theorem obeys_ofPattern (hb : registry = none ∨ base.registry = registry) (p : Pattern)
    (hinting : Bool) :
    (ofPattern (.handle base) p registry hinting).Obeys true (fun _ _ => True) .fresh := by
  obtain ⟨number, hrun⟩ := ofPattern_of_bound hb
  rw [hrun]
  exact obeys_run number hinting base p

/-- A glob checks its token before anything else, -/
theorem opens_ofPattern (hb : registry = none ∨ base.registry = registry) (p : Pattern)
    (hinting : Bool) : (ofPattern (.handle base) p registry hinting).OpensChecked := by
  obtain ⟨number, hrun⟩ := ofPattern_of_bound hb
  exact .inr ⟨_, hrun p hinting⟩

theorem ofText_of_error {text : String} {flaw : Pattern.Flaw}
    (hp : Pattern.read text = .error flaw) (base : Base) (hinting : Bool) :
    ofText base text registry hinting = .fail (.invalidPattern text flaw) := by
  unfold ofText prepare
  rw [hp]
  rfl

theorem obeys_ofText (hb : registry = none ∨ base.registry = registry) (text : String)
    (hinting : Bool) :
    (ofText (.handle base) text registry hinting).Obeys true (fun _ _ => True) .fresh := by
  cases hp : Pattern.read text with
  | ok p =>
    rw [ofText_eq_ofPattern hp]
    exact obeys_ofPattern hb p hinting
  | error flaw =>
    rw [ofText_of_error hp]
    exact ⟨rfl, Stage.noConfusion⟩

/-- unless its pattern is unreadable. -/
theorem opens_ofText (hb : registry = none ∨ base.registry = registry) (text : String)
    (hinting : Bool) : (ofText (.handle base) text registry hinting).OpensChecked := by
  cases hp : Pattern.read text with
  | ok p =>
    rw [ofText_eq_ofPattern hp]
    exact opens_ofPattern hb p hinting
  | error flaw => exact .inl ⟨text, flaw, ofText_of_error hp (.handle base) hinting⟩

end Arboretum.Glob
