import Arboretum.Proofs.Store.Hints
import Arboretum.Proofs.Traversal.Steps

/-!
# What holds along a run

A run may end early: with a fault, out of budget, or because it is cancelled between two of its
calls.  `Traversal.Along` says of a program and a world what holds at every such end: an invariant
of the world wherever the run may stop, a property of everything handed out, and a property of the
result and the world where it ends well.  It is read off the program step by step, and programs one
after the other need no more than the steps (`Along.bind`, `along_forEach`).

What holds along a run holds of the world that it leaves, whenever the run is told to stop
(`Along.interrupted`); the run that listens to a token is one of these (`interrupted_token`).
-/

namespace Arboretum

variable {Out Found α β γ : Type}

/-! ## 1. Runs that are stopped on the way -/

namespace World

/-- The surroundings of a run that may be stopped at any check: `stops` is the reason to stop at the
check of a number, and the checks are counted. -/
def stoppable (stops : Nat → Option String) : Traversal.Surroundings (StateM (Nat × World)) where
  ask s c := fun (checks, w) => ((w.ask s c).1, (checks, (w.ask s c).2))
  registry number := fun (checks, w) => (w.registry number, (checks, w))
  cancelled := fun (checks, w) => (stops checks, (checks + 1, w))

/-- The run of a program that may be stopped, after some checks. -/
def stopping (w : World) (stops : Nat → Option String) (checks : Nat) (t : Traversal Out α) :
    Traversal.Outcome α × Nat × World :=
  Traversal.run (stoppable stops) (fun _ => pure none) t (checks, w)

/-- **The world that a run leaves** which is stopped at the first check with a reason. -/
def interrupted (w : World) (stops : Nat → Option String) (t : Traversal Out α) : World :=
  (w.stopping stops 0 t).2.2

theorem stopping_check (w : World) (stops : Nat → Option String) (checks : Nat)
    (next : Traversal Out α) :
    w.stopping stops checks (.check next) = match stops checks with
      | some reason => (.failed (.cancelled reason), checks + 1, w)
      | none => w.stopping stops (checks + 1) next := by
  have hstep : w.stopping stops checks (.check next) =
      (match stops checks with
        | some reason => pure (.failed (.cancelled reason))
        | none => next.run (stoppable stops) fun _ => pure none : StateM (Nat × World) _)
        (checks + 1, w) := rfl
  rw [hstep]
  cases stops checks <;> rfl

/-- **A run that listens to a token** is stopped at its first check or never. -/
theorem interrupted_token (w : World) (token : Option Nat) (t : Traversal Out α) :
    w.interrupted (fun _ => w.cancelled token) t = (w.run token t).2 := by
  have hsame : ∀ (reason : Option String) (w : World) (checks : Nat), w.cancelled token = reason →
      (w.stopping (fun _ => reason) checks t).2.2 = (w.record token t).world := by
    intro reason
    induction t with
    | done a => exact fun _ _ _ => rfl
    | fail f => exact fun _ _ _ => rfl
    | spent => exact fun _ _ _ => rfl
    | check next ih =>
      intro w checks hc
      rw [stopping_check, record_check, hc]
      cases reason with
      | none => exact ih w (checks + 1) hc
      | some reason => rfl
    | routes number next ih => exact fun w checks hc => ih (w.registry number) w checks hc
    | ask s c next ih => exact fun w checks hc => ih (w.ask s c).1 (w.ask s c).2 checks hc
    | emit x next ih =>
      intro w checks hc
      rw [record_emit]
      exact ih w checks hc
  have hrun : (w.run token t).2 = (w.record token t).world := by
    rw [run_eq_of_record]
    rcases w.record token t with ⟨_ | _ | _, found, w'⟩ <;> rfl
  rw [hrun]
  exact hsame _ w 0 rfl

end World

/-! ## 2. Along a program -/

namespace Traversal

/-- **What holds along every run** of a program in a world: `I` of the world wherever the run may
stop, `J` of everything handed out, `Q` of the result and the world at the end. -/
def Along (I : World → Prop) (J : Out → Prop) (Q : α → World → Prop) :
    Traversal Out α → World → Prop
  | .done a, w => Q a w
  | .fail _, w => I w
  | .spent, w => I w
  | .check next, w => I w ∧ Along I J Q next w
  | .routes number next, w => Along I J Q (next (w.registry number)) w
  | .ask s c next, w => Along I J Q (next (w.ask s c).1) (w.ask s c).2
  | .emit x next, w => J x ∧ Along I J Q next w

variable {I I' : World → Prop} {J J' : Out → Prop} {Q Q' : α → World → Prop} {R : β → World → Prop}
  {w : World}

theorem Along.mono {t : Traversal Out α} (h : t.Along I J Q w) (hI : ∀ w, I w → I' w)
    (hJ : ∀ x, J x → J' x) (hQ : ∀ a w, Q a w → Q' a w) : t.Along I' J' Q' w := by
  induction t generalizing w with
  | done a => exact hQ a w h
  | fail f => exact hI w h
  | spent => exact hI w h
  | check next ih => exact ⟨hI w h.1, ih h.2⟩
  | routes number next ih => exact ih (w.registry number) h
  | ask s c next ih => exact ih (w.ask s c).1 h
  | emit x next ih => exact ⟨hJ x h.1, ih h.2⟩

/-- **Programs one after the other.** -/
theorem Along.bind {t : Traversal Out α} (h : t.Along I J Q w) {f : α → Traversal Out β}
    (hf : ∀ a w, Q a w → (f a).Along I J R w) : (t.bind f).Along I J R w := by
  induction t generalizing w with
  | done a => exact hf a w h
  | fail f => exact h
  | spent => exact h
  | check next ih => exact ⟨h.1, ih h.2⟩
  | routes number next ih => exact ih (w.registry number) h
  | ask s c next ih => exact ih (w.ask s c).1 h
  | emit x next ih => exact ⟨h.1, ih h.2⟩

/-- **What holds along a run holds of the world it leaves**, wherever it is stopped. -/
theorem Along.interrupted {t : Traversal Out α} (h : t.Along I J Q w) (hQ : ∀ a w, Q a w → I w)
    (stops : Nat → Option String) : I (w.interrupted stops t) := by
  have hall : ∀ checks, I (w.stopping stops checks t).2.2 := by
    induction t generalizing w with
    | done a => exact fun _ => hQ a w h
    | fail f => exact fun _ => h
    | spent => exact fun _ => h
    | check next ih =>
      intro checks
      rw [World.stopping_check]
      cases stops checks with
      | some reason => exact h.1
      | none => exact ih h.2 (checks + 1)
    | routes number next ih => exact ih (w.registry number) h
    | ask s c next ih => exact ih (w.ask s c).1 h
    | emit x next ih => exact ih h.2
  exact hall 0

/-! ## 3. Steps -/

theorem along_checked {Q : Unit → World → Prop} (hI : I w) (hQ : Q () w) :
    (checked : Traversal Out Unit).Along I J Q w := ⟨hI, hQ⟩

/-- **A call**: the invariant holds before it and after a fault. -/
theorem along_call {s : Store} {path : String} {c : Call} {Q : c.Answer → World → Prop} (hI : I w)
    (hok : ∀ a, (w.ask s c).1 = .ok a → Q a (w.ask s c).2) (herror : I (w.ask s c).2) :
    (call s path c : Traversal Out c.Answer).Along I J Q w := by
  refine ⟨hI, ?_⟩
  show Along I J Q _ (w.ask s c).2
  cases ha : (w.ask s c).1 with
  | ok a => exact hok a ha
  | error f => exact herror

/-- A call that only looks. -/
theorem along_look {s : Store} {path : String} {c : Call} (hc : c.changes = false)
    {Q : c.Answer → World → Prop} (hI : I w) (hok : ∀ a, (w.ask s c).1 = .ok a → Q a w) :
    (call s path c : Traversal Out c.Answer).Along I J Q w := by
  have hw := w.world_of_look s hc
  exact along_call hI (fun a ha => hw.symm ▸ hok a ha) (hw.symm ▸ hI)

/-! ## 4. Several steps -/

/-- **Steps in turn** keep what each of them keeps. -/
theorem along_forEach {f : β → Traversal Out Unit} {xs : List β} (hI : I w)
    (h : ∀ x ∈ xs, ∀ w, I w → (f x).Along I J (fun _ => I) w) :
    (forEach f xs).Along I J (fun _ => I) w := by
  induction xs generalizing w with
  | nil => exact hI
  | cons x xs ih =>
    refine (h x List.mem_cons_self w hI).bind fun _ w hw => ?_
    exact ih hw fun y hy => h y (List.mem_cons_of_mem x hy)

/-- The same for steps with results. -/
theorem along_forEachCollect {f : β → Traversal Out γ} {xs : List β} {P : γ → Prop} (hI : I w)
    (h : ∀ x ∈ xs, ∀ w, I w → (f x).Along I J (fun y w => P y ∧ I w) w) :
    (forEachCollect f xs).Along I J (fun ys w => (∀ y ∈ ys, P y) ∧ I w) w := by
  induction xs generalizing w with
  | nil => exact ⟨fun _ hy => absurd hy List.not_mem_nil, hI⟩
  | cons x xs ih =>
    refine (h x List.mem_cons_self w hI).bind fun y w hy => ?_
    refine (ih hy.2 fun z hz => h z (List.mem_cons_of_mem x hz)).bind fun ys w hys => ?_
    refine ⟨fun z hz => ?_, hys.2⟩
    rcases List.mem_cons.1 hz with rfl | hz
    · exact hy.1
    · exact hys.1 z hz

/-- **Gathering** keeps what is handed out in the result. -/
theorem Along.gather {J : Found → Prop} {t : Traversal Found α} (h : t.Along I J Q w)
    (kept : List Found) (hk : ∀ x ∈ kept, J x) (J' : Out → Prop) :
    (Traversal.gather kept t).Along I J' (fun found w => (∀ x ∈ found.1, J x) ∧ Q found.2 w) w := by
  induction t generalizing w kept with
  | done a => exact ⟨hk, h⟩
  | fail f => exact h
  | spent => exact h
  | check next ih => exact ⟨h.1, ih h.2 kept hk⟩
  | routes number next ih => exact ih (w.registry number) h kept hk
  | ask s c next ih => exact ih (w.ask s c).1 h kept hk
  | emit x next ih =>
    refine ih h.2 (x :: kept) fun y hy => ?_
    rcases List.mem_cons.1 hy with rfl | hy
    · exact h.1
    · exact hk y hy

end Traversal

end Arboretum
