import Arboretum.Proofs.Traversal.Diary

/-!
# The course of a run

What is to hold of a run may speak of all that happened so far: of every moment, and not of the
present state alone.  `Runner.Course` says of a program, after some moments and from a state, what
holds of the moments wherever the run ends, and of the result and the state where it ends well.  It
is about the diary; its rules go through the program step by step, and each of them adds the
moments of its step.

A run that does not end well has failed or is spent.  What holds then is said once, by the
`Endings` that all parts of a program share.
-/

namespace Arboretum

namespace Runner

variable {σ Out α β γ : Type}

/-- What holds of the moments of a run that fails, and of one that is spent. -/
structure Endings (σ Out : Type) where
  failed : Fault → List (Moment σ Out) → Prop
  spent : List (Moment σ Out) → Prop

variable {r : Runner σ Out} {e : Endings σ Out} {Q Q' : α → List (Moment σ Out) → σ → Prop}
  {R : β → List (Moment σ Out) → σ → Prop} {ms : List (Moment σ Out)} {x : σ}

/-- **The course of a run** after some moments, from a state: where it ends well, `Q` holds of its
result, all moments and the state. -/
def Course (r : Runner σ Out) (e : Endings σ Out) (Q : α → List (Moment σ Out) → σ → Prop)
    (ms : List (Moment σ Out)) (x : σ) (t : Traversal Out α) : Prop :=
  match (r.diary x t).outcome with
  | .finished a => Q a (ms ++ (r.diary x t).moments) (r.diary x t).state
  | .failed f => e.failed f (ms ++ (r.diary x t).moments)
  | .spent => e.spent (ms ++ (r.diary x t).moments)

/-! ## 1. Programs one after the other -/

theorem course_done {a : α} (h : Q a ms x) : r.Course e Q ms x (.done a) := by
  show Q a (ms ++ []) x
  rwa [List.append_nil]

theorem course_fail {f : Fault} (h : e.failed f ms) :
    r.Course e Q ms x (.fail f : Traversal Out α) := by
  show e.failed f (ms ++ [])
  rwa [List.append_nil]

theorem course_spent (h : e.spent ms) : r.Course e Q ms x (.spent : Traversal Out α) := by
  show e.spent (ms ++ [])
  rwa [List.append_nil]

/-- A weaker property of each end. -/
theorem Course.weaken {e' : Endings σ Out} {t : Traversal Out α} (h : r.Course e Q ms x t)
    (hfailed : ∀ f ms, e.failed f ms → e'.failed f ms) (hspent : ∀ ms, e.spent ms → e'.spent ms)
    (hQ : ∀ a ms x, Q a ms x → Q' a ms x) : r.Course e' Q' ms x t := by
  unfold Course at h ⊢
  cases hd : (r.diary x t).outcome with
  | finished a =>
    rw [hd] at h
    exact hQ a _ _ h
  | failed f =>
    rw [hd] at h
    exact hfailed f _ h
  | spent =>
    rw [hd] at h
    exact hspent _ h

theorem Course.mono {t : Traversal Out α} (h : r.Course e Q ms x t)
    (hQ : ∀ a ms x, Q a ms x → Q' a ms x) : r.Course e Q' ms x t :=
  h.weaken (fun _ _ h => h) (fun _ h => h) hQ

/-- What no end allows does not happen. -/
theorem Course.outcome_ne_spent {t : Traversal Out α} (h : r.Course e Q ms x t)
    (hspent : ∀ ms, ¬ e.spent ms) : (r.diary x t).outcome ≠ .spent := by
  intro hd
  unfold Course at h
  rw [hd] at h
  exact hspent _ h

theorem Course.outcome_ne_failed {t : Traversal Out α} (h : r.Course e Q ms x t) {f : Fault}
    (hfailed : ∀ ms, ¬ e.failed f ms) : (r.diary x t).outcome ≠ .failed f := by
  intro hd
  unfold Course at h
  rw [hd] at h
  exact hfailed _ h

theorem Course.outcome_ne_finished {t : Traversal Out α} (h : r.Course e Q ms x t) {a : α}
    (hQ : ∀ ms y, ¬ Q a ms y) : (r.diary x t).outcome ≠ .finished a := by
  intro hd
  unfold Course at h
  rw [hd] at h
  exact hQ _ _ h

/-- The state at the end is the one of the diary. -/
theorem Course.with_state {t : Traversal Out α} (h : r.Course e Q ms x t) :
    r.Course e (fun a ms y => Q a ms y ∧ y = (r.diary x t).state) ms x t := by
  unfold Course at h ⊢
  cases hd : (r.diary x t).outcome with
  | finished a =>
    rw [hd] at h
    exact ⟨h, rfl⟩
  | failed f =>
    rw [hd] at h
    exact h
  | spent =>
    rw [hd] at h
    exact h

/-- The moments at the end go on from those before. -/
theorem Course.with_moments {t : Traversal Out α} (h : r.Course e Q ms x t) :
    r.Course e (fun a ms' y => Q a ms' y ∧ ms <+: ms') ms x t := by
  unfold Course at h ⊢
  cases hd : (r.diary x t).outcome with
  | finished a =>
    rw [hd] at h
    exact ⟨h, List.prefix_append ms _⟩
  | failed f =>
    rw [hd] at h
    exact h
  | spent =>
    rw [hd] at h
    exact h

/-- What holds of the moments, however a run from no moments ends. -/
theorem Course.moments {t : Traversal Out α} {P : List (Moment σ Out) → Prop}
    (h : r.Course ⟨fun _ => P, P⟩ (fun _ ms _ => P ms) [] x t) : P (r.diary x t).moments := by
  unfold Course at h
  cases hd : (r.diary x t).outcome with
  | finished a =>
    rw [hd] at h
    exact h
  | failed f =>
    rw [hd] at h
    exact h
  | spent =>
    rw [hd] at h
    exact h

/-- **Programs one after the other**: the second goes on with the moments of the first. -/
theorem Course.bind {t : Traversal Out α} (h : r.Course e Q ms x t) {f : α → Traversal Out β}
    (hf : ∀ a ms x, Q a ms x → r.Course e R ms x (f a)) : r.Course e R ms x (t.bind f) := by
  unfold Course at h ⊢
  rw [r.diary_bind, Diary.andThen]
  cases hd : (r.diary x t).outcome with
  | finished a =>
    rw [hd] at h
    have hnext := hf a _ _ h
    unfold Course at hnext
    rw [List.append_assoc] at hnext
    exact hnext
  | failed f =>
    rw [hd] at h
    exact h
  | spent =>
    rw [hd] at h
    exact h

/-! ## 2. Steps -/

theorem course_check {next : Traversal Out α}
    (hfailed : ∀ reason, r.cancelled x = some reason → e.failed (.cancelled reason) ms)
    (hnext : r.cancelled x = none → r.Course e Q ms x next) :
    r.Course e Q ms x (.check next) := by
  unfold Course
  rw [r.diary_check]
  cases hc : r.cancelled x with
  | none => exact hnext hc
  | some reason =>
    show e.failed (.cancelled reason) (ms ++ [])
    rw [List.append_nil]
    exact hfailed reason hc

/-- Asking a store adds a moment. -/
theorem course_ask {s : Store} {c : Call} {next : Except Fault c.Answer → Traversal Out α}
    (h : r.Course e Q (ms ++ [⟨x, .asked s c (r.ask x s c).1, (r.ask x s c).2⟩]) (r.ask x s c).2
      (next (r.ask x s c).1)) : r.Course e Q ms x (.ask s c next) := by
  unfold Course at h ⊢
  rw [r.diary_ask]
  simp only [List.append_assoc] at h
  exact h

theorem course_checked {Q : Unit → List (Moment σ Out) → σ → Prop}
    (hfailed : ∀ reason, r.cancelled x = some reason → e.failed (.cancelled reason) ms)
    (hQ : r.cancelled x = none → Q () ms x) :
    r.Course e Q ms x (Traversal.checked : Traversal Out Unit) :=
  course_check hfailed fun hc => course_done (hQ hc)

theorem course_registry {Q : Registry → List (Moment σ Out) → σ → Prop} {number : Nat}
    (h : Q (r.registry x number) ms x) :
    r.Course e Q ms x (Traversal.registry number : Traversal Out Registry) := by
  show Q _ (ms ++ []) x
  rwa [List.append_nil]

/-- **A plain call**: its fault ends the run as it is. -/
theorem course_plain {s : Store} {c : Call} {Q : c.Answer → List (Moment σ Out) → σ → Prop}
    (hok : ∀ a y, r.ask x s c = (.ok a, y) → Q a (ms ++ [⟨x, .asked s c (.ok a), y⟩]) y)
    (herror : ∀ f y, r.ask x s c = (.error f, y) →
      e.failed f (ms ++ [⟨x, .asked s c (.error f), y⟩])) :
    r.Course e Q ms x (Traversal.plain s c : Traversal Out c.Answer) := by
  refine course_ask ?_
  rcases ha : r.ask x s c with ⟨f | a, y⟩
  · exact course_fail (herror f y ha)
  · exact course_done (hok a y ha)

/-- **A call**: the run may be cancelled before it, and its fault ends the run as a run reports it. -/
theorem course_call {s : Store} {path : String} {c : Call}
    {Q : c.Answer → List (Moment σ Out) → σ → Prop}
    (hfailed : ∀ reason, r.cancelled x = some reason → e.failed (.cancelled reason) ms)
    (hok : ∀ a y, r.cancelled x = none → r.ask x s c = (.ok a, y) →
      Q a (ms ++ [⟨x, .asked s c (.ok a), y⟩]) y)
    (herror : ∀ f y, r.cancelled x = none → r.ask x s c = (.error f, y) →
      e.failed (f.reported c.operation s path) (ms ++ [⟨x, .asked s c (.error f), y⟩])) :
    r.Course e Q ms x (Traversal.call s path c : Traversal Out c.Answer) := by
  refine course_check hfailed fun hc => course_ask ?_
  rcases ha : r.ask x s c with ⟨f | a, y⟩
  · exact course_fail (herror f y hc ha)
  · exact course_done (hok a y hc ha)

/-- Handing something out adds a moment; an objection ends the run. -/
theorem course_give {Q : Unit → List (Moment σ Out) → σ → Prop} {out : Out}
    (hok : ∀ y, r.visit x out = (none, y) → Q () (ms ++ [⟨x, .handed out none, y⟩]) y)
    (hobjects : ∀ f y, r.visit x out = (some f, y) →
      e.failed f (ms ++ [⟨x, .handed out (some f), y⟩])) :
    r.Course e Q ms x (Traversal.give out) := by
  unfold Course Traversal.give
  rw [r.diary_emit]
  rcases hv : r.visit x out with ⟨_ | f, y⟩
  · exact hok y hv
  · exact hobjects f y hv

/-! ## 3. Several steps -/

/-- **Steps in turn** keep what each of them keeps. -/
theorem course_forEach {f : β → Traversal Out Unit} {xs : List β}
    {I : List (Moment σ Out) → σ → Prop} (hI : I ms x)
    (h : ∀ b ∈ xs, ∀ ms x, I ms x → r.Course e (fun _ => I) ms x (f b)) :
    r.Course e (fun _ => I) ms x (Traversal.forEach f xs) := by
  induction xs generalizing ms x with
  | nil => exact course_done hI
  | cons b xs ih =>
    refine (h b List.mem_cons_self ms x hI).bind fun _ ms x hI => ?_
    exact ih hI fun b hb => h b (List.mem_cons_of_mem _ hb)

/-- The same for steps with results, each of which is known. -/
theorem course_forEachCollect {f : β → Traversal Out γ} {g : β → γ} {xs : List β}
    {I : List (Moment σ Out) → σ → Prop} (hI : I ms x)
    (h : ∀ b ∈ xs, ∀ ms x, I ms x → r.Course e (fun c ms x => c = g b ∧ I ms x) ms x (f b)) :
    r.Course e (fun cs ms x => cs = xs.map g ∧ I ms x) ms x (Traversal.forEachCollect f xs) := by
  induction xs generalizing ms x with
  | nil => exact course_done ⟨rfl, hI⟩
  | cons b xs ih =>
    refine (h b List.mem_cons_self ms x hI).bind ?_
    rintro _ ms x ⟨rfl, hI⟩
    refine (ih hI fun b hb => h b (List.mem_cons_of_mem _ hb)).bind ?_
    rintro _ ms x ⟨rfl, hI⟩
    exact course_done ⟨rfl, hI⟩

end Runner

/-! ## 4. Counting calls -/

/-- How many of the moments are calls. -/
def callsIn {σ Out : Type} (ms : List (Moment σ Out)) : Nat :=
  (ms.filterMap fun m => m.step.call?).length

theorem callsIn_append {σ Out : Type} (ms more : List (Moment σ Out)) :
    callsIn (ms ++ more) = callsIn ms + callsIn more := by
  unfold callsIn
  rw [List.filterMap_append, List.length_append]

theorem callsIn_le_append {σ Out : Type} (ms more : List (Moment σ Out)) :
    callsIn ms ≤ callsIn (ms ++ more) :=
  callsIn_append ms more ▸ Nat.le_add_right _ _

theorem callsIn_lt_asked {σ Out : Type} (ms : List (Moment σ Out)) (x y : σ) (s : Store) (c : Call)
    (answer : Except Fault c.Answer) : callsIn ms < callsIn (ms ++ [⟨x, .asked s c answer, y⟩]) :=
  callsIn_append ms _ ▸ Nat.lt_succ_self _

/-! ## 5. Worlds -/

namespace World

variable {Out α : Type} {w w' : World} {token : Option Nat} {e : Runner.Endings World Out}
  {ms : List (Moment World Out)}

/-- **The course of a run whose record is known**; it may only add moments. -/
theorem course_of_record {t : Traversal Out α} {a : α} {found : List Out}
    (h : w.record token t = ⟨.finished a, found, w'⟩)
    {Q : α → List (Moment World Out) → World → Prop}
    (hQ : ∀ ms', callsIn ms ≤ callsIn ms' → Q a ms' w') :
    (World.runner token).Course e Q ms w t := by
  rw [w.record_eq_diary token t] at h
  injection h with houtcome _ hstate
  unfold Runner.Course
  rw [houtcome, hstate]
  exact hQ _ (callsIn_le_append ms _)

/-- A call that is answered, unless the run is cancelled. -/
theorem course_call_of_ok {s : Store} {path : String} {c : Call} {a : c.Answer}
    (hask : w.ask s c = (.ok a, w')) {Q : c.Answer → List (Moment World Out) → World → Prop}
    (hfailed : ∀ reason, w.cancelled token = some reason → e.failed (.cancelled reason) ms)
    (hQ : w.cancelled token = none → ∀ ms', callsIn ms < callsIn ms' → Q a ms' w') :
    (World.runner token).Course e Q ms w (Traversal.call s path c : Traversal Out c.Answer) := by
  refine Runner.course_call hfailed (fun b y hc hb => ?_) fun f y _ hf => ?_
  · obtain ⟨ha, rfl⟩ := Prod.mk.inj (hask.symm.trans hb)
    obtain rfl := Except.ok.inj ha
    exact hQ hc _ (callsIn_lt_asked ms w w' s c _)
  · cases (Prod.mk.inj (hask.symm.trans hf)).1

/-- A call that is refused. -/
theorem course_call_of_error {s : Store} {path : String} {c : Call} {f : Fault}
    (hask : (w.ask s c).1 = .error f) {Q : c.Answer → List (Moment World Out) → World → Prop}
    (hfailed : ∀ fault ms', e.failed fault ms') :
    (World.runner token).Course e Q ms w (Traversal.call s path c : Traversal Out c.Answer) := by
  refine Runner.course_call (fun reason _ => hfailed _ _) (fun b y _ hb => ?_)
    fun _ _ _ _ => hfailed _ _
  have hb : w.ask s c = (.ok b, y) := hb
  rw [hb] at hask
  cases hask

end World

end Arboretum
