import Arboretum.Proofs.Traversal.Recording

/-!
# Runs by anyone

A program may be run by anyone who answers its questions, not only in a world of this library: the
stores may answer anything, and while one of them answers, or while a visitor looks at what is
handed out, everything may change, the registries and the token included.  A **runner** is such a
one, with any type of states.

The **diary** of a run notes every moment at which the state may change: each call with its answer,
each thing handed out with the visitor's verdict, and the states before and after.  It goes through
the program step by step (`diary_check`, `diary_ask`, `diary_emit`, `diary_bind`), and its moments
follow one another and are what the runner did (`follows_diary`).  A world of this library is a
runner, and its diary says what its record says (`World.record_eq_diary`).
-/

namespace Arboretum

/-! ## 1. Runners and diaries -/

/-- **Who runs a program**: the answers to its questions in each state, and the states after. -/
structure Runner (σ Out : Type) where
  /-- the answer of a store, and the state after it -/
  ask : σ → Store → (c : Call) → Except Fault c.Answer × σ
  /-- a registry by its number -/
  registry : σ → Nat → Registry
  /-- the reason why the run is cancelled, if it is -/
  cancelled : σ → Option String
  /-- the verdict on something handed out, and the state after it -/
  visit : σ → Out → Option Fault × σ

/-- What happens at one moment of a run. -/
inductive Step (Out : Type) where
  | asked (store : Store) (call : Call) (answer : Except Fault call.Answer)
  | handed (x : Out) (verdict : Option Fault)

namespace Step

variable {Out : Type}

/-- The store and the call, if a store was asked. -/
def call? : Step Out → Option (Store × Call)
  | .asked s c _ => some (s, c)
  | .handed _ _ => none

/-- What was handed out. -/
def handed? : Step Out → Option Out
  | .asked _ _ _ => none
  | .handed x _ => some x

end Step

/-- One moment of a run, between the state before and the state after. -/
structure Moment (σ Out : Type) where
  before : σ
  step : Step Out
  after : σ

/-- What was noted of a run: how it ended, its moments, and the state after it. -/
structure Diary (σ Out α : Type) where
  outcome : Traversal.Outcome α
  moments : List (Moment σ Out)
  state : σ

variable {σ Out α β : Type}

namespace Diary

/-- The calls of a run, in order. -/
def calls (d : Diary σ Out α) : List (Store × Call) := d.moments.filterMap fun m => m.step.call?

/-- The diary with moments that were before. -/
def behind (moments : List (Moment σ Out)) (d : Diary σ Out α) : Diary σ Out α :=
  { d with moments := moments ++ d.moments }

theorem behind_behind (moments more : List (Moment σ Out)) (d : Diary σ Out α) :
    (d.behind more).behind moments = d.behind (moments ++ more) :=
  congrArg (fun ms => Diary.mk d.outcome ms d.state)
    (List.append_assoc moments more d.moments).symm

theorem calls_behind (moments : List (Moment σ Out)) (d : Diary σ Out α) :
    (d.behind moments).calls = moments.filterMap (fun m => m.step.call?) ++ d.calls :=
  List.filterMap_append

/-- The diary goes on with the result, unless the run ended otherwise. -/
def andThen (d : Diary σ Out α) (next : σ → α → Diary σ Out β) : Diary σ Out β :=
  match d.outcome with
  | .finished a => (next d.state a).behind d.moments
  | .failed f => ⟨.failed f, d.moments, d.state⟩
  | .spent => ⟨.spent, d.moments, d.state⟩

theorem behind_andThen (moments : List (Moment σ Out)) (d : Diary σ Out α)
    (next : σ → α → Diary σ Out β) :
    (d.behind moments).andThen next = (d.andThen next).behind moments := by
  unfold andThen behind
  cases d.outcome with
  | finished a => exact (behind_behind moments d.moments _).symm
  | failed f => rfl
  | spent => rfl

end Diary

namespace Runner

variable (r : Runner σ Out)

/-! ## 2. Keeping a diary -/

/-- The surroundings of a run with notes, the latest first. -/
def surroundings : Traversal.Surroundings (StateM (List (Moment σ Out) × σ)) where
  ask s c := fun (notes, x) =>
    ((r.ask x s c).1, (⟨x, .asked s c (r.ask x s c).1, (r.ask x s c).2⟩ :: notes, (r.ask x s c).2))
  registry number := fun (notes, x) => (r.registry x number, (notes, x))
  cancelled := fun (notes, x) => (r.cancelled x, (notes, x))

/-- The visitor that notes what it is handed, with its verdict. -/
def note (y : Out) : StateM (List (Moment σ Out) × σ) (Option Fault) := fun (notes, x) =>
  ((r.visit x y).1, (⟨x, .handed y (r.visit x y).1, (r.visit x y).2⟩ :: notes, (r.visit x y).2))

/-- The run with notes. -/
def noted (x : σ) (notes : List (Moment σ Out)) (t : Traversal Out α) :
    Traversal.Outcome α × List (Moment σ Out) × σ :=
  Traversal.run r.surroundings r.note t (notes, x)

/-- **The diary of a run** from a state. -/
def diary (x : σ) (t : Traversal Out α) : Diary σ Out α :=
  let (outcome, notes, y) := r.noted x [] t
  ⟨outcome, notes.reverse, y⟩

theorem noted_check (x : σ) (notes : List (Moment σ Out)) (next : Traversal Out α) :
    r.noted x notes (.check next) = match r.cancelled x with
      | some reason => (.failed (.cancelled reason), notes, x)
      | none => r.noted x notes next := by
  have hstep : r.noted x notes (.check next) =
      (match r.cancelled x with
        | some reason => pure (.failed (.cancelled reason))
        | none => next.run r.surroundings r.note : StateM (List (Moment σ Out) × σ) _)
        (notes, x) := rfl
  rw [hstep]
  cases r.cancelled x <;> rfl

theorem noted_emit (x : σ) (notes : List (Moment σ Out)) (y : Out) (rest : Traversal Out α) :
    r.noted x notes (.emit y rest) = match r.visit x y with
      | (some f, z) => (.failed f, ⟨x, .handed y (some f), z⟩ :: notes, z)
      | (none, z) => r.noted z (⟨x, .handed y none, z⟩ :: notes) rest := by
  show (r.note y >>= _ : StateM (List (Moment σ Out) × σ) _) (notes, x) = _
  simp only [bind, StateT.bind, note]
  rcases r.visit x y with ⟨_ | f, z⟩ <;> rfl

/-- Older notes stay below the new ones. -/
theorem noted_append (x : σ) (notes : List (Moment σ Out)) (t : Traversal Out α) :
    r.noted x notes t =
      ((r.noted x [] t).1, (r.noted x [] t).2.1 ++ notes, (r.noted x [] t).2.2) := by
  induction t generalizing x notes with
  | done a => rfl
  | fail f => rfl
  | spent => rfl
  | check next ih =>
    rw [noted_check, noted_check]
    cases r.cancelled x with
    | none => exact ih x notes
    | some reason => rfl
  | routes number next ih => exact ih (r.registry x number) x notes
  | ask s c next ih =>
    have hstep : ∀ notes, r.noted x notes (.ask s c next) =
        r.noted (r.ask x s c).2 (⟨x, .asked s c (r.ask x s c).1, (r.ask x s c).2⟩ :: notes)
          (next (r.ask x s c).1) := fun _ => rfl
    rw [hstep, hstep, ih, ih _ _ [_], List.append_assoc]
    rfl
  | emit y rest ih =>
    rw [noted_emit, noted_emit]
    rcases r.visit x y with ⟨_ | f, z⟩
    · dsimp only
      rw [ih, ih z [_], List.append_assoc]
      rfl
    · rfl

theorem diary_check (x : σ) (next : Traversal Out α) :
    r.diary x (.check next) = match r.cancelled x with
      | some reason => ⟨.failed (.cancelled reason), [], x⟩
      | none => r.diary x next := by
  unfold diary
  rw [noted_check]
  cases r.cancelled x <;> rfl

theorem diary_ask (x : σ) (s : Store) (c : Call) (next : Except Fault c.Answer → Traversal Out α) :
    r.diary x (.ask s c next) = (r.diary (r.ask x s c).2 (next (r.ask x s c).1)).behind
      [⟨x, .asked s c (r.ask x s c).1, (r.ask x s c).2⟩] := by
  have hstep : r.noted x [] (.ask s c next) =
      r.noted (r.ask x s c).2 [⟨x, .asked s c (r.ask x s c).1, (r.ask x s c).2⟩]
        (next (r.ask x s c).1) := rfl
  unfold diary
  rw [hstep, noted_append]
  show Diary.mk _ (_ ++ [_]).reverse _ = _
  rw [List.reverse_append]
  rfl

theorem diary_emit (x : σ) (y : Out) (rest : Traversal Out α) :
    r.diary x (.emit y rest) = match r.visit x y with
      | (some f, z) => ⟨.failed f, [⟨x, .handed y (some f), z⟩], z⟩
      | (none, z) => (r.diary z rest).behind [⟨x, .handed y none, z⟩] := by
  unfold diary
  rw [noted_emit]
  rcases r.visit x y with ⟨_ | f, z⟩
  · dsimp only
    rw [noted_append]
    show Diary.mk _ (_ ++ [_]).reverse _ = _
    rw [List.reverse_append]
    rfl
  · rfl

/-- **The diary of two programs in turn.** -/
theorem diary_bind (x : σ) (t : Traversal Out α) (f : α → Traversal Out β) :
    r.diary x (t.bind f) = (r.diary x t).andThen fun y a => r.diary y (f a) := by
  induction t generalizing x with
  | done a => rfl
  | fail f => rfl
  | spent => rfl
  | check next ih =>
    rw [Traversal.bind, diary_check, diary_check]
    cases r.cancelled x with
    | none => exact ih x
    | some reason => rfl
  | routes number next ih => exact ih (r.registry x number) x
  | ask s c next ih =>
    rw [Traversal.bind, diary_ask, diary_ask, ih, Diary.behind_andThen]
  | emit y rest ih =>
    rw [Traversal.bind, diary_emit, diary_emit]
    rcases r.visit x y with ⟨_ | f, z⟩
    · dsimp only
      rw [ih, Diary.behind_andThen]
    · rfl

/-! ## 3. What a diary tells -/

/-- **Moments follow one another**, from one state to another, as the runner answers. -/
def Follows : σ → List (Moment σ Out) → σ → Prop
  | x, [], y => x = y
  | x, m :: ms, y => m.before = x ∧ (match m.step with
      | .asked s c answer => r.ask x s c = (answer, m.after)
      | .handed out verdict => r.visit x out = (verdict, m.after)) ∧ Follows m.after ms y

/-- **The moments of a diary follow one another**, from the first state to the last. -/
theorem follows_diary (x : σ) (t : Traversal Out α) :
    r.Follows x (r.diary x t).moments (r.diary x t).state := by
  induction t generalizing x with
  | done a => exact rfl
  | fail f => exact rfl
  | spent => exact rfl
  | check next ih =>
    rw [diary_check]
    cases r.cancelled x with
    | none => exact ih x
    | some reason => exact rfl
  | routes number next ih => exact ih (r.registry x number) x
  | ask s c next ih =>
    rw [diary_ask]
    exact ⟨rfl, rfl, ih _ _⟩
  | emit y rest ih =>
    rw [diary_emit]
    rcases hv : r.visit x y with ⟨_ | f, z⟩
    · exact ⟨rfl, hv, ih z⟩
    · exact ⟨rfl, hv, rfl⟩

variable {r} {x y : σ} {ms : List (Moment σ Out)}

/-- Moments of two lists in turn. -/
theorem follows_append {more : List (Moment σ Out)} :
    r.Follows x (ms ++ more) y ↔ ∃ z, r.Follows x ms z ∧ r.Follows z more y := by
  induction ms generalizing x with
  | nil => exact ⟨fun h => ⟨x, rfl, h⟩, fun ⟨_, hz, h⟩ => hz ▸ h⟩
  | cons m ms ih =>
    constructor
    · rintro ⟨hb, hs, h⟩
      obtain ⟨z, hz, hmore⟩ := ih.1 h
      exact ⟨z, ⟨hb, hs, hz⟩, hmore⟩
    · rintro ⟨z, ⟨hb, hs, hz⟩, hmore⟩
      exact ⟨hb, hs, ih.2 ⟨z, hz, hmore⟩⟩

/-- **A token that stays cancelled**, whatever a store or a visitor does. -/
def Sticky (r : Runner σ Out) : Prop :=
  ∀ x, r.cancelled x ≠ none →
    (∀ s c, r.cancelled (r.ask x s c).2 ≠ none) ∧ ∀ out, r.cancelled (r.visit x out).2 ≠ none

/-- A moment does not take back that the token is cancelled. -/
theorem cancelled_after (hr : r.Sticky) {m : Moment σ Out} (h : r.Follows x (m :: ms) y)
    (hc : r.cancelled m.before ≠ none ∨ r.cancelled m.after ≠ none) :
    r.cancelled m.after ≠ none := by
  rcases hc with hc | hc
  · obtain ⟨hb, hs, -⟩ := h
    rw [hb] at hc
    rcases hstep : m.step with ⟨s, c, answer⟩ | ⟨out, verdict⟩
    · rw [hstep] at hs
      have hafter := (hr x hc).1 s c
      rwa [hs] at hafter
    · rw [hstep] at hs
      have hafter := (hr x hc).2 out
      rwa [hs] at hafter
  · exact hc

/-- From a cancelled state on, all moments start in one. -/
theorem cancelled_of_follows (hr : r.Sticky) (h : r.Follows x ms y) (hc : r.cancelled x ≠ none) :
    ∀ m ∈ ms, r.cancelled m.before ≠ none := by
  induction ms generalizing x with
  | nil => exact fun _ hm => absurd hm List.not_mem_nil
  | cons m ms ih =>
    have hbefore : r.cancelled m.before ≠ none := by
      rw [h.1]
      exact hc
    intro m' hm'
    rcases List.mem_cons.1 hm' with rfl | hm'
    · exact hbefore
    · exact ih h.2.2 (cancelled_after hr h (.inl hbefore)) m' hm'

end Runner

/-! ## 4. Worlds as runners -/

/-- A world that listens to a token, with a visitor that only looks. -/
def World.runner (token : Option Nat) : Runner World Out where
  ask w s c := w.ask s c
  registry w number := w.registry number
  cancelled w := w.cancelled token
  visit w _ := (none, w)

/-- **The record of a run is read off its diary.** -/
theorem World.record_eq_diary (w : World) (token : Option Nat) (t : Traversal Out α) :
    w.record token t = ⟨((World.runner token).diary w t).outcome,
      ((World.runner token).diary w t).moments.filterMap (fun m => m.step.handed?),
      ((World.runner token).diary w t).state⟩ := by
  induction t generalizing w with
  | done a => rfl
  | fail f => rfl
  | spent => rfl
  | check next ih =>
    have hcancelled : (World.runner token : Runner World Out).cancelled w = w.cancelled token := rfl
    rw [record_check, Runner.diary_check, hcancelled]
    cases w.cancelled token with
    | none => exact ih w
    | some reason => rfl
  | routes number next ih => exact ih (w.registry number) w
  | ask s c next ih =>
    rw [record_ask, Runner.diary_ask]
    exact ih (w.ask s c).1 (w.ask s c).2
  | emit y rest ih =>
    rw [record_emit, Runner.diary_emit, ih]
    rfl

end Arboretum
