import Arboretum.Proofs.Traversal.Diary

/-!
# Taking some of what a run hands out

Nobody has to run a program to its end: a caller may take a few of the things that it hands out,
and leave the rest of the program where it stands.  When the answers depend on nothing but the
questions (`Answers`), what such a caller sees is the beginning of what the full run shows: the
calls made until then are the first calls of the full run (`calls_take_prefix`), the things taken
are the first ones that it hands out (`found_take`), and a consumer who leaves at one of them makes
no call more (`calls_leaving`).

All of it comes from one equation: what `advance` does up to the next thing handed out is what the
diary of a full run begins with (`diary_consumer`).
-/

namespace Arboretum

/-- **Answers that depend on nothing but the question.** -/
structure Answers where
  /-- the answer of a store -/
  ask : Store → (c : Call) → Except Fault c.Answer
  /-- a registry by its number -/
  registry : Nat → Registry
  /-- the reason why every run is cancelled, if there is one -/
  cancelled : Option String

/-- What a caller has got from a run: the calls made until then, and the things handed out. -/
structure Taken (Out : Type) where
  calls : List (Store × Call)
  found : List Out

variable {σ Out α : Type}

/-- What a run hands out, in order. -/
def Diary.found (d : Diary σ Out α) : List Out := d.moments.filterMap fun m => m.step.handed?

theorem Diary.found_behind (moments : List (Moment σ Out)) (d : Diary σ Out α) :
    (d.behind moments).found = moments.filterMap (fun m => m.step.handed?) ++ d.found :=
  List.filterMap_append

namespace Answers

variable (a : Answers)

/-! ## 1. One step after the other -/

/-- The surroundings that give these answers, and note the calls. -/
def surroundings : Traversal.Surroundings (StateM (List (Store × Call))) where
  ask s c := fun calls => (a.ask s c, calls ++ [(s, c)])
  registry number := fun calls => (a.registry number, calls)
  cancelled := fun calls => (a.cancelled, calls)

/-- **Going on to the next thing handed out**: how far the program comes, and the calls on the
way. -/
def resume (t : Traversal Out α) : Traversal.Progress Out α × List (Store × Call) :=
  t.advance a.surroundings []

/-- **Taking a number of things**, one after the other. -/
def take : Nat → Traversal Out α → Taken Out
  | 0, _ => ⟨[], []⟩
  | k + 1, t =>
    match a.resume t with
    | (.paused x rest, calls) => ⟨calls ++ (take k rest).calls, x :: (take k rest).found⟩
    | (_, calls) => ⟨calls, []⟩

theorem advance_check (next : Traversal Out α) (calls : List (Store × Call)) :
    (Traversal.check next).advance a.surroundings calls =
      a.cancelled.elim (next.advance a.surroundings calls)
        fun reason => (.failed (.cancelled reason), calls) := by
  rcases a with ⟨ask, registry, _ | reason⟩ <;> rfl

/-- Calls noted before stay in front. -/
theorem advance_append (calls : List (Store × Call)) (t : Traversal Out α) :
    t.advance a.surroundings calls = ((a.resume t).1, calls ++ (a.resume t).2) := by
  unfold resume
  induction t generalizing calls with
  | done b => exact congrArg _ (List.append_nil calls).symm
  | fail f => exact congrArg _ (List.append_nil calls).symm
  | spent => exact congrArg _ (List.append_nil calls).symm
  | emit x rest => exact congrArg _ (List.append_nil calls).symm
  | routes number next ih => exact ih (a.registry number) calls
  | check next ih =>
    rw [advance_check, advance_check]
    cases a.cancelled with
    | none => exact ih calls
    | some reason => exact congrArg _ (List.append_nil calls).symm
  | ask s c next ih =>
    have hstep : ∀ calls, (Traversal.ask s c next).advance a.surroundings calls =
        (next (a.ask s c)).advance a.surroundings (calls ++ [(s, c)]) := fun _ => rfl
    rw [hstep, hstep, ih, ih _ ([] ++ [(s, c)]), List.append_assoc]
    rfl

theorem resume_check (next : Traversal Out α) :
    a.resume (.check next) =
      a.cancelled.elim (a.resume next) fun reason => (.failed (.cancelled reason), []) :=
  a.advance_check next []

theorem resume_ask (s : Store) (c : Call) (next : Except Fault c.Answer → Traversal Out α) :
    a.resume (.ask s c next) =
      ((a.resume (next (a.ask s c))).1, (s, c) :: (a.resume (next (a.ask s c))).2) :=
  a.advance_append [(s, c)] (next (a.ask s c))

/-! ## 2. Consumers -/

/-- **A consumer** who gets these answers and sees everything that is handed out. -/
def consumer (visit : σ → Out → Option Fault × σ) : Runner σ Out where
  ask x s c := (a.ask s c, x)
  registry _ := a.registry
  cancelled _ := a.cancelled
  visit := visit

/-- The full run: everything is taken. -/
def full (t : Traversal Out α) : Diary Unit Out α := (a.consumer fun _ _ => (none, ())).diary () t

/-- The run of a consumer who takes some things and leaves at the one after, in a way of his
own. -/
def leaving (f : Fault) (k : Nat) (t : Traversal Out α) : Diary Nat Out α :=
  (a.consumer fun
    | 0, _ => (some f, 0)
    | k + 1, _ => (none, k)).diary k t

/-- The moments of calls that leave the consumer alone. -/
def asked (x : σ) (calls : List (Store × Call)) : List (Moment σ Out) :=
  calls.map fun (s, c) => ⟨x, .asked s c (a.ask s c), x⟩

theorem filterMap_call_asked (x : σ) (calls : List (Store × Call)) :
    (a.asked x calls : List (Moment σ Out)).filterMap (fun m => m.step.call?) = calls := by
  unfold asked
  rw [List.filterMap_map]
  exact List.filterMap_some

theorem filterMap_handed_asked (x : σ) (calls : List (Store × Call)) :
    (a.asked x calls : List (Moment σ Out)).filterMap (fun m => m.step.handed?) = [] := by
  unfold asked
  rw [List.filterMap_map]
  exact List.filterMap_eq_nil_iff.2 fun _ _ => rfl

/-- **What a consumer sees up to the next thing handed out** is what going on to it brings. -/
theorem diary_consumer (visit : σ → Out → Option Fault × σ) (x : σ) (t : Traversal Out α) :
    (a.consumer visit).diary x t = match a.resume t with
      | (.finished b, calls) => ⟨.finished b, a.asked x calls, x⟩
      | (.failed f, calls) => ⟨.failed f, a.asked x calls, x⟩
      | (.spent, calls) => ⟨.spent, a.asked x calls, x⟩
      | (.paused y rest, calls) =>
        ((a.consumer visit).diary x (.emit y rest)).behind (a.asked x calls) := by
  induction t with
  | done b => rfl
  | fail f => rfl
  | spent => rfl
  | emit y rest => rfl
  | routes number next ih => exact ih (a.registry number)
  | check next ih =>
    have hcancelled : (a.consumer visit).cancelled x = a.cancelled := rfl
    rw [Runner.diary_check, resume_check, hcancelled]
    cases a.cancelled with
    | none => exact ih
    | some reason => rfl
  | ask s c next ih =>
    have hask : (a.consumer visit).ask x s c = (a.ask s c, x) := rfl
    rw [Runner.diary_ask, resume_ask, hask, ih]
    rcases a.resume (next (a.ask s c)) with ⟨_ | _ | _ | _, calls⟩ <;> rfl

section Progress

variable {t rest : Traversal Out α} {y : Out} {calls : List (Store × Call)}
  {p : Traversal.Progress Out α}

/-- A run that hands something out goes on from there, -/
theorem diary_of_paused (h : a.resume t = (.paused y rest, calls))
    (visit : σ → Out → Option Fault × σ) (x : σ) : (a.consumer visit).diary x t =
      ((a.consumer visit).diary x (.emit y rest)).behind (a.asked x calls) := by
  rw [diary_consumer, h]

/-- and one that hands nothing out is over. -/
theorem moments_of_over (h : a.resume t = (p, calls)) (hp : ¬ ∃ y rest, p = .paused y rest)
    (visit : σ → Out → Option Fault × σ) (x : σ) :
    ((a.consumer visit).diary x t).moments = a.asked x calls := by
  rw [diary_consumer, h]
  cases p with
  | paused y rest => exact absurd ⟨y, rest, rfl⟩ hp
  | _ => rfl

theorem take_of_paused (h : a.resume t = (.paused y rest, calls)) (k : Nat) :
    a.take (k + 1) t = ⟨calls ++ (a.take k rest).calls, y :: (a.take k rest).found⟩ := by
  rw [take, h]

theorem take_of_over (h : a.resume t = (p, calls)) (hp : ¬ ∃ y rest, p = .paused y rest)
    (k : Nat) : a.take (k + 1) t = ⟨calls, []⟩ := by
  rw [take, h]
  cases p with
  | paused y rest => exact absurd ⟨y, rest, rfl⟩ hp
  | _ => rfl

end Progress

/-! ## 3. The beginning of the full run -/

section Full

variable {t rest : Traversal Out α} {y : Out} {calls : List (Store × Call)}

theorem full_of_paused (h : a.resume t = (.paused y rest, calls)) :
    (a.full t).calls = calls ++ (a.full rest).calls ∧
      (a.full t).found = y :: (a.full rest).found := by
  have hfull : a.full t = ((a.full rest).behind [⟨(), .handed y none, ()⟩]).behind
      (a.asked () calls) := by
    unfold full
    rw [a.diary_of_paused h, Runner.diary_emit]
    rfl
  rw [hfull, Diary.calls_behind, Diary.calls_behind, Diary.found_behind, Diary.found_behind,
    filterMap_call_asked, filterMap_handed_asked]
  exact ⟨rfl, rfl⟩

theorem full_of_over {p : Traversal.Progress Out α} (h : a.resume t = (p, calls))
    (hp : ¬ ∃ y rest, p = .paused y rest) :
    (a.full t).calls = calls ∧ (a.full t).found = [] := by
  unfold full Diary.calls Diary.found
  rw [a.moments_of_over h hp]
  exact ⟨a.filterMap_call_asked () calls, a.filterMap_handed_asked () calls⟩

/-- A consumer who leaves looks at what is handed out first. -/
theorem leaving_of_paused (h : a.resume t = (.paused y rest, calls)) (f : Fault) (k : Nat) :
    (a.leaving f k t).calls = calls ++ match k with
      | 0 => []
      | k + 1 => (a.leaving f k rest).calls := by
  unfold leaving
  rw [a.diary_of_paused h, Runner.diary_emit, Diary.calls_behind, filterMap_call_asked]
  cases k <;> rfl

theorem leaving_of_over {p : Traversal.Progress Out α} (h : a.resume t = (p, calls))
    (hp : ¬ ∃ y rest, p = .paused y rest) (f : Fault) (k : Nat) :
    (a.leaving f k t).calls = calls := by
  unfold leaving Diary.calls
  rw [a.moments_of_over h hp, filterMap_call_asked]

end Full

/-- **The calls made until some things are taken are the first calls of the full run.** -/
theorem calls_take_prefix (k : Nat) (t : Traversal Out α) :
    (a.take k t).calls <+: (a.full t).calls := by
  induction k generalizing t with
  | zero => exact List.nil_prefix
  | succ k ih =>
    rcases h : a.resume t with ⟨p, calls⟩
    by_cases hp : ∃ y rest, p = .paused y rest
    · obtain ⟨y, rest, rfl⟩ := hp
      rw [a.take_of_paused h, (a.full_of_paused h).1]
      exact (List.prefix_append_right_inj calls).2 (ih rest)
    · have hall : (a.take (k + 1) t).calls = (a.full t).calls := by
        rw [a.take_of_over h hp, (a.full_of_over h hp).1]
      exact hall ▸ List.prefix_rfl

/-- **The things taken are the first ones of the full run.** -/
theorem found_take (k : Nat) (t : Traversal Out α) :
    (a.take k t).found = (a.full t).found.take k := by
  induction k generalizing t with
  | zero => rfl
  | succ k ih =>
    rcases h : a.resume t with ⟨p, calls⟩
    by_cases hp : ∃ y rest, p = .paused y rest
    · obtain ⟨y, rest, rfl⟩ := hp
      rw [a.take_of_paused h, (a.full_of_paused h).2, List.take_succ_cons, ih rest]
    · rw [a.take_of_over h hp, (a.full_of_over h hp).2, List.take_nil]

/-- **Who leaves at a thing handed out makes no call more** than taking it took. -/
theorem calls_leaving (f : Fault) (k : Nat) (t : Traversal Out α) :
    (a.leaving f k t).calls = (a.take (k + 1) t).calls := by
  induction k generalizing t with
  | zero =>
    rcases h : a.resume t with ⟨p, calls⟩
    by_cases hp : ∃ y rest, p = .paused y rest
    · obtain ⟨y, rest, rfl⟩ := hp
      rw [a.take_of_paused h]
      exact a.leaving_of_paused h f 0
    · rw [a.take_of_over h hp]
      exact a.leaving_of_over h hp f 0
  | succ k ih =>
    rcases h : a.resume t with ⟨p, calls⟩
    by_cases hp : ∃ y rest, p = .paused y rest
    · obtain ⟨y, rest, rfl⟩ := hp
      rw [a.take_of_paused h, ← ih rest]
      exact a.leaving_of_paused h f (k + 1)
    · rw [a.take_of_over h hp]
      exact a.leaving_of_over h hp f (k + 1)

end Answers

end Arboretum
