import Arboretum.Proofs.Traversal.Diary

/-!
# Going on after a pause

An iterator stands still at everything that it hands out, and its caller may do what he likes before
he asks for more.  `Runner.next` is what one such request brings, and `Runner.Suspended` says where
an iterator stands after some of them, whatever happened in between.

What an iterator does first when it goes on can be read off its program.  A program **resumes with
a question** if, wherever it has handed something out, it is over or goes on with a check and a call
(`Traversal.Resumes`).  Such an iterator, resumed with a cancelled token, fails where it would have
asked a store, and ends like any other where it is over (`Runner.Suspended.of_cancelled`).
-/

namespace Arboretum

variable {σ Out α β : Type}

/-! ## 1. Requests -/

/-- What one request for more brings: how far the program came, the moments on the way, and the
state after them. -/
structure Stretch (σ Out α : Type) where
  progress : Traversal.Progress Out α
  moments : List (Moment σ Out)
  state : σ

/-- The calls made on the way. -/
def Stretch.calls (l : Stretch σ Out α) : List (Store × Call) :=
  l.moments.filterMap fun m => m.step.call?

namespace Runner

variable (r : Runner σ Out)

/-- **Asking for the next thing** that a program hands out. -/
def next (x : σ) (t : Traversal Out α) : Stretch σ Out α :=
  let (progress, notes, y) := t.advance r.surroundings ([], x)
  ⟨progress, notes.reverse, y⟩

/-- **Where an iterator stands** after it has handed out a number of things; the state at each
request is any one. -/
inductive Suspended (t : Traversal Out α) : Nat → Traversal Out α → Prop
  | fresh : Suspended t 0 t
  | paused {number : Nat} {now rest : Traversal Out α} {x : σ} {out : Out} :
      Suspended t number now → (r.next x now).progress = .paused out rest →
        Suspended t (number + 1) rest

/-- The runner with a token that nobody cancels. -/
def heedless : Runner σ Out := { r with cancelled := fun _ => none }

theorem advance_check (next : Traversal Out α) (notes : List (Moment σ Out)) (x : σ) :
    (Traversal.check next).advance r.surroundings (notes, x) = match r.cancelled x with
      | some reason => (.failed (.cancelled reason), notes, x)
      | none => next.advance r.surroundings (notes, x) := by
  have hstep : (Traversal.check next).advance r.surroundings (notes, x) =
      (match r.cancelled x with
        | some reason => pure (.failed (.cancelled reason))
        | none => next.advance r.surroundings : StateM (List (Moment σ Out) × σ) _)
        (notes, x) := rfl
  rw [hstep]
  cases r.cancelled x <;> rfl

theorem next_check (x : σ) (t : Traversal Out α) :
    r.next x (.check t) = match r.cancelled x with
      | some reason => ⟨.failed (.cancelled reason), [], x⟩
      | none => r.next x t := by
  unfold next
  rw [advance_check]
  cases r.cancelled x <;> rfl

/-- Notes taken before stay below the new ones. -/
theorem exists_notes_advance (t : Traversal Out α) (notes : List (Moment σ Out)) (x : σ) :
    ∃ more, (t.advance r.surroundings (notes, x)).2.1 = more ++ notes := by
  induction t generalizing notes x with
  | done a => exact ⟨[], rfl⟩
  | fail f => exact ⟨[], rfl⟩
  | spent => exact ⟨[], rfl⟩
  | emit y rest ih => exact ⟨[], rfl⟩
  | routes number next ih => exact ih (r.registry x number) notes x
  | check next ih =>
    rw [advance_check]
    cases r.cancelled x with
    | none => exact ih notes x
    | some reason => exact ⟨[], rfl⟩
  | ask s c next ih =>
    obtain ⟨more, hmore⟩ := ih (r.ask x s c).1
      (⟨x, .asked s c (r.ask x s c).1, (r.ask x s c).2⟩ :: notes) (r.ask x s c).2
    exact ⟨more ++ [_], hmore.trans (List.append_assoc more [_] notes).symm⟩

/-- A request that comes to a call makes it first. -/
theorem head?_calls_next_ask (x : σ) (s : Store) (c : Call)
    (next : Except Fault c.Answer → Traversal Out α) :
    (r.next x (.ask s c next)).calls.head? = some (s, c) := by
  obtain ⟨more, hmore⟩ := r.exists_notes_advance (next (r.ask x s c).1)
    [⟨x, .asked s c (r.ask x s c).1, (r.ask x s c).2⟩] (r.ask x s c).2
  have hmoments : (r.next x (.ask s c next)).moments = (more ++ [_]).reverse :=
    congrArg List.reverse hmore
  rw [Stretch.calls, hmoments, List.reverse_append]
  rfl

end Runner

/-! ## 2. Programs that resume with a question -/

namespace Traversal

/-- The program is over, or goes on with a check and a call. -/
def AsksOrEnds (t : Traversal Out α) : Prop :=
  (∃ a, t = .done a) ∨ ∃ s c next, t = .check (.ask s c next)

/-- **The program resumes with a question**: after everything that it hands out, it is over or goes
on with a check and a call. -/
def Resumes : Traversal Out α → Prop
  | .done _ => True
  | .fail _ => True
  | .spent => True
  | .check next => Resumes next
  | .routes _ next => ∀ g, Resumes (next g)
  | .ask _ _ next => ∀ answer, Resumes (next answer)
  | .emit _ next => AsksOrEnds next ∧ Resumes next

/-- The program hands nothing out. -/
def HandsNothing : Traversal Out α → Prop
  | .done _ => True
  | .fail _ => True
  | .spent => True
  | .check next => HandsNothing next
  | .routes _ next => ∀ g, HandsNothing (next g)
  | .ask _ _ next => ∀ answer, HandsNothing (next answer)
  | .emit _ _ => False

theorem asksOrEnds_done (a : α) : (done a : Traversal Out α).AsksOrEnds := .inl ⟨a, rfl⟩

theorem asksOrEnds_call_bind (s : Store) (path : String) (c : Call)
    (f : c.Answer → Traversal Out α) : ((call s path c).bind f).AsksOrEnds :=
  .inr ⟨s, c, _, rfl⟩

theorem AsksOrEnds.bind {t : Traversal Out α} (h : t.AsksOrEnds) {f : α → Traversal Out β}
    (hf : ∀ a, (f a).AsksOrEnds) : (t.bind f).AsksOrEnds := by
  rcases h with ⟨a, rfl⟩ | ⟨s, c, next, rfl⟩
  · exact hf a
  · exact .inr ⟨s, c, _, rfl⟩

/-- **Programs one after the other** resume with a question where the second one starts with one,
-/
theorem Resumes.bind {t : Traversal Out α} (h : t.Resumes) {f : α → Traversal Out β}
    (hstart : ∀ a, (f a).AsksOrEnds) (hf : ∀ a, (f a).Resumes) : (t.bind f).Resumes := by
  induction t with
  | done a => exact hf a
  | fail fault => exact trivial
  | spent => exact trivial
  | check next ih => exact ih h
  | routes number next ih => exact fun g => ih g (h g)
  | ask s c next ih => exact fun answer => ih answer (h answer)
  | emit x next ih => exact ⟨h.1.bind hstart, ih h.2⟩

/-- or where the first one hands nothing out. -/
theorem HandsNothing.resumes_bind {t : Traversal Out α} (h : t.HandsNothing)
    {f : α → Traversal Out β} (hf : ∀ a, (f a).Resumes) : (t.bind f).Resumes := by
  induction t with
  | done a => exact hf a
  | fail fault => exact trivial
  | spent => exact trivial
  | check next ih => exact ih h
  | routes number next ih => exact fun g => ih g (h g)
  | ask s c next ih => exact fun answer => ih answer (h answer)
  | emit x next ih => exact h.elim

theorem HandsNothing.bind {t : Traversal Out α} (h : t.HandsNothing) {f : α → Traversal Out β}
    (hf : ∀ a, (f a).HandsNothing) : (t.bind f).HandsNothing := by
  induction t with
  | done a => exact hf a
  | fail fault => exact trivial
  | spent => exact trivial
  | check next ih => exact ih h
  | routes number next ih => exact fun g => ih g (h g)
  | ask s c next ih => exact fun answer => ih answer (h answer)
  | emit x next ih => exact h.elim

/-- Steps in turn that each start with a question, if they do anything. -/
theorem resumes_forEach {f : β → Traversal Out Unit} (xs : List β)
    (h : ∀ x, (f x).AsksOrEnds ∧ (f x).Resumes) :
    (forEach f xs).AsksOrEnds ∧ (forEach f xs).Resumes := by
  induction xs with
  | nil => exact ⟨asksOrEnds_done (), trivial⟩
  | cons x xs ih =>
    exact ⟨(h x).1.bind fun _ => ih.1, (h x).2.bind (fun _ => ih.1) fun _ => ih.2⟩

theorem handsNothing_checked : (checked : Traversal Out Unit).HandsNothing := trivial

theorem handsNothing_call (s : Store) (path : String) (c : Call) :
    (call s path c : Traversal Out c.Answer).HandsNothing := by
  rintro (f | a) <;> exact trivial

/-- What comes after something handed out, in a program that resumes with a question. -/
theorem Resumes.of_paused {t rest : Traversal Out α} (h : t.Resumes) {r : Runner σ Out}
    {notes : List (Moment σ Out)} {x : σ} {out : Out}
    (hpaused : (t.advance r.surroundings (notes, x)).1 = .paused out rest) :
    rest.AsksOrEnds ∧ rest.Resumes := by
  induction t generalizing notes x with
  | done a => cases hpaused
  | fail f => cases hpaused
  | spent => cases hpaused
  | emit y next ih =>
    cases hpaused
    exact h
  | routes number next ih => exact ih _ (h _) hpaused
  | ask s c next ih => exact ih _ (h _) hpaused
  | check next ih =>
    rw [Runner.advance_check] at hpaused
    cases hc : r.cancelled x with
    | none =>
      rw [hc] at hpaused
      exact ih h hpaused
    | some reason =>
      rw [hc] at hpaused
      cases hpaused

end Traversal

/-! ## 3. Iterators that are cancelled while they stand still -/

namespace Runner

variable {r : Runner σ Out} {t rest : Traversal Out α}

/-- Wherever such an iterator stands, it resumes with a question. -/
theorem Suspended.resumes (h : t.Resumes) {number : Nat} (hs : r.Suspended t number rest) :
    rest.Resumes ∧ (number ≠ 0 → rest.AsksOrEnds) := by
  induction hs with
  | fresh => exact ⟨h, fun h => absurd rfl h⟩
  | paused _ hpaused ih =>
    obtain ⟨hstart, hrest⟩ := ih.1.of_paused hpaused
    exact ⟨hrest, fun _ => hstart⟩

/-- **An iterator that is cancelled while it stands still** at something handed out: where it would
have asked a store next, it fails and asks nothing; else it was over, and ends as if nothing had
happened. -/
theorem Suspended.of_cancelled (h : t.Resumes) {number : Nat}
    (hs : r.Suspended t (number + 1) rest) {x : σ} {reason : String}
    (hc : r.cancelled x = some reason) :
    ((r.heedless.next x rest).calls ≠ [] ∧
      r.next x rest = ⟨.failed (.cancelled reason), [], x⟩) ∨
    ∃ a, r.heedless.next x rest = ⟨.finished a, [], x⟩ ∧ r.next x rest = ⟨.finished a, [], x⟩ := by
  rcases (hs.resumes h).2 number.succ_ne_zero with ⟨a, rfl⟩ | ⟨s, c, next, rfl⟩
  · exact .inr ⟨a, rfl, rfl⟩
  · refine .inl ⟨fun hnil => ?_, ?_⟩
    · have hasked : (r.heedless.next x (.check (.ask s c next))).calls.head? = some (s, c) :=
        r.heedless.head?_calls_next_ask x s c next
      rw [hnil] at hasked
      cases hasked
    · rw [next_check, hc]

end Runner

end Arboretum
