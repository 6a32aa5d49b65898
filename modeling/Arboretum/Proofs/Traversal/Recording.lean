import Arboretum.World

/-!
# What a run leaves behind

A run that ends with a fault has handed out things before; `World.run` does not say which.  The
**record** of a run does: it is the same run with a visitor that notes everything down
(`run_eq_of_record`).  A record goes through the program step by step, and the record of two
programs in turn is made of the records of both (`record_bind`).

Two programs are `Same` when no world tells them apart.
-/

namespace Arboretum

/-- What a run leaves behind: how it ended, everything it handed out, and the world after it. -/
structure Record (Out α : Type) where
  outcome : Traversal.Outcome α
  found : List Out
  world : World

variable {Out α β : Type}

/-- The record with things that were handed out before. -/
def Record.behind (found : List Out) (r : Record Out α) : Record Out α :=
  { r with found := found ++ r.found }

theorem Record.behind_nil (r : Record Out α) : r.behind [] = r := rfl

theorem Record.behind_behind (found more : List Out) (r : Record Out α) :
    (r.behind more).behind found = r.behind (found ++ more) :=
  congrArg (fun xs => Record.mk r.outcome xs r.world) (List.append_assoc found more r.found).symm

/-- The record goes on with the result, unless it ended otherwise. -/
def Record.andThen (r : Record Out α) (next : World → α → Record Out β) : Record Out β :=
  match r.outcome with
  | .finished a => (next r.world a).behind r.found
  | .failed f => ⟨.failed f, r.found, r.world⟩
  | .spent => ⟨.spent, r.found, r.world⟩

theorem Record.behind_andThen (found : List Out) (r : Record Out α)
    (next : World → α → Record Out β) :
    (r.behind found).andThen next = (r.andThen next).behind found := by
  unfold andThen behind
  cases r.outcome with
  | finished a => exact (behind_behind found r.found _).symm
  | failed f => rfl
  | spent => rfl

namespace World

/-! ## 1. Records -/

/-- The surroundings of a run with a list of notes, the latest first. -/
def notedSurroundings (token : Option Nat) : Traversal.Surroundings (StateM (List Out × World)) where
  ask s c := fun (notes, w) => ((w.ask s c).1, (notes, (w.ask s c).2))
  registry number := fun (notes, w) => (w.registry number, (notes, w))
  cancelled := fun (notes, w) => (w.cancelled token, (notes, w))

/-- The visitor that notes everything down. -/
def note (x : Out) : StateM (List Out × World) (Option Fault) :=
  fun (notes, w) => (none, (x :: notes, w))

/-- The run with notes. -/
def noted (w : World) (token : Option Nat) (notes : List Out) (t : Traversal Out α) :
    Traversal.Outcome α × List Out × World :=
  Traversal.run (notedSurroundings token) note t (notes, w)

/-- **The record of a run in a world.** -/
def record (w : World) (token : Option Nat) (t : Traversal Out α) : Record Out α :=
  let (outcome, notes, w) := w.noted token [] t
  ⟨outcome, notes.reverse, w⟩

variable (w : World) (token : Option Nat)

theorem noted_check (notes : List Out) (next : Traversal Out α) :
    w.noted token notes (.check next) = match w.cancelled token with
      | some reason => (.failed (.cancelled reason), notes, w)
      | none => w.noted token notes next := by
  have hstep : w.noted token notes (.check next) =
      (match w.cancelled token with
        | some reason => pure (.failed (.cancelled reason))
        | none => next.run (notedSurroundings token) note : StateM (List Out × World) _)
        (notes, w) := rfl
  rw [hstep]
  cases w.cancelled token <;> rfl

/-- Older notes stay below the new ones. -/
theorem noted_append (notes : List Out) (t : Traversal Out α) :
    w.noted token notes t = ((w.noted token [] t).1, (w.noted token [] t).2.1 ++ notes,
      (w.noted token [] t).2.2) := by
  induction t generalizing w notes with
  | done a => rfl
  | fail f => rfl
  | spent => rfl
  | check next ih =>
    rw [noted_check, noted_check]
    cases w.cancelled token with
    | none => exact ih w notes
    | some reason => rfl
  | routes number next ih => exact ih (w.registry number) w notes
  | ask s c next ih => exact ih (w.ask s c).1 (w.ask s c).2 notes
  | emit x rest ih =>
    have hstep : ∀ notes, w.noted token notes (.emit x rest) = w.noted token (x :: notes) rest :=
      fun _ => rfl
    have hall := ih w (x :: notes)
    have hone := ih w [x]
    rw [hstep, hstep, hall, hone, List.append_assoc]
    rfl

theorem record_done (a : α) : w.record token (.done a : Traversal Out α) = ⟨.finished a, [], w⟩ :=
  rfl

theorem record_check (next : Traversal Out α) :
    w.record token (.check next) = match w.cancelled token with
      | some reason => ⟨.failed (.cancelled reason), [], w⟩
      | none => w.record token next := by
  unfold record
  rw [noted_check]
  cases w.cancelled token <;> rfl

theorem record_routes (number : Nat) (next : Registry → Traversal Out α) :
    w.record token (.routes number next) = w.record token (next (w.registry number)) := rfl

theorem record_ask (s : Store) (c : Call) (next : Except Fault c.Answer → Traversal Out α) :
    w.record token (.ask s c next) = (w.ask s c).2.record token (next (w.ask s c).1) := rfl

theorem record_emit (x : Out) (rest : Traversal Out α) :
    w.record token (.emit x rest) = (w.record token rest).behind [x] := by
  have hstep : w.noted token [] (.emit x rest) = w.noted token [x] rest := rfl
  unfold record
  rw [hstep, noted_append w token [x] rest]
  show Record.mk _ (_ ++ [x]).reverse _ = _
  rw [List.reverse_append]
  rfl

/-- **The record of two programs in turn.** -/
theorem record_bind (t : Traversal Out α) (f : α → Traversal Out β) :
    w.record token (t.bind f) = (w.record token t).andThen fun w a => w.record token (f a) := by
  induction t generalizing w with
  | done a => rfl
  | fail f => rfl
  | spent => rfl
  | check next ih =>
    rw [Traversal.bind, record_check, record_check]
    cases w.cancelled token with
    | none => exact ih w
    | some reason => rfl
  | routes number next ih => exact ih (w.registry number) w
  | ask s c next ih => exact ih (w.ask s c).1 (w.ask s c).2
  | emit x rest ih =>
    rw [Traversal.bind, record_emit, record_emit, ih w, Record.behind_andThen]

/-- The steps of a program that ends well. -/
theorem record_bind_of_finished {t : Traversal Out α} {a : α} {found : List Out} {w' : World}
    (h : w.record token t = ⟨.finished a, found, w'⟩) (f : α → Traversal Out β) :
    w.record token (t.bind f) = (w'.record token (f a)).behind found := by
  rw [record_bind, h]
  rfl

/-- **A call of a run**: nothing once it is cancelled; else the answer, or the fault as a run
reports it. -/
theorem record_call (s : Store) (path : String) (c : Call) (next : c.Answer → Traversal Out β) :
    w.record token ((Traversal.call s path c).bind next) = match w.cancelled token with
      | some reason => ⟨.failed (.cancelled reason), [], w⟩
      | none => match (w.ask s c).1 with
        | .ok a => (w.ask s c).2.record token (next a)
        | .error f => ⟨.failed (f.reported c.operation s path), [], (w.ask s c).2⟩ := by
  have hcall : (Traversal.call s path c).bind next = .check (.ask s c fun answer =>
      (match answer with
        | .ok a => .done a
        | .error f => .fail (f.reported c.operation s path) : Traversal Out c.Answer).bind next) := rfl
  rw [hcall, record_check]
  cases w.cancelled token with
  | some reason => rfl
  | none =>
    dsimp only
    rw [record_ask]
    cases (w.ask s c).1 with
    | ok a => rfl
    | error f => rfl

theorem record_checked (next : Unit → Traversal Out β) :
    w.record token (Traversal.checked.bind next) = match w.cancelled token with
      | some reason => ⟨.failed (.cancelled reason), [], w⟩
      | none => w.record token (next ()) := w.record_check token (next ())

/-- **The record says what the run says**: everything that was handed out, and how it ended. -/
theorem run_eq_of_record (t : Traversal Out α) :
    w.run token t = match w.record token t with
      | ⟨.finished a, found, w'⟩ => (.finished (found, a), w')
      | ⟨.failed f, _, w'⟩ => (.failed f, w')
      | ⟨.spent, _, w'⟩ => (.spent, w') := by
  have hgather : ∀ (w : World) (notes : List Out),
      Traversal.run (surroundings token) (fun _ => pure none)
          (Traversal.gather notes t : Traversal Empty (List Out × α)) w =
        match w.noted token notes t with
        | (.finished a, notes, w') => (.finished (notes, a), w')
        | (.failed f, _, w') => (.failed f, w')
        | (.spent, _, w') => (.spent, w') := by
    induction t with
    | done a => exact fun _ _ => rfl
    | fail f => exact fun _ _ => rfl
    | spent => exact fun _ _ => rfl
    | check next ih =>
      intro w notes
      have hstep : Traversal.run (surroundings token) (fun _ => pure none)
          (Traversal.gather notes (.check next) : Traversal Empty (List Out × α)) w =
          (match w.cancelled token with
            | some reason => pure (.failed (.cancelled reason))
            | none => (Traversal.gather notes next).run (surroundings token) fun _ => pure none :
            StateM World _) w := rfl
      rw [hstep, noted_check]
      cases w.cancelled token with
      | none => exact ih w notes
      | some reason => rfl
    | routes number next ih => exact fun w notes => ih (w.registry number) w notes
    | ask s c next ih => exact fun w notes => ih (w.ask s c).1 (w.ask s c).2 notes
    | emit x rest ih => exact fun w notes => ih w (x :: notes)
  unfold run run.gathered record
  rw [hgather]
  rcases w.noted token [] t with ⟨_ | _ | _, notes, w'⟩ <;> rfl

end World

/-! ## 2. Programs that no world tells apart -/

namespace Traversal

/-- **No world tells the two programs apart**: their records agree. -/
def Same (t u : Traversal Out α) : Prop :=
  ∀ (w : World) (token : Option Nat), w.record token t = w.record token u

theorem Same.refl (t : Traversal Out α) : Same t t := fun _ _ => rfl

theorem Same.trans {t u v : Traversal Out α} (h : Same t u) (h' : Same u v) : Same t v :=
  fun w token => (h w token).trans (h' w token)

/-- Going on alike from the same program. -/
theorem Same.bind (t : Traversal Out α) {f g : α → Traversal Out β} (h : ∀ a, Same (f a) (g a)) :
    Same (t.bind f) (t.bind g) := by
  intro w token
  have hnext : (fun (w : World) a => w.record token (f a)) = fun w a => w.record token (g a) :=
    funext fun w => funext fun a => h a w token
  rw [World.record_bind, World.record_bind, hnext]

/-- Programs that are alike, one after the other. -/
theorem Same.forEach {f g : β → Traversal Out Unit} (h : ∀ x, Same (f x) (g x)) (xs : List β) :
    Same (forEach f xs) (forEach g xs) := by
  induction xs with
  | nil => exact Same.refl _
  | cons x xs ih =>
    intro w token
    have hnext : (fun (w : World) (_ : Unit) => w.record token (Traversal.forEach f xs)) =
        fun w _ => w.record token (Traversal.forEach g xs) :=
      funext fun w => funext fun _ => ih w token
    unfold Traversal.forEach
    rw [World.record_bind, World.record_bind, h x w token, hnext]

/-- What does nothing may be left out. -/
theorem forEach_filter {f : β → Traversal Out Unit} {p : β → Bool}
    (h : ∀ x, p x = false → f x = .done ()) (xs : List β) :
    forEach f (xs.filter p) = forEach f xs := by
  induction xs with
  | nil => rfl
  | cons x xs ih =>
    cases hx : p x with
    | true =>
      rw [List.filter_cons_of_pos hx, forEach, forEach, ih]
    | false =>
      have hneg : ¬ p x = true := by rw [hx]; exact Bool.false_ne_true
      rw [List.filter_cons_of_neg hneg, forEach, h x hx, ih]
      rfl

end Traversal

end Arboretum
