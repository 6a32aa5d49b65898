import Arboretum.Proofs.Traversal.Steps

/-!
# What a run asks

A record says what a run handed out, but not which calls it made on the way.  The **revealed**
program hands out every call too, just before it makes it; leaving the calls out of its record gives
the record of the program (`record_of_revealed`).  So a statement about the calls of a run is one
about the events of the revealed program.
-/

namespace Arboretum

/-- What a run does that shows from outside: it hands something out, or it asks a store. -/
inductive Event (Out : Type) where
  | handed (x : Out)
  | asked (store : Store) (call : Call)

namespace Event

variable {Out : Type}

/-- What was handed out. -/
def handed? : Event Out → Option Out
  | .handed x => some x
  | .asked _ _ => none

/-- The store and the path of a stat. -/
def stat? : Event Out → Option (Store × String)
  | .asked s (.stat path) => some (s, path)
  | _ => none

/-- The store and the path of a listing. -/
def list? : Event Out → Option (Store × String)
  | .asked s (.list path _) => some (s, path)
  | _ => none

end Event

namespace Traversal

variable {Out α β γ : Type}

/-- **The program that hands out its calls as well.** -/
def revealed : Traversal Out α → Traversal (Event Out) α
  | .done a => .done a
  | .fail f => .fail f
  | .spent => .spent
  | .check next => .check next.revealed
  | .routes registry next => .routes registry fun g => (next g).revealed
  | .ask s c next => .emit (.asked s c) (.ask s c fun answer => (next answer).revealed)
  | .emit x next => .emit (.handed x) next.revealed

/-- Revealing goes through programs one after the other. -/
theorem revealed_bind (t : Traversal Out α) (f : α → Traversal Out β) :
    (t.bind f).revealed = t.revealed.bind fun a => (f a).revealed := by
  induction t with
  | done a => rfl
  | fail f => rfl
  | spent => rfl
  | check next ih => exact congrArg _ ih
  | routes registry next ih => exact congrArg _ (funext ih)
  | ask s c next ih => exact congrArg (Traversal.emit _ ∘ Traversal.ask s c) (funext ih)
  | emit x next ih => exact congrArg _ ih

theorem revealed_forEachCollect (f : β → Traversal Out γ) (xs : List β) :
    (forEachCollect f xs).revealed = forEachCollect (fun x => (f x).revealed) xs := by
  induction xs with
  | nil => rfl
  | cons x xs ih =>
    simp only [forEachCollect, revealed_bind, ih]
    rfl

end Traversal

namespace World

variable {Out α β γ : Type} {w w' : World} {token : Option Nat}

/-- **A record is the record of the revealed program without the calls.** -/
theorem record_of_revealed (w : World) (token : Option Nat) (t : Traversal Out α) :
    w.record token t = ⟨(w.record token t.revealed).outcome,
      (w.record token t.revealed).found.filterMap Event.handed?,
      (w.record token t.revealed).world⟩ := by
  induction t generalizing w with
  | done a => rfl
  | fail f => rfl
  | spent => rfl
  | check next ih =>
    rw [Traversal.revealed, record_check, record_check]
    cases w.cancelled token with
    | none => exact ih w
    | some reason => rfl
  | routes number next ih => exact ih (w.registry number) w
  | ask s c next ih =>
    rw [Traversal.revealed, record_emit, record_ask, record_ask, ih]
    rfl
  | emit x next ih =>
    rw [Traversal.revealed, record_emit, record_emit, ih]
    rfl

/-- **The story of a run**: the record of everything that it does. -/
def story (w : World) (token : Option Nat) (t : Traversal Out α) : Record (Event Out) α :=
  w.record token t.revealed

theorem story_done (a : α) : w.story token (.done a : Traversal Out α) = ⟨.finished a, [], w⟩ := rfl

theorem story_emit (x : Out) (rest : Traversal Out α) :
    w.story token (.emit x rest) = (w.story token rest).behind [.handed x] :=
  w.record_emit token (Event.handed x) rest.revealed

/-- The steps of a program that ends well. -/
theorem story_bind_of_finished {t : Traversal Out α} {a : α} {events : List (Event Out)}
    (h : w.story token t = ⟨.finished a, events, w'⟩) (f : α → Traversal Out β) :
    w.story token (t.bind f) = (w'.story token (f a)).behind events := by
  unfold story
  rw [Traversal.revealed_bind]
  exact record_bind_of_finished w token h _

/-- A call that is answered. -/
theorem story_call_of_ok (hc : w.cancelled token = none) {s : Store} {path : String} {c : Call}
    {a : c.Answer} (h : w.ask s c = (.ok a, w')) (next : c.Answer → Traversal Out β) :
    w.story token ((Traversal.call s path c).bind next) =
      (w'.story token (next a)).behind [.asked s c] := by
  have hcall : w.story token (Traversal.call s path c : Traversal Out c.Answer) =
      ⟨.finished a, [.asked s c], w'⟩ := by
    change w.record token (.check (.emit (Event.asked s c) (.ask s c _))) = _
    rw [record_check, hc]
    dsimp only
    rw [record_emit, record_ask, h]
    rfl
  exact story_bind_of_finished hcall next

/-- Going on after a check. -/
theorem story_checked_of_none (hc : w.cancelled token = none) (next : Unit → Traversal Out β) :
    w.story token (Traversal.checked.bind next) = w.story token (next ()) := by
  unfold story
  rw [Traversal.revealed_bind]
  exact record_checked_of_none hc _

/-- A listing that is answered. -/
theorem story_all_of_ok (hc : w.cancelled token = none) {s : Store} {path : String}
    {entries : List Entry} (h : w.ask s (.list path []) = (.ok entries, w))
    (next : List Entry → Traversal Out β) :
    w.story token ((Listing.all s path []).bind next) =
      (w.story token (next entries)).behind [.asked s (.list path [])] := by
  have hall : (Listing.all s path [] : Traversal Out _).bind next =
      (Traversal.call s path (.list path [])).bind fun entries =>
        Traversal.checked.bind fun _ => next entries :=
    Traversal.bind_assoc _ _ _
  rw [hall, story_call_of_ok hc h, story_checked_of_none hc]

/-- Steps in turn that end well and leave the world as it was. -/
theorem story_forEachCollect {f : β → Traversal Out γ} {value : β → γ}
    {events : β → List (Event Out)} {xs : List β}
    (h : ∀ x ∈ xs, w.story token (f x) = ⟨.finished (value x), events x, w⟩) :
    w.story token (Traversal.forEachCollect f xs) =
      ⟨.finished (xs.map value), xs.flatMap events, w⟩ := by
  unfold story
  rw [Traversal.revealed_forEachCollect]
  exact record_forEachCollect h

end World

end Arboretum
