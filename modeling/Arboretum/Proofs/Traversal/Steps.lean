import Arboretum.Proofs.Traversal.Recording

/-!
# Steps that go well

A run that is not cancelled goes from step to step: a call that is answered leads on in the world
that it leaves (`record_call_of_ok`), steps in turn hand out what each of them hands out
(`record_forEach`), and gathering keeps what was handed out, the latest first (`record_gather`).
-/

namespace Arboretum

variable {Out Found α β γ : Type} {w w' : World} {token : Option Nat}

namespace Traversal

/-- Steps for the images of a list are steps for the list. -/
theorem forEach_map (f : β → Traversal Out Unit) (g : γ → β) (xs : List γ) :
    forEach f (xs.map g) = forEach (fun x => f (g x)) xs := by
  induction xs with
  | nil => rfl
  | cons x xs ih => rw [List.map_cons, forEach, forEach, ih]

/-- Steps for two lists in turn. -/
theorem forEach_append (f : β → Traversal Out Unit) (xs ys : List β) :
    forEach f (xs ++ ys) = (forEach f xs).bind fun _ => forEach f ys := by
  induction xs with
  | nil => rfl
  | cons x xs ih =>
    rw [List.cons_append, forEach, forEach, ih]
    exact (bind_assoc (f x) _ _).symm

end Traversal

namespace World

/-! ## 1. Calls -/

/-- The answer of a store, in a world. -/
theorem ask_of_storage {s : Store} {c : Call} {answer : Except Fault c.Answer}
    (h : w.storage.ask s c = (answer, w.storage)) : w.ask s c = (answer, w) := by
  unfold ask
  rw [h]

/-- The answer of a store that changes. -/
theorem ask_of_changed {s : Store} {c : Call} {answer : Except Fault c.Answer} {st : Storage}
    (h : w.storage.ask s c = (answer, st)) : w.ask s c = (answer, { w with storage := st }) := by
  unfold ask
  rw [h]

/-- A call that is answered. -/
theorem record_call_of_ok (hc : w.cancelled token = none) {s : Store} {path : String} {c : Call}
    {a : c.Answer} (h : w.ask s c = (.ok a, w')) (next : c.Answer → Traversal Out β) :
    w.record token ((Traversal.call s path c).bind next) = w'.record token (next a) := by
  rw [record_call, hc, h]

/-- An answer that is passed on as it is. -/
theorem record_plain_of_ok {s : Store} {c : Call} {a : c.Answer} (h : w.ask s c = (.ok a, w')) :
    w.record token (Traversal.plain s c : Traversal Out c.Answer) = ⟨.finished a, [], w'⟩ := by
  rw [Traversal.plain, record_ask, h]
  rfl

/-- Going on after a check. -/
theorem record_checked_of_none (hc : w.cancelled token = none) (next : Unit → Traversal Out β) :
    w.record token (Traversal.checked.bind next) = w.record token (next ()) := by
  rw [record_checked, hc]

/-- A listing that is answered. -/
theorem record_all_of_ok (hc : w.cancelled token = none) {s : Store} {path : String}
    {entries : List Entry} (h : w.ask s (.list path []) = (.ok entries, w))
    (next : List Entry → Traversal Out β) :
    w.record token ((Listing.all s path []).bind next) = w.record token (next entries) := by
  have hall : (Listing.all s path [] : Traversal Out _).bind next =
      (Traversal.call s path (.list path [])).bind fun entries =>
        Traversal.checked.bind fun _ => next entries :=
    Traversal.bind_assoc _ _ _
  rw [hall, record_call_of_ok hc h, record_checked_of_none hc]

/-! ## 2. Several steps -/

/-- **Steps in turn** that all end well and leave the world as it was hand out what each of them
hands out, one after the other. -/
theorem record_forEach {f : β → Traversal Out Unit} {found : β → List Out} {xs : List β}
    (h : ∀ x ∈ xs, w.record token (f x) = ⟨.finished (), found x, w⟩) :
    w.record token (Traversal.forEach f xs) = ⟨.finished (), xs.flatMap found, w⟩ := by
  induction xs with
  | nil => rfl
  | cons x xs ih =>
    have hfirst := h x List.mem_cons_self
    have hrest := ih fun y hy => h y (List.mem_cons_of_mem x hy)
    rw [Traversal.forEach, record_bind_of_finished w token hfirst, hrest]
    rfl

/-- The same, with the results in a list. -/
theorem record_forEachCollect {f : β → Traversal Out γ} {value : β → γ} {found : β → List Out}
    {xs : List β} (h : ∀ x ∈ xs, w.record token (f x) = ⟨.finished (value x), found x, w⟩) :
    w.record token (Traversal.forEachCollect f xs) =
      ⟨.finished (xs.map value), xs.flatMap found, w⟩ := by
  induction xs with
  | nil => rfl
  | cons x xs ih =>
    have hfirst := h x List.mem_cons_self
    have hrest := ih fun y hy => h y (List.mem_cons_of_mem x hy)
    rw [Traversal.forEachCollect, record_bind_of_finished w token hfirst,
      record_bind_of_finished w token hrest]
    simp [Record.behind, record_done]

/-- **Gathering** keeps what is handed out on top of what was kept, and hands out nothing. -/
theorem record_gather (w : World) (token : Option Nat) (kept : List Found)
    (t : Traversal Found α) :
    (w.record token (Traversal.gather kept t) : Record Out (List Found × α)) =
      match w.record token t with
      | ⟨.finished a, found, w'⟩ => ⟨.finished (found.reverse ++ kept, a), [], w'⟩
      | ⟨.failed f, _, w'⟩ => ⟨.failed f, [], w'⟩
      | ⟨.spent, _, w'⟩ => ⟨.spent, [], w'⟩ := by
  induction t generalizing w kept with
  | done a => rfl
  | fail f => rfl
  | spent => rfl
  | check next ih =>
    rw [Traversal.gather, record_check, record_check]
    cases w.cancelled token with
    | none => exact ih w kept
    | some reason => rfl
  | routes number next ih => exact ih (w.registry number) w kept
  | ask s c next ih => exact ih (w.ask s c).1 (w.ask s c).2 kept
  | emit x rest ih =>
    rw [Traversal.gather, record_emit, ih]
    rcases w.record token rest with ⟨_ | _ | _, found, w'⟩
    · simp [Record.behind]
    · rfl
    · rfl

end World

end Arboretum
