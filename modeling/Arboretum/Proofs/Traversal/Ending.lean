import Arboretum.Proofs.Store.Hints
import Arboretum.Proofs.Traversal.Diary

/-!
# Runs that end, and runs that do not

A runner is **quiet** when one store answers every call that only looks as it does in one storage,
nobody cancels, and no visitor objects (`Runner.Quiet`).  What else happens is left open; an
invariant of the runner's states says what does not.

Over such a runner a program **ends** with a result after a fixed number of calls (`Runner.Ends`),
or it **outlasts** a number of calls: its budget is spent when it has made that many
(`Runner.Outlasts`).  One rule for each construct counts the calls.
-/

namespace Arboretum

namespace Runner

variable {σ Out α β : Type}

/-! ## 1. Quiet runners -/

/-- **A runner in which a store stays as it is**, as long as it is only looked at. -/
structure Quiet (r : Runner σ Out) (Inv : σ → Prop) (s : Store) (st : Storage) : Prop where
  ask {x : σ} {c : Call} (hx : Inv x) (hc : c.changes = false) :
    (r.ask x s c).1 = (st.ask s c).1 ∧ Inv (r.ask x s c).2
  cancelled {x : σ} (hx : Inv x) : r.cancelled x = none
  visit {x : σ} (hx : Inv x) (y : Out) : (r.visit x y).1 = none ∧ Inv (r.visit x y).2

/-- **The program ends** with a result after a number of calls, from every state of the
invariant, and in one. -/
def Ends (r : Runner σ Out) (Inv : σ → Prop) (t : Traversal Out α) (n : Nat) (a : α) : Prop :=
  ∀ x, Inv x → (r.diary x t).outcome = .finished a ∧ (r.diary x t).calls.length = n ∧
    Inv (r.diary x t).state

/-- **The program outlasts** a number of calls, from every state of the invariant: it has made as
many when its budget is spent. -/
def Outlasts (r : Runner σ Out) (Inv : σ → Prop) (t : Traversal Out α) (n : Nat) : Prop :=
  ∀ x, Inv x → (r.diary x t).outcome = .spent ∧ n ≤ (r.diary x t).calls.length

variable {r : Runner σ Out} {Inv : σ → Prop} {s : Store} {st : Storage} {n m : Nat}

/-! ## 2. One rule for each construct -/

theorem ends_done (a : α) : r.Ends Inv (.done a : Traversal Out α) 0 a :=
  fun _ hx => ⟨rfl, rfl, hx⟩

theorem outlasts_spent : r.Outlasts Inv (.spent : Traversal Out α) 0 :=
  fun _ _ => ⟨rfl, Nat.zero_le _⟩

/-- What follows a program that ends begins where it ended. -/
theorem diary_bind_of_ends {t : Traversal Out α} {a : α} (h : r.Ends Inv t n a)
    (f : α → Traversal Out β) {x : σ} (hx : Inv x) : ∃ y, Inv y ∧
      (r.diary x (t.bind f)).outcome = (r.diary y (f a)).outcome ∧
      (r.diary x (t.bind f)).calls.length = n + (r.diary y (f a)).calls.length ∧
      (r.diary x (t.bind f)).state = (r.diary y (f a)).state := by
  obtain ⟨houtcome, hcalls, hstate⟩ := h x hx
  refine ⟨(r.diary x t).state, hstate, ?_⟩
  rw [r.diary_bind, Diary.andThen, houtcome]
  refine ⟨rfl, ?_, rfl⟩
  rw [Diary.calls_behind, List.length_append, ← hcalls]
  rfl

/-- Two programs that end, one after the other. -/
theorem Ends.bind {t : Traversal Out α} {a : α} (h : r.Ends Inv t n a) {f : α → Traversal Out β}
    {b : β} (hf : r.Ends Inv (f a) m b) : r.Ends Inv (t.bind f) (n + m) b := by
  intro x hx
  obtain ⟨y, hy, houtcome, hcalls, hstate⟩ := diary_bind_of_ends h f hx
  obtain ⟨hb, hm, hinv⟩ := hf y hy
  rw [houtcome, hcalls, hstate, hm]
  exact ⟨hb, rfl, hinv⟩

/-- A program that lasts, after one that ends. -/
theorem Ends.outlasts_bind {t : Traversal Out α} {a : α} (h : r.Ends Inv t n a)
    {f : α → Traversal Out β} (hf : r.Outlasts Inv (f a) m) :
    r.Outlasts Inv (t.bind f) (n + m) := by
  intro x hx
  obtain ⟨y, hy, houtcome, hcalls, -⟩ := diary_bind_of_ends h f hx
  obtain ⟨hspent, hm⟩ := hf y hy
  rw [houtcome, hcalls]
  exact ⟨hspent, Nat.add_le_add_left hm n⟩

theorem Outlasts.mono {t : Traversal Out α} (h : r.Outlasts Inv t n) (hm : m ≤ n) :
    r.Outlasts Inv t m :=
  fun x hx => ⟨(h x hx).1, hm.trans (h x hx).2⟩

/-- Looking at a registry is no call; it may be another one in each state. -/
theorem ends_registry_bind {number : Nat} {f : Registry → Traversal Out α} {a : α}
    (h : ∀ x, Inv x → r.Ends Inv (f (r.registry x number)) n a) :
    r.Ends Inv ((Traversal.registry number).bind f) n a :=
  fun x hx => h x hx x hx

theorem outlasts_registry_bind {number : Nat} {f : Registry → Traversal Out α}
    (h : ∀ x, Inv x → r.Outlasts Inv (f (r.registry x number)) n) :
    r.Outlasts Inv ((Traversal.registry number).bind f) n :=
  fun x hx => h x hx x hx

namespace Quiet

variable (hr : r.Quiet Inv s st)

include hr

/-- A check is no call and does not stop the run. -/
theorem diary_checked_bind {f : Unit → Traversal Out α} {x : σ} (hx : Inv x) :
    r.diary x (Traversal.checked.bind f) = r.diary x (f ()) := by
  show r.diary x (.check (f ())) = _
  rw [r.diary_check, hr.cancelled hx]

theorem ends_checked_bind {f : Unit → Traversal Out α} {a : α} (hf : r.Ends Inv (f ()) n a) :
    r.Ends Inv (Traversal.checked.bind f) n a := by
  intro x hx
  rw [hr.diary_checked_bind hx]
  exact hf x hx

theorem outlasts_checked_bind {f : Unit → Traversal Out α} (hf : r.Outlasts Inv (f ()) n) :
    r.Outlasts Inv (Traversal.checked.bind f) n := by
  intro x hx
  rw [hr.diary_checked_bind hx]
  exact hf x hx

/-- Handing something out is no call and does not stop the run. -/
theorem ends_give (y : Out) : r.Ends Inv (Traversal.give y) 0 () := by
  intro x hx
  obtain ⟨hvisit, hinv⟩ := hr.visit hx y
  unfold Traversal.give
  rw [r.diary_emit]
  rcases hv : r.visit x y with ⟨verdict, z⟩
  rw [hv] at hvisit hinv
  obtain rfl : verdict = none := hvisit
  exact ⟨rfl, rfl, hinv⟩

/-- A call that the store answers is one call. -/
theorem ends_plain {c : Call} (hc : c.changes = false) {a : c.Answer}
    (ha : (st.ask s c).1 = .ok a) :
    r.Ends Inv (Traversal.plain s c : Traversal Out c.Answer) 1 a := by
  intro x hx
  obtain ⟨hask, hinv⟩ := hr.ask hx hc
  rw [ha] at hask
  unfold Traversal.plain
  rw [r.diary_ask, hask]
  exact ⟨rfl, rfl, hinv⟩

theorem ends_call {c : Call} (hc : c.changes = false) {a : c.Answer}
    (ha : (st.ask s c).1 = .ok a) (path : String) :
    r.Ends Inv (Traversal.call s path c : Traversal Out c.Answer) 1 a := by
  intro x hx
  obtain ⟨hask, hinv⟩ := hr.ask hx hc
  rw [ha] at hask
  unfold Traversal.call
  rw [r.diary_check, hr.cancelled hx]
  dsimp only
  rw [r.diary_ask, hask]
  exact ⟨rfl, rfl, hinv⟩

omit hr in
/-- The same number of calls for every element of a list. -/
theorem ends_forEachCollect {f : α → Traversal Out β} {g : α → β} {xs : List α}
    (h : ∀ a ∈ xs, r.Ends Inv (f a) n (g a)) :
    r.Ends Inv (Traversal.forEachCollect f xs) (n * xs.length) (xs.map g) := by
  induction xs with
  | nil => exact ends_done []
  | cons a xs ih =>
    rw [List.length_cons, Nat.mul_succ, Nat.add_comm]
    refine (h a List.mem_cons_self).bind ?_
    have hrest := ih fun b hb => h b (List.mem_cons_of_mem a hb)
    exact hrest.bind (f := fun ys => .done (g a :: ys)) (ends_done _)

end Quiet

end Runner

/-- A world in which nothing is cancelled is quiet: looking changes nothing. -/
theorem World.quiet_runner {w : World} {token : Option Nat} (hc : w.cancelled token = none)
    (s : Store) {Out : Type} :
    (World.runner token : Runner World Out).Quiet (· = w) s w.storage where
  ask {x c} hx hlook := by
    rw [hx]
    exact ⟨rfl, w.world_of_look s hlook⟩
  cancelled hx := hx ▸ hc
  visit hx _ := ⟨rfl, hx⟩

end Arboretum
