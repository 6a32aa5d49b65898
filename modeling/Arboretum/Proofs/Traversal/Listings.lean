import Arboretum.Listing
import Arboretum.Proofs.Traversal.Taking

/-!
# Which directories a program lists

Over stores whose answers depend on nothing but the question a program lists the same directories
whenever it runs.  `Answers.Lists` says which, in order: a run that is broken off has made the first
of these listings, and one that ends well has made them all.  It is read off the program step by
step, with the answers at hand, and programs one after the other list what each of them does
(`Lists.bind`, `lists_forEach`).
-/

namespace Arboretum

variable {σ Out α β : Type}

/-! ## 1. Listings -/

/-- The call lists a directory. -/
def Call.isListing : Call → Bool
  | .list _ _ => true
  | _ => false

/-- The listings among the calls of a run, in order. -/
def Diary.listings (d : Diary σ Out α) : List (Store × Call) := d.calls.filter (·.2.isListing)

namespace Answers

variable (a : Answers)

/-- **What a program lists**, and what holds of its result: a run that is broken off has made the
first of these listings, one that ends well has made them all. -/
def Lists (t : Traversal Out α) (listings : List (Store × Call)) (Q : α → Prop) : Prop :=
  (a.full t).listings <+: listings ∧
    ∀ b, (a.full t).outcome = .finished b → (a.full t).listings = listings ∧ Q b

variable {a} {Q : α → Prop} {R : β → Prop} {listings more : List (Store × Call)}

theorem lists_done {b : α} (hQ : Q b) : a.Lists (.done b : Traversal Out α) [] Q :=
  ⟨List.prefix_rfl, fun _ ho => ⟨rfl, by cases ho; exact hQ⟩⟩

theorem lists_fail (f : Fault) : a.Lists (.fail f : Traversal Out α) listings Q :=
  ⟨List.nil_prefix, fun _ ho => by cases ho⟩

/-! ## 2. One rule for each construct -/

/-- A program that goes on lists what both parts list. -/
theorem Lists.bind {t : Traversal Out α} (h : a.Lists t listings Q) {f : α → Traversal Out β}
    (hf : ∀ b, Q b → a.Lists (f b) more R) : a.Lists (t.bind f) (listings ++ more) R := by
  have hfull : a.full (t.bind f) = (a.full t).andThen fun _ b => a.full (f b) :=
    Runner.diary_bind _ () t f
  unfold Lists
  rw [hfull, Diary.andThen]
  cases ho : (a.full t).outcome with
  | finished b =>
    obtain ⟨hfirst, hb⟩ := h.2 b ho
    obtain ⟨hlisted, hend⟩ := hf b hb
    have hboth : ((a.full (f b)).behind (a.full t).moments).listings =
        listings ++ (a.full (f b)).listings := by
      rw [Diary.listings, Diary.calls_behind, List.filter_append, ← hfirst]
      rfl
    rw [hboth]
    refine ⟨(List.prefix_append_right_inj listings).2 hlisted, fun b' ho' => ?_⟩
    obtain ⟨hmore, hR⟩ := hend b' ho'
    exact ⟨congrArg _ hmore, hR⟩
  | failed f => exact ⟨h.1.trans (List.prefix_append _ _), fun _ ho' => by cases ho'⟩
  | spent => exact ⟨h.1.trans (List.prefix_append _ _), fun _ ho' => by cases ho'⟩

theorem Lists.check {next : Traversal Out α} (h : a.Lists next listings Q) :
    a.Lists (.check next) listings Q := by
  have hfull : a.full (.check next) = a.cancelled.elim (a.full next)
      fun reason => ⟨.failed (.cancelled reason), [], ()⟩ := by
    rcases a with ⟨ask, registry, _ | reason⟩ <;> exact Runner.diary_check _ () next
  unfold Lists
  rw [hfull]
  cases a.cancelled with
  | none => exact h
  | some reason => exact ⟨List.nil_prefix, fun _ ho => by cases ho⟩

theorem Lists.ask {s : Store} {c : Call} {next : Except Fault c.Answer → Traversal Out α}
    (h : a.Lists (next (a.ask s c)) more Q) :
    a.Lists (.ask s c next) ([(s, c)].filter (·.2.isListing) ++ more) Q := by
  have hfull : a.full (.ask s c next) = (a.full (next (a.ask s c))).behind
      [⟨(), .asked s c (a.ask s c), ()⟩] := Runner.diary_ask _ () s c next
  have hboth : (a.full (.ask s c next)).listings =
      [(s, c)].filter (·.2.isListing) ++ (a.full (next (a.ask s c))).listings := by
    rw [hfull, Diary.listings, Diary.calls_behind, List.filter_append]
    rfl
  refine ⟨hboth ▸ (List.prefix_append_right_inj _).2 h.1, fun b ho => ?_⟩
  rw [hfull] at ho
  obtain ⟨hmore, hQ⟩ := h.2 b ho
  exact ⟨hboth.trans (congrArg _ hmore), hQ⟩

theorem lists_checked {Q : Unit → Prop} (hQ : Q ()) :
    a.Lists (Traversal.checked : Traversal Out Unit) [] Q := (lists_done hQ).check

/-- Handing something out lists nothing. -/
theorem lists_give (x : Out) : a.Lists (Traversal.give x) [] fun _ => True := by
  have hfull : a.full (Traversal.give x) = ⟨.finished (), [⟨(), .handed x none, ()⟩], ()⟩ :=
    Runner.diary_emit _ () x (.done ())
  unfold Lists
  rw [hfull]
  exact ⟨List.prefix_rfl, fun _ _ => ⟨rfl, trivial⟩⟩

/-- Looking at a registry lists nothing. -/
theorem lists_registry (number : Nat) : a.Lists (Traversal.registry number : Traversal Out Registry)
    [] (· = a.registry number) :=
  ⟨List.prefix_rfl, fun _ ho => ⟨rfl, by cases ho; rfl⟩⟩

theorem lists_plain (s : Store) (c : Call) : a.Lists (Traversal.plain s c : Traversal Out c.Answer)
    ([(s, c)].filter (·.2.isListing)) fun answer => a.ask s c = .ok answer := by
  rw [← List.append_nil (List.filter _ _)]
  refine Lists.ask ?_
  cases ha : a.ask s c with
  | ok answer => exact lists_done rfl
  | error f => exact lists_fail f

/-- **A call of a run** lists what it asks for, and goes on with the answer. -/
theorem lists_call (s : Store) (path : String) (c : Call) :
    a.Lists (Traversal.call s path c : Traversal Out c.Answer)
      ([(s, c)].filter (·.2.isListing)) fun answer => a.ask s c = .ok answer := by
  rw [← List.append_nil (List.filter _ _)]
  refine (Lists.ask ?_).check
  cases ha : a.ask s c with
  | ok answer => exact lists_done rfl
  | error f => exact lists_fail _

theorem lists_all (s : Store) (path : String) (hints : List String) :
    a.Lists (Listing.all s path hints : Traversal Out (List Entry)) [(s, .list path hints)]
      fun entries => a.ask s (.list path hints) = .ok entries :=
  (lists_call s path (.list path hints)).bind fun _ hok =>
    (lists_checked (Q := fun _ => True) trivial).bind fun _ _ => lists_done hok

/-- One program for each element in turn. -/
theorem lists_forEach {f : β → Traversal Out Unit} {each : β → List (Store × Call)} {xs : List β}
    (h : ∀ x ∈ xs, a.Lists (f x) (each x) fun _ => True) :
    a.Lists (Traversal.forEach f xs) (xs.flatMap each) fun _ => True := by
  induction xs with
  | nil => exact lists_done trivial
  | cons x xs ih =>
    rw [List.flatMap_cons]
    exact (h x List.mem_cons_self).bind fun _ _ => ih fun y hy => h y (List.mem_cons_of_mem x hy)

end Answers

end Arboretum
