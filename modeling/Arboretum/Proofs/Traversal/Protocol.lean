import Arboretum.Listing
import Arboretum.Proofs.Traversal.Diary

/-!
# The protocol of a run

A program that obeys the protocol checks its token before every call, asks nothing after a call that
failed, and checks again after it has handed something out.  `Traversal.Obeys` reads this off the
program: it goes through it with the **stage**, what is known of the moments since the last check,
and the rules for each step are those of the stage.  Where the protocol is strict, handing out needs
a check as well.

Whatever a runner does, the diary of a program that obeys shows it:

* `Obeys.uncancelled`: every call starts in a state that is not cancelled;
* `Obeys.of_failed_call`: a call that fails is the last moment, and the run reports its fault;
* `Obeys.of_failed`: where the fault of a run comes from;
* `Obeys.of_cancelled_visit`: a visitor that cancels the run sees nothing more.

One step has no report: where the first moment of a run is a join, which is how a run resolves the
address that it starts from, a fault of the store passes as it is.
-/

namespace Arboretum

/-! ## 1. Calls and their reports -/

namespace Call

/-- The call joins paths. -/
def isJoin : Call → Bool
  | .join _ => true
  | _ => false

/-- The path that a run names when it reports a call: for a join, the directory's. -/
def about : Call → String
  | .join parts => parts.headD ""
  | c => c.path

/-- **The fault with which a run ends when a call fails**: the report, but for a join that is the
first moment of the run. -/
def failure (c : Call) (s : Store) (first : Bool) (f : Fault) : Fault :=
  if first && c.isJoin then f else f.reported c.operation s c.about

theorem failure_of_not_first (c : Call) (s : Store) (f : Fault) :
    c.failure s false f = f.reported c.operation s c.about := rfl

end Call

namespace Traversal

variable {σ Out α β γ : Type}

/-! ## 2. Stages -/

/-- What is known of the moments since the last check. -/
inductive Stage where
  /-- nothing was done yet, not even a check -/
  | fresh
  /-- nothing since the check; `first` if there was no moment before it either -/
  | checked (first : Bool)
  /-- a call was the last moment -/
  | asked
  /-- something was handed out at the last moment -/
  | shown
deriving DecidableEq

namespace Stage

/-- The stage after a check. -/
def check : Stage → Stage
  | .fresh => .checked true
  | .checked first => .checked first
  | .asked => .checked false
  | .shown => .checked false

/-- There was no moment yet. -/
def isFirst : Stage → Bool
  | .fresh => true
  | .checked first => first
  | .asked => false
  | .shown => false

/-- The token was checked, and nothing happened since. -/
def isChecked : Stage → Bool
  | .checked _ => true
  | _ => false

/-- Something may be handed out. -/
def mayShow (strict : Bool) : Stage → Bool
  | .fresh => false
  | .checked _ => true
  | .asked => !strict
  | .shown => false

theorem isFirst_check (k : Stage) : k.check.isFirst = k.isFirst := by cases k <;> rfl

theorem isChecked_check (k : Stage) : k.check.isChecked = true := by cases k <;> rfl

end Stage

/-- A stage with a moment before it. -/
abbrev Begun (k : Stage) : Prop := k.isFirst = false

/-- **The program obeys the protocol** from a stage on, and `Q` holds of the result and the stage at
its end. -/
def Obeys (strict : Bool) (Q : α → Stage → Prop) : Traversal Out α → Stage → Prop
  | .done a, k => Q a k
  | .fail f, k => f.isOwn = true ∧ k ≠ .shown
  | .spent, _ => True
  | .check next, k => Obeys strict Q next k.check
  | .routes _ next, k => ∀ g, Obeys strict Q (next g) k
  | .ask s c next, k => k.isChecked = true ∧
      (∀ f, next (.error f) = .fail (c.failure s k.isFirst f)) ∧
      ∀ a, Obeys strict Q (next (.ok a)) .asked
  | .emit _ next, k => k.mayShow strict = true ∧ Obeys strict Q next .shown

variable {strict : Bool} {Q Q' : α → Stage → Prop} {R : β → Stage → Prop} {k : Stage}

/-! ## 3. Programs -/

theorem Obeys.mono {t : Traversal Out α} (h : t.Obeys strict Q k) (hQ : ∀ a k, Q a k → Q' a k) :
    t.Obeys strict Q' k := by
  induction t generalizing k with
  | done a => exact hQ a k h
  | fail f => exact h
  | spent => exact h
  | check next ih => exact ih h
  | routes number next ih => exact fun g => ih g (h g)
  | ask s c next ih => exact ⟨h.1, h.2.1, fun a => ih _ (h.2.2 a)⟩
  | emit x next ih => exact ⟨h.1, ih h.2⟩

/-- **Programs one after the other.** -/
theorem Obeys.bind {t : Traversal Out α} (h : t.Obeys strict Q k) {f : α → Traversal Out β}
    (hf : ∀ a k, Q a k → (f a).Obeys strict R k) : (t.bind f).Obeys strict R k := by
  induction t generalizing k with
  | done a => exact hf a k h
  | fail fault => exact h
  | spent => exact h
  | check next ih => exact ih h
  | routes number next ih => exact fun g => ih g (h g)
  | ask s c next ih =>
    refine ⟨h.1, fun fault => ?_, fun a => ih _ (h.2.2 a)⟩
    show (next (.error fault)).bind f = _
    rw [h.2.1 fault]
    rfl
  | emit x next ih => exact ⟨h.1, ih h.2⟩

theorem obeys_checked {Q : Unit → Stage → Prop} (hQ : Q () k.check) :
    (checked : Traversal Out Unit).Obeys strict Q k := hQ

theorem obeys_registry {number : Nat} {Q : Registry → Stage → Prop} (hQ : ∀ g, Q g k) :
    (registry number : Traversal Out Registry).Obeys strict Q k := hQ

/-- **A call** obeys from every stage, if it is not a join that would be the first moment. -/
theorem obeys_call {s : Store} {path : String} {c : Call} {Q : c.Answer → Stage → Prop}
    (hpath : path = c.about) (hfirst : (k.isFirst && c.isJoin) = false) (hQ : ∀ a, Q a .asked) :
    (call s path c : Traversal Out c.Answer).Obeys strict Q k := by
  refine ⟨k.isChecked_check, fun f => ?_, hQ⟩
  show fail (f.reported c.operation s path) = fail (c.failure s k.check.isFirst f)
  rw [Call.failure, Stage.isFirst_check, hfirst, if_neg Bool.false_ne_true, hpath]

/-- **Steps in turn** keep what each of them keeps. -/
theorem obeys_forEach {I : Stage → Prop} {f : β → Traversal Out Unit} {xs : List β} (hI : I k)
    (h : ∀ x ∈ xs, ∀ k, I k → (f x).Obeys strict (fun _ => I) k) :
    (forEach f xs).Obeys strict (fun _ => I) k := by
  induction xs generalizing k with
  | nil => exact hI
  | cons x xs ih =>
    refine (h x List.mem_cons_self k hI).bind fun _ k hk => ?_
    exact ih hk fun y hy => h y (List.mem_cons_of_mem x hy)

/-- The same for steps with results; there is a result unless there is no step. -/
theorem obeys_forEachCollect {I : Stage → Prop} {f : β → Traversal Out γ} {xs : List β} (hI : I k)
    (h : ∀ x ∈ xs, ∀ k, I k → (f x).Obeys strict (fun _ => I) k) :
    (forEachCollect f xs).Obeys strict (fun ys k' => I k' ∧ (ys = [] → k' = k)) k := by
  induction xs generalizing k with
  | nil => exact ⟨hI, fun _ => rfl⟩
  | cons x xs ih =>
    refine (h x List.mem_cons_self k hI).bind fun y k hk => ?_
    refine (ih hk fun z hz => h z (List.mem_cons_of_mem x hz)).bind fun ys k hys => ?_
    exact ⟨hys.1, fun hnil => absurd hnil (List.cons_ne_nil y ys)⟩

/-- A listing is a call and a check. -/
theorem obeys_all {s : Store} {path : String} {hints : List String}
    {Q : List Entry → Stage → Prop} (hQ : ∀ entries, Q entries (.checked false)) :
    (Listing.all s path hints : Traversal Out (List Entry)).Obeys strict Q k := by
  refine (obeys_call (Q := fun _ k => k = .asked) rfl (Bool.and_false _) fun _ => rfl).bind ?_
  rintro entries _ rfl
  exact hQ entries

/-- **Resolving an address** after the first check: a join, unless the address is one of the void
store. -/
theorem obeys_resolve (g : Registry) (uri : String) {Q : Store × String → Stage → Prop}
    (hvoid : ∀ place, Q place (.checked true)) (hjoin : ∀ place, Q place .asked) :
    (g.resolve uri : Traversal Out (Store × String)).Obeys strict Q (.checked true) := by
  unfold Registry.resolve
  rcases g.route uri with ⟨s, _ | parts⟩
  · exact hvoid (s, "")
  · exact ⟨rfl, fun _ => rfl, fun path => hjoin (s, path)⟩

end Traversal

/-- So does resolving a handle. -/
theorem Handle.obeys_resolve {Out : Type} {strict : Bool} (h : Handle)
    {Q : Store × String → Traversal.Stage → Prop} (hvoid : ∀ place, Q place (.checked true))
    (hjoin : ∀ place, Q place .asked) :
    (h.resolve : Traversal Out (Store × String)).Obeys strict Q (.checked true) :=
  fun g => Traversal.obeys_resolve g h.uri hvoid hjoin

/-- A handle that is bound to the registry of the run serves as it is. -/
theorem Handle.bind_of_bound (Out : Type) (h : Handle) {registry : Option Nat}
    (hb : registry = none ∨ h.registry = registry) :
    ∃ number, ((Base.handle h).bind registry : Traversal Out (Handle × Nat)) =
      .done (h, number) := by
  cases registry with
  | none => exact ⟨h.registryNumber, rfl⟩
  | some number =>
    rcases hb with hnone | hb
    · cases hnone
    · exact ⟨number, if_pos hb⟩

namespace Traversal

variable {σ Out α : Type} {strict : Bool} {Q : α → Stage → Prop} {k : Stage}

/-- The program starts with a check, or it is the fault of an unreadable pattern. -/
def OpensChecked (t : Traversal Out α) : Prop :=
  (∃ text flaw, t = .fail (.invalidPattern text flaw)) ∨ ∃ next, t = .check next

/-! ## 4. Runs -/

section Runs

variable {t : Traversal Out α} {x : σ} {earlier later : List (Moment σ Out)} {m : Moment σ Out}

/-- **Every call starts in a state that is not cancelled**, and so does whatever a strict program
hands out. -/
theorem Obeys.uncancelled (h : t.Obeys strict Q k) (r : Runner σ Out)
    (hk : k.isChecked = true → r.cancelled x = none) :
    ∀ m ∈ (r.diary x t).moments, strict = true ∨ m.step.call?.isSome = true →
      r.cancelled m.before = none := by
  induction t generalizing k x with
  | done a => exact fun _ hm => absurd hm List.not_mem_nil
  | fail f => exact fun _ hm => absurd hm List.not_mem_nil
  | spent => exact fun _ hm => absurd hm List.not_mem_nil
  | check next ih =>
    rw [Runner.diary_check]
    cases hc : r.cancelled x with
    | none => exact ih h fun _ => hc
    | some reason => exact fun _ hm => absurd hm List.not_mem_nil
  | routes number next ih => exact ih (r.registry x number) (h _) hk
  | ask s c next ih =>
    rw [Runner.diary_ask]
    intro m hm hcall
    rcases List.mem_cons.1 hm with rfl | hm
    · exact hk h.1
    · cases ha : (r.ask x s c).1 with
      | ok a =>
        rw [ha] at hm
        exact ih _ (h.2.2 a) (fun hasked => absurd hasked Bool.false_ne_true) m hm hcall
      | error f =>
        rw [ha, h.2.1 f] at hm
        exact absurd hm List.not_mem_nil
  | emit y rest ih =>
    rw [Runner.diary_emit]
    have hstart : ∀ verdict z, strict = true ∨
        (Step.handed y verdict).call?.isSome = true →
        r.cancelled (Moment.mk x (.handed y verdict) z).before = none := by
      rintro verdict z (rfl | hcall)
      · exact hk (by have hshow := h.1; cases k <;> simp_all [Stage.mayShow, Stage.isChecked])
      · exact absurd hcall Bool.false_ne_true
    rcases r.visit x y with ⟨_ | f, z⟩
    · intro m hm hcall
      rcases List.mem_cons.1 hm with rfl | hm
      · exact hstart none z hcall
      · exact ih h.2 (fun hshown => absurd hshown Bool.false_ne_true) m hm hcall
    · intro m hm hcall
      rw [List.mem_singleton.1 hm] at hcall ⊢
      exact hstart (some f) z hcall

/-- A moment of an empty diary is none. -/
theorem ne_nil_of_moment {ms : List (Moment σ Out)} (hm : ms = earlier ++ m :: later) : ms ≠ [] := by
  rw [hm]
  simp

/-- After a call that failed there is no moment more. -/
theorem Obeys.exists_answer {s : Store} {c : Call} {next : Except Fault c.Answer → Traversal Out α}
    (h : (Traversal.ask s c next).Obeys strict Q k) (r : Runner σ Out)
    {answer : Except Fault c.Answer}
    (hm : (r.diary x (next answer)).moments = earlier ++ m :: later) :
    ∃ a, answer = .ok a ∧ (next (.ok a)).Obeys strict Q .asked := by
  cases answer with
  | ok a => exact ⟨a, rfl, h.2.2 a⟩
  | error f =>
    rw [h.2.1 f] at hm
    exact absurd rfl (ne_nil_of_moment hm)

/-- **A call that fails is the last moment**, and the run ends with its fault: as it is where the
first moment is a join, else reported. -/
theorem Obeys.of_failed_call (h : t.Obeys strict Q k) (r : Runner σ Out)
    (hm : (r.diary x t).moments = earlier ++ m :: later) {s : Store} {c : Call} {f : Fault}
    (hstep : m.step = .asked s c (.error f)) :
    later = [] ∧ (r.diary x t).outcome =
      .failed (c.failure s (k.isFirst && earlier.isEmpty) f) := by
  induction t generalizing k x earlier with
  | done a => exact absurd rfl (ne_nil_of_moment hm)
  | fail f => exact absurd rfl (ne_nil_of_moment hm)
  | spent => exact absurd rfl (ne_nil_of_moment hm)
  | check next ih =>
    rw [Runner.diary_check] at hm ⊢
    cases hc : r.cancelled x with
    | none =>
      rw [hc] at hm
      have hrest := ih h hm
      rwa [Stage.isFirst_check] at hrest
    | some reason =>
      rw [hc] at hm
      exact absurd rfl (ne_nil_of_moment hm)
  | routes number next ih => exact ih (r.registry x number) (h _) hm
  | ask s' c' next ih =>
    rw [Runner.diary_ask] at hm ⊢
    rcases List.cons_eq_append_iff.1 hm with ⟨rfl, hfirst⟩ | ⟨es, rfl, hrest⟩
    · obtain ⟨rfl, hrest⟩ := List.cons.inj hfirst
      injection hstep with hs hc hanswer
      subst hs hc
      rw [eq_of_heq hanswer, h.2.1 f] at hrest ⊢
      refine ⟨hrest, ?_⟩
      rw [List.isEmpty_nil, Bool.and_true]
      rfl
    · rw [List.isEmpty_cons, Bool.and_false]
      obtain ⟨a, ha, hnext⟩ := h.exists_answer r hrest
      rw [ha] at hrest ⊢
      exact ih _ hnext hrest
  | emit y rest ih =>
    rw [Runner.diary_emit] at hm ⊢
    rcases hv : r.visit x y with ⟨_ | f', z⟩
    · rw [hv] at hm
      rcases List.cons_eq_append_iff.1 hm with ⟨rfl, hfirst⟩ | ⟨es, rfl, hrest⟩
      · obtain ⟨rfl, -⟩ := List.cons.inj hfirst
        cases hstep
      · rw [List.isEmpty_cons, Bool.and_false]
        exact ih h.2 hrest
    · rw [hv] at hm
      rcases List.cons_eq_append_iff.1 hm with ⟨rfl, hfirst⟩ | ⟨es, rfl, hrest⟩
      · obtain ⟨rfl, -⟩ := List.cons.inj hfirst
        cases hstep
      · exact absurd rfl (ne_nil_of_moment hrest)

/-- **Where the fault of a run comes from**: it is one of the library's own, or the visitor's at the
last moment, or that of a join that was the only moment. -/
theorem Obeys.of_failed (h : t.Obeys strict Q k) (r : Runner σ Out) {f : Fault}
    (hf : (r.diary x t).outcome = .failed f) :
    f.isOwn = true ∨
    (∃ earlier m y, (r.diary x t).moments = earlier ++ [m] ∧ m.step = .handed y (some f)) ∨
    (k.isFirst = true ∧ ∃ m s parts, (r.diary x t).moments = [m] ∧
      m.step = .asked s (.join parts) (.error f)) := by
  induction t generalizing k x with
  | done a => cases hf
  | fail fault =>
    cases hf
    exact .inl h.1
  | spent => cases hf
  | check next ih =>
    rw [Runner.diary_check] at hf ⊢
    cases hc : r.cancelled x with
    | none =>
      rw [hc] at hf
      have hrest := ih h hf
      rwa [Stage.isFirst_check] at hrest
    | some reason =>
      rw [hc] at hf
      cases hf
      exact .inl rfl
  | routes number next ih => exact ih (r.registry x number) (h _) hf
  | ask s c next ih =>
    rw [Runner.diary_ask] at hf ⊢
    cases ha : (r.ask x s c).1 with
    | ok a =>
      rw [ha] at hf
      rcases ih _ (h.2.2 a) hf with hown | ⟨es, m, y, hm, hstep⟩ | ⟨hfirst, -⟩
      · exact .inl hown
      · exact .inr (.inl ⟨_ :: es, m, y, congrArg (List.cons _) hm, hstep⟩)
      · exact absurd hfirst Bool.false_ne_true
    | error fault =>
      rw [ha, h.2.1 fault] at hf
      rw [h.2.1 fault]
      cases hf
      unfold Call.failure
      cases hfirst : k.isFirst && c.isJoin with
      | false => exact .inl (Fault.isOwn_reported _ _ _ _)
      | true =>
        rw [Bool.and_eq_true] at hfirst
        cases c with
        | join parts => exact .inr (.inr ⟨hfirst.1, _, s, parts, rfl, rfl⟩)
        | _ => exact absurd hfirst.2 Bool.false_ne_true
  | emit y rest ih =>
    rw [Runner.diary_emit] at hf ⊢
    rcases hv : r.visit x y with ⟨_ | fault, z⟩
    · rw [hv] at hf
      rcases ih h.2 hf with hown | ⟨es, m, y', hm, hstep⟩ | ⟨hfirst, -⟩
      · exact .inl hown
      · exact .inr (.inl ⟨_ :: es, m, y', congrArg (List.cons _) hm, hstep⟩)
      · exact absurd hfirst Bool.false_ne_true
    · rw [hv] at hf
      cases hf
      exact .inr (.inl ⟨[], _, y, rfl, rfl⟩)

/-- A run that finds its token cancelled, at the start or after something was handed out, stops at
its next step. -/
theorem Obeys.of_cancelled (h : t.Obeys strict Q k) (hk : k = .fresh ∨ k = .shown)
    (r : Runner σ Out) {reason : String} (hc : r.cancelled x = some reason) :
    (r.diary x t).moments = [] ∧ (r.diary x t).state = x ∧
      ((r.diary x t).outcome = .failed (.cancelled reason) ∨ (r.diary x t).outcome = .spent ∨
        (∃ a, (r.diary x t).outcome = .finished a ∧ Q a k) ∨
        (k ≠ .shown ∧ ∃ f, (r.diary x t).outcome = .failed f ∧ f.isOwn = true)) := by
  have hquiet : k.isChecked = false ∧ k.mayShow strict = false := by
    rcases hk with rfl | rfl <;> exact ⟨rfl, rfl⟩
  induction t with
  | done a => exact ⟨rfl, rfl, .inr (.inr (.inl ⟨a, rfl, h⟩))⟩
  | fail f => exact ⟨rfl, rfl, .inr (.inr (.inr ⟨h.2, f, rfl, h.1⟩))⟩
  | spent => exact ⟨rfl, rfl, .inr (.inl rfl)⟩
  | check next ih =>
    rw [Runner.diary_check, hc]
    exact ⟨rfl, rfl, .inl rfl⟩
  | routes number next ih => exact ih (r.registry x number) (h _)
  | ask s c next ih =>
    rw [Obeys, hquiet.1] at h
    exact absurd h.1 Bool.false_ne_true
  | emit y rest ih =>
    rw [Obeys, hquiet.2] at h
    exact absurd h.1 Bool.false_ne_true

/-- **A visitor that cancels the run sees nothing more**, and no store is asked any more: the run
ends cancelled, unless it was over or its budget spent. -/
theorem Obeys.of_cancelled_visit (h : t.Obeys strict Q k) (r : Runner σ Out)
    (hm : (r.diary x t).moments = earlier ++ m :: later) {y : Out} (hstep : m.step = .handed y none)
    {reason : String} (hc : r.cancelled m.after = some reason) :
    later = [] ∧ (r.diary x t).state = m.after ∧
      ((r.diary x t).outcome = .failed (.cancelled reason) ∨ (r.diary x t).outcome = .spent ∨
        ∃ a, (r.diary x t).outcome = .finished a ∧ Q a .shown) := by
  induction t generalizing k x earlier with
  | done a => exact absurd rfl (ne_nil_of_moment hm)
  | fail f => exact absurd rfl (ne_nil_of_moment hm)
  | spent => exact absurd rfl (ne_nil_of_moment hm)
  | check next ih =>
    rw [Runner.diary_check] at hm ⊢
    cases hcx : r.cancelled x with
    | none =>
      rw [hcx] at hm
      exact ih h hm
    | some reason =>
      rw [hcx] at hm
      exact absurd rfl (ne_nil_of_moment hm)
  | routes number next ih => exact ih (r.registry x number) (h _) hm
  | ask s c next ih =>
    rw [Runner.diary_ask] at hm ⊢
    rcases List.cons_eq_append_iff.1 hm with ⟨rfl, hfirst⟩ | ⟨es, rfl, hrest⟩
    · obtain ⟨rfl, -⟩ := List.cons.inj hfirst
      cases hstep
    · obtain ⟨a, ha, hnext⟩ := h.exists_answer r hrest
      rw [ha] at hrest ⊢
      exact ih _ hnext hrest
  | emit y' rest ih =>
    rw [Runner.diary_emit] at hm ⊢
    rcases hv : r.visit x y' with ⟨_ | f, z⟩
    · rw [hv] at hm
      rcases List.cons_eq_append_iff.1 hm with ⟨rfl, hfirst⟩ | ⟨es, rfl, hrest⟩
      · obtain ⟨rfl, hrest⟩ := List.cons.inj hfirst
        obtain ⟨hnone, hstate, hend⟩ := h.2.of_cancelled (.inr rfl) r hc
        refine ⟨hrest.trans hnone, hstate, ?_⟩
        rcases hend with hend | hend | hend | ⟨hne, -⟩
        · exact .inl hend
        · exact .inr (.inl hend)
        · exact .inr (.inr hend)
        · exact absurd rfl hne
      · exact ih h.2 hrest
    · rw [hv] at hm
      rcases List.cons_eq_append_iff.1 hm with ⟨rfl, hfirst⟩ | ⟨es, rfl, hrest⟩
      · obtain ⟨rfl, -⟩ := List.cons.inj hfirst
        cases hstep
      · exact absurd rfl (ne_nil_of_moment hrest)

/-- **Once the token is cancelled** no call is made any more, and a strict program hands nothing
out. -/
theorem Obeys.once_cancelled (h : t.Obeys strict Q k) (r : Runner σ Out) (hr : r.Sticky)
    (hk : k.isChecked = true → r.cancelled x = none)
    (hm : (r.diary x t).moments = earlier ++ m :: later)
    (hc : r.cancelled m.before ≠ none ∨ r.cancelled m.after ≠ none) :
    ∀ m' ∈ later, strict = false ∧ m'.step.call? = none := by
  have hfollows := r.follows_diary x t
  rw [hm] at hfollows
  obtain ⟨z, -, hrest⟩ := r.follows_append.1 hfollows
  have hlate := r.cancelled_of_follows hr hrest.2.2 (r.cancelled_after hr hrest hc)
  intro m' hm'
  have hmem : m' ∈ (r.diary x t).moments := by
    rw [hm]
    exact List.mem_append_right _ (List.mem_cons_of_mem _ hm')
  have hquiet := mt (h.uncancelled r hk m' hmem) (hlate m' hm')
  rw [not_or] at hquiet
  exact ⟨Bool.not_eq_true _ ▸ hquiet.1, Option.not_isSome_iff_eq_none.1 hquiet.2⟩

end Runs

end Traversal

end Arboretum
