import Arboretum.Proofs.Glob.Conduct
import Arboretum.Proofs.Registry.Places
import Arboretum.Proofs.Walk.Conduct

/-!
# How globs and walks behave towards tokens and stores

Globs and walks obey one protocol, and so two things hold of them whoever runs them, whatever the
stores answer and whatever happens while they do:

* `heeds_token`: nothing is asked once the token is cancelled, no further match is handed out, and
  a visitor that cancels a walk ends it;
* `reports_failures`: a call that fails ends the run, and the fault is reported, but for the join
  that resolves the start of the run, whose fault escapes as it is.

Both are about a base that is bound to the registry of the run already: binding it elsewhere asks a
store to join before the run has started.
-/

namespace Arboretum

variable {σ Out α : Type}

/-! ## 1. Tokens -/

/-- **A run heeds its token**, by its diary. -/
structure Runner.Heeds (r : Runner σ Out) (strict : Bool) (x : σ) (d : Diary σ Out α) : Prop where
  /-- every call starts in a state that is not cancelled; so, where `strict`, does everything handed
  out -/
  uncancelled : ∀ m ∈ d.moments, strict = true ∨ m.step.call?.isSome = true →
    r.cancelled m.before = none
  /-- a run that is cancelled at its start does nothing but fail -/
  at_start : ∀ reason, r.cancelled x = some reason → d.moments = [] ∧
    (d.outcome = .failed (.cancelled reason) ∨
      ∃ text flaw, d.outcome = .failed (.invalidPattern text flaw))
  /-- once a token that stays cancelled is cancelled, no call is made; where `strict`, nothing is
  handed out -/
  once_cancelled : r.Sticky → ∀ earlier m later, d.moments = earlier ++ m :: later →
    r.cancelled m.before ≠ none ∨ r.cancelled m.after ≠ none →
    ∀ m' ∈ later, strict = false ∧ m'.step.call? = none

/-- **Obeying the protocol is heeding the token.** -/
theorem Traversal.Obeys.heeds {strict : Bool} {Q : α → Stage → Prop} {t : Traversal Out α}
    (h : t.Obeys strict Q .fresh) (ho : t.OpensChecked) (r : Runner σ Out) (x : σ) :
    r.Heeds strict x (r.diary x t) where
  uncancelled := h.uncancelled r fun hchecked => absurd hchecked Bool.false_ne_true
  at_start reason hc := by
    rcases ho with ⟨text, flaw, rfl⟩ | ⟨next, rfl⟩
    · exact ⟨rfl, .inr ⟨text, flaw, rfl⟩⟩
    · rw [Runner.diary_check, hc]
      exact ⟨rfl, .inl rfl⟩
  once_cancelled hr earlier m later hm hc :=
    h.once_cancelled r hr (fun hchecked => absurd hchecked Bool.false_ne_true) hm hc

variable {base : Handle} {registry : Option Nat}

/-- **Globs and walks heed their tokens**, for any stores, consumers and visitors.  No call starts
in a cancelled state, and a glob hands nothing out in one; cancelled at the start, neither asks
anything.  A visitor that cancels a walk sees nothing more, and the walk ends cancelled; should its
budget have ended there, then with one unit more. -/
theorem heeds_token (hb : registry = none ∨ base.registry = registry) :
    (∀ (r : Runner σ Match) (x : σ) (hinting : Bool),
      (∀ text, r.Heeds true x
        (r.diary x (Glob.ofText (.handle base) text registry hinting))) ∧
      ∀ p, r.Heeds true x (r.diary x (Glob.ofPattern (.handle base) p registry hinting))) ∧
    ∀ (r : Runner σ Walk.Visit) (x : σ) (patterns : List String) (directories : Bool),
      let walk := fun budget =>
        r.diary x (Walk.ofTexts budget (.handle base) patterns registry directories)
      ∀ budget, r.Heeds false x (walk budget) ∧
        ∀ earlier m later y reason, (walk budget).moments = earlier ++ m :: later →
          m.step = .handed y none → r.cancelled m.after = some reason →
          later = [] ∧ (walk (budget + 1)).moments = earlier ++ [m] ∧
            (walk (budget + 1)).outcome = .failed (.cancelled reason) := by
  refine ⟨fun r x hinting => ⟨fun text => ?_, fun p => ?_⟩, fun r x patterns directories => ?_⟩
  · exact (Glob.obeys_ofText hb text hinting).heeds (Glob.opens_ofText hb text hinting) r x
  · exact (Glob.obeys_ofPattern hb p hinting).heeds (Glob.opens_ofPattern hb p hinting) r x
  · intro walk budget
    refine ⟨?_, fun earlier m later y reason hm hstep hc => ?_⟩
    · exact (Walk.obeys_ofTexts hb budget patterns directories).heeds
        (Walk.opens_ofTexts hb budget patterns directories) r x
    · exact Walk.of_cancelled_visit hb r x budget patterns directories hm hstep hc

/-- A walk from `/` over a store that answers every listing with one directory, and a visitor that
cancels at once: four calls, one visit, and the end. -/
theorem heeds_token_small :
    let r : Runner Bool Walk.Visit := {
      ask := fun cancelled _ c => (match c with
        | .list _ _ => .ok [⟨"b", true⟩]
        | .stat path => .ok (some ⟨path, "", true, none, true⟩)
        | .join parts => .ok ("/".intercalate parts)
        | .read _ => .ok .empty
        | .write _ _ => .ok ()
        | .makeDir _ _ => .ok ()
        | .remove _ => .ok (), cancelled)
      registry := fun _ _ => World.firstRegistry
      cancelled := fun cancelled => if cancelled then some "enough" else none
      visit := fun _ _ => (none, true) }
    let walk := fun budget => r.diary false (Walk.ofTexts budget (.handle ⟨"/", none⟩) [] none true)
    (walk 0).calls.length = 4 ∧ (walk 0).outcome = .spent ∧ (walk 1).moments = (walk 0).moments ∧
      (walk 1).outcome = .failed (.cancelled "enough") := by
  intro r walk
  have hb : (none : Option Nat) = none ∨ (Handle.mk "/" none).registry = none := .inl rfl
  have hlast : (walk 0).moments = (walk 0).moments.take 4 ++
      ⟨false, .handed (⟨"//b", some commonRegistry⟩, ⟨"b", true⟩) none, true⟩ :: [] := rfl
  obtain ⟨-, hmoments, houtcome⟩ :=
    ((heeds_token hb).2 r false [] true 0).2 _ _ _ _ "enough" hlast rfl rfl
  exact ⟨rfl, rfl, hmoments.trans hlast.symm, houtcome⟩

/-! ## 2. Faults -/

/-- **A run reports what fails**, by its diary. -/
structure Diary.Reports (d : Diary σ Out α) : Prop where
  /-- a call that fails is the last moment, and the run ends with the report: one of the library's
  own faults as it is, any other one with the store, the path and the fault itself as its cause -/
  reported : ∀ earlier m later s c f, d.moments = earlier ++ m :: later →
    m.step = .asked s c (.error f) → earlier ≠ [] ∨ c.isJoin = false →
    later = [] ∧ d.outcome = .failed (f.reported c.operation s c.about)
  /-- but for a join that is the first moment, whose fault escapes as it is -/
  escaped : ∀ m later s parts f, d.moments = m :: later → m.step = .asked s (.join parts) (.error f) →
    later = [] ∧ d.outcome = .failed f
  /-- a fault of a run that is not the library's own is the visitor's or escaped so -/
  failed : ∀ f, d.outcome = .failed f → f.isOwn = true ∨
    (∃ earlier m y, d.moments = earlier ++ [m] ∧ m.step = .handed y (some f)) ∨
    ∃ m s parts, d.moments = [m] ∧ m.step = .asked s (.join parts) (.error f)

/-- **Obeying the protocol is reporting what fails.** -/
theorem Traversal.Obeys.reports {strict : Bool} {Q : α → Stage → Prop} {t : Traversal Out α}
    (h : t.Obeys strict Q .fresh) (r : Runner σ Out) (x : σ) : (r.diary x t).Reports where
  reported earlier m later s c f hm hstep hlate := by
    obtain ⟨hlater, hend⟩ := h.of_failed_call r hm hstep
    refine ⟨hlater, hend.trans ?_⟩
    rcases hlate with hlate | hlate
    · rw [List.isEmpty_eq_false_iff.2 hlate, Bool.and_false, Call.failure_of_not_first]
    · rw [Call.failure, hlate, Bool.and_false, if_neg Bool.false_ne_true]
  escaped m later s parts f hm hstep := by
    have hfirst : (r.diary x t).moments = [] ++ m :: later := hm
    exact h.of_failed_call r hfirst hstep
  failed f hf := by
    rcases h.of_failed r hf with hown | hvisit | ⟨-, hjoin⟩
    · exact .inl hown
    · exact .inr (.inl hvisit)
    · exact .inr (.inr hjoin)

/-- **Globs and walks report what fails**, whatever the stores answer: only the join that resolves
the base of a run, or the root of its pattern, lets a fault of its store escape. -/
theorem reports_failures (hb : registry = none ∨ base.registry = registry) :
    (∀ (r : Runner σ Match) (x : σ) (hinting : Bool),
      (∀ text, (r.diary x (Glob.ofText (.handle base) text registry hinting)).Reports) ∧
      ∀ p, (r.diary x (Glob.ofPattern (.handle base) p registry hinting)).Reports) ∧
    ∀ (r : Runner σ Walk.Visit) (x : σ) (budget : Nat) (patterns : List String)
      (directories : Bool),
      (r.diary x (Walk.ofTexts budget (.handle base) patterns registry directories)).Reports :=
  ⟨fun r x hinting => ⟨fun text => (Glob.obeys_ofText hb text hinting).reports r x,
      fun p => (Glob.obeys_ofPattern hb p hinting).reports r x⟩,
    fun r x budget patterns directories =>
      (Walk.obeys_ofTexts hb budget patterns directories).reports r x⟩

/-- Stores that refuse every call: the walk from a path ends with the bare refusal of the join. -/
theorem reports_failures_refused :
    let boom : Fault := .foreign "RuntimeError" "boom"
    let r : Runner Unit Walk.Visit := {
      ask := fun x _ _ => (.error boom, x)
      registry := fun _ _ => World.firstRegistry
      cancelled := fun _ => none
      visit := fun x _ => (none, x) }
    (r.diary () (Walk.ofTexts 1 (.handle ⟨"/a", none⟩) [] none true)).outcome = .failed boom ∧
      boom.isOwn = false := by
  intro boom r
  have hb : (none : Option Nat) = none ∨ (Handle.mk "/a" none).registry = none := .inl rfl
  have hreports := (reports_failures hb).2 r () 1 [] true
  exact ⟨(hreports.escaped _ [] World.firstRegistry.home ["/a"] boom rfl rfl).2, rfl⟩

end Arboretum
