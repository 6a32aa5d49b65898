import Arboretum.Proofs.Traversal.Protocol
import Arboretum.Walk

/-!
# A walk obeys the protocol

A walk checks the token before it asks a store and reports what fails.  A visitor is called without
a check, right after the join that makes its handle; but after a visit the walk checks again before
it does anything else, also when the last entry of the last directory was visited, since the agenda
holds that entry then.

A walk whose budget is spent says nothing of what would come next.  With one unit more it does the
same and goes on with a check (`extends_ofTexts`).
-/

namespace Arboretum

/-! ## 1. Budgets -/

namespace Traversal

variable {σ Out α β γ : Type}

/-- **A program with a larger budget**: it does what the first does, and goes on with a check where
the budget of the first is spent. -/
inductive Extends : Traversal Out α → Traversal Out α → Prop
  | done (a : α) : Extends (.done a) (.done a)
  | fail (f : Fault) : Extends (.fail f) (.fail f)
  | spent (next : Traversal Out α) : Extends .spent (.check next)
  | check {t u : Traversal Out α} (h : Extends t u) : Extends (.check t) (.check u)
  | routes (number : Nat) {t u : Registry → Traversal Out α} (h : ∀ g, Extends (t g) (u g)) :
    Extends (.routes number t) (.routes number u)
  | ask (s : Store) (c : Call) {t u : Except Fault c.Answer → Traversal Out α}
    (h : ∀ answer, Extends (t answer) (u answer)) : Extends (.ask s c t) (.ask s c u)
  | emit (x : Out) {t u : Traversal Out α} (h : Extends t u) : Extends (.emit x t) (.emit x u)

theorem Extends.bind {t u : Traversal Out α} (h : t.Extends u) {f g : α → Traversal Out β}
    (hf : ∀ a, (f a).Extends (g a)) : (t.bind f).Extends (u.bind g) := by
  induction h with
  | done a => exact hf a
  | fail fault => exact .fail fault
  | spent next => exact .spent (next.bind g)
  | check h ih => exact .check ih
  | routes number h ih => exact .routes number ih
  | ask s c h ih => exact .ask s c ih
  | emit x h ih => exact .emit x ih

theorem extends_checked : (checked : Traversal Out Unit).Extends checked := .check (.done ())

theorem extends_call (s : Store) (path : String) (c : Call) :
    (call s path c : Traversal Out c.Answer).Extends (call s path c) := by
  refine .check (.ask s c fun answer => ?_)
  cases answer with
  | ok a => exact .done a
  | error f => exact .fail _

theorem extends_forEachCollect {f : β → Traversal Out γ} (h : ∀ x, (f x).Extends (f x))
    (xs : List β) : (forEachCollect f xs).Extends (forEachCollect f xs) := by
  induction xs with
  | nil => exact .done []
  | cons x xs ih => exact (h x).bind fun y => ih.bind fun ys => .done (y :: ys)

theorem extends_resolve (h : Handle) :
    (h.resolve : Traversal Out (Store × String)).Extends h.resolve := by
  refine .routes h.registryNumber fun g => ?_
  show Extends (g.resolve h.uri) (g.resolve h.uri)
  unfold Registry.resolve
  rcases g.route h.uri with ⟨s, _ | parts⟩
  · exact .done (s, "")
  · refine .ask s (.join parts) fun answer => ?_
    cases answer with
    | ok path => exact .done (s, path)
    | error f => exact .fail f

/-- **What a larger budget changes**: nothing, or the run goes on with a check where it was spent. -/
theorem Extends.diary {t u : Traversal Out α} (h : t.Extends u) (r : Runner σ Out) (x : σ) :
    ((r.diary x t).outcome ≠ .spent ∧ r.diary x u = r.diary x t) ∨
    ((r.diary x t).outcome = .spent ∧ ∃ next, r.diary x u =
      (r.diary (r.diary x t).state (.check next)).behind (r.diary x t).moments) := by
  induction h generalizing x with
  | done a => exact .inl ⟨nofun, rfl⟩
  | fail f => exact .inl ⟨nofun, rfl⟩
  | spent next => exact .inr ⟨rfl, next, rfl⟩
  | check h ih =>
    rw [Runner.diary_check, Runner.diary_check]
    cases r.cancelled x with
    | none => exact ih x
    | some reason => exact .inl ⟨nofun, rfl⟩
  | routes number h ih => exact ih (r.registry x number) x
  | ask s c h ih =>
    rw [Runner.diary_ask, Runner.diary_ask]
    rcases ih (r.ask x s c).1 (r.ask x s c).2 with ⟨hne, hsame⟩ | ⟨hspent, next, hmore⟩
    · exact .inl ⟨hne, congrArg (Diary.behind _) hsame⟩
    · exact .inr ⟨hspent, next, (congrArg (Diary.behind _) hmore).trans (Diary.behind_behind _ _ _)⟩
  | emit y h ih =>
    rw [Runner.diary_emit, Runner.diary_emit]
    rcases r.visit x y with ⟨_ | f, z⟩
    · rcases ih z with ⟨hne, hsame⟩ | ⟨hspent, next, hmore⟩
      · exact .inl ⟨hne, congrArg (Diary.behind _) hsame⟩
      · exact .inr ⟨hspent, next,
          (congrArg (Diary.behind _) hmore).trans (Diary.behind_behind _ _ _)⟩
    · exact .inl ⟨nofun, rfl⟩

end Traversal

namespace Walk

open Traversal (Stage Begun)

variable {k : Stage} {settings : Settings}

/-- A whole walk, as it is asked for: the patterns are read, the base is bound, and the walk runs. -/
def ofTexts (budget : Nat) (base : Base) (patterns : List String) (registry : Option Nat)
    (directories : Bool) : Traversal Visit Unit :=
  (prepare base patterns registry).bind fun (h, number, segments) =>
    run budget number h segments directories

/-! ## 2. The protocol -/

/-- **Handing out a directory obeys**; where something was shown, there are paths to work off. -/
theorem obeys_visitDirectory (path : String) (k : Stage) :
    (visitDirectory settings path).Obeys false
      (fun paths k => Begun k ∧ (paths = [] → k ≠ .shown)) k := by
  unfold visitDirectory
  refine (Traversal.obeys_all (Q := fun _ k => k = .checked false) fun _ => rfl).bind ?_
  rintro entries _ rfl
  refine (Traversal.obeys_forEachCollect (I := Begun) rfl fun entry _ k hk => ?_).mono ?_
  · refine (Traversal.obeys_checked (Q := fun _ => Begun)
      (by rwa [Begun, Stage.isFirst_check])).bind ?_
    intro _ k hk
    refine (Traversal.obeys_call (Q := fun _ k => k = .asked) rfl ?_ fun _ => rfl).bind ?_
    · rw [hk, Bool.false_and]
    · rintro below _ rfl
      dsimp only
      split
      · exact ⟨rfl, rfl⟩
      · exact rfl
  · rintro paths k ⟨hk, hnil⟩
    refine ⟨hk, fun h => ?_⟩
    rw [hnil h]
    exact Stage.noConfusion

/-- **Working off obeys**, and ends after a check.  By induction on the budget. -/
theorem obeys_workOff (budget : Nat) (agenda : List String) (hk : Begun k)
    (hagenda : agenda = [] → k ≠ .shown) :
    (workOff settings budget agenda).Obeys false (fun _ k => k ≠ .shown) k := by
  induction budget generalizing agenda k with
  | zero =>
    cases agenda with
    | nil => exact hagenda rfl
    | cons path later => exact trivial
  | succ budget ih =>
    cases agenda with
    | nil => exact hagenda rfl
    | cons path later =>
      have hasked : ∀ later, (workOff settings budget later).Obeys false (fun _ k => k ≠ .shown)
          .asked := fun later => ih later rfl fun _ => Stage.noConfusion
      refine (Traversal.obeys_checked (Q := fun _ => Begun)
        (by rwa [Begun, Stage.isFirst_check])).bind ?_
      intro _ k hk
      refine (Traversal.obeys_call (Q := fun _ k => k = .asked) rfl (Bool.and_false _)
        fun _ => rfl).bind ?_
      rintro (_ | info) _ rfl
      · exact hasked later
      · dsimp only
        split
        · refine (obeys_visitDirectory path _).bind ?_
          rintro paths k ⟨hk, hnil⟩
          refine ih _ hk fun h => hnil ?_
          exact (List.append_eq_nil_iff.1 h).1
        · exact hasked later

/-- **The run of a walk obeys**, from its first check on, and ends after a check. -/
theorem obeys_run (budget registry : Nat) (base : Handle) (segments : List Pattern.Segment)
    (directories : Bool) :
    (run budget registry base segments directories).Obeys false (fun _ k => k ≠ .shown) .fresh := by
  unfold run
  refine (Traversal.obeys_checked (Q := fun _ k => k = .checked true) rfl).bind ?_
  rintro _ _ rfl
  refine (base.obeys_resolve (Q := fun _ _ => True) (fun _ => trivial) fun _ => trivial).bind ?_
  rintro ⟨s, path⟩ k -
  refine (Traversal.obeys_call (Q := fun _ k => k = .asked) rfl (Bool.and_false _)
    fun _ => rfl).bind ?_
  rintro (_ | info) _ rfl
  · exact ⟨rfl, Stage.noConfusion⟩
  · dsimp only
    split
    · exact ⟨rfl, Stage.noConfusion⟩
    · refine (Traversal.obeys_registry (Q := fun _ k => k = .asked) fun _ => rfl).bind ?_
      rintro g _ rfl
      refine (Traversal.obeys_checked (Q := fun _ _ => True) trivial).bind ?_
      intro _ k _
      refine (obeys_visitDirectory path k).bind ?_
      rintro paths k ⟨hk, hnil⟩
      exact obeys_workOff budget paths hk hnil

theorem ofTexts_of_error {patterns : List String} {f : Fault}
    (hp : Listing.readNames patterns = .error f) (budget : Nat) (base : Base)
    (registry : Option Nat) (directories : Bool) :
    ofTexts budget base patterns registry directories = .fail f := by
  unfold ofTexts prepare
  rw [hp]
  rfl

/-- The walk from a handle that is bound already. -/
theorem ofTexts_of_ok {patterns : List String} {segments : List Pattern.Segment}
    (hp : Listing.readNames patterns = .ok segments) {base : Handle} {registry : Option Nat}
    (hb : registry = none ∨ base.registry = registry) : ∃ number, ∀ budget directories,
      ofTexts budget (.handle base) patterns registry directories =
        run budget number base segments directories := by
  obtain ⟨number, hbind⟩ := base.bind_of_bound Visit hb
  refine ⟨number, fun budget directories => ?_⟩
  unfold ofTexts prepare
  rw [hp, hbind]
  rfl

/-- What keeps name patterns from being read is a flaw of one of them. -/
theorem exists_flaw_of_readNames {patterns : List String} {f : Fault}
    (hp : Listing.readNames patterns = .error f) : ∃ text flaw, f = .invalidPattern text flaw := by
  induction patterns generalizing f with
  | nil => cases hp
  | cons text texts ih =>
    rw [Listing.readNames] at hp
    cases hs : Pattern.Segment.readName text with
    | error flaw =>
      rw [hs] at hp
      exact ⟨text, flaw, (Except.error.inj hp).symm⟩
    | ok segment =>
      rw [hs] at hp
      dsimp only at hp
      cases hr : Listing.readNames texts with
      | error fault =>
        rw [hr] at hp
        rw [← Except.error.inj hp]
        exact ih hr
      | ok segments =>
        rw [hr] at hp
        cases hp

variable {base : Handle} {registry : Option Nat}

/-- A walk from a handle that is bound to the registry of the walk, if any. -/
theorem obeys_ofTexts (hb : registry = none ∨ base.registry = registry) (budget : Nat)
    (patterns : List String) (directories : Bool) :
    (ofTexts budget (.handle base) patterns registry directories).Obeys false
      (fun _ k => k ≠ .shown) .fresh := by
  cases hp : Listing.readNames patterns with
  | error f =>
    obtain ⟨text, flaw, rfl⟩ := exists_flaw_of_readNames hp
    rw [ofTexts_of_error hp]
    exact ⟨rfl, Stage.noConfusion⟩
  | ok segments =>
    obtain ⟨number, hrun⟩ := ofTexts_of_ok hp hb
    rw [hrun]
    exact obeys_run budget number base segments directories

/-- A walk checks its token before anything else, unless a pattern is unreadable. -/
theorem opens_ofTexts (hb : registry = none ∨ base.registry = registry) (budget : Nat)
    (patterns : List String) (directories : Bool) :
    (ofTexts budget (.handle base) patterns registry directories).OpensChecked := by
  cases hp : Listing.readNames patterns with
  | error f =>
    obtain ⟨text, flaw, rfl⟩ := exists_flaw_of_readNames hp
    exact .inl ⟨text, flaw, ofTexts_of_error hp budget (.handle base) registry directories⟩
  | ok segments =>
    obtain ⟨number, hrun⟩ := ofTexts_of_ok hp hb
    exact .inr ⟨_, hrun budget directories⟩

/-! ## 3. One unit more -/

theorem extends_visitDirectory (settings : Settings) (path : String) :
    (visitDirectory settings path).Extends (visitDirectory settings path) := by
  have hall : (Listing.all settings.store path [] : Traversal Visit (List Entry)).Extends
      (Listing.all settings.store path []) :=
    (Traversal.extends_call _ _ _).bind fun _ => Traversal.extends_checked.bind fun _ => .done _
  refine hall.bind fun entries => Traversal.extends_forEachCollect (fun entry => ?_) entries
  refine Traversal.extends_checked.bind fun _ => (Traversal.extends_call _ _ _).bind fun below => ?_
  dsimp only
  split
  · exact .emit _ (.done below)
  · exact .done below

theorem extends_workOff (settings : Settings) (budget : Nat) (agenda : List String) :
    (workOff settings budget agenda).Extends (workOff settings (budget + 1) agenda) := by
  induction budget generalizing agenda with
  | zero =>
    cases agenda with
    | nil => exact .done ()
    | cons path later => exact .spent _
  | succ budget ih =>
    cases agenda with
    | nil => exact .done ()
    | cons path later =>
      refine Traversal.extends_checked.bind fun _ => (Traversal.extends_call _ _ _).bind ?_
      rintro (_ | info)
      · exact ih later
      · dsimp only
        split
        · exact (extends_visitDirectory settings path).bind fun entries => ih (entries ++ later)
        · exact ih later

/-- **A walk with one unit more** does the same, and goes on where it was spent. -/
theorem extends_ofTexts (hb : registry = none ∨ base.registry = registry) (budget : Nat)
    (patterns : List String) (directories : Bool) :
    (ofTexts budget (.handle base) patterns registry directories).Extends
      (ofTexts (budget + 1) (.handle base) patterns registry directories) := by
  cases hp : Listing.readNames patterns with
  | error f =>
    rw [ofTexts_of_error hp, ofTexts_of_error hp]
    exact .fail f
  | ok segments =>
    obtain ⟨number, hrun⟩ := ofTexts_of_ok hp hb
    rw [hrun, hrun]
    refine Traversal.extends_checked.bind fun _ => (Traversal.extends_resolve base).bind ?_
    rintro ⟨s, path⟩
    refine (Traversal.extends_call _ _ _).bind ?_
    rintro (_ | info)
    · exact .fail _
    · dsimp only
      split
      · exact .fail _
      · refine .routes number fun g => Traversal.extends_checked.bind fun _ => ?_
        exact (extends_visitDirectory _ path).bind fun entries => extends_workOff _ budget entries

/-- **A visitor that cancels a walk sees nothing more**, and the walk ends cancelled, if not with
this budget then with one unit more. -/
theorem of_cancelled_visit {σ : Type} (hb : registry = none ∨ base.registry = registry)
    (r : Runner σ Visit) (x : σ) (budget : Nat) (patterns : List String) (directories : Bool)
    {earlier later : List (Moment σ Visit)} {m : Moment σ Visit} {y : Visit} {reason : String}
    (hm : (r.diary x (ofTexts budget (.handle base) patterns registry directories)).moments =
      earlier ++ m :: later) (hstep : m.step = .handed y none)
    (hc : r.cancelled m.after = some reason) :
    later = [] ∧
      (r.diary x (ofTexts (budget + 1) (.handle base) patterns registry directories)).moments =
        earlier ++ [m] ∧
      (r.diary x (ofTexts (budget + 1) (.handle base) patterns registry directories)).outcome =
        .failed (.cancelled reason) := by
  obtain ⟨rfl, hstate, hend⟩ :=
    (obeys_ofTexts hb budget patterns directories).of_cancelled_visit r hm hstep hc
  refine ⟨rfl, ?_⟩
  rcases (extends_ofTexts hb budget patterns directories).diary r x with
    ⟨hne, hsame⟩ | ⟨-, next, hmore⟩
  · rw [hsame]
    refine ⟨hm, ?_⟩
    rcases hend with hend | hend | ⟨-, -, hshown⟩
    · exact hend
    · exact absurd hend hne
    · exact absurd rfl hshown
  · rw [hstate, Runner.diary_check, hc] at hmore
    rw [hmore]
    refine ⟨?_, rfl⟩
    rw [Diary.behind, hm]
    exact List.append_nil _

end Walk

end Arboretum
