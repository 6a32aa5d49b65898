import Arboretum.Proofs.Registry.Places
import Arboretum.Proofs.Store.LeadingBack
import Arboretum.Proofs.Traversal.Ending
import Arboretum.Proofs.Walk.Conduct

/-!
# Which walks end

A walk of a tree in memory joins the names of a directory's entries to its path and puts the paths
on the agenda.  Where the tree does not lead back, every path on the agenda is one level further
down, and the count of what stands below it falls: the paths **settle** (`settles_of_not_leadsBack`).
Where it does, the agenda always holds a path from which the walk comes to that place, whatever the
budget (`outlasts_workOff`).  So a walk ends unless the tree leads back below its base
(`ends_unless_led_back`).
-/

namespace Arboretum

/-- A mounted store joins a path of plain names; if the path is tidy, of names. -/
theorem Store.IsMounted.exists_ofNames {s : Store} (hs : s.IsMounted) {parts : List String}
    {path : String} (hjoin : s.join parts = .ok path) :
    ∃ ns, path = Path.ofNames ns ∧ Path.ArePlain ns ∧ (Path.Tidy path → Path.AreNames ns) := by
  rw [Store.IsHome.join_eq (.inl hs), hs.joined_eq, Path.join_eq_clean] at hjoin
  have hpath := Except.ok.inj hjoin
  refine ⟨Path.names (Path.jointText (s.withoutMount parts)), ?_, Path.arePlain_names _, ?_⟩
  · rw [← hpath, Path.clean_eq_ofNames]
  · rw [← hpath]
    exact Path.areNames_of_tidy_clean

namespace Walk

variable {σ : Type} {r : Runner σ Visit} {Inv : σ → Prop} {s : Store} {st : Storage}
  {settings : Settings} {path : String} {inside : Forest ByteArray}

/-! ## 1. What one path costs -/

/-- What the agenda gets for a path: the paths of the entries, if it is a directory. -/
def opened (settings : Settings) (path : String) : Traversal Visit (List String) := do
  Traversal.checked
  match ← Traversal.call settings.store path (.stat path) with
  | some info => if info.isDirectory then visitDirectory settings path else return []
  | none => return []

/-- **Working off a path** opens it, and goes on with what it holds. -/
theorem workOff_cons (settings : Settings) (budget : Nat) (path : String) (later : List String) :
    workOff settings (budget + 1) (path :: later) =
      (opened settings path).bind fun entries => workOff settings budget (entries ++ later) := by
  refine congrArg Traversal.check (congrArg Traversal.check ?_)
  refine congrArg (Traversal.ask settings.store (.stat path)) (funext fun answer => ?_)
  rcases answer with f | _ | info
  · rfl
  · rfl
  · show (if info.isDirectory then _ else _ : Traversal Visit Unit) =
      (if info.isDirectory then _ else _ : Traversal Visit (List String)).bind _
    split <;> rfl

section Opening

variable (he : settings.store = s) (hr : r.Quiet Inv s st) (hk : s.kind = .memory)

include he hr hk

/-- Showing a directory is one call, and one more for each entry. -/
theorem ends_visitDirectory (hs : s.IsMounted) (hhead : path.toList.head? = some '/')
    (hlook : (st.memory s.id).lookup path = some (.folder inside)) :
    r.Ends Inv (visitDirectory settings path) (1 + inside.toList.length)
      (MemoryTree.below path inside) := by
  have hlist : (st.ask s (.list path [])).1 = .ok (Storage.entriesOf inside) := by
    rw [Storage.ask_memory hk]
    simp only [Storage.askMemory, MemoryTree.list, hlook]
    exact congrArg Except.ok (List.filter_eq_self.2 fun _ _ => rfl)
  have hjoin : ∀ name, (st.ask s (.join [path, name])).1 =
      .ok (Path.join [path, name]) := by
    intro name
    rw [Storage.ask_memory hk]
    simp only [Storage.askMemory, Store.join, hk, hs.withoutMount_of_slash hhead]
  have hall : r.Ends Inv (Listing.all s path [] : Traversal Visit (List Entry)) 1
      (Storage.entriesOf inside) := by
    refine (hr.ends_call rfl hlist path).bind (m := 0) ?_
    exact hr.ends_checked_bind (Runner.ends_done _)
  have heach : ∀ entry ∈ Storage.entriesOf inside, r.Ends Inv (do
      Traversal.checked
      let below ← Traversal.call s path (.join [path, entry.name])
      if settings.wants entry then Traversal.give (settings.handle below, entry)
      return below : Traversal Visit String) 1 (Path.join [path, entry.name]) := by
    intro entry _
    refine hr.ends_checked_bind ?_
    refine (hr.ends_call rfl (hjoin entry.name) path).bind (m := 0) ?_
    dsimp only
    split
    · refine (hr.ends_give _).bind (m := 0) ?_
      exact Runner.ends_done _
    · exact Runner.ends_done _
  have hentries := hall.bind (Runner.Quiet.ends_forEachCollect heach)
  have hlength : (Storage.entriesOf inside).length = inside.toList.length := List.length_map _
  have hbelow : (Storage.entriesOf inside).map (fun entry => Path.join [path, entry.name]) =
      MemoryTree.below path inside := by
    unfold Storage.entriesOf MemoryTree.below
    rw [List.map_map]
    rfl
  rw [hlength, hbelow, Nat.one_mul] at hentries
  unfold visitDirectory
  rw [he]
  exact hentries

/-- Opening a directory. -/
theorem ends_opened_folder (hs : s.IsMounted) {ns : List String}
    (hns : Path.names (Path.ofNames ns) = ns)
    (hat : (st.memory s.id).at? ns = some (.folder inside)) :
    r.Ends Inv (opened settings (Path.ofNames ns)) (1 + (1 + inside.toList.length))
      (MemoryTree.below (Path.ofNames ns) inside) := by
  have hhead : (Path.ofNames ns).toList.head? = some '/' := by
    rw [Path.toList_ofNames]
    rfl
  have hstat := MemoryTree.isDirectory_stat_of_names (t := st.memory s.id) hns
  rw [hat] at hstat
  obtain ⟨info, hinfo, hfolder⟩ := Option.map_eq_some_iff.1 hstat
  have hfolder : info.isDirectory = true := hfolder
  have hask : (st.ask s (.stat (Path.ofNames ns))).1 = .ok (some info) := by
    rw [Storage.ask_memory hk]
    exact congrArg Except.ok hinfo
  have hlook := (MemoryTree.lookup_of_names (t := st.memory s.id) hns).trans hat
  unfold opened
  rw [he]
  refine hr.ends_checked_bind ?_
  refine (hr.ends_call rfl hask (Path.ofNames ns)).bind ?_
  dsimp only
  rw [if_pos hfolder]
  exact ends_visitDirectory he hr hk hs hhead hlook

/-- Opening anything else. -/
theorem ends_opened_other {ns : List String} (hns : Path.names (Path.ofNames ns) = ns)
    (hat : ∀ inside, (st.memory s.id).at? ns ≠ some (.folder inside)) :
    r.Ends Inv (opened settings (Path.ofNames ns)) 1 [] := by
  have hstat := MemoryTree.isDirectory_stat_of_names (t := st.memory s.id) hns
  have hask : (st.ask s (.stat (Path.ofNames ns))).1 =
      .ok ((st.memory s.id).stat (Path.ofNames ns)) := by
    rw [Storage.ask_memory hk]
    rfl
  unfold opened
  rw [he]
  refine hr.ends_checked_bind ?_
  refine (hr.ends_call rfl hask (Path.ofNames ns)).bind (m := 0) ?_
  rcases hf : (st.memory s.id).stat (Path.ofNames ns) with _ | info
  · exact Runner.ends_done _
  · rw [hf] at hstat
    have hfile : ¬ info.isDirectory = true := by
      intro hd
      rcases hn : (st.memory s.id).at? ns with _ | _ | inside
      · rw [hn] at hstat
        cases hstat
      · rw [hn] at hstat
        exact Bool.noConfusion (hd.symm.trans (Option.some.inj hstat))
      · exact hat inside hn
    dsimp only
    rw [if_neg hfile]
    exact Runner.ends_done _

end Opening

/-! ## 2. Paths that settle -/

/-- **The paths settle**: with some units of the budget they are worked off by some number of
calls, whatever comes later, and what comes later is as before. -/
def Settles (r : Runner σ Visit) (Inv : σ → Prop) (s : Store) (paths : List String) : Prop :=
  ∃ cost n, ∀ settings : Settings, settings.store = s → ∀ spare later m,
    r.Ends Inv (workOff settings spare later) m () →
      r.Ends Inv (workOff settings (cost + spare) (paths ++ later)) (n + m) ()

theorem settles_nil : Settles r Inv s [] := by
  refine ⟨0, 0, fun settings _ spare later m h => ?_⟩
  rw [Nat.zero_add, Nat.zero_add]
  exact h

/-- Paths settle if each of them does. -/
theorem settles_of_forall {paths : List String} (h : ∀ path ∈ paths, Settles r Inv s [path]) :
    Settles r Inv s paths := by
  induction paths with
  | nil => exact settles_nil
  | cons path paths ih =>
    obtain ⟨cost, n, hfirst⟩ := h path List.mem_cons_self
    obtain ⟨cost', n', hrest⟩ := ih fun path hp => h path (List.mem_cons_of_mem _ hp)
    refine ⟨cost + cost', n + n', fun settings hs spare later m hlater => ?_⟩
    rw [Nat.add_assoc cost, Nat.add_assoc n]
    exact hfirst settings hs (cost' + spare) (paths ++ later) (n' + m)
      (hrest settings hs spare later m hlater)

/-- A path settles if it is opened and what it holds settles. -/
theorem settles_of_opened {entries : List String} {n : Nat}
    (ho : ∀ settings : Settings, settings.store = s → r.Ends Inv (opened settings path) n entries)
    (h : Settles r Inv s entries) : Settles r Inv s [path] := by
  obtain ⟨cost, n', hentries⟩ := h
  refine ⟨cost + 1, n + n', fun settings hs spare later m hlater => ?_⟩
  rw [Nat.add_right_comm, List.singleton_append, workOff_cons, Nat.add_assoc]
  exact (ho settings hs).bind (hentries settings hs spare later m hlater)

/-- A path where no directory stands settles. -/
theorem settles_of_no_folder (hr : r.Quiet Inv s st) (hk : s.kind = .memory) {ns : List String}
    (hns : Path.names (Path.ofNames ns) = ns)
    (hat : ∀ inside, (st.memory s.id).at? ns ≠ some (.folder inside)) :
    Settles r Inv s [Path.ofNames ns] := by
  exact settles_of_opened (fun settings he => ends_opened_other he hr hk hns hat) settles_nil

/-- **A path settles where the tree does not lead back.**  By induction on a bound of the count of
the directory at the path: what the path holds is one level further down. -/
theorem settles_of_not_leadsBack (hr : r.Quiet Inv s st) (hk : s.kind = .memory)
    (hs : s.IsMounted) (ht : (st.memory s.id).Plain) (bound : Nat) {ns : List String}
    (hns : Path.names (Path.ofNames ns) = ns)
    (hback : ¬ (st.memory s.id).LeadsBackBelow (Path.ofNames ns))
    (hbound : ∀ inside, (st.memory s.id).at? ns = some (.folder inside) → inside.count < bound) :
    Settles r Inv s [Path.ofNames ns] := by
  induction bound generalizing ns with
  | zero =>
    exact settles_of_no_folder hr hk hns fun inside hat => Nat.not_lt_zero _ (hbound inside hat)
  | succ bound ih =>
    by_cases hat : ∃ inside, (st.memory s.id).at? ns = some (.folder inside)
    · obtain ⟨inside, hat⟩ := hat
      have hlook := (MemoryTree.lookup_of_names hns).trans hat
      have hplain : Path.ArePlain ns := hns ▸ Path.arePlain_names (Path.ofNames ns)
      have hsettles : Settles r Inv s (MemoryTree.below (Path.ofNames ns) inside) := by
        refine settles_of_forall fun next hnext => ?_
        have hdown := MemoryTree.not_leadsBackBelow_of_below hback hlook hnext
        obtain ⟨m, rfl, hm⟩ := MemoryTree.exists_name_of_below ht hplain hlook
          (fun hbad => hback ⟨_, .refl, hbad⟩) hnext
        refine ih hm hdown fun g hg => ?_
        rw [Forest.at?_append_singleton hat] at hg
        exact Nat.lt_of_lt_of_le (Forest.count_lt_of_find? hg) (Nat.le_of_lt_succ (hbound _ hat))
      exact settles_of_opened
        (fun settings he => ends_opened_folder he hr hk hs hns hat) hsettles
    · exact settles_of_no_folder hr hk hns fun inside hin => hat ⟨inside, hin⟩

/-! ## 3. Agendas that do not -/

/-- **An agenda is never worked off** while it holds a path from which the walk comes to a directory
that leads back.  By induction on the budget: opening the path brings another such path. -/
theorem outlasts_workOff (he : settings.store = s) (hr : r.Quiet Inv s st)
    (hk : s.kind = .memory) (hs : s.IsMounted) (ht : (st.memory s.id).Plain) {bad : String}
    (hbad : (st.memory s.id).LeadsBackAt bad) (budget : Nat) {agenda : List String}
    (hagenda : ∀ path ∈ agenda, ∃ ns, Path.AreNames ns ∧ path = Path.ofNames ns)
    (hreach : ∃ path ∈ agenda,
      Relation.ReflTransGen (st.memory s.id).Offers path bad) :
    r.Outlasts Inv (workOff settings budget agenda) budget := by
  induction budget generalizing agenda with
  | zero =>
    obtain ⟨path, hpath, -⟩ := hreach
    cases agenda with
    | nil => exact absurd hpath List.not_mem_nil
    | cons path later => exact Runner.outlasts_spent
  | succ budget ih =>
    obtain ⟨path, hpath, hreach⟩ := hreach
    cases agenda with
    | nil => exact absurd hpath List.not_mem_nil
    | cons first later =>
      obtain ⟨ns, hns, rfl⟩ := hagenda first List.mem_cons_self
      have hnames := Path.names_ofNames hns
      rw [workOff_cons]
      by_cases hat : ∃ inside, (st.memory s.id).at? ns = some (.folder inside)
      · obtain ⟨inside, hat⟩ := hat
        have hlook := (MemoryTree.lookup_of_names hnames).trans hat
        have hnext : ∃ next ∈ MemoryTree.below (Path.ofNames ns) inside ++ later,
            Relation.ReflTransGen (st.memory s.id).Offers next bad := by
          rcases List.mem_cons.1 hpath with rfl | hpath
          · obtain ⟨next, hnext, hrest⟩ :=
              MemoryTree.exists_below_reaches ht hns hlook hbad hreach
            exact ⟨next, List.mem_append_left _ hnext, hrest⟩
          · exact ⟨path, List.mem_append_right _ hpath, hreach⟩
        have hlast := ih (fun next hnext => ?_) hnext
        · exact ((ends_opened_folder he hr hk hs hnames hat).outlasts_bind hlast).mono (by omega)
        · rcases List.mem_append.1 hnext with hnext | hnext
          · exact MemoryTree.areNames_of_below ht hns hlook hnext
          · exact hagenda next (List.mem_cons_of_mem _ hnext)
      · have hother := ends_opened_other he hr hk hnames fun inside hin => hat ⟨inside, hin⟩
        have hlater : path ∈ later := by
          rcases List.mem_cons.1 hpath with rfl | hpath
          · obtain ⟨inside, hin⟩ := MemoryTree.exists_folder_of_reaches hbad hreach
            rw [MemoryTree.lookup_of_names hnames] at hin
            exact absurd ⟨inside, hin⟩ hat
          · exact hpath
        have hrest : ∀ next ∈ later, ∃ ns, Path.AreNames ns ∧ next = Path.ofNames ns :=
          fun next hnext => hagenda next (List.mem_cons_of_mem _ hnext)
        have hlast := ih hrest ⟨path, hlater, hreach⟩
        exact (hother.outlasts_bind hlast).mono (by omega)

/-! ## 4. Whole walks -/

/-- What a walk does before it shows its base: it resolves the address and looks at the place. -/
def arrived (g : Registry) (uri : String) : Traversal Visit (Store × String) := do
  let (s, path) ← g.resolve uri
  match ← Traversal.call s path (.stat path) with
  | none => .fail (.baseMissing uri)
  | some info =>
    if !info.isDirectory then .fail (.directoryExpected uri)
    else return (s, path)

/-- What a walk does once it has arrived. -/
def begun (settings : Settings) (budget : Nat) (path : String) : Traversal Visit Unit := do
  Traversal.checked
  let entries ← visitDirectory settings path
  workOff settings budget entries

/-- **A walk arrives, and then it begins.**  It looks at the registry of the handle once, and at the
registry that it binds its handles to once more. -/
theorem run_eq (budget registry : Nat) (base : Handle) (segments : List Pattern.Segment)
    (directories : Bool) :
    run budget registry base segments directories =
      Traversal.checked.bind fun _ => (Traversal.registry base.registryNumber).bind fun g =>
        (arrived g base.uri).bind fun (s, path) => (Traversal.registry registry).bind fun g =>
          begun ⟨registry, g.home, s, segments, directories⟩ budget path := by
  refine congrArg Traversal.check (congrArg (Traversal.routes _) (funext fun g => ?_))
  refine Eq.trans ?_ (Traversal.bind_assoc (g.resolve base.uri) _ _).symm
  refine congrArg (Traversal.bind (g.resolve base.uri)) (funext fun there => ?_)
  refine congrArg Traversal.check (congrArg (Traversal.ask there.1 (.stat there.2)) ?_)
  funext answer
  rcases answer with f | _ | info
  · rfl
  · rfl
  · show (if !info.isDirectory then _ else _ : Traversal Visit Unit) =
      (if !info.isDirectory then _ else _ : Traversal Visit (Store × String)).bind _
    split <;> rfl

section Arriving

variable (hr : r.Quiet Inv s st) (hk : s.kind = .memory)

include hr hk

/-- A walk arrives at a directory after two calls. -/
theorem ends_arrived {g : Registry} {uri : String} {parts : List String}
    (hroute : g.route uri = (s, some parts)) (hjoin : s.join parts = .ok path)
    (hstat : ((st.memory s.id).stat path).map Info.isDirectory = some true) :
    r.Ends Inv (arrived g uri) 2 (s, path) := by
  have hask : (st.ask s (.join parts)).1 = .ok path := by
    rw [Storage.ask_memory hk]
    exact hjoin
  obtain ⟨info, hinfo, hfolder⟩ := Option.map_eq_some_iff.1 hstat
  have hlooked : (st.ask s (.stat path)).1 = .ok (some info) := by
    rw [Storage.ask_memory hk]
    exact congrArg Except.ok hinfo
  have hresolve : r.Ends Inv (g.resolve uri : Traversal Visit (Store × String)) 1 (s, path) := by
    unfold Registry.resolve
    rw [hroute]
    refine (hr.ends_plain rfl hask).bind (m := 0) ?_
    exact Runner.ends_done _
  refine hresolve.bind (m := 1) ?_
  refine (hr.ends_call rfl hlooked path).bind (m := 0) ?_
  dsimp only
  rw [hfolder]
  exact Runner.ends_done _

variable (hs : s.IsMounted) (hhead : path.toList.head? = some '/')
  (hlook : (st.memory s.id).lookup path = some (.folder inside))

include hs hhead hlook

/-- A walk that has begun ends if the entries of its base settle. -/
theorem ends_begun (hsettles : Settles r Inv s (MemoryTree.below path inside)) :
    ∃ enough n, ∀ settings : Settings, settings.store = s → ∀ budget, enough ≤ budget →
      r.Ends Inv (begun settings budget path) n () := by
  obtain ⟨cost, n, hcost⟩ := hsettles
  refine ⟨cost, 1 + inside.toList.length + (n + 0), fun settings he budget hb => ?_⟩
  obtain ⟨spare, rfl⟩ := Nat.exists_eq_add_of_le hb
  refine hr.ends_checked_bind ((ends_visitDirectory he hr hk hs hhead hlook).bind ?_)
  have hrest := hcost settings he spare [] 0
  rw [List.append_nil] at hrest
  refine hrest ?_
  cases spare <;> exact Runner.ends_done ()

/-- A walk that has begun lasts if the agenda does. -/
theorem outlasts_begun (he : settings.store = s) (budget : Nat)
    (hlast : r.Outlasts Inv (workOff settings budget (MemoryTree.below path inside)) budget) :
    r.Outlasts Inv (begun settings budget path) budget := by
  have hshown := ends_visitDirectory he hr hk hs hhead hlook
  exact (hr.outlasts_checked_bind (hshown.outlasts_bind hlast)).mono (Nat.le_add_left _ _)

end Arriving

/-- **A walk of a tree that grew in memory ends, unless the tree leads back below its base.**  If it
does not, then with enough of a budget the walk returns, after a number of calls that does not depend
on the budget.  But if the tree leads back below a tidy base, no budget is enough, and the walk makes
as many calls as one likes. -/
theorem ends_unless_led_back (hr : r.Quiet Inv s st) (hk : s.kind = .memory) (hs : s.IsMounted)
    (hg : st.Grown s) {h : Handle} {registry : Option Nat} {patterns : List String}
    {segments : List Pattern.Segment} {parts : List String}
    (hb : registry = none ∨ h.registry = registry)
    (hp : Listing.readNames patterns = .ok segments) (hjoin : s.join parts = .ok path)
    (hstat : ((st.memory s.id).stat path).map Info.isDirectory = some true)
    (hlook : (st.memory s.id).lookup path = some (.folder inside)) (directories : Bool) :
    let start x := Inv x ∧ (r.registry x h.registryNumber).route h.uri = (s, some parts)
    let diary x budget := r.diary x (ofTexts budget (.handle h) patterns registry directories)
    (¬ (st.memory s.id).LeadsBackBelow path → ∃ enough n, ∀ x budget, start x → enough ≤ budget →
      (diary x budget).outcome = .finished () ∧ (diary x budget).calls.length = n ∧
        Inv (diary x budget).state) ∧
    (Path.Tidy path → (st.memory s.id).LeadsBackBelow path → ∀ x budget, start x →
      (diary x budget).outcome = .spent ∧ budget ≤ (diary x budget).calls.length) := by
  intro start diary
  have ht := hg.plain hk
  obtain ⟨number, hrun⟩ := ofTexts_of_ok hp hb
  obtain ⟨ns, rfl, hplain, hnames⟩ := hs.exists_ofNames hjoin
  have hhead : (Path.ofNames ns).toList.head? = some '/' := by
    rw [Path.toList_ofNames]
    rfl
  -- The base is resolved by the registry of the first state, whatever becomes of it later.
  have hdiary : ∀ x budget, start x → diary x budget =
      r.diary x ((arrived (r.registry x h.registryNumber) h.uri).bind fun (s, path) =>
        (Traversal.registry number).bind fun g =>
          begun ⟨number, g.home, s, segments, directories⟩ budget path) := by
    rintro x budget ⟨hx, -⟩
    show r.diary x (ofTexts _ _ _ _ _) = _
    rw [hrun, run_eq, hr.diary_checked_bind hx]
    rfl
  constructor
  · intro hback
    have hsettles : Settles r Inv s (MemoryTree.below (Path.ofNames ns) inside) := by
      refine settles_of_forall fun next hnext => ?_
      have hdown := MemoryTree.not_leadsBackBelow_of_below hback hlook hnext
      obtain ⟨m, rfl, hm⟩ := MemoryTree.exists_name_of_below ht hplain hlook
        (fun hbad => hback ⟨_, .refl, hbad⟩) hnext
      exact settles_of_not_leadsBack hr hk hs ht _ hm hdown fun g hg =>
        Nat.lt_succ_of_le (Forest.count_le_of_at? hg)
    obtain ⟨enough, n, hends⟩ := ends_begun hr hk hs hhead hlook hsettles
    refine ⟨enough, 2 + n, fun x budget hstart hbudget => ?_⟩
    have harrived := ends_arrived hr hk hstart.2 hjoin hstat
    rw [hdiary x budget hstart]
    exact (harrived.bind (Runner.ends_registry_bind fun x _ => hends _ rfl budget hbudget)) x
      hstart.1
  · rintro htidy ⟨bad, hreach, hbad⟩ x budget hstart
    have hns := hnames htidy
    have hlasts : ∀ settings : Settings, settings.store = s →
        r.Outlasts Inv (begun settings budget (Path.ofNames ns)) budget := by
      intro settings he
      refine outlasts_begun hr hk hs hhead hlook he budget ?_
      refine outlasts_workOff he hr hk hs ht hbad budget
        (fun next hnext => MemoryTree.areNames_of_below ht hns hlook hnext) ?_
      exact MemoryTree.exists_below_reaches ht hns hlook hbad hreach
    have harrived := ends_arrived hr hk hstart.2 hjoin hstat
    rw [hdiary x budget hstart]
    refine ((harrived.outlasts_bind (m := budget) ?_).mono (Nat.le_add_left budget 2)) x hstart.1
    exact Runner.outlasts_registry_bind fun x _ => hlasts _ rfl

/-- In the store of the small world a walk of `/b` ends; once `/b/ /.` is written there, which
leaves a file whose name is a blank, a walk of `/b` does not. -/
theorem ends_unless_led_back_small :
    let s : Store := ⟨2, "mem://a", .memory⟩
    let after := (World.small.ask s (.write "/b/ /." .empty)).2
    let diary w budget := (World.runner none).diary w
      (ofTexts budget (.handle ⟨"mem://a/b", none⟩) [] none true)
    (∃ enough n, ∀ budget, enough ≤ budget →
      (diary World.small budget).outcome = .finished () ∧
        (diary World.small budget).calls.length = n) ∧
    (after.storage.memory 2).LeadsBackBelow "/b" ∧
    ∀ budget, (diary after budget).outcome = .spent ∧
      budget ≤ (diary after budget).calls.length := by
  intro s after diary
  have hs : s.IsMounted := .memory 2 "a"
  have hquiet : ∀ w : World, (World.runner none : Runner World Visit).Quiet (· = w) s w.storage :=
    fun w => World.quiet_runner rfl s
  have hgrown : World.small.storage.Grown s := World.built_small.grown
  have hjoin : s.join ["/b"] = .ok "/b" := by decide +kernel
  have hroute : (World.small.registry commonRegistry).route "mem://a/b" = (s, some ["/b"]) := by
    decide +kernel
  have hclean : Path.clean "/b" = "/b" := by decide +kernel
  have hstat : ((World.small.storage.memory 2).stat "/b").map Info.isDirectory = some true := by
    decide +kernel
  have hstat' : ((after.storage.memory 2).stat "/b").map Info.isDirectory = some true := by
    decide +kernel
  obtain ⟨inside, hlook⟩ := MemoryTree.exists_folder_of_stat hclean hstat
  obtain ⟨inside', hlook'⟩ := MemoryTree.exists_folder_of_stat hclean hstat'
  have horderly : (World.small.storage.memory 2).Orderly := by
    obtain ⟨f, hf⟩ := World.built_small.exists_holds
    obtain ⟨he, ho⟩ := (Storage.holds_memory rfl).1 hf
    exact he ▸ ho
  have hback : (after.storage.memory 2).LeadsBackBelow "/b" := by
    refine ⟨"/b", .refl, inside', hlook', ?_⟩
    have hnames : Path.names "/b" = ["b"] := by decide +kernel
    have hblank : ((after.storage.memory 2).at? ["b", " "]).isSome = true := by decide +kernel
    have hleads : Path.LeadsBack " " := by decide +kernel
    obtain ⟨node, hnode⟩ := Option.isSome_iff_exists.1 hblank
    rw [MemoryTree.lookup, hnames] at hlook'
    have hfind := Forest.at?_append_singleton hlook' " "
    exact ⟨_, Forest.mem_toList_of_find? (hfind.symm.trans hnode), hleads⟩
  have hpatterns : Listing.readNames [] = .ok [] := rfl
  have htidy : Path.Tidy "/b" := by decide +kernel
  obtain ⟨enough, n, hends⟩ := (ends_unless_led_back (hquiet World.small) rfl hs hgrown
    (h := ⟨"mem://a/b", none⟩) (.inl rfl) hpatterns hjoin hstat hlook true).1
      (MemoryTree.not_leadsBackBelow horderly "/b")
  have hlasts := (ends_unless_led_back (hquiet after) rfl hs (hgrown.ask s (.write "/b/ /." .empty))
    (h := ⟨"mem://a/b", none⟩) (.inl rfl) hpatterns hjoin hstat' hlook' true).2 htidy hback after
  refine ⟨⟨enough, n, fun budget hb => ?_⟩, hback, fun budget => hlasts budget ⟨rfl, hroute⟩⟩
  obtain ⟨houtcome, hcalls, -⟩ := hends World.small budget ⟨rfl, hroute⟩ hb
  exact ⟨houtcome, hcalls⟩

end Walk

end Arboretum
