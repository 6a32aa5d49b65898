import Arboretum.Proofs.Copying.Exact
import Arboretum.Proofs.Traversal.Course

/-!
# Which copies end

A copy within one tree lists a directory after it has made its destination, so it reads a tree that
it is itself extending.  What it makes for an entry lies as deep below the destination as the entry
lies below the source; so unless the destination lies strictly below the source, the entries of the
source never get deeper, and some depth is enough for all of them.  But if it does, the copy always
finds a directory that it has just made, one level further down.

`course_level` says what a copy does at one level.  What all levels keep is said once, for any
invariant of the tree (`Copying.Kept`, `course_copyAll`).
-/

namespace Arboretum

/-! ## 1. Larger budgets -/

/-- **A program prolongs another one** over a runner: where the first is not spent, both do the
same. -/
def Runner.Prolongs {σ Out α : Type} (r : Runner σ Out) (t u : Traversal Out α) : Prop :=
  ∀ x, (r.diary x t).outcome ≠ .spent → r.diary x u = r.diary x t

namespace Runner.Prolongs

variable {σ Out α β : Type} {r : Runner σ Out}

theorem refl (t : Traversal Out α) : r.Prolongs t t := fun _ _ => rfl

theorem trans {t u v : Traversal Out α} (h : r.Prolongs t u) (h' : r.Prolongs u v) :
    r.Prolongs t v := by
  intro x hx
  have hu := h x hx
  rw [← hu]
  exact h' x (by rwa [hu])

theorem bind {t u : Traversal Out α} (h : r.Prolongs t u) {f g : α → Traversal Out β}
    (hf : ∀ a, r.Prolongs (f a) (g a)) : r.Prolongs (t.bind f) (u.bind g) := by
  intro x hx
  rw [r.diary_bind, Diary.andThen] at hx
  rw [r.diary_bind, r.diary_bind, Diary.andThen, Diary.andThen]
  cases ht : (r.diary x t).outcome with
  | finished a =>
    rw [ht] at hx
    rw [h x (by simp [ht]), ht]
    exact congrArg (Diary.behind _) (hf a _ hx)
  | failed f =>
    rw [h x (by simp [ht]), ht]
  | spent =>
    rw [ht] at hx
    exact absurd rfl hx

theorem forEach {f g : β → Traversal Out Unit} (h : ∀ b, r.Prolongs (f b) (g b)) (xs : List β) :
    r.Prolongs (Traversal.forEach f xs) (Traversal.forEach g xs) := by
  induction xs with
  | nil => exact refl _
  | cons b xs ih => exact (h b).bind fun _ => ih

end Runner.Prolongs

namespace Copying

variable {Out : Type}

/-- **A greater depth** changes nothing for a copy that is not spent. -/
theorem prolongs_copyAll {σ : Type} (r : Runner σ Out) (depth : Nat) (source target : Handle) :
    r.Prolongs (copyAll depth source target) (copyAll (depth + 1) source target) := by
  induction depth generalizing source target with
  | zero => exact fun x hx => absurd rfl hx
  | succ depth ih =>
    have hsame : ∀ {α : Type} (t : Traversal Out α), r.Prolongs t t := fun t => .refl t
    unfold copyAll
    refine (hsame _).bind fun there => (hsame _).bind fun here => (hsame _).bind fun _ =>
      (hsame _).bind fun _ => (hsame _).bind fun found => ?_
    rcases found with _ | info
    · exact hsame _
    · dsimp only
      split
      · refine (hsame _).bind fun _ => (hsame _).bind fun _ => (hsame _).bind fun entries => ?_
        exact .forEach (fun entry => (hsame _).bind fun below => (hsame _).bind fun under =>
          ih below under) entries
      · exact hsame _

/-- Greater depths, by as much as one likes. -/
theorem diary_copyAll_of_le {σ : Type} (r : Runner σ Out) (x : σ) {enough depth : Nat}
    {source target : Handle} (h : (r.diary x (copyAll enough source target)).outcome ≠ .spent)
    (hle : enough ≤ depth) :
    r.diary x (copyAll depth source target) = r.diary x (copyAll enough source target) := by
  obtain ⟨more, rfl⟩ := Nat.exists_eq_add_of_le hle
  have hmore : r.Prolongs (copyAll enough source target) (copyAll (enough + more) source target) := by
    induction more with
    | zero => exact .refl _
    | succ more ih => exact (ih (Nat.le_add_right _ _)).trans (prolongs_copyAll r _ source target)
  exact hmore x h

/-! ## 2. How a copy changes a tree -/

/-- **The tree refuses a copy**: of a file that may not be written, or of a directory that may not be
made. -/
def Refuses (v : View) (ps qs : List String) : Prop :=
  (∃ data, v ps = some (.file data) ∧ ¬ v.CanWrite qs) ∨
    v ps = some .directory ∧ ¬ v.CanMakeAll qs

/-- **Whatever stands stays**, and is a directory or a file as before. -/
def Grows (v v' : View) : Prop :=
  ∀ ns x, v ns = some x → ∃ y, v' ns = some y ∧ y.isDirectory = x.isDirectory

theorem Grows.refl (v : View) : Grows v v := fun _ x h => ⟨x, h, rfl⟩

theorem Grows.trans {v v' v'' : View} (h : Grows v v') (h' : Grows v' v'') : Grows v v'' := by
  intro ns x hx
  obtain ⟨y, hy, hyx⟩ := h ns x hx
  obtain ⟨z, hz, hzy⟩ := h' ns y hy
  exact ⟨z, hz, hzy.trans hyx⟩

theorem Grows.ne_none {v v' : View} (h : Grows v v') {ns : List String} (hn : v ns ≠ none) :
    v' ns ≠ none := by
  obtain ⟨x, hx⟩ := Option.ne_none_iff_exists'.1 hn
  obtain ⟨y, hy, -⟩ := h ns x hx
  rw [hy]
  exact Option.some_ne_none y

theorem Grows.directory {v v' : View} (h : Grows v v') {ns : List String}
    (hn : v ns = some .directory) : v' ns = some .directory := by
  obtain ⟨y, hy, hkind⟩ := h ns _ hn
  rw [hy]
  cases y with
  | directory => rfl
  | file data => cases hkind

theorem grows_put {v : View} {qs : List String} (h : v.CanWrite qs) (data : ByteArray) :
    Grows v (v.put qs (some (.file data))) := by
  intro ns x hx
  by_cases hns : ns = qs
  · subst hns
    refine ⟨.file data, v.put_self ns _, ?_⟩
    cases x with
    | directory => exact absurd hx h.2
    | file data' => rfl
  · exact ⟨x, (v.put_of_ne hns _).trans hx, rfl⟩

theorem grows_makeAll {v : View} {qs : List String} (h : v.CanMakeAll qs) :
    Grows v (v.makeAll qs) := by
  intro ns x hx
  by_cases hns : ns <+: qs
  · refine ⟨.directory, if_pos hns, ?_⟩
    cases x with
    | directory => rfl
    | file data => exact absurd hx (h ns hns data)
  · exact ⟨x, (if_neg hns).trans hx, rfl⟩

/-! ## 3. One level -/

variable {w : World} {token : Option Nat} {source target : Handle} {s : Store} {f : MemoryTree}
  {ps qs : List String} {e : Runner.Endings World Out} {ms : List (Moment World Out)}

/-- Copying a file reads it and writes it, or it is refused. -/
theorem course_leaf (hl : source.LeadsTo w s ps) (ht : target.LeadsTo w s qs)
    (hf : w.storage.Holds s f) {data : ByteArray} (hv : f.view ps = some (.file data))
    {Q : Unit → List (Moment World Out) → World → Prop}
    (hfailed : w.cancelled token ≠ none ∨ ¬ f.view.CanWrite qs → ∀ fault ms', e.failed fault ms')
    (hwritten : ∀ st f' ms', f.view.CanWrite qs → st.Holds s f' →
      f'.view = f.view.put qs (some (.file data)) → callsIn ms ≤ callsIn ms' →
      Q () ms' { w with storage := st }) :
    (World.runner token).Course e Q ms w
      ((Traversal.call s (Path.ofNames ps) (.read (Path.ofNames ps))).bind fun data =>
        Traversal.call s (Path.ofNames qs) (.write (Path.ofNames qs) data)) := by
  have hcancelled : ∀ reason, w.cancelled token = some reason → ∀ ms',
      e.failed (.cancelled reason) ms' := fun reason h =>
    hfailed (.inl (by rw [h]; exact Option.some_ne_none _)) _
  have hqs := Path.names_ofNames ht.names
  refine (World.course_call_of_ok (Q := fun found ms' w' => data = found ∧
    callsIn ms ≤ callsIn ms' ∧ w = w') (World.ask_of_storage (hf.ask_read hl.names hv))
    (fun reason h => hcancelled reason h _) fun _ _ h => ⟨rfl, Nat.le_of_lt h, rfl⟩).bind ?_
  rintro _ ms₁ _ ⟨rfl, h₁, rfl⟩
  have htidy : Call.IsTidy (.write (Path.ofNames qs) data) := Path.tidy_ofNames ht.names
  by_cases hal : f.view.CanWrite qs
  · obtain ⟨_, st, f', hst, -, hf', hview, -⟩ :=
      hf.ask_change (c := .write (Path.ofNames qs) data) htidy (by rw [View.Allows, hqs]; exact hal)
    rw [View.after, hqs] at hview
    refine World.course_call_of_ok (World.ask_of_changed hst)
      (fun reason h => hcancelled reason h _) fun _ _ h => ?_
    exact hwritten st f' _ hal hf' hview (Nat.le_trans h₁ (Nat.le_of_lt h))
  · obtain ⟨fault, hfault⟩ :=
      hf.ask_refused (c := .write (Path.ofNames qs) data) htidy (by rw [View.Allows, hqs]; exact hal)
    exact World.course_call_of_error (hfault) (hfailed (.inr hal))

/-- **Copying a directory** makes the destination and goes on with the entries that the source has
then, or it is refused. -/
theorem course_folder {depth : Nat} (hl : source.LeadsTo w s ps) (ht : target.LeadsTo w s qs)
    (hf : w.storage.Holds s f) (hv : f.view ps = some .directory)
    {Q : Unit → List (Moment World Out) → World → Prop}
    (hfailed : w.cancelled token ≠ none ∨ ¬ f.view.CanMakeAll qs → ∀ fault ms', e.failed fault ms')
    (hmade : ∀ st f' inside ms', f.view.CanMakeAll qs → st.Holds s f' →
      f'.view = f.view.makeAll qs → f'.at? ps = some (.folder inside) → callsIn ms ≤ callsIn ms' →
      (World.runner token).Course e Q ms' { w with storage := st }
        (Traversal.forEach (copyEntry depth source target) (inside.toList.map Prod.fst))) :
    (World.runner token).Course e Q ms w
      ((Traversal.call s (Path.ofNames qs) (.makeDir (Path.ofNames qs) true)).bind fun _ =>
        (Listing.bounded source (-1) []).bind
          (Traversal.forEach fun entry : Entry => copyEntry depth source target entry.name)) := by
  have hcancelled : ∀ reason, w.cancelled token = some reason → ∀ ms',
      e.failed (.cancelled reason) ms' := fun reason h =>
    hfailed (.inl (by rw [h]; exact Option.some_ne_none _)) _
  have hqs := Path.names_ofNames ht.names
  have htidy : Call.IsTidy (.makeDir (Path.ofNames qs) true) := Path.tidy_ofNames ht.names
  by_cases hal : f.view.CanMakeAll qs
  · obtain ⟨_, st, f', hst, -, hf', hview, -⟩ := hf.ask_change
      (c := .makeDir (Path.ofNames qs) true) htidy (by rw [View.Allows, hqs]; exact hal)
    rw [View.after, hqs] at hview
    have hv' : f'.view ps = some .directory := by
      rw [hview]
      exact (grows_makeAll hal).directory hv
    obtain ⟨inside, hat⟩ := Forest.view_eq_directory_iff.1 hv'
    refine (World.course_call_of_ok (Q := fun _ ms' w' => w.cancelled token = none ∧
      callsIn ms ≤ callsIn ms' ∧ w' = { w with storage := st }) (World.ask_of_changed hst)
      (fun reason h => hcancelled reason h _) fun hc _ h => ⟨hc, Nat.le_of_lt h, rfl⟩).bind ?_
    rintro _ ms₁ _ ⟨hc, h₁, rfl⟩
    have hbounded : World.record { w with storage := st } token
        (Listing.bounded source (-1) [] : Traversal Out (List Entry)) = _ :=
      Listing.record_bounded (w := { w with storage := st }) hc (hl.with_storage st) hf' hat rfl
    refine (World.course_of_record (Q := fun entries ms' w' =>
      entries = Storage.entriesOf inside ∧ callsIn ms₁ ≤ callsIn ms' ∧
      w' = { w with storage := st }) hbounded
      fun _ h => ⟨List.filter_eq_self.2 fun _ _ => rfl, h, rfl⟩).bind ?_
    rintro _ ms₂ _ ⟨rfl, h₂, rfl⟩
    have hnames : (Storage.entriesOf inside).map Entry.name = inside.toList.map Prod.fst := by
      unfold Storage.entriesOf
      rw [List.map_map]
      rfl
    rw [← Traversal.forEach_map, hnames]
    exact hmade st f' inside ms₂ hal hf' hview hat (Nat.le_trans h₁ h₂)
  · obtain ⟨fault, hfault⟩ := hf.ask_refused
      (c := .makeDir (Path.ofNames qs) true) htidy (by rw [View.Allows, hqs]; exact hal)
    refine (World.course_call_of_error (Q := fun _ _ _ => False)
      (hfault) (hfailed (.inr hal))).bind ?_
    exact fun _ _ _ h => h.elim

/-- **What a copy does at one level.**  It fails where it is cancelled, finds nothing or is refused; it
writes a file; or it makes a directory and goes on with the entries that the source has then. -/
theorem course_level {depth : Nat} (hl : source.LeadsTo w s ps) (ht : target.LeadsTo w s qs)
    (hf : w.storage.Holds s f) {Q : Unit → List (Moment World Out) → World → Prop}
    (hfailed : w.cancelled token ≠ none ∨ f.view ps = none ∨ Refuses f.view ps qs →
      ∀ fault ms', e.failed fault ms')
    (hfile : ∀ data st f' ms', f.view ps = some (.file data) → f.view.CanWrite qs →
      st.Holds s f' → f'.view = f.view.put qs (some (.file data)) → callsIn ms ≤ callsIn ms' →
      Q () ms' { w with storage := st })
    (hfolder : ∀ st f' inside ms', f.view ps = some .directory → f.view.CanMakeAll qs →
      st.Holds s f' → f'.view = f.view.makeAll qs → f'.at? ps = some (.folder inside) →
      callsIn ms < callsIn ms' → (World.runner token).Course e Q ms' { w with storage := st }
        (Traversal.forEach (copyEntry depth source target) (inside.toList.map Prod.fst))) :
    (World.runner token).Course e Q ms w (copyAll (depth + 1) source target) := by
  have hcancelled : ∀ reason ms', w.cancelled token = some reason →
      e.failed (.cancelled reason) ms' := fun reason ms' h =>
    hfailed (.inl (by rw [h]; exact Option.some_ne_none _)) _ _
  have hqs := Path.names_ofNames ht.names
  unfold copyAll
  refine (World.course_of_record (Q := fun there ms' w' => there = (s, Path.ofNames ps) ∧
    callsIn ms ≤ callsIn ms' ∧ w = w') hl.record_resolve fun _ h => ⟨rfl, h, rfl⟩).bind ?_
  rintro _ ms₁ _ ⟨rfl, h₁, rfl⟩
  refine (World.course_of_record (Q := fun there ms' w' => there = (s, Path.ofNames qs) ∧
    callsIn ms₁ ≤ callsIn ms' ∧ w = w') ht.record_resolve fun _ h => ⟨rfl, h, rfl⟩).bind ?_
  rintro _ ms₂ _ ⟨rfl, h₂, rfl⟩
  dsimp only
  rw [Handle.require_of_isMounted hl.mounted, Handle.require_of_isMounted ht.mounted]
  obtain ⟨info, hask, hinfo⟩ := hf.ask_stat hl.names
  refine (World.course_call_of_ok (Q := fun found ms' w' => found = info ∧
    callsIn ms₂ < callsIn ms' ∧ w = w') (World.ask_of_storage hask)
    (fun reason h => hcancelled reason _ h) fun _ _ h => ⟨rfl, h, rfl⟩).bind ?_
  rintro info ms₃ _ ⟨rfl, h₃, rfl⟩
  have h₃ := Nat.lt_of_le_of_lt (Nat.le_trans h₁ h₂) h₃
  rcases hat : f.at? ps with _ | data | inside
  · rw [hat] at hinfo
    obtain rfl := Option.map_eq_none_iff.1 hinfo
    exact Runner.course_fail (hfailed (.inr (.inl (Forest.view_eq_none_iff.2 hat))) _ _)
  · rw [hat] at hinfo
    obtain ⟨info, rfl, hkind⟩ := Option.map_eq_some_iff.1 hinfo
    have hkind : info.isDirectory = false := hkind
    have hv := Forest.view_eq_file_iff.2 hat
    dsimp only
    rw [hkind]
    refine course_leaf hl ht hf hv (fun h => hfailed ?_) fun st f' ms' hal hf' hview h => ?_
    · exact h.imp_right fun hno => .inr (.inl ⟨data, hv, hno⟩)
    · exact hfile data st f' ms' hv hal hf' hview (Nat.le_trans (Nat.le_of_lt h₃) h)
  · rw [hat] at hinfo
    obtain ⟨info, rfl, hkind⟩ := Option.map_eq_some_iff.1 hinfo
    have hkind : info.isDirectory = true := hkind
    have hv := Forest.view_eq_directory_iff.2 ⟨inside, hat⟩
    dsimp only
    rw [hkind, Handle.require_of_isMounted ht.mounted]
    refine course_folder hl ht hf hv (fun h => hfailed ?_) fun st f' inside ms' hal hf' hview hat h => ?_
    · exact h.imp_right fun hno => .inr (.inr ⟨hv, hno⟩)
    · exact hfolder st f' inside ms' hv hal hf' hview hat (Nat.lt_of_lt_of_le h₃ h)

/-! ## 4. All levels -/

/-- **What every step of a copy keeps**: `I` of the tree, while it copies from places to places that
`Ok` allows, with so many levels left. -/
structure Kept (I : View → Prop) (Ok : Nat → List String → List String → Prop) : Prop where
  written {v : View} {depth : Nat} {ps qs : List String} {data : ByteArray} (hv : v.IsTree) (hI : I v)
    (hok : Ok depth ps qs) (hp : v ps = some (.file data)) (hq : v.CanWrite qs) :
    I (v.put qs (some (.file data)))
  made {v : View} {depth : Nat} {ps qs : List String} (hv : v.IsTree) (hI : I v)
    (hok : Ok depth ps qs) (hp : v ps = some .directory) (hq : v.CanMakeAll qs) : I (v.makeAll qs)
  entry {v : View} {depth : Nat} {ps qs : List String} {n : String} (hv : v.IsTree) (hI : I v)
    (hok : Ok (depth + 1) ps qs) (hp : v ps = some .directory) (hn : v (ps ++ [n]) ≠ none) :
    Ok depth (ps ++ [n]) (qs ++ [n])

/-- The world after a copy: what the tree kept, and that it has grown. -/
def Reaches (w : World) (s : Store) (I : View → Prop) (v : View) (w' : World) : Prop :=
  ∃ st f, w' = { w with storage := st } ∧ st.Holds s f ∧ I f.view ∧ Grows v f.view

/-- How a copy ends that keeps something: it fails where it is cancelled or a tree refuses it, and it
is spent after some calls, at a depth of zero. -/
def endings (Out : Type) (w : World) (token : Option Nat) (I : View → Prop)
    (Ok : Nat → List String → List String → Prop) (calls : Nat) : Runner.Endings World Out where
  failed _ _ := w.cancelled token ≠ none ∨
    ∃ (g : MemoryTree) (depth : Nat) (ps qs : List String), I g.view ∧ Ok depth ps qs ∧
      Refuses g.view ps qs
  spent ms := calls ≤ callsIn ms ∧ ∃ ps qs, Ok 0 ps qs

/-- **Copies at a depth keep it**: from every world and places that are allowed. -/
structure Keeps (Out : Type) (token : Option Nat) (s : Store) (I : View → Prop)
    (Ok : Nat → List String → List String → Prop) (depth : Nat) : Prop where
  course {w : World} {source target : Handle} {f : MemoryTree} {ps qs : List String}
    (ms : List (Moment World Out)) (calls : Nat) (hl : source.LeadsTo w s ps)
    (ht : target.LeadsTo w s qs) (hf : w.storage.Holds s f) (hI : I f.view) (hok : Ok depth ps qs)
    (hthere : f.view ps ≠ none) (hcalls : calls ≤ callsIn ms + depth) :
    (World.runner token).Course (endings Out w token I Ok calls)
      (fun _ ms' w' => callsIn ms ≤ callsIn ms' ∧ Reaches w s I f.view w') ms w
      (copyAll depth source target)

variable {I : View → Prop} {Ok : Nat → List String → List String → Prop} {depth : Nat}

/-- One entry. -/
theorem course_copyEntry (hl : source.LeadsTo w s ps) (ht : target.LeadsTo w s qs) {n : String}
    (hn : Path.IsName n) {Q : Unit → List (Moment World Out) → World → Prop}
    (h : ∀ ms', callsIn ms ≤ callsIn ms' → (World.runner token).Course e Q ms' w
      (copyAll depth (source.entry w s ps n) (target.entry w s qs n))) :
    (World.runner token).Course e Q ms w (copyEntry depth source target n) := by
  unfold copyEntry
  refine (World.course_of_record (Q := fun below ms' w' => below = source.entry w s ps n ∧
    callsIn ms ≤ callsIn ms' ∧ w = w') (hl.record_join hn) fun _ h => ⟨rfl, h, rfl⟩).bind ?_
  rintro _ ms₁ _ ⟨rfl, h₁, rfl⟩
  refine (World.course_of_record (Q := fun under ms' w' => under = target.entry w s qs n ∧
    callsIn ms₁ ≤ callsIn ms' ∧ w = w') (ht.record_join hn) fun _ h => ⟨rfl, h, rfl⟩).bind ?_
  rintro _ ms₂ _ ⟨rfl, h₂, rfl⟩
  exact h ms₂ (Nat.le_trans h₁ h₂)

/-- **Copying entries of a directory**, one after the other; while one is copied, the others stay. -/
theorem course_copyEach (ms : List (Moment World Out)) (calls : Nat)
    (hkeeps : Keeps Out token s I Ok depth) (hl : source.LeadsTo w s ps)
    (ht : target.LeadsTo w s qs) (hf : w.storage.Holds s f) (hI : I f.view) {names : List String}
    (hthere : ∀ n ∈ names, f.view (ps ++ [n]) ≠ none)
    (hok : ∀ n ∈ names, Ok depth (ps ++ [n]) (qs ++ [n])) (hcalls : calls ≤ callsIn ms + depth) :
    (World.runner token).Course (endings Out w token I Ok calls)
      (fun _ ms' w' => callsIn ms ≤ callsIn ms' ∧ Reaches w s I f.view w') ms w
      (Traversal.forEach (copyEntry depth source target) names) := by
  refine Runner.course_forEach
    (I := fun ms' w' => callsIn ms ≤ callsIn ms' ∧ Reaches w s I f.view w')
    ⟨Nat.le_refl _, w.storage, f, rfl, hf, hI, .refl _⟩ ?_
  rintro n hn ms₁ _ ⟨h₁, st, f₁, rfl, hf₁, hI₁, hgrows⟩
  have hhere := hgrows.ne_none (hthere n hn)
  have hname := (Path.areNames_append_singleton.1 (Forest.areNames_of_view hf₁.orderly hhere)).2
  have hl₁ := hl.with_storage st
  have ht₁ := ht.with_storage st
  refine course_copyEntry hl₁ ht₁ hname fun ms₂ h₂ => ?_
  refine (hkeeps.course ms₂ calls (hl₁.below hname) (ht₁.below hname) hf₁ hI₁ (hok n hn) hhere
    (by omega)).mono ?_
  rintro _ ms₃ _ ⟨h₃, st', f', rfl, hf', hI', hgrows'⟩
  exact ⟨Nat.le_trans h₁ (Nat.le_trans h₂ h₃), st', f', rfl, hf', hI', hgrows.trans hgrows'⟩

/-- **Copies keep what every step keeps**, by induction on the depth. -/
theorem keeps (hk : Kept I Ok) (depth : Nat) : Keeps Out token s I Ok depth := by
  induction depth with
  | zero =>
    refine ⟨fun ms calls _ _ _ _ hok _ hcalls => ?_⟩
    exact Runner.course_spent ⟨hcalls, _, _, hok⟩
  | succ depth ih =>
    refine ⟨fun {w source target f ps qs} ms calls hl ht hf hI hok hthere hcalls => ?_⟩
    have htree := f.isTree_view
    refine course_level hl ht hf (fun h _ _ => ?_) (fun data st f' ms' hp hq hf' hview h => ?_)
      fun st f' inside ms' hp hq hf' hview hat h => ?_
    · rcases h with hc | hnone | hrefuses
      · exact .inl hc
      · exact absurd hnone hthere
      · exact .inr ⟨f, depth + 1, ps, qs, hI, hok, hrefuses⟩
    · refine ⟨h, st, f', rfl, hf', ?_, ?_⟩
      · rw [hview]
        exact hk.written htree hI hok hp hq
      · rw [hview]
        exact grows_put hq data
    · have hI' : I f'.view := by
        rw [hview]
        exact hk.made htree hI hok hp hq
      have hgrows : Grows f.view f'.view := by
        rw [hview]
        exact grows_makeAll hq
      have hp' := hgrows.directory hp
      have hmem : ∀ n ∈ inside.toList.map Prod.fst, f'.view (ps ++ [n]) ≠ none := fun n hn =>
        (Forest.mem_names_iff (Forest.orderly_of_at? hf'.orderly hat).1 hat).1 hn
      refine (course_copyEach (w := { w with storage := st }) ms' calls ih (hl.with_storage st)
        (ht.with_storage st) hf' hI' hmem
        (fun n hn => hk.entry f'.isTree_view hI' hok hp' (hmem n hn)) (by omega)).mono ?_
      rintro _ ms₁ _ ⟨h₁, st', f₁, rfl, hf₁, hI₁, hgrows₁⟩
      exact ⟨Nat.le_trans (Nat.le_of_lt h) h₁, st', f₁, rfl, hf₁, hI₁, hgrows.trans hgrows₁⟩

/-! ## 5. Copies that end -/

/-- Nothing stands deeper below a place than a bound. -/
def Shallow (bound : Nat) (p : List String) (v : View) : Prop :=
  ∀ rel, v (p ++ rel) ≠ none → rel.length ≤ bound

/-- **What lies above a copied entry lies no deeper below the source** than the entry does, unless the
destination lies strictly below the source. -/
theorem length_le_of_above {p q rel r : List String} (h : ¬ (p <+: q ∧ p ≠ q))
    (hp : p ++ rel <+: q ++ r) : rel.length ≤ r.length := by
  by_contra hlong
  have hlength := hp.length_le
  rw [List.length_append, List.length_append] at hlength
  have hshort : p.length < q.length := by omega
  refine h ⟨?_, fun he => Nat.lt_irrefl _ (he ▸ hshort)⟩
  exact List.prefix_of_prefix_length_le ((List.prefix_append p rel).trans hp)
    (List.prefix_append q r) (Nat.le_of_lt hshort)

/-- **No entry of the source gets deeper**, and each level takes one of the levels that are left. -/
theorem kept_shallow {p q : List String} (h : ¬ (p <+: q ∧ p ≠ q)) (bound : Nat) :
    Kept (Shallow bound p) fun depth ps qs =>
      ∃ r, ps = p ++ r ∧ qs = q ++ r ∧ r.length ≤ bound ∧ bound < r.length + depth where
  written := by
    rintro v depth _ _ data - hI ⟨r, rfl, rfl, hr, -⟩ - - rel hrel
    by_cases he : p ++ rel = q ++ r
    · exact Nat.le_trans (length_le_of_above h (he ▸ List.prefix_rfl)) hr
    · rw [View.put_of_ne v he] at hrel
      exact hI rel hrel
  made := by
    rintro v depth _ _ - hI ⟨r, rfl, rfl, hr, -⟩ - - rel hrel
    by_cases he : p ++ rel <+: q ++ r
    · exact Nat.le_trans (length_le_of_above h he) hr
    · rw [View.makeAll, if_neg he] at hrel
      exact hI rel hrel
  entry := by
    rintro v depth _ _ n - hI ⟨r, rfl, rfl, -, hdepth⟩ - hn
    rw [List.append_assoc] at hn
    refine ⟨r ++ [n], List.append_assoc p r [n], List.append_assoc q r [n], hI _ hn, ?_⟩
    rw [List.length_append, List.length_singleton]
    omega

/-- **Some depth is enough** for a copy of anything but a directory, and for one of a directory to a
place that is not strictly below it. -/
theorem exists_enough (hl : source.LeadsTo w s ps) (ht : target.LeadsTo w s qs)
    (hf : w.storage.Holds s f)
    (h : ¬ (f.view ps = some .directory ∧ ps <+: qs ∧ ps ≠ qs)) : ∃ enough,
      ((World.runner token).diary w (copyAll enough source target : Traversal Out Unit)).outcome ≠
        .spent := by
  by_cases hdir : f.view ps = some .directory
  · have hbelow : ¬ (ps <+: qs ∧ ps ≠ qs) := fun hb => h ⟨hdir, hb⟩
    have hshallow : Shallow f.count ps f.view := fun rel hrel => by
      have hle := Forest.length_le_count hrel
      rw [List.length_append] at hle
      omega
    have hthere : f.view ps ≠ none := by
      rw [hdir]
      exact Option.some_ne_none _
    have hkeeps : Keeps Out token s (Shallow f.count ps) _ (f.count + 1) :=
      keeps (kept_shallow hbelow f.count) _
    have hcourse := hkeeps.course [] 0 hl ht hf hshallow
      ⟨[], (List.append_nil ps).symm, (List.append_nil qs).symm, Nat.zero_le _, by simp⟩ hthere
      (Nat.zero_le _)
    refine ⟨f.count + 1, hcourse.outcome_ne_spent ?_⟩
    rintro ms ⟨-, _, _, r, -, -, hr, hdepth⟩
    omega
  · let e : Runner.Endings World Out := ⟨fun _ _ => True, fun _ => False⟩
    have hcourse : (World.runner token).Course e (fun _ _ _ => True) [] w
        (copyAll 1 source target) :=
      course_level hl ht hf (fun _ _ _ => trivial) (fun _ _ _ _ _ _ _ _ _ => trivial)
        fun _ _ _ _ hp => absurd hp hdir
    exact ⟨1, hcourse.outcome_ne_spent fun _ h => h⟩

/-! ## 6. Copies that do not -/

theorem kept_anything : Kept (fun _ => True) fun _ _ _ => True :=
  ⟨fun _ _ _ _ _ => trivial, fun _ _ _ _ _ => trivial, fun _ _ _ _ _ => trivial⟩

/-- **A copy of a directory to a place strictly below it does not come to its end**, at any depth.  By
induction on the depth: among the entries of the source is the next directory on the way to the
destination, which is there when the entries are listed, and stays; and the place that this one is
copied to lies strictly below it again. -/
theorem course_copyAll_below (depth : Nat) (ms : List (Moment World Out))
    (hl : source.LeadsTo w s ps) (ht : target.LeadsTo w s qs) (hf : w.storage.Holds s f)
    (hdir : f.view ps = some .directory) (hp : ps <+: qs) (hne : ps ≠ qs) :
    (World.runner token).Course ⟨fun _ _ => True, fun _ => True⟩ (fun _ _ _ => False) ms w
      (copyAll depth source target : Traversal Out Unit) := by
  induction depth generalizing w source target f ps qs ms with
  | zero => exact Runner.course_spent trivial
  | succ depth ih =>
    obtain ⟨_ | ⟨n, rest⟩, rfl⟩ := hp
    · exact absurd (List.append_nil ps).symm hne
    have hon : ps ++ [n] <+: ps ++ n :: rest := ⟨rest, (List.append_cons ps n rest).symm⟩
    refine course_level hl ht hf (fun _ _ _ => trivial) (fun data _ _ _ hfile => ?_)
      fun st f' inside ms' _ hal hf' hview hat _ => ?_
    · rw [hdir] at hfile
      cases hfile
    · have hnext : f'.view (ps ++ [n]) = some .directory := by
        rw [hview, View.makeAll, if_pos hon]
      have hinside := (Forest.orderly_of_at? hf'.orderly hat).1
      have hlisted : n ∈ inside.toList.map Prod.fst := by
        rw [Forest.mem_names_iff hinside hat, hnext]
        exact Option.some_ne_none _
      have hl' := hl.with_storage st
      have ht' := ht.with_storage st
      obtain ⟨earlier, later, hnames⟩ := List.append_of_mem hlisted
      have hmem : ∀ m ∈ earlier, f'.view (ps ++ [m]) ≠ none := fun m hm =>
        (Forest.mem_names_iff hinside hat).1 (hnames ▸ List.mem_append_left _ hm)
      rw [hnames, Traversal.forEach_append]
      have hkeeps : Keeps Out token s (fun _ => True) (fun _ _ _ => True) depth :=
        keeps kept_anything depth
      have hearlier := course_copyEach ms' 0 hkeeps hl' ht' hf' trivial hmem (fun _ _ => trivial)
        (Nat.zero_le _)
      refine (hearlier.weaken (fun _ _ _ => trivial) (fun _ _ => trivial) fun _ _ _ h => h).bind ?_
      rintro _ ms₁ _ ⟨-, st', f₁, rfl, hf₁, -, hgrows⟩
      have hstill := hgrows.directory hnext
      have hname : Path.IsName n := (Path.areNames_append_singleton.1
        (Forest.areNames_of_view hf₁.orderly (by rw [hstill]; exact Option.some_ne_none _))).2
      have hl₁ := hl'.with_storage st'
      have ht₁ := ht'.with_storage st'
      refine Runner.Course.bind (Q := fun _ _ _ => False)
        (course_copyEntry hl₁ ht₁ hname fun ms₂ _ => ?_) fun _ _ _ h => h.elim
      refine ih ms₂ (hl₁.below hname) (ht₁.below hname) hf₁ hstill
        (hon.trans (List.prefix_append _ [n])) fun he => ?_
      have hlength := congrArg List.length he
      simp at hlength

/-- Below a directory without files nothing is refused. -/
theorem kept_fileless (p : List String) :
    Kept (fun v => ∀ rel data, v (p ++ rel) ≠ some (.file data))
      fun _ ps qs => p <+: ps ∧ p <+: qs where
  written := by
    rintro v depth _ qs data - hI ⟨⟨rel, rfl⟩, -⟩ hp -
    exact absurd hp (hI rel data)
  made := by
    rintro v depth ps qs - hI - - - rel data hfile
    by_cases he : p ++ rel <+: qs
    · rw [View.makeAll, if_pos he] at hfile
      cases hfile
    · rw [View.makeAll, if_neg he] at hfile
      exact hI rel data hfile
  entry := by
    rintro v depth ps qs n - - ⟨hp, hq⟩ - -
    exact ⟨hp.trans (List.prefix_append _ _), hq.trans (List.prefix_append _ _)⟩

theorem not_refuses {v : View} (hv : v.IsTree) {p : List String}
    (hI : ∀ rel data, v (p ++ rel) ≠ some (.file data)) (hp : p <+: ps) (hq : p <+: qs) :
    ¬ Refuses v ps qs := by
  rintro (⟨data, hfile, -⟩ | ⟨hdir, hno⟩)
  · obtain ⟨rel, rfl⟩ := hp
    exact hI rel data hfile
  · refine hno fun ns hns data hfile => ?_
    rcases List.prefix_or_prefix_of_prefix hns hq with habove | ⟨rel, rfl⟩
    · -- Above the source there are directories only.
      have hthere : v ns ≠ some (.file data) := by
        by_cases he : ns = ps
        · rw [he, hdir]
          exact nofun
        · rw [hv.directory_of_prefix (habove.trans hp) he (by rw [hdir]; exact nofun)]
          exact nofun
      exact hthere hfile
    · exact hI rel data hfile

/-! ## 7. Whole copies -/

/-- **A copy within one store ends, unless it copies a directory to a place strictly below it.**  Two
handles resolve to tidy paths of a store in memory or in a table below which no mount lies, and its
tree was built at tidy paths.
* If the source is no directory, or the destination is not strictly below it, then some depth is
  enough: there the copy returns or fails after so many calls, and so it does at every greater depth.
* If it is, then the copy never returns: at every depth it fails, or it is spent after at least as many
  calls as there are levels.  Where no file stands at or below the source and nobody cancels the
  run, it is spent at every depth. -/
theorem copy_ends_unless_below (w : World) (token : Option Nat) (source target : Handle)
    (hg : (w.registry source.registryNumber).Grown)
    (hg' : (w.registry target.registryNumber).Grown) (s : Store) (p q : String)
    (hs : s.IsMounted) (halone : (w.registry source.registryNumber).Alone s)
    (halone' : (w.registry target.registryNumber).Alone s)
    (hresolve : w.record token (source.resolve : Traversal Out (Store × String)) =
      ⟨.finished (s, p), [], w⟩)
    (hresolve' : w.record token (target.resolve : Traversal Out (Store × String)) =
      ⟨.finished (s, q), [], w⟩)
    (hp : Path.Tidy p) (hq : Path.Tidy q) (hb : w.storage.Built s) :
    ∃ f, w.storage.Holds s f ∧
      let diary depth := (World.runner token).diary w (copyAll depth source target : Traversal Out Unit)
      let below := f.view (Path.names p) = some .directory ∧ Path.names p <+: Path.names q ∧
        Path.names p ≠ Path.names q
      (¬ below → ∃ enough d, d.outcome ≠ .spent ∧ ∀ depth, enough ≤ depth → diary depth = d) ∧
      (below → ∀ depth, (∀ a, (diary depth).outcome ≠ .finished a) ∧
        ((diary depth).outcome = .spent → depth ≤ (diary depth).calls.length) ∧
        (w.cancelled token = none → (∀ rel data, f.view (Path.names p ++ rel) ≠ some (.file data)) →
          (diary depth).outcome = .spent)) := by
  obtain ⟨f, hf⟩ := hb.exists_holds
  have hl := Handle.leadsTo_of_record hg hs halone hresolve hp
  have ht := Handle.leadsTo_of_record hg' hs halone' hresolve' hq
  refine ⟨f, hf, fun hbelow => ?_, ?_⟩
  · have hends : ∃ enough, ((World.runner token).diary w
        (copyAll enough source target : Traversal Out Unit)).outcome ≠ .spent :=
      exists_enough hl ht hf hbelow
    obtain ⟨enough, henough⟩ := hends
    exact ⟨enough, _, henough, fun depth hle => diary_copyAll_of_le _ w henough hle⟩
  · rintro ⟨hdir, hprefix, hne⟩ depth
    have hthere : f.view (Path.names p) ≠ none := by
      rw [hdir]
      exact Option.some_ne_none _
    have hunfinished : ∀ a, ((World.runner token).diary w
        (copyAll depth source target : Traversal Out Unit)).outcome ≠ .finished a := fun a =>
      (course_copyAll_below depth [] hl ht hf hdir hprefix hne).outcome_ne_finished
        fun _ _ h => h
    refine ⟨hunfinished, fun hspent => ?_, fun hc hfiles => ?_⟩
    · have hkeeps : Keeps Out token s (fun _ => True) (fun _ _ _ => True) depth :=
        keeps kept_anything depth
      have hcourse := hkeeps.course [] depth hl ht hf trivial trivial hthere (Nat.le_add_left _ _)
      unfold Runner.Course at hcourse
      rw [hspent] at hcourse
      exact hcourse.1
    · have hkeeps : Keeps Out token s _ _ depth := keeps (kept_fileless (Path.names p)) depth
      have hcourse := hkeeps.course [] 0 hl ht hf hfiles ⟨List.prefix_rfl, hprefix⟩ hthere (Nat.zero_le _)
      have hunfailed : ∀ fault, ((World.runner token).diary w
          (copyAll depth source target : Traversal Out Unit)).outcome ≠ .failed fault := by
        refine fun fault => hcourse.outcome_ne_failed ?_
        rintro _ (hcancelled | ⟨g, _, _, _, hI, ⟨hps, hqs⟩, hrefuses⟩)
        · exact hcancelled hc
        · exact not_refuses g.isTree_view hI hps hqs hrefuses
      rcases hd : ((World.runner token).diary w
          (copyAll depth source target : Traversal Out Unit)).outcome with a | fault | _
      · exact absurd hd (hunfinished a)
      · exact absurd hd (hunfailed fault)
      · rfl

/-- In the small world with an empty directory `/d`, a copy of `/b` to `/c` ends, and a copy of `/d` to
`/d/e` does not. -/
theorem copy_ends_unless_below_small :
    let s : Store := ⟨2, "mem://a", .memory⟩
    let w := (World.small.ask s (.makeDir "/d" false)).2
    let diary source target depth := (World.runner none).diary w
      (copyAll depth ⟨source, none⟩ ⟨target, none⟩ : Traversal Empty Unit)
    (∃ enough d, d.outcome ≠ .spent ∧
      ∀ depth, enough ≤ depth → diary "mem://a/b" "mem://a/c" depth = d) ∧
    ∀ depth, (diary "mem://a/d" "mem://a/d/e" depth).outcome = .spent ∧
      depth ≤ (diary "mem://a/d" "mem://a/d/e" depth).calls.length := by
  intro s w diary
  have hg : (w.registry commonRegistry).Grown := World.reachable_small.grown
  have halone : (w.registry commonRegistry).Alone s := by decide +kernel
  have hbuilt : w.storage.Built s :=
    World.built_small.ask s (.makeDir "/d" false) fun _ _ => by decide
  have hresolve : ∀ {uri path : String}, (w.registry commonRegistry).place uri = (s, path) →
      w.record none (Handle.resolve ⟨uri, none⟩ : Traversal Empty (Store × String)) =
        ⟨.finished (s, path), [], w⟩ := by
    intro uri path hplace
    exact Handle.record_resolve_of_place w none hplace (.inl (.memory 2 "a"))
  have hb : Path.names "/b" = ["b"] := by decide +kernel
  have hc : Path.names "/c" = ["c"] := by decide +kernel
  have hd : Path.names "/d" = ["d"] := by decide +kernel
  have he : Path.names "/d/e" = ["d", "e"] := by decide +kernel
  have hempty : (w.storage.memory 2).at? ["d"] = some (.folder .empty) := rfl
  constructor
  · obtain ⟨f, -, hends, -⟩ := @copy_ends_unless_below Empty w none ⟨"mem://a/b", none⟩
      ⟨"mem://a/c", none⟩ hg hg s "/b" "/c" (.memory 2 "a") halone halone
      (hresolve (by decide +kernel)) (hresolve (by decide +kernel)) (by decide) (by decide) hbuilt
    rw [hb, hc] at hends
    exact hends fun h => absurd h.2.1 (by decide)
  · obtain ⟨f, hf, -, hlasts⟩ := @copy_ends_unless_below Empty w none ⟨"mem://a/d", none⟩
      ⟨"mem://a/d/e", none⟩ hg hg s "/d" "/d/e" (.memory 2 "a") halone halone
      (hresolve (by decide +kernel)) (hresolve (by decide +kernel)) (by decide) (by decide) hbuilt
    obtain rfl : w.storage.memory 2 = f := hf.1
    rw [hd, he] at hlasts
    intro depth
    obtain ⟨-, hcalls, hspent⟩ := hlasts
      ⟨Forest.view_eq_directory_iff.2 ⟨_, hempty⟩, by decide, by decide⟩ depth
    have hspent := hspent rfl fun rel data hfile => ?_
    · exact ⟨hspent, hcalls hspent⟩
    · rw [Forest.view_append_of_at? hempty] at hfile
      cases rel <;> cases hfile

end Copying

end Arboretum
